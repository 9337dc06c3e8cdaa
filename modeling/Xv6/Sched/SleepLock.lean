import Xv6.Sched.Sleep

/-!
# Sleep locks

`sleeplock.c` over the steps of `Sched.Sleep`: its `lk` is `lk->lk`, the channel is the sleep lock,
and the condition is `!lk->locked`. What a function does while it holds `lk->lk` is one step, but
`sleep` and `wakeup` take all the steps they have there. Only the process that has the lock calls
`releasesleep`, as `brelse` and `iunlock` check, and no interrupt handler uses it.

The models of the cache and the inodes have the process that holds a sleep lock in place of
`struct sleeplock`; `sleeplock_exclusive` is why they may.
-/

namespace Xv6.Sched.SleepLock

/-- Where a process is in `sleeplock.c`. -/
inductive Code
  | out
  /-- In `acquiresleep`, up to `lk->locked = 1`. -/
  | acquiring
  /-- In `releasesleep`, up to `lk->locked = 0`. -/
  | releasing
  /-- In `releasesleep`, before `wakeup(lk)`. -/
  | freed
  /-- In `holdingsleep`, up to the test. -/
  | testing
  /-- In `holdingsleep`, with the result. -/
  | tested (r : Bool)
  /-- Has only to return from `wakeup`, if it is there, and to release `lk->lk`. -/
  | leaving

/-- A sleep lock and its users. -/
structure State where
  /-- `lk->lk`, `!lk->locked` and the processes. -/
  base : Sleep.State
  /-- `lk->pid`. -/
  pid : ℤ
  code : Slot → Code
  /-- The process has taken the lock and has not freed it since; no code reads it. -/
  has : Slot → Bool

/-- The process goes on. -/
def State.goto (s : State) (p : Slot) (k : Code) (b : Sleep.State) : State :=
  { s with code := Function.update s.code p k, base := b }

/-- What process `p`, which holds `lk->lk`, does next; `pid` is `myproc()->pid`.
Source: `sleeplock.c` `acquiresleep`, `releasesleep`, `holdingsleep`. -/
def next (s : State) (p : Slot) (pid : ℤ) (c : Sleep.Session) : Option State :=
  match s.code p with
  | .out => none
  | .acquiring =>
    if s.base.cond = false then some (s.goto p .acquiring (s.base.goto p .sleep))
    else some { s.goto p .leaving { s.base with cond := false } with
      pid := pid, has := Function.update s.has p true }
  | .releasing =>
    some { s.goto p .freed { s.base.goto p (.crit { c with owed := true }) with cond := true } with
      pid := 0, has := Function.update s.has p false }
  | .freed => some (s.goto p .leaving (s.base.goto p (.scan c 0)))
  | .testing => some (s.goto p (.tested (!s.base.cond && decide (s.pid = pid))) s.base)
  | .tested _ | .leaving => some (s.goto p .out { s.base.goto p c.back with lk := none })

variable (ch : Chan) (pid : Slot → ℤ)

/-- One step of a process. -/
inductive Step : State → Slot → State → Prop
  | call {s : State} {p : Slot} {k : Code} (hout : s.code p = .out)
      (hk : k = .acquiring ∨ k = .testing ∨ k = .releasing ∧ s.has p = true) :
      Step s p (s.goto p k s.base)
  | next {s s' : State} {p : Slot} {c : Sleep.Session} (hpt : s.base.point p = .crit c)
      (hs : next s p (pid p) c = some s') : Step s p s'
  /-- A step of `acquire`, `sleep`, `wakeup`, of a scheduler or of `kill`. -/
  | machine {s : State} {p : Slot} {b : Sleep.State} (hb : Sleep.Step ch s.base p b)
      (hpt : ∀ c, s.base.point p ≠ .crit c) (hout : s.code p = .out → b.point p = s.base.point p)
      (hh : ∀ c, b.point p = .crit c → c.handler = false) : Step s p { s with base := b }

/-- A sleep lock and its users, from `initsleeplock` on. Source: `sleeplock.c` `initsleeplock`. -/
def system : Lib.Lts State Slot where
  init s := Sleep.init s.base ∧ s.base.cond = true ∧ s.pid = 0 ∧
    ∀ p, s.code p = .out ∧ s.has p = false
  step := Step ch pid

/-- What holds in every run. -/
structure Inv (s : State) : Prop where
  /-- `sleep` and `wakeup` are used as they should be. -/
  base : (Sleep.system ch).Reach s.base
  /-- A process that has freed the lock goes on to `wakeup`. -/
  session : ∀ p c, s.base.point p = .crit c →
    c.handler = false ∧ (c.owed → s.code p = .freed ∨ c.woken)
  has : ∀ p, s.has p = true ↔ s.base.cond = false ∧ s.pid = pid p
  owner : s.base.cond = false → ∃ p, s.pid = pid p
  releasing : ∀ p, s.code p = .releasing → s.has p = true
  tested : ∀ p r, s.code p = .tested r → r = s.has p

variable {ch pid} {s s' : State} {p : Slot}

/-- Outside of `next` the condition does not change, and a process that gets `lk->lk` owes no call of
`wakeup`. -/
theorem machine_cases {b b' : Sleep.State} (hb : Sleep.Step ch b p b')
    (hpt : ∀ c, b.point p ≠ .crit c) :
    b'.cond = b.cond ∧ ∀ c, b'.point p = .crit c → c.owed → c.woken := by
  cases hb <;> simp_all

theorem Inv.machine {b : Sleep.State} (h : Inv ch pid s) (hb : Sleep.Step ch s.base p b)
    (hpt : ∀ c, s.base.point p ≠ .crit c) (hh : ∀ c, b.point p = .crit c → c.handler = false) :
    Inv ch pid { s with base := b } := by
  obtain ⟨hcond, howed⟩ := machine_cases hb hpt
  refine ⟨h.base.step hb, fun q c hq => ?_, hcond ▸ h.has, hcond ▸ h.owner, h.releasing, h.tested⟩
  rcases eq_or_ne q p with rfl | hqp
  · exact ⟨hh c hq, fun ho => .inr (howed c hq ho)⟩
  · exact h.session q c (hb.point_of_ne hqp ▸ hq)

/-- The functions use `sleep` and `wakeup` as `Sched.Sleep` asks for. -/
theorem Inv.next_base {c : Sleep.Session} (h : Inv ch pid s) (hpt : s.base.point p = .crit c)
    (hs : next s p (pid p) c = some s') : (Sleep.system ch).Reach s'.base := by
  obtain ⟨hhandler, howed⟩ := h.session p c hpt
  unfold SleepLock.next at hs
  split at hs
  · cases hs
  · split_ifs at hs with hc <;> cases hs
    · exact h.base.step (.sleep hpt hhandler hc)
    · exact h.base.step (.setFalse hpt)
  · cases hs
    exact h.base.step (.setTrue hpt)
  · cases hs
    exact h.base.step (.wakeup hpt)
  · cases hs
    exact h.base
  all_goals
    cases hs
    exact h.base.step (.done hpt fun ho => by simp_all)

theorem Inv.next {c : Sleep.Session} (hpid : Function.Injective pid) (h : Inv ch pid s)
    (hpt : s.base.point p = .crit c) (hs : next s p (pid p) c = some s') : Inv ch pid s' := by
  have hbase := h.next_base hpt hs
  obtain ⟨-, hsession, hhas, howner, hrel, htest⟩ := h
  unfold SleepLock.next at hs
  repeat' split at hs
  -- only the first three facts depend on who has the lock, and that changes in two of the cases
  all_goals
    cases hs <;> refine ⟨hbase, ?_, ?_, ?_, ?_, ?_⟩ <;> simp [State.goto] <;>
      grind [Sleep.Session.back]

theorem inv_reach (hpid : Function.Injective pid) (h : (system ch pid).Reach s) : Inv ch pid s := by
  refine h.induct ?_ ?_
  · rintro s ⟨hbase, hcond, -, hall⟩
    refine ⟨.init hbase, ?_, ?_, ?_, ?_, ?_⟩ <;> grind [Sleep.init]
  · intro s p s' _ hI hs
    cases hs with
    | call hout hk =>
      obtain ⟨hbase, hsession, hhas, howner, hrel, htest⟩ := hI
      refine ⟨hbase, ?_, hhas, howner, ?_, ?_⟩ <;> simp [State.goto] <;> grind
    | next hpt hs => exact hI.next hpid hpt hs
    | machine hb hpt _ hh => exact hI.machine hb hpt hh

/-- **Sleep locks exclude their users.** In any interleaving of `acquiresleep`, `releasesleep` and
`holdingsleep`, at most one process has the lock: the one that `lk->locked` and `lk->pid` name.
`holdingsleep` returns whether its caller has it. And while nobody has it and `lk->lk` is free, no
process sleeps on it. -/
theorem sleeplock_exclusive (hpid : Function.Injective pid) (h : (system ch pid).Reach s) :
    (∀ p q, s.has p = true → s.has q = true → p = q) ∧
    (∀ p, s.has p = true ↔ s.base.cond = false ∧ s.pid = pid p) ∧
    (∀ p r, s.code p = .tested r → r = s.has p) ∧
    (s.base.lk = none → (∀ p, s.has p = false) →
      ∀ p, ¬ (s.base.state p = .sleeping ∧ s.base.chan p = some ch)) := by
  have hI := inv_reach hpid h
  have hS := Sleep.inv_of_reach hI.base
  refine ⟨fun p q hp hq => ?_, hI.has, hI.tested, fun hlk hnone p hp => ?_⟩
  · exact hpid (((hI.has p).mp hp).2.symm.trans ((hI.has q).mp hq).2)
  · refine hS.quiet ?_ (fun q => ?_) p (.inr hp)
    · by_contra hc
      obtain ⟨q, hq⟩ := hI.owner (by simpa using hc)
      simpa [hnone, hc, hq] using hI.has q
    · have hq := hS.lk q
      cases hpt : s.base.point q <;> simp_all [Sleep.Point.holdsLk, Sleep.Point.owed]

/-- While the first process has the lock, the second one sleeps in `acquiresleep`. -/
theorem sleeplock_exclusive_taken : ∃ s p q, (system (.other 0) fun p => p).Reach s ∧
    s.has p = true ∧ s.base.state q = .sleeping ∧ s.base.chan q = some (.other 0) ∧
    ∀ r, s.has r = true → p = r := by
  let p : Slot := ⟨0, NPROC_pos⟩
  let q : Slot := ⟨1, one_lt_NPROC⟩
  have h0 : (system (.other 0) fun p => p).Reach ⟨⟨none, true, fun _ => .running, fun _ => none,
      fun _ => none, fun _ => .idle⟩, 0, fun _ => .out, fun _ => false⟩ :=
    .init ⟨⟨rfl, fun p => ⟨by simp, rfl, rfl⟩⟩, rfl, rfl, fun _ => ⟨rfl, rfl⟩⟩
  have hmachine {s : State} {r : Slot} {b : Sleep.State}
      (hs : (system (.other 0) fun p => p).Reach s) (hb : Sleep.Step (.other 0) s.base r b)
      (hk : s.code r ≠ .out) (hpt : ∀ c, s.base.point r ≠ .crit c)
      (hh : ∀ c, b.point r = .crit c → c.handler = false) :
      (system (.other 0) fun p => p).Reach { s with base := b } :=
    hs.step (.machine hb hpt (fun hout => absurd hout hk) hh)
  have h1 := h0.step (.call (p := p) rfl (.inl rfl))
  have h2 := hmachine h1 (.acquire (p := p) rfl rfl) (by rintro ⟨⟩) (by rintro _ ⟨⟩)
    (by rintro _ ⟨⟩; rfl)
  have h3 := h2.step (.next (p := p) (c := ⟨false, false, false⟩) rfl rfl)
  have h4 := h3.step (.next (p := p) (c := ⟨false, false, false⟩) rfl rfl)
  have h5 := h4.step (.call (p := q) rfl (.inl rfl))
  have h6 := hmachine h5 (.acquire (p := q) rfl rfl) (by rintro ⟨⟩) (by rintro _ ⟨⟩)
    (by rintro _ ⟨⟩; rfl)
  have h7 := h6.step (.next (p := q) (c := ⟨false, false, false⟩) rfl rfl)
  have h8 := hmachine h7 (.lockSelf (p := q) rfl rfl) (by rintro ⟨⟩) (by rintro _ ⟨⟩) (by rintro _ ⟨⟩)
  have h9 := hmachine h8 (.release (p := q) rfl) (by rintro ⟨⟩) (by rintro _ ⟨⟩) (by rintro _ ⟨⟩)
  have h10 := hmachine h9 (.setChan (p := q) rfl) (by rintro ⟨⟩) (by rintro _ ⟨⟩) (by rintro _ ⟨⟩)
  have h11 := hmachine h10 (.setState (p := q) rfl) (by rintro ⟨⟩) (by rintro _ ⟨⟩) (by rintro _ ⟨⟩)
  have h12 := hmachine h11 (.sched (p := q) rfl) (by rintro ⟨⟩) (by rintro _ ⟨⟩) (by rintro _ ⟨⟩)
  have hpid : Function.Injective fun p : Slot => (p : ℤ) := fun _ _ h => Fin.ext (Int.ofNat_inj.mp h)
  exact ⟨_, p, q, h12, rfl, rfl, rfl, fun r hr => (sleeplock_exclusive hpid h12).1 p r rfl hr⟩

end Xv6.Sched.SleepLock
