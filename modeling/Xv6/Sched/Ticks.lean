import Mathlib.Data.UInt
import Xv6.Lib.Ring
import Xv6.Sched.Killable

/-!
# The ticks `sys_sleep` waits for

The loop of `sys_sleep` with the clock: `clockintr` adds one to the 32-bit counter, which may wrap, and
the loop compares the difference with its argument. `Timed` keeps beside the two CPUs of `Killable` what
really happened: the number of ticks since the loop read `ticks0`, that number at each check, and what
the call returned.

The comparison is between a `uint` and an `int`, so a negative argument counts as a huge one. For the
others `sys_sleep_waits` holds in every run with fewer than 2^31 ticks between two checks.
-/

namespace Xv6.Sched.Ticks

open Killable Xv6.Lib

/-! ### The clock -/

/-- A process that calls `sys_sleep`, and `kill`. -/
abbrev Sleeper : Type := Killable.State UInt32 Int32 (Int32 × UInt32)

/-- The local variables `n` and `ticks0`, in the loop. -/
def locals {A L : Type} : Killable.Point A L → Option L
  | .out => none
  | .enter _ => none
  | .head l => some l
  | .test l => some l
  | .tested l => some l
  | .sleep l => some l
  | .release l => some l
  | .mark l => some l
  | .sched l => some l
  | .off l => some l
  | .resumed l => some l
  | .relock l => some l

/-- The sleeper and what happened since its last call. -/
structure Timed where
  proc : Sleeper
  /-- The argument of the call. -/
  arg : Int32
  /-- The ticks since the call read `ticks0`. -/
  elapsed : ℕ
  /-- The ticks at each check of the condition. -/
  checks : List ℕ
  /-- What the call returned. -/
  ret : Option ℤ

/-- The ticks at the last check. -/
def Timed.lastCheck (s : Timed) : ℕ := s.checks.getLast?.getD 0

/-- What a step that leads to `p` adds: the condition is checked at the top of a pass, and the call
returns 0 from there and -1 behind the test of `p->killed`. -/
def observe (s : Timed) (l : Killable.Label UInt32 Int32) (p : Sleeper) : Timed :=
  match l with
  | .start n => ⟨p, n, 0, [], none⟩
  | .other _ => { s with proc := p, elapsed := s.elapsed + 1 }
  | .victim =>
    match s.proc.point with
    | .enter _ => { s with proc := p, elapsed := 0 }
    | .head _ =>
      { s with
        proc := p
        checks := s.checks ++ [s.elapsed]
        ret := if locals p.point = none then some 0 else none }
    | .test _ => { s with proc := p, ret := if locals p.point = none then some (-1) else none }
    | _ => { s with proc := p }
  | _ => { s with proc := p }

/-- One step of the sleeper, of `kill`, of a waker or of the clock. -/
def timedNext (l : Killable.Label UInt32 Int32) (s : Timed) : Option Timed :=
  (next Victim.sysSleepLoop l s.proc).map (observe s l)

/-- `sys_sleep` with `kill` and the clock, from any value of the counter. -/
def timed : Lts Timed (Killable.Label UInt32 Int32) :=
  .ofFun (fun s => ∃ ticks, s = ⟨start ticks, 0, 0, [], none⟩) timedNext

/-- The counter changes only by clock interrupts, of which fewer than 2^31 come between two checks.
Source: `trap.c` `clockintr`. -/
def Clocked (s : Timed) (l : Killable.Label UInt32 Int32) : Prop :=
  ∀ ticks, l = .other ticks → ticks = s.proc.env + 1 ∧
    (locals s.proc.point ≠ none → s.elapsed + 1 < s.lastCheck + 2 ^ 31)

/-! ### The comparison -/

/-- The difference of the counters is the number of ticks, also after the counter has wrapped. -/
theorem lt_iff {ticks0 : UInt32} {e : ℕ} {n : Int32} (hn : 0 ≤ n.toInt) (he : e < 2 ^ 32) :
    ticks0 + UInt32.ofNat e - ticks0 < n.toUInt32 ↔ (e : ℤ) < n.toInt := by
  rw [add_sub_cancel_left, UInt32.lt_iff_toNat_lt, UInt32.toNat_ofNat_of_lt' he,
    ← Lib.toNat_toUInt32 hn]
  exact Int.ofNat_lt.symm

/-! ### The steps of the sleeper -/

variable {p : Sleeper} {s : Timed}

/-- What a step of the sleeper can do. -/
theorem victimNext_cases {p' : Sleeper} (h : victimNext Victim.sysSleepLoop p = some p') :
    (∃ n, p.point = .enter n ∧ p' = { p with lk := true, point := .head (n, p.env) }) ∨
    (∃ l, p.point = .head l ∧ p.env - l.2 < l.1.toUInt32 ∧ p' = { p with point := .test l }) ∨
    (∃ l, p.point = .head l ∧ ¬ p.env - l.2 < l.1.toUInt32 ∧
      p' = { p with lk := false, point := .out }) ∨
    (∃ l, p.point = .test l ∧ p.killed = true ∧ p' = { p with lk := false, point := .out }) ∨
    (∃ l, p.point = .test l ∧ p' = { p with point := .tested l }) ∨
    ((∀ l, p.point ≠ .head l) ∧ (∀ l, p.point ≠ .test l) ∧ (∀ n, p.point ≠ .enter n) ∧
      ∃ l, locals p.point = some l ∧ locals p'.point = some l ∧ p'.env = p.env ∧
        p'.killed = p.killed) := by
  unfold victimNext at h
  cases hpt : p.point with
  | out => rw [hpt] at h; cases h
  | off l => rw [hpt] at h; cases h
  | enter n =>
    rw [hpt] at h
    cases h
    exact .inl ⟨n, rfl, rfl⟩
  | head l =>
    rw [hpt] at h
    cases h
    simp only [Victim.sysSleepLoop]
    split_ifs with hlt
    · exact .inr (.inl ⟨l, rfl, hlt, rfl⟩)
    · exact .inr (.inr (.inl ⟨l, rfl, hlt, rfl⟩))
  | test l =>
    rw [hpt] at h
    simp only at h
    split_ifs at h with hk
    · cases h
      exact .inr (.inr (.inr (.inl ⟨l, rfl, hk, rfl⟩)))
    · cases h
      exact .inr (.inr (.inr (.inr (.inl ⟨l, rfl, rfl⟩))))
  | sleep l =>
    rw [hpt] at h
    simp only at h
    split_ifs at h
    cases h
    exact .inr (.inr (.inr (.inr (.inr ⟨by simp, by simp, by simp, l, rfl, rfl, rfl, rfl⟩))))
  | tested l | release l | mark l | sched l | resumed l | relock l =>
    rw [hpt] at h
    cases h
    exact .inr (.inr (.inr (.inr (.inr ⟨by simp, by simp, by simp, l, rfl, rfl, rfl, rfl⟩))))

/-! ### The invariant -/

/-- Every check so far came before the ticks of the argument had elapsed. -/
def Early (s : Timed) : Prop := ∀ c ∈ s.checks, (c : ℤ) < s.arg.toInt

/-- The call returned 0 at its first check at which the ticks had elapsed. -/
def OnTime (s : Timed) : Prop :=
  ∃ (cs : List ℕ) (c : ℕ), s.checks = cs ++ [c] ∧ s.arg.toInt ≤ c ∧ ∀ c' ∈ cs, (c' : ℤ) < s.arg.toInt

/-- What holds in a call in the loop, before it and after it. -/
structure Inv (s : Timed) : Prop where
  loop : ∀ l, locals s.proc.point = some l → l.1 = s.arg ∧
    s.proc.env = l.2 + UInt32.ofNat s.elapsed ∧ s.elapsed < s.lastCheck + 2 ^ 31 ∧ s.ret = none ∧
    Early s
  enter : ∀ n, s.proc.point = .enter n → s.arg = n ∧ s.checks = [] ∧ s.ret = none
  out : s.proc.point = .out → (s.checks = [] ∧ s.ret = none) ∨ (s.ret = some 0 ∧ OnTime s) ∨
    (s.ret = some (-1) ∧ s.proc.killed = true ∧ Early s)

theorem Inv.pass {l : Int32 × UInt32} (h : Inv s) (hl : locals s.proc.point = some l)
    (hl' : locals p.point = some l) (he : p.env = s.proc.env) : Inv { s with proc := p } := by
  refine ⟨fun l' hl₁ => ?_, fun n hn => ?_, fun ho => ?_⟩
  · obtain rfl := Option.some.inj (hl'.symm.trans hl₁)
    obtain ⟨h1, h2, h3⟩ := h.loop l hl
    exact ⟨h1, he.trans h2, h3⟩
  · rw [hn] at hl'
    cases hl'
  · rw [ho] at hl'
    cases hl'

theorem Inv.stay (h : Inv s) (hp : p.point = s.proc.point)
    (hk : s.proc.killed = true → p.killed = true) (he : p.env = s.proc.env) :
    Inv { s with proc := p } := by
  refine ⟨fun l hl => ?_, fun n hn => h.enter n (hp ▸ hn), fun ho => ?_⟩
  · obtain ⟨h1, h2, h3⟩ := h.loop l (hp ▸ hl)
    exact ⟨h1, he.trans h2, h3⟩
  · obtain h1 | h1 | ⟨h1, h2, h3⟩ := h.out (hp ▸ ho)
    · exact .inl h1
    · exact .inr (.inl h1)
    · exact .inr (.inr ⟨h1, hk h2, h3⟩)

theorem Inv.tick (h : Inv s)
    (hroom : locals s.proc.point ≠ none → s.elapsed + 1 < s.lastCheck + 2 ^ 31) :
    Inv { s with proc := { s.proc with env := s.proc.env + 1 }, elapsed := s.elapsed + 1 } := by
  refine ⟨fun l hl => ?_, h.enter, h.out⟩
  obtain ⟨h1, h2, -, h4⟩ := h.loop l hl
  refine ⟨h1, ?_, hroom (by rw [hl]; exact Option.some_ne_none l), h4⟩
  change s.proc.env + 1 = l.2 + UInt32.ofNat (s.elapsed + 1)
  rw [h2, UInt32.ofNat_add, add_assoc]
  rfl

/-- A check: the ticks counted are those that elapsed, so the loop is left when they suffice and not
before. -/
theorem Inv.check {l : Int32 × UInt32} (h : Inv s) (hn : 0 ≤ s.arg.toInt)
    (hpt : s.proc.point = .head l) :
    (s.proc.env - l.2 < l.1.toUInt32 ↔ (s.elapsed : ℤ) < s.arg.toInt) := by
  obtain ⟨h1, h2, h3, -, h5⟩ := h.loop l (by rw [hpt]; rfl)
  have hlast : s.lastCheck < 2 ^ 31 := by
    unfold Timed.lastCheck
    cases hc : s.checks.getLast? with
    | none => decide
    | some c =>
      have hlt := h5 c (List.mem_of_getLast? hc)
      have := s.arg.toInt_lt
      simp only [Option.getD_some]
      omega
  rw [h1, h2]
  exact lt_iff hn (by omega)

theorem killNext_kept {p' : Sleeper} (h : killNext p = some p') :
    p'.point = p.point ∧ p'.env = p.env ∧ (p.killed = true → p'.killed = true) := by
  unfold killNext at h
  cases hk : p.killer with
  | lock | wake =>
    rw [hk] at h
    simp only at h
    split_ifs at h <;> cases h <;> exact ⟨rfl, rfl, id⟩
  | flag =>
    rw [hk] at h
    cases h
    exact ⟨rfl, rfl, fun _ => rfl⟩
  | idle | unlock | returned =>
    rw [hk] at h
    cases h
    exact ⟨rfl, rfl, id⟩

theorem Inv.victim (h : Inv s) (hn : 0 ≤ s.arg.toInt)
    (hs : victimNext Victim.sysSleepLoop s.proc = some p) : Inv (observe s .victim p) := by
  obtain ⟨n, hpt, rfl⟩ | ⟨l, hpt, hlt, rfl⟩ | ⟨l, hpt, hge, rfl⟩ | ⟨l, hpt, hk, rfl⟩ | ⟨l, hpt, rfl⟩ |
    ⟨hhead, htest, henter, l, hl, hl', he, hk⟩ := victimNext_cases hs
  · obtain ⟨h1, h2, h3⟩ := h.enter n hpt
    simp only [observe, hpt]
    refine ⟨fun l hl => ?_, fun n hn => (nomatch hn), fun ho => (nomatch ho)⟩
    obtain rfl := Option.some.inj hl
    refine ⟨h1.symm, by simp, by simp, h3, ?_⟩
    simp [Early, h2]
  · obtain ⟨h1, h2, h3, h4, h5⟩ := h.loop l (by rw [hpt]; rfl)
    simp only [observe, hpt, locals]
    refine ⟨fun l' hl => ?_, fun n hn => (nomatch hn), fun ho => (nomatch ho)⟩
    obtain rfl := Option.some.inj hl
    refine ⟨h1, h2, ?_, rfl, ?_⟩
    · simp [Timed.lastCheck]
    · exact List.forall_mem_append.mpr ⟨h5, by simpa using (h.check hn hpt).mp hlt⟩
  · obtain ⟨h1, h2, h3, h4, h5⟩ := h.loop l (by rw [hpt]; rfl)
    simp only [observe, hpt, locals]
    refine ⟨fun l' hl => (nomatch hl), fun n hn => (nomatch hn), fun _ => .inr (.inl ⟨rfl, ?_⟩)⟩
    exact ⟨s.checks, s.elapsed, rfl, not_lt.mp fun hlt => hge ((h.check hn hpt).mpr hlt), h5⟩
  · obtain ⟨h1, h2, h3, h4, h5⟩ := h.loop l (by rw [hpt]; rfl)
    simp only [observe, hpt, locals]
    exact ⟨fun l' hl => (nomatch hl), fun n hn => (nomatch hn),
      fun _ => .inr (.inr ⟨rfl, hk, h5⟩)⟩
  · obtain ⟨h1, h2, h3, h4, h5⟩ := h.loop l (by rw [hpt]; rfl)
    simp only [observe, hpt, locals]
    refine ⟨fun l' hl => ?_, fun n hn => (nomatch hn), fun ho => (nomatch ho)⟩
    obtain rfl := Option.some.inj hl
    exact ⟨h1, h2, h3, rfl, h5⟩
  · have hobs : observe s .victim p = { s with proc := p } := by
      cases hpt : s.proc.point with
      | enter n => exact absurd hpt (henter n)
      | head l => exact absurd hpt (hhead l)
      | test l => exact absurd hpt (htest l)
      | _ => simp only [observe, hpt]
    rw [hobs]
    exact h.pass hl hl' he

theorem Inv.step {s' : Timed} {l : Killable.Label UInt32 Int32} (h : 0 ≤ s.arg.toInt → Inv s)
    (hc : Clocked s l) (hs : timedNext l s = some s') : 0 ≤ s'.arg.toInt → Inv s' := by
  obtain ⟨p, hp, rfl⟩ := Option.map_eq_some_iff.mp hs
  cases l with
  | start n =>
    simp only [next] at hp
    split at hp
    · cases hp
      refine fun _ => ⟨fun l hl => (by cases hl), fun n' hn' => ?_, fun ho => by cases ho⟩
      obtain rfl := Point.enter.inj hn'
      exact ⟨rfl, rfl, rfl⟩
    · cases hp
  | victim =>
    intro hn
    have harg : (observe s .victim p).arg = s.arg := by
      simp only [observe]
      split <;> rfl
    rw [harg] at hn
    exact (h hn).victim hn hp
  | dispatch =>
    intro hn
    simp only [next] at hp
    split at hp
    · rename_i l hoff
      split_ifs at hp
      cases hp
      exact (h hn).pass (l := l) (by rw [hoff]; rfl) rfl rfl
    · cases hp
  | kill =>
    intro hn
    obtain ⟨h1, h2, h3⟩ := killNext_kept hp
    exact (h hn).stay h1 h3 h2
  | wakeup =>
    intro hn
    simp only [next] at hp
    split_ifs at hp
    cases hp
    exact (h hn).stay rfl id rfl
  | other e =>
    intro hn
    obtain ⟨rfl, hroom⟩ := hc e rfl
    simp only [next] at hp
    split_ifs at hp
    cases hp
    exact (h hn).tick hroom

theorem Inv.reach (h : (timed.restrict Clocked).Reach s) : 0 ≤ s.arg.toInt → Inv s := by
  refine h.induct (I := fun s => 0 ≤ s.arg.toInt → Inv s) ?_ ?_
  · rintro s ⟨ticks, rfl⟩ -
    exact ⟨fun l hl => (nomatch hl), fun n hn => (nomatch hn), fun _ => .inl ⟨rfl, rfl⟩⟩
  · exact fun s l s' _ hi hs => Inv.step hi hs.1 hs.2

/-- **`sys_sleep` waits for the ticks of its argument**, if that is not negative: in every run from any
value of the counter, with fewer than 2^31 ticks between two checks, a check at which the ticks have
elapsed is the last one and the call returns 0 there; it returns 0 at no earlier check, and -1 only if
the process was killed. -/
theorem sys_sleep_waits {s : Timed} (h : (timed.restrict Clocked).Reach s) (hn : 0 ≤ s.arg.toInt) :
    (∀ c ∈ s.checks, max s.arg.toInt 0 ≤ c → s.ret = some 0) ∧
      (s.ret = some 0 → ∃ (cs : List ℕ) (c : ℕ), s.checks = cs ++ [c] ∧ max s.arg.toInt 0 ≤ c ∧
        ∀ c' ∈ cs, (c' : ℤ) < max s.arg.toInt 0) ∧
      (∀ r, s.ret = some r → r = 0 ∨ r = -1 ∧ s.proc.killed = true) := by
  rw [max_eq_left hn]
  have hinv := Inv.reach h hn
  -- Checks that all came early, and no value returned but -1.
  have hearly (he : Early s) (hr : s.ret ≠ some 0) :
      (∀ c ∈ s.checks, s.arg.toInt ≤ c → s.ret = some 0) ∧
        (s.ret = some 0 → ∃ (cs : List ℕ) (c : ℕ), s.checks = cs ++ [c] ∧ s.arg.toInt ≤ c ∧
          ∀ c' ∈ cs, (c' : ℤ) < s.arg.toInt) :=
    ⟨fun c hc hle => absurd (he c hc) (not_lt.mpr hle), fun h0 => absurd h0 hr⟩
  have hloop {l} (hl : locals s.proc.point = some l) := hinv.loop l hl
  cases hpt : s.proc.point with
  | out =>
    obtain ⟨h1, h2⟩ | ⟨h1, h2⟩ | ⟨h1, h2, h3⟩ := hinv.out hpt
    · obtain ⟨ha, hb⟩ := hearly (by simp [Early, h1]) (by simp [h2])
      exact ⟨ha, hb, by simp [h2]⟩
    · refine ⟨fun _ _ _ => h1, fun _ => h2, fun r hr => .inl ?_⟩
      exact Option.some.inj (hr.symm.trans h1)
    · obtain ⟨ha, hb⟩ := hearly h3 (by simp [h1])
      exact ⟨ha, hb, fun r hr => .inr ⟨Option.some.inj (hr.symm.trans h1), h2⟩⟩
  | enter n =>
    obtain ⟨-, h1, h2⟩ := hinv.enter n hpt
    obtain ⟨ha, hb⟩ := hearly (by simp [Early, h1]) (by simp [h2])
    exact ⟨ha, hb, by simp [h2]⟩
  | _ =>
    obtain ⟨-, -, -, h1, h2⟩ := hloop (by rw [hpt]; rfl)
    obtain ⟨ha, hb⟩ := hearly h2 (by simp [h1])
    exact ⟨ha, hb, by simp [h1]⟩

/-- A run without a clock interrupt. -/
theorem reach_run {s' : Timed} {ls : List (Killable.Label UInt32 Int32)}
    (h : (timed.restrict Clocked).Reach s) (hls : ∀ l ∈ ls, ∀ e, l ≠ .other e)
    (hrun : Lts.run timedNext ls s = some s') : (timed.restrict Clocked).Reach s' :=
  h.run (fun l hl _ e he => absurd he (hls l hl e)) hrun

/-- A call with the argument `n` until the process is off the CPU. -/
def goesToSleep (n : Int32) : List (Killable.Label UInt32 Int32) := .start n :: List.replicate 8 .victim

theorem goesToSleep_quiet (n : Int32) : ∀ l ∈ goesToSleep n, ∀ e, l ≠ .other e := by
  intro l hl e he
  simp [goesToSleep, he] at hl

/-- A process asleep in a call with the argument 1, with the counter about to wrap. -/
def asleepAtWrap : Timed :=
  ⟨⟨UInt32.ofNat (2 ^ 32 - 1), false, false, .sleeping, none, .off (1, UInt32.ofNat (2 ^ 32 - 1)),
    .idle, false⟩, 1, 0, [0], none⟩

/-- One tick is waited for, across the wrap of the counter. -/
theorem sys_sleep_waits_one : ∃ s, (timed.restrict Clocked).Reach s ∧ s.arg = 1 ∧
    s.checks = [0, 1] ∧ s.ret = some 0 ∧ ∃ (cs : List ℕ) (c : ℕ), s.checks = cs ++ [c] ∧
      max s.arg.toInt 0 ≤ c ∧ ∀ c' ∈ cs, (c' : ℤ) < max s.arg.toInt 0 := by
  have hrun : Lts.run timedNext (goesToSleep 1)
      ⟨start (UInt32.ofNat (2 ^ 32 - 1)), 0, 0, [], none⟩ = some asleepAtWrap := rfl
  have hasleep := reach_run (.init ⟨_, rfl⟩) (goesToSleep_quiet 1) hrun
  have htick : Clocked asleepAtWrap (.other 0) := fun e he => by
    obtain rfl := Label.other.inj he
    exact ⟨by decide, fun _ => by decide⟩
  obtain ⟨s₁, hs₁, s₂, hrun₂, ha, hc, hr⟩ : ∃ s₁, timedNext (.other 0) asleepAtWrap = some s₁ ∧
      ∃ s₂, Lts.run timedNext [.wakeup, .dispatch, .victim, .victim, .victim] s₁ = some s₂ ∧
        s₂.arg = 1 ∧ s₂.checks = [0, 1] ∧ s₂.ret = some 0 := ⟨_, rfl, _, rfl, rfl, rfl, rfl⟩
  have h := reach_run (hasleep.step ⟨htick, hs₁⟩) (by simp) hrun₂
  exact ⟨s₂, h, ha, hc, hr, (sys_sleep_waits h (by rw [ha]; decide)).2.1 hr⟩

/-- A negative argument: at the first check no tick is missing, and the process goes to sleep. -/
theorem sys_sleep_negative : ∃ s, (timed.restrict Clocked).Reach s ∧ s.arg = -1 ∧
    s.checks = [0] ∧ max s.arg.toInt 0 ≤ (0 : ℕ) ∧ s.ret = none ∧
    s.proc.state = .sleeping := by
  obtain ⟨s, hrun, hs⟩ : ∃ s, Lts.run timedNext (goesToSleep (-1)) ⟨start 0, 0, 0, [], none⟩ = some s ∧
      s.arg = -1 ∧ s.checks = [0] ∧ s.ret = none ∧ s.proc.state = .sleeping :=
    ⟨_, rfl, rfl, rfl, rfl, rfl⟩
  obtain ⟨ha, hc, hr, hst⟩ := hs
  refine ⟨s, reach_run (.init ⟨0, rfl⟩) (goesToSleep_quiet (-1)) hrun, ha, hc, ?_, hr, hst⟩
  rw [ha]
  decide

end Xv6.Sched.Ticks
