import Mathlib.Tactic.SplitIfs
import Xv6.Pipes.Model

/-!
# Who sleeps on a pipe

`Pipes.Model` runs a call of `pipewrite` or `piperead` from one sleep to the next in one step. Here a
step is one turn of a loop, one slot of a `wakeup`, one half of `sleep`, one `pipeclose` or one section
of `kill`, so that `kill` may come between any two of them.

A process that sleeps has to be woken by the process that makes its condition true, before that one
releases `pi->lock` (`Point.Owes`). Every exit of the two loops does so but one: a writer that is killed
after it has put bytes into the buffer returns without `wakeup(&pi->nread)`.
-/

namespace Xv6.Pipes.Sleepers

/-- The channels of a pipe: `&pi->nread` and `&pi->nwrite`. -/
inductive Chan
  | nread | nwrite
  deriving DecidableEq, Repr

/-- The channel on which a call sleeps. -/
def chan : Call → Chan
  | .write _ _ _ => .nwrite
  | _ => .nread

/-- Where a process is in `pipe.c`. -/
inductive Point
  /-- In none of its functions. -/
  | out
  /-- Before `acquire(&pi->lock)`, at the start of a call or at the end of `sleep`. -/
  | lock (c : Call)
  /-- Holds `pi->lock`, before the test of the loop of `pipewrite` or of the waiting loop of `piperead`.
  `unsignalled` records that `pipewrite` has put bytes since it last called `wakeup`. -/
  | head (c : Call) (unsignalled : Bool)
  /-- In `pipewrite` with a full buffer, in `wakeup(&pi->nread)` before slot `k`. -/
  | full (c : Call) (k : ℕ)
  /-- Before the call of `sleep`. -/
  | doze (c : Call)
  /-- In `sleep`: holds `p->lock`, has released `pi->lock`, and is not `SLEEPING` yet. -/
  | entering (c : Call)
  /-- In the copying loop of `piperead`, with `i` bytes read. -/
  | copy (dst : ℕ → Bool) (n : ℤ) (i : ℕ)
  /-- In the last `wakeup(ch)` of a function, before slot `k`. -/
  | wake (ch : Chan) (k : ℕ) (r : ℤ)
  /-- Before `release(&pi->lock)` and the return with `r`. -/
  | unlock (r : ℤ)
  /-- In `pipeclose`, before `acquire(&pi->lock)`. -/
  | close (writable : Bool)

/-- The pipe, its lock, and the processes that use it. -/
structure State where
  pipe : Pipe
  /-- The holder of `pi->lock`. -/
  lock : Option Slot
  /-- `p->killed`. -/
  killed : Slot → Bool
  /-- The channel of a process that is `SLEEPING`. -/
  asleep : Slot → Option Chan
  point : Slot → Point

namespace State

/-- Moves the thread of `p`. -/
def goto (s : State) (p : Slot) (pt : Point) : State :=
  { s with point := Function.update s.point p pt }

/-- Marks `p` `SLEEPING` on a channel, or `RUNNABLE`. -/
def setAsleep (s : State) (p : Slot) (ch : Option Chan) : State :=
  { s with asleep := Function.update s.asleep p ch }

/-- The process holds its own lock. -/
def entering (s : State) (p : Slot) : Bool :=
  match s.point p with
  | .entering _ => true
  | _ => false

/-- Slot `j` of `wakeup(ch)`, once its lock is free. Source: `proc.c` `wakeup`. -/
def wakeSlot (s : State) (ch : Chan) (j : Slot) : Option State :=
  if s.entering j then none
  else some (if s.asleep j = some ch then s.setAsleep j none else s)

/-- `wakeup(ch)` by `p` at slot `k`: the next point is `next (k + 1)`, or `done` after the last slot. -/
def scan (s : State) (p : Slot) (ch : Chan) (k : ℕ) (next : ℕ → Point) (done : Point) :
    Option State :=
  if h : k < NPROC then
    if (⟨k, h⟩ : Slot) = p then some (s.goto p (next (k + 1)))
    else (s.wakeSlot ch ⟨k, h⟩).map fun s' => s'.goto p (next (k + 1))
  else some (s.goto p done)

/-- One turn of the loop of `pipewrite`. Source: `pipe.c` `pipewrite`. -/
def writeTurn (s : State) (p : Slot) (src : ℕ → Option UInt8) (n : ℤ) (i : ℕ) : State :=
  if (i : ℤ) < n then
    if s.pipe.readopen = false ∨ s.killed p then s.goto p (.unlock (-1))
    else if s.pipe.nwrite = s.pipe.nread + UInt32.ofNat PIPESIZE then
      s.goto p (.full (.write src n i) 0)
    else match src i with
      | none => s.goto p (.wake .nread 0 i)
      | some ch => { s.goto p (.head (.write src n (i + 1)) true) with pipe := s.pipe.put ch }
  else s.goto p (.wake .nread 0 i)

/-- One turn of the waiting loop of `piperead`. Source: `pipe.c` `piperead`. -/
def readTurn (s : State) (p : Slot) (dst : ℕ → Bool) (n : ℤ) : State :=
  if s.pipe.nread = s.pipe.nwrite ∧ s.pipe.writeopen then
    if s.killed p then s.goto p (.unlock (-1)) else s.goto p (.doze (.read dst n))
  else s.goto p (.copy dst n 0)

/-- One turn of the copying loop of `piperead`. Source: `pipe.c` `piperead`. -/
def copyTurn (s : State) (p : Slot) (dst : ℕ → Bool) (n : ℤ) (i : ℕ) : State :=
  if (i : ℤ) < n then
    if s.pipe.nread = s.pipe.nwrite then s.goto p (.wake .nwrite 0 i)
    else { s.goto p (if dst i then .copy dst n (i + 1) else .wake .nwrite 0 i) with
      pipe := s.pipe.take }
  else s.goto p (.wake .nwrite 0 i)

/-- The channel that `pipeclose` wakes. -/
def closeChan (writable : Bool) : Chan := if writable then .nread else .nwrite

/-- The next step of the thread of `p`. -/
def run (s : State) (p : Slot) : Option State :=
  match s.point p with
  | .out => none
  | .lock c =>
    if s.lock = none ∧ s.asleep p = none then some { s.goto p (.head c false) with lock := some p }
    else none
  | .head (.write src n i) _ => some (s.writeTurn p src n i)
  | .head (.read dst n) _ => some (s.readTurn p dst n)
  | .head .none _ => none
  | .full c k => s.scan p .nread k (.full c) (.doze c)
  | .doze c => some { s.goto p (.entering c) with lock := none }
  | .entering c => some ((s.setAsleep p (some (chan c))).goto p (.lock c))
  | .copy dst n i => some (s.copyTurn p dst n i)
  | .wake ch k r => s.scan p ch k (.wake ch · r) (.unlock r)
  | .unlock _ => some { s.goto p .out with lock := none }
  | .close w =>
    if s.lock = none then
      some { s.goto p (.wake (closeChan w) 0 0) with lock := some p, pipe := s.pipe.pipeclose w }
    else none

end State

/-- The steps. -/
inductive Label
  /-- A process calls `pipewrite(pi, addr, n)`. -/
  | write (p : Slot) (src : ℕ → Option UInt8) (n : ℤ)
  /-- A process calls `piperead(pi, addr, n)`. -/
  | read (p : Slot) (dst : ℕ → Bool) (n : ℤ)
  /-- A process calls `pipeclose(pi, writable)`. -/
  | close (p : Slot) (writable : Bool)
  /-- A process takes its next step. -/
  | run (p : Slot)
  /-- The section of `kill` that finds process `p`. -/
  | kill (p : Slot)
  /-- A process exits, and its slot is used for another. -/
  | renew (p : Slot)

/-- A process that is not in a call begins one. -/
def begin (s : State) (p : Slot) (pt : Point) : Option State :=
  match s.point p with
  | .out => some (s.goto p pt)
  | _ => none

/-- The state after a step, if it can be taken. Source of `kill`: `proc.c` `kill`. -/
def step (l : Label) (s : State) : Option State :=
  match l with
  | .write p src n => begin s p (.lock (.write src n 0))
  | .read p dst n => begin s p (.lock (.read dst n))
  | .close p w => begin s p (.close w)
  | .run p => s.run p
  | .kill p =>
    if s.entering p then none
    else some { s.setAsleep p none with killed := Function.update s.killed p true }
  | .renew p =>
    match s.point p with
    | .out => some { s with killed := Function.update s.killed p false }
    | _ => none

/-- A new pipe: nobody uses it. -/
def init (s : State) : Prop :=
  (∃ data, s.pipe = .alloc data) ∧ s.lock = none ∧ ∀ p, s.asleep p = none ∧ s.point p = .out

/-- One pipe with the processes that use it. -/
def system : Lib.Lts State Label := .ofFun init step

/-! ### What a sleeping process waits for -/

/-- The condition on which a process sleeps on a channel: for `&pi->nread` an empty buffer with the
write end open, for `&pi->nwrite` a full one with the read end open. -/
def Blocked (pi : Pipe) : Chan → Prop
  | .nread => pi.nread = pi.nwrite ∧ pi.writeopen = true
  | .nwrite => pi.nwrite = pi.nread + UInt32.ofNat PIPESIZE ∧ pi.readopen = true

/-- The process sleeps on the channel or is about to. -/
def Pending (s : State) (j : Slot) (ch : Chan) : Prop :=
  s.asleep j = some ch ∨ ∃ c, s.point j = .entering c ∧ chan c = ch

/-- The thread holds `pi->lock`. -/
def Point.holds : Point → Bool
  | .head _ _ | .full _ _ | .doze _ | .copy _ _ _ | .wake _ _ _ | .unlock _ => true
  | _ => false

/-- The thread is still going to wake slot `j`, if it sleeps on `ch`. -/
def Point.Owes (ch : Chan) (j : Slot) : Point → Prop
  | .head _ unsignalled => ch = .nread ∧ unsignalled
  | .full _ k => ch = .nread ∧ k ≤ j
  | .copy _ _ _ => ch = .nwrite
  | .wake ch' k _ => ch = ch' ∧ k ≤ j
  | _ => False

/-- What the holder of `pi->lock` knows. -/
def Point.Ok (pi : Pipe) (killed : Bool) : Point → Prop
  | .head c true => (∃ src n i, c = .write src n i) ∧ killed = false ∧ pi.readopen = true
  | .full c _ => chan c = .nwrite ∧ Blocked pi .nwrite
  | .doze c => Blocked pi (chan c)
  | _ => True

/-- The invariant. -/
structure Inv (s : State) : Prop where
  holder : ∀ p, (s.point p).holds ↔ s.lock = some p
  asleep : ∀ p ch, s.asleep p = some ch → ∃ c, s.point p = .lock c
  ok : ∀ p, s.lock = some p → (s.point p).Ok s.pipe (s.killed p)
  /-- Whoever sleeps although its condition holds is going to be woken by the holder of the lock. -/
  owed : ∀ j ch, Pending s j ch → ¬ Blocked s.pipe ch → ∃ q, s.lock = some q ∧ (s.point q).Owes ch j

variable {s s' : State} {p : Slot} {pi : Pipe} {pt : Point} {j : Slot} {ch : Chan} {n : ℤ}
  {lock : Option Slot} {killed : Slot → Bool} {dst : ℕ → Bool} {u : Bool} {i : ℕ}

theorem pending_of_ne (hj : j ≠ p) :
    Pending ⟨pi, lock, killed, s.asleep, Function.update s.point p pt⟩ j ch ↔ Pending s j ch := by
  simp [Pending, hj]

theorem pending_self (hawake : s.asleep p = none)
    (h : Pending ⟨pi, lock, killed, s.asleep, Function.update s.point p pt⟩ p ch) :
    ∃ c, pt = .entering c ∧ chan c = ch := by
  simpa [Pending, hawake] using h

theorem Inv.awake_of_point (h : Inv s) (hpt : ∀ c, s.point p ≠ .lock c) : s.asleep p = none := by
  cases ha : s.asleep p with
  | none => rfl
  | some ch =>
    obtain ⟨c, hc⟩ := h.asleep p ch ha
    exact absurd hc (hpt c)

theorem Inv.awake (h : Inv s) (hp : s.lock = some p) : s.asleep p = none := by
  refine h.awake_of_point fun c hc => ?_
  have := (h.holder p).mpr hp
  simp [hc, Point.holds] at this

/-- Whoever sleeps is where it was when another process moves. -/
theorem Inv.asleep_goto (h : Inv s) (hawake : s.asleep p = none) (q : Slot) (ch : Chan)
    (hq : s.asleep q = some ch) : ∃ c, (s.goto p pt).point q = .lock c := by
  have hne : q ≠ p := by
    rintro rfl
    simp [hawake] at hq
  simpa [State.goto, hne] using h.asleep q ch hq

/-- If nobody holds the lock, whoever sleeps has reason to. -/
theorem Inv.blocked (h : Inv s) (hfree : s.lock = none) (hj : Pending s j ch) :
    Blocked s.pipe ch := by
  by_contra hne
  obtain ⟨q, hq, -⟩ := h.owed j ch hj hne
  rw [hfree] at hq
  cases hq

/-- What the holder does not owe to wake has reason to sleep. -/
theorem Inv.blocked_of_not_owes (h : Inv s) (hp : s.lock = some p) (hj : Pending s j ch)
    (hno : ¬ (s.point p).Owes ch j) : Blocked s.pipe ch := by
  by_contra hne
  obtain ⟨q, hq, howes⟩ := h.owed j ch hj hne
  obtain rfl : p = q := by rw [hp] at hq; exact Option.some.inj hq
  exact hno howes

/-- The holder of the lock moves on, and may change the pipe. -/
theorem Inv.move (h : Inv s) (hp : s.lock = some p) (hpt : pt.holds) (hok : pt.Ok pi (s.killed p))
    (howes : ∀ j ch, Pending s j ch → ¬ Blocked pi ch → pt.Owes ch j) :
    Inv { s.goto p pt with pipe := pi } where
  holder q := by
    by_cases hq : q = p
    · subst hq
      simp [State.goto, hpt, hp]
    · simpa [State.goto, hq] using h.holder q
  asleep := h.asleep_goto (h.awake hp)
  ok q hq := by
    obtain rfl : p = q := by
      have : s.lock = some q := hq
      rw [hp] at this
      exact Option.some.inj this
    simpa [State.goto] using hok
  owed j ch hj hne := by
    refine ⟨p, hp, ?_⟩
    have hjp : j ≠ p := by
      rintro rfl
      obtain ⟨c, rfl, -⟩ := pending_self (h.awake hp) hj
      cases hpt
    have hold : Pending s j ch := (pending_of_ne hjp).mp hj
    simpa [State.goto] using howes j ch hold hne

theorem Inv.release (h : Inv s) (hp : s.lock = some p) (hpt : pt.holds = false)
    (hent : ∀ c, pt = .entering c → Blocked s.pipe (chan c))
    (hno : ∀ j ch, Pending s j ch → ¬ (s.point p).Owes ch j) :
    Inv { s.goto p pt with lock := none } where
  holder q := by
    by_cases hq : q = p
    · subst hq
      simp [State.goto, hpt]
    · have := h.holder q
      simp only [State.goto, Function.update_of_ne hq, this, hp, Option.some.injEq, reduceCtorEq,
        iff_false]
      exact Ne.symm hq
  asleep := h.asleep_goto (h.awake hp)
  ok q hq := by cases hq
  owed j ch hj hne := by
    refine absurd ?_ hne
    by_cases hjp : j = p
    · subst hjp
      obtain ⟨c, hc, rfl⟩ := pending_self (h.awake hp) hj
      exact hent c hc
    · have hold : Pending s j ch := (pending_of_ne hjp).mp hj
      exact h.blocked_of_not_owes hp hold (hno j ch hold)

theorem Inv.acquire (h : Inv s) (hfree : s.lock = none) (hawake : s.asleep p = none)
    (hpt : pt.holds) (hok : pt.Ok pi (s.killed p))
    (howes : ∀ j ch, Blocked s.pipe ch → ¬ Blocked pi ch → pt.Owes ch j) :
    Inv { s.goto p pt with pipe := pi, lock := some p } where
  holder q := by
    by_cases hq : q = p
    · subst hq
      simp [State.goto, hpt]
    · have := h.holder q
      simp only [State.goto, Function.update_of_ne hq, this, hfree, Option.some.injEq, reduceCtorEq,
        false_iff]
      exact Ne.symm hq
  asleep := h.asleep_goto hawake
  ok q hq := by
    obtain rfl : p = q := Option.some.inj hq
    simpa [State.goto] using hok
  owed j ch hj hne := by
    refine ⟨p, rfl, ?_⟩
    have hjp : j ≠ p := by
      rintro rfl
      obtain ⟨c, rfl, -⟩ := pending_self hawake hj
      cases hpt
    have hold : Pending s j ch := (pending_of_ne hjp).mp hj
    simpa [State.goto] using howes j ch (h.blocked hfree hold) hne

theorem Inv.wakes (h : Inv s) (j : Slot) : Inv (s.setAsleep j none) where
  holder := h.holder
  asleep q ch hq := by
    by_cases hqj : q = j
    · subst hqj
      simp [State.setAsleep] at hq
    · exact h.asleep q ch (by simpa [State.setAsleep, hqj] using hq)
  ok := h.ok
  owed i ch hi hne := by
    refine h.owed i ch ?_ hne
    rcases hi with hi | hi
    · by_cases hij : i = j
      · subst hij
        simp [State.setAsleep] at hi
      · exact .inl (by simpa [State.setAsleep, hij] using hi)
    · exact .inr hi

/-- The flag of a process changes that does not hold the lock, or has nothing to signal. -/
theorem Inv.setKilled (h : Inv s) {v : Bool}
    (hp : ∀ c, s.point p = .head c true → v = false) :
    Inv { s with killed := Function.update s.killed p v } where
  holder := h.holder
  asleep := h.asleep
  ok q hq := by
    by_cases hqp : q = p
    · subst hqp
      have hold := h.ok q hq
      cases hpt : s.point q with
      | head c unsignalled =>
        rw [hpt] at hold
        cases unsignalled with
        | true => simpa [hpt] using ⟨hold.1, hp c hpt, hold.2.2⟩
        | false => simp [Point.Ok]
      | _ =>
        rw [hpt] at hold
        exact hold
    · simpa [hqp] using h.ok q hq
  owed := h.owed

theorem Inv.goto (h : Inv s) (hold : (s.point p).holds = false) (hpt : pt.holds = false)
    (hawake : s.asleep p = none) (hent : ∀ c, pt ≠ .entering c) : Inv (s.goto p pt) := by
  have hqp : ∀ q, s.lock = some q → q ≠ p := by
    rintro q hq rfl
    have := (h.holder q).mpr hq
    rw [hold] at this
    cases this
  refine ⟨fun q => ?_, h.asleep_goto hawake, fun q hq => ?_, fun j ch hj hne => ?_⟩
  · by_cases hq : q = p
    · subst hq
      simpa [State.goto, hpt, hold] using h.holder q
    · simpa [State.goto, hq] using h.holder q
  · simpa [State.goto, hqp q hq] using h.ok q hq
  · have hjp : j ≠ p := by
      rintro rfl
      obtain ⟨c, hc, -⟩ := pending_self hawake hj
      exact hent c hc
    obtain ⟨q, hq, howes⟩ := h.owed j ch ((pending_of_ne hjp).mp hj) hne
    exact ⟨q, hq, by simpa [State.goto, hqp q hq] using howes⟩

/-! ### Steps -/

theorem Inv.scan (h : Inv s) (hp : s.lock = some p) {k : ℕ} (next : ℕ → Point) (done : Point)
    (hpt : s.point p = next k) (hnext : ∀ k, (next k).holds)
    (hok : ∀ k, (next k).Ok s.pipe (s.killed p) ↔ (next 0).Ok s.pipe (s.killed p))
    (howes : ∀ k ch' j, (next k).Owes ch' j ↔ ch' = ch ∧ k ≤ (j : ℕ)) (hdone : done.holds)
    (hdok : (next 0).Ok s.pipe (s.killed p) → done.Ok s.pipe (s.killed p))
    (hs : s.scan p ch k next done = some s') : Inv s' := by
  have hok0 : (next 0).Ok s.pipe (s.killed p) := (hok k).mp (hpt ▸ h.ok p hp)
  have hpend : ∀ j ch', Pending s j ch' → ¬ Blocked s.pipe ch' → ch' = ch ∧ k ≤ (j : ℕ) := by
    intro j ch' hj hne
    have := mt (h.blocked_of_not_owes hp hj) hne
    rw [hpt, not_not] at this
    exact (howes k ch' j).mp this
  have hrest : ∀ j ch', Pending s j ch' → ¬ Blocked s.pipe ch' → (j : ℕ) ≠ k →
      (next (k + 1)).Owes ch' j := by
    intro j ch' hj hne hjk
    obtain ⟨rfl, hle⟩ := hpend j ch' hj hne
    exact (howes _ _ _).mpr ⟨rfl, by omega⟩
  unfold State.scan at hs
  split at hs
  · rename_i hk
    split_ifs at hs with hself
    · cases hs
      refine h.move hp (hnext _) ((hok _).mpr hok0) fun j ch' hj hne => hrest j ch' hj hne fun h0 => ?_
      -- the slot of `p` itself is skipped, and `p` does not sleep
      obtain rfl : j = p := Fin.ext (by rw [h0, ← hself])
      rcases hj with hj | ⟨c, hc, -⟩
      · rw [h.awake hp] at hj
        cases hj
      · have := (h.holder j).mpr hp
        simp [hc, Point.holds] at this
    · unfold State.wakeSlot at hs
      split_ifs at hs with hent hsl
      · cases hs
      · cases hs
        refine (h.wakes ⟨k, hk⟩).move hp (hnext _) ((hok _).mpr hok0) fun j ch' hj hne => ?_
        have hold : Pending s j ch' := by
          rcases hj with hj | hj
          · refine .inl ?_
            by_cases hjk : j = ⟨k, hk⟩
            · subst hjk
              simp [State.setAsleep] at hj
            · simpa [State.setAsleep, hjk] using hj
          · exact .inr hj
        refine hrest j ch' hold hne fun h0 => ?_
        obtain rfl : j = ⟨k, hk⟩ := Fin.ext h0
        rcases hj with hj | ⟨c, hc, -⟩
        · simp [State.setAsleep] at hj
        · have hc : s.point ⟨k, hk⟩ = .entering c := hc
          simp [State.entering, hc] at hent
      · cases hs
        refine h.move hp (hnext _) ((hok _).mpr hok0) fun j ch' hj hne => hrest j ch' hj hne fun h0 => ?_
        obtain rfl : j = ⟨k, hk⟩ := Fin.ext h0
        rcases hj with hj | ⟨c, hc, -⟩
        · obtain rfl := (hpend _ ch' (.inl hj) hne).1
          exact hsl hj
        · simp [State.entering, hc] at hent
  · rename_i hk
    cases hs
    refine h.move hp hdone (hdok hok0) fun j ch' hj hne => ?_
    obtain ⟨rfl, hle⟩ := hpend j ch' hj hne
    exact absurd j.isLt (by omega)

theorem Inv.fallAsleep (h : Inv s) {c : Call} (hpt : s.point p = .entering c) :
    Inv ((s.setAsleep p (some (chan c))).goto p (.lock c)) where
  holder q := by
    by_cases hq : q = p
    · subst hq
      have := h.holder q
      rw [hpt] at this
      simpa [State.goto, State.setAsleep, Point.holds] using this
    · simpa [State.goto, State.setAsleep, hq] using h.holder q
  asleep q ch hq := by
    by_cases hqp : q = p
    · exact ⟨c, by simp [State.goto, hqp]⟩
    · have hq : s.asleep q = some ch := by simpa [State.goto, State.setAsleep, hqp] using hq
      simpa [State.goto, State.setAsleep, hqp] using h.asleep q ch hq
  ok q hq := by
    have hqp : q ≠ p := by
      rintro rfl
      have := (h.holder q).mpr hq
      simp [hpt, Point.holds] at this
    simpa [State.goto, State.setAsleep, hqp] using h.ok q hq
  owed j ch hj hne := by
    have hold : Pending s j ch := by
      by_cases hjp : j = p
      · subst hjp
        refine .inr ⟨c, hpt, ?_⟩
        rcases hj with hj | ⟨c', hc', -⟩
        · simpa [State.goto, State.setAsleep] using hj
        · simp [State.goto] at hc'
      · simpa [Pending, State.goto, State.setAsleep, hjp] using hj
    obtain ⟨q, hq, howes⟩ := h.owed j ch hold hne
    have hqp : q ≠ p := by
      rintro rfl
      have := (h.holder q).mpr hq
      simp [hpt, Point.holds] at this
    exact ⟨q, hq, by simpa [State.goto, State.setAsleep, hqp] using howes⟩

theorem Inv.stay (h : Inv s) (hp : s.lock = some p) (hpt : pt.holds)
    (hok : pt.Ok s.pipe (s.killed p)) (howes : ∀ j ch, (s.point p).Owes ch j → pt.Owes ch j) :
    Inv (s.goto p pt) := by
  refine h.move hp hpt hok fun j ch hj hne => howes j ch ?_
  by_contra hno
  exact hne (h.blocked_of_not_owes hp hj hno)

theorem Inv.writeTurn (h : Inv s) (hp : s.lock = some p) {src : ℕ → Option UInt8}
    (hpt : s.point p = .head (.write src n i) u) : Inv (s.writeTurn p src n i) := by
  have hok := h.ok p hp
  -- the last `wakeup(&pi->nread)` wakes all slots
  have hlast : Inv (s.goto p (.wake .nread 0 i)) := by
    refine h.stay hp rfl trivial fun j ch howes => ?_
    rw [hpt] at howes
    exact ⟨howes.1, Nat.zero_le _⟩
  unfold State.writeTurn
  split_ifs with hi hexit hfull
  · -- an exit without `wakeup`: there is nothing to signal
    cases u with
    | true =>
      rw [hpt] at hok
      rcases hexit with hread | hkill
      · rw [hok.2.2] at hread
        cases hread
      · rw [hok.2.1] at hkill
        cases hkill
    | false =>
      refine h.stay hp rfl trivial fun j ch howes => ?_
      rw [hpt] at howes
      exact absurd howes.2 (by simp)
  · have hopen : s.pipe.readopen = true := by
      by_contra hne
      exact hexit (.inl (by simpa using hne))
    refine h.stay hp rfl ⟨rfl, hfull, hopen⟩ fun j ch howes => ?_
    rw [hpt] at howes
    exact ⟨howes.1, Nat.zero_le _⟩
  · split
    · exact hlast
    · obtain ⟨hopen, hkill⟩ : s.pipe.readopen = true ∧ s.killed p = false := by
        constructor
        · by_contra hne
          exact hexit (.inl (by simpa using hne))
        · by_contra hne
          exact hexit (.inr (by simpa using hne))
      refine h.move hp rfl ⟨⟨_, _, _, rfl⟩, hkill, hopen⟩ fun j ch hj hne => ?_
      cases ch with
      | nread => exact ⟨rfl, rfl⟩
      | nwrite =>
        -- nobody waits for room in a buffer that is not full
        have hblocked : Blocked s.pipe .nwrite := by
          refine h.blocked_of_not_owes hp hj ?_
          rw [hpt]
          exact fun howes => by cases howes.1
        exact absurd hblocked.1 hfull
  · exact hlast

theorem Inv.readTurn (h : Inv s) (hp : s.lock = some p) (hpt : s.point p = .head (.read dst n) u) :
    Inv (s.readTurn p dst n) := by
  have hok := h.ok p hp
  have hu : u = false := by
    cases u with
    | false => rfl
    | true =>
      rw [hpt] at hok
      obtain ⟨⟨_, _, _, hc⟩, -⟩ := hok
      cases hc
  subst hu
  have hnone : ∀ j ch, ¬ (s.point p).Owes ch j := by
    intro j ch howes
    rw [hpt] at howes
    exact absurd howes.2 (by simp)
  unfold State.readTurn
  split_ifs with hempty hkill
  · exact h.stay hp rfl trivial fun j ch howes => absurd howes (hnone j ch)
  · exact h.stay hp rfl hempty fun j ch howes => absurd howes (hnone j ch)
  · exact h.stay hp rfl trivial fun j ch howes => absurd howes (hnone j ch)

theorem Inv.copyTurn (h : Inv s) (hp : s.lock = some p) (hpt : s.point p = .copy dst n i) :
    Inv (s.copyTurn p dst n i) := by
  have hlast : Inv (s.goto p (.wake .nwrite 0 i)) := by
    refine h.stay hp rfl trivial fun j ch howes => ?_
    rw [hpt] at howes
    exact ⟨howes, Nat.zero_le _⟩
  unfold State.copyTurn
  split_ifs with hi hempty hdst
  · exact hlast
  all_goals first | exact hlast | skip
  all_goals
    refine h.move hp rfl trivial fun j ch hj hne => ?_
    cases ch with
    | nwrite => first | rfl | exact ⟨rfl, Nat.zero_le _⟩
    | nread =>
      -- nobody waits for bytes in a buffer that is not empty
      have hblocked : Blocked s.pipe .nread := by
        refine h.blocked_of_not_owes hp hj ?_
        rw [hpt]
        exact fun howes => by cases howes
      exact absurd hblocked.1 hempty

theorem Inv.run (h : Inv s) (hs : s.run p = some s') : Inv s' := by
  have hlock : (s.point p).holds → s.lock = some p := (h.holder p).mp
  unfold State.run at hs
  split at hs
  · cases hs
  · rename_i c hpt
    split_ifs at hs with hfree
    cases hs
    exact h.acquire hfree.1 hfree.2 rfl trivial fun j ch hb hne => absurd hb hne
  · rename_i src n i u hpt
    cases hs
    exact h.writeTurn (hlock (by rw [hpt]; rfl)) hpt
  · rename_i dst n u hpt
    cases hs
    exact h.readTurn (hlock (by rw [hpt]; rfl)) hpt
  · cases hs
  · rename_i c k hpt
    refine h.scan (hlock (by rw [hpt]; rfl)) (.full c) (.doze c) hpt (fun _ => rfl)
      (fun _ => Iff.rfl) (fun _ _ _ => Iff.rfl) rfl ?_ hs
    rintro ⟨hc, hfull⟩
    show Blocked s.pipe (chan c)
    rwa [hc]
  · rename_i c hpt
    have hp := hlock (by rw [hpt]; rfl)
    have hok := h.ok p hp
    rw [hpt] at hok
    cases hs
    refine h.release hp rfl ?_ fun j ch _ howes => ?_
    · rintro _ ⟨⟩
      exact hok
    · rw [hpt] at howes
      exact howes
  · rename_i c hpt
    cases hs
    exact h.fallAsleep hpt
  · rename_i dst n i hpt
    cases hs
    exact h.copyTurn (hlock (by rw [hpt]; rfl)) hpt
  · rename_i ch k r hpt
    exact h.scan (hlock (by rw [hpt]; rfl)) (.wake ch · r) (.unlock r) hpt (fun _ => rfl)
      (fun _ => Iff.rfl) (fun _ _ _ => Iff.rfl) rfl (fun _ => trivial) hs
  · rename_i r hpt
    cases hs
    refine h.release (hlock (by rw [hpt]; rfl)) rfl (fun c hc => by cases hc) fun j ch _ howes => ?_
    rw [hpt] at howes
    exact howes
  · rename_i w hpt
    split_ifs at hs with hfree
    cases hs
    have hawake := h.awake_of_point (p := p) (by simp [hpt])
    refine h.acquire hfree hawake rfl trivial fun j ch hb hne => ⟨?_, Nat.zero_le _⟩
    cases w <;> cases ch <;> first | rfl | exact absurd hb hne

theorem Inv.begin (h : Inv s) (hpt : pt.holds = false) (hent : ∀ c, pt ≠ .entering c)
    (hs : begin s p pt = some s') : Inv s' := by
  unfold Sleepers.begin at hs
  split at hs <;> cases hs
  rename_i hout
  exact h.goto (by rw [hout]; rfl) hpt (h.awake_of_point (by simp [hout])) hent

/-- `kill` does not hit a writer that has put bytes since it last called `wakeup`. -/
def Spares (s : State) (l : Label) : Prop := ∀ p c, l = .kill p → s.point p ≠ .head c true

theorem Inv.step (h : Inv s) {l : Label} (hl : Spares s l) (hs : Sleepers.step l s = some s') :
    Inv s' := by
  cases l with
  | write p src n => exact h.begin rfl (fun c hc => by cases hc) hs
  | read p dst n => exact h.begin rfl (fun c hc => by cases hc) hs
  | close p w => exact h.begin rfl (fun c hc => by cases hc) hs
  | run p => exact h.run hs
  | kill p =>
    simp only [Sleepers.step] at hs
    split_ifs at hs
    cases hs
    exact (h.wakes p).setKilled fun c hc => absurd hc (hl p c rfl)
  | renew p =>
    simp only [Sleepers.step] at hs
    split at hs <;> cases hs
    exact h.setKilled fun _ _ => rfl

theorem inv_init (h : init s) : Inv s := by
  obtain ⟨-, hlock, hall⟩ := h
  refine ⟨fun p => ?_, fun p ch hp => ?_, fun p hp => ?_, fun j ch hj => ?_⟩
  · simp [(hall p).2, Point.holds, hlock]
  · simp [(hall p).1] at hp
  · simp [hlock] at hp
  · simp [Pending, (hall j).1, (hall j).2] at hj

/-- A process sleeps although its condition holds, and nobody holds the lock of the pipe. -/
def Stuck (s : State) : Prop :=
  s.lock = none ∧ ∃ p,
    (s.asleep p = some .nread ∧ (s.pipe.nread ≠ s.pipe.nwrite ∨ s.pipe.writeopen = false)) ∨
    (s.asleep p = some .nwrite ∧
      (s.pipe.nwrite ≠ s.pipe.nread + UInt32.ofNat PIPESIZE ∨ s.pipe.readopen = false))

/-- **Pipe endpoints are never left asleep wrongly**, for any interleaving of `pipewrite`, `piperead`,
`pipeclose` and `kill`, if `kill` does not hit a process that is inside `pipewrite` and has put bytes
into the buffer since it last called `wakeup(&pi->nread)`. -/
theorem sleepers_blocked (h : (system.restrict Spares).Reach s) : ¬ Stuck s := by
  have hinv : Inv s := by
    refine Lib.Lts.Reach.induct (I := Inv) (fun s h0 => inv_init h0) ?_ h
    rintro s l s' - ih ⟨hl, hs⟩
    exact ih.step hl hs
  rintro ⟨hfree, p, ⟨hp, hne⟩ | ⟨hp, hne⟩⟩
  · obtain ⟨hempty, hopen⟩ := hinv.blocked hfree (.inl hp)
    rcases hne with hne | hne
    · exact hne hempty
    · rw [hopen] at hne
      cases hne
  · obtain ⟨hfull, hopen⟩ := hinv.blocked hfree (.inl hp)
    rcases hne with hne | hne
    · exact hne hfull
    · rw [hopen] at hne
      cases hne

/-- A new pipe. -/
def fresh : State := ⟨.alloc fun _ => 0, none, fun _ => false, fun _ => none, fun _ => .out⟩

theorem fresh_init : init fresh := ⟨⟨_, rfl⟩, rfl, fun _ => ⟨rfl, rfl⟩⟩

/-- Process 0 calls `piperead` and sleeps. -/
def readerSleeps : List Label :=
  .read ⟨0, NPROC_pos⟩ (fun _ => true) 1 :: List.replicate 4 (.run ⟨0, NPROC_pos⟩)

/-- A reader sleeps on an empty pipe. -/
theorem sleepers_blocked_reader :
    ∃ s, (system.restrict Spares).Reach s ∧ s.asleep ⟨0, by decide⟩ = some .nread ∧ s.lock = none ∧
      ¬ Stuck s := by
  obtain ⟨s, hrun, hp, hlock⟩ : ∃ s, Lib.Lts.run step readerSleeps fresh = some s ∧
      s.asleep ⟨0, by decide⟩ = some .nread ∧ s.lock = none := ⟨_, rfl, rfl, rfl⟩
  have hr : (system.restrict Spares).Reach s := by
    refine Lib.Lts.Reach.run (.init fresh_init) (fun l hl s p c hk => ?_) hrun
    subst hk
    simp [readerSleeps] at hl
  exact ⟨s, hr, hp, hlock, sleepers_blocked hr⟩

/-- After that, process 1 calls `pipewrite` with two bytes, is killed after the first, and returns. -/
def writerKilled : List Label :=
  readerSleeps ++ [.write ⟨1, one_lt_NPROC⟩ (fun _ => some 7) 2, .run ⟨1, one_lt_NPROC⟩,
    .run ⟨1, one_lt_NPROC⟩, .kill ⟨1, one_lt_NPROC⟩, .run ⟨1, one_lt_NPROC⟩, .run ⟨1, one_lt_NPROC⟩]

/-- A writer that is killed between two bytes leaves a reader asleep with a byte in the buffer and both
ends open. -/
theorem killed_writer_leaves_reader_asleep :
    ∃ s, system.Reach s ∧ Stuck s ∧ s.asleep ⟨0, by decide⟩ = some .nread ∧
      s.pipe.buffered = [7] ∧ s.pipe.writeopen = true ∧ s.pipe.readopen = true := by
  obtain ⟨s, hrun⟩ : ∃ s, Lib.Lts.run step writerKilled fresh = some s := ⟨_, rfl⟩
  have h0 : system.Reach fresh := .init fresh_init
  have hr : system.Reach s := h0.run_all hrun
  cases hrun
  refine ⟨_, hr, ⟨rfl, ⟨0, by decide⟩, .inl ⟨rfl, .inl ?_⟩⟩, rfl, ?_, rfl, rfl⟩
  · decide +kernel
  · decide +kernel

end Xv6.Pipes.Sleepers
