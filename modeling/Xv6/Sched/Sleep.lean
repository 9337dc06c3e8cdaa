import Xv6.Sched.Model

/-!
# Sleep and wakeup, one instruction at a time

`Sched.Model` takes `sleep` and each slot of `wakeup` as single steps. Here they are cut into the
individual lock, unlock, state-change and table-scan steps, for one channel `ch` whose condition is
protected by one spin lock `lk`.

A process that holds `lk` is in a *session*. It may change the condition, it may call `wakeup(ch)`,
it may call `sleep(ch, lk)` when it finds the condition false, and it may release `lk`; if it has
made the condition true, it has to call `wakeup(ch)` somewhere in the session. Waiters and wakers
are both sessions of this kind. A process that is not inside `sleep` with its own lock may also be
interrupted by a handler that wakes others; the handler's session then runs on its CPU.

The result is that `sleep`, which gives up `lk` before the process is marked `SLEEPING`, loses no
wakeup: it holds `p->lock` across that window, and `wakeup` has to take that lock.
-/

namespace Xv6.Sched.Sleep

/-- What a process has done since it took `lk`. -/
structure Session where
  /-- It made the condition true. -/
  owed : Bool
  /-- A call of `wakeup(ch)` has returned. -/
  woken : Bool
  /-- It is a handler that interrupted the process inside `sleep`. -/
  handler : Bool
  deriving DecidableEq

/-- Where the kernel thread of a process is. Source: `proc.c` `sleep`, `wakeup`. -/
inductive Point
  /-- Not using the channel. -/
  | idle
  /-- Holds `lk`. -/
  | crit (c : Session)
  /-- In `wakeup`, before slot `i`. -/
  | scan (c : Session) (i : ℕ)
  /-- In `wakeup`, holding `proc[i].lock`, before the test. -/
  | visit (c : Session) (i : Slot)
  /-- In `wakeup`, holding `proc[i].lock`, after the test. -/
  | visited (c : Session) (i : Slot)
  /-- In `sleep`, before `acquire(&p->lock)`. -/
  | sleep
  /-- Before `release(lk)`. -/
  | release
  /-- Before `p->chan = chan`. -/
  | setChan
  /-- Before `p->state = SLEEPING`. -/
  | setState
  /-- Before `sched()` gives the CPU and `p->lock` to the scheduler. -/
  | sched
  /-- Switched out. -/
  | off
  /-- Switched in again, before `p->chan = 0`. -/
  | tidy
  /-- Before `release(&p->lock)`. -/
  | unlock
  /-- Before `acquire(lk)`, the last line of `sleep`. -/
  | relock
  deriving DecidableEq

/-- Who holds a process lock. -/
inductive Holder
  /-- The kernel thread of a process. -/
  | proc (p : Slot)
  /-- The scheduler loop of some CPU. -/
  | scheduler
  deriving DecidableEq

/-- The condition, its lock and the process table. -/
structure State where
  /-- The holder of `lk`. -/
  lk : Option Slot
  /-- The condition the waiters wait for. -/
  cond : Bool
  /-- `p->state`. -/
  state : Slot → ProcState
  /-- `p->chan`. -/
  chan : Slot → Option Chan
  /-- The holder of `p->lock`. -/
  plock : Slot → Option Holder
  /-- The kernel threads. -/
  point : Slot → Point

namespace State

/-- Moves the thread of `p`. -/
@[simps -fullyApplied]
def goto (s : State) (p : Slot) (pt : Point) : State :=
  { s with point := Function.update s.point p pt }

/-- Writes `p->state`. -/
@[simps -fullyApplied]
def setState (s : State) (p : Slot) (st : ProcState) : State :=
  { s with state := Function.update s.state p st }

/-- Writes `p->chan`. -/
@[simps -fullyApplied]
def setChan (s : State) (p : Slot) (c : Option Chan) : State :=
  { s with chan := Function.update s.chan p c }

/-- Records the holder of `p->lock`. -/
@[simps -fullyApplied]
def setLock (s : State) (p : Slot) (h : Option Holder) : State :=
  { s with plock := Function.update s.plock p h }

end State

/-- Where a session returns to when it releases `lk`. -/
def Session.back (c : Session) : Point := if c.handler then .relock else .idle

/-- The state of slot `i` after the test of `wakeup(ch)`. Source: `proc.c` `wakeup`. -/
def wake (ch : Chan) (s : State) (i : Slot) : State :=
  if s.state i = .sleeping ∧ s.chan i = some ch then s.setState i .runnable else s

section simp

variable {ch : Chan} (s : State) (i : Slot)

@[simp] theorem wake_point : (wake ch s i).point = s.point := by unfold wake; split <;> rfl
@[simp] theorem wake_lk : (wake ch s i).lk = s.lk := by unfold wake; split <;> rfl
@[simp] theorem wake_cond : (wake ch s i).cond = s.cond := by unfold wake; split <;> rfl
@[simp] theorem wake_chan : (wake ch s i).chan = s.chan := by unfold wake; split <;> rfl
@[simp] theorem wake_plock : (wake ch s i).plock = s.plock := by unfold wake; split <;> rfl

end simp

variable (ch : Chan)

/-- One step, by the process named (or by a scheduler). -/
inductive Step : State → Slot → State → Prop
  /-- `acquire(lk)`. -/
  | acquire {s : State} {p : Slot} (hpt : s.point p = .idle) (hlk : s.lk = none) :
      Step s p { s.goto p (.crit ⟨false, false, false⟩) with lk := some p }
  /-- A handler interrupts the process and executes `acquire(lk)`. -/
  | interrupt {s : State} {p : Slot} (hpt : s.point p = .relock) (hlk : s.lk = none) :
      Step s p { s.goto p (.crit ⟨false, false, true⟩) with lk := some p }
  /-- The condition is made true. -/
  | setTrue {s : State} {p : Slot} {c : Session} (hpt : s.point p = .crit c) :
      Step s p { s.goto p (.crit { c with owed := true }) with cond := true }
  /-- The condition is made false. -/
  | setFalse {s : State} {p : Slot} {c : Session} (hpt : s.point p = .crit c) :
      Step s p { s with cond := false }
  /-- `release(lk)` at the end of a session. -/
  | done {s : State} {p : Slot} {c : Session} (hpt : s.point p = .crit c)
      (hwake : c.owed → c.woken) : Step s p { s.goto p c.back with lk := none }
  /-- `wakeup(ch)` is called. -/
  | wakeup {s : State} {p : Slot} {c : Session} (hpt : s.point p = .crit c) :
      Step s p (s.goto p (.scan c 0))
  /-- `p != myproc()` fails. -/
  | skip {s : State} {p : Slot} {c : Session} (hpt : s.point p = .scan c p) :
      Step s p (s.goto p (.scan c (p + 1)))
  /-- `acquire(&p->lock)` in `wakeup`. -/
  | lockSlot {s : State} {p i : Slot} {c : Session} (hpt : s.point p = .scan c i) (hi : i ≠ p)
      (hlock : s.plock i = none) :
      Step s p ((s.goto p (.visit c i)).setLock i (some (.proc p)))
  /-- The test of `wakeup` and `p->state = RUNNABLE`. -/
  | test {s : State} {p i : Slot} {c : Session} (hpt : s.point p = .visit c i) :
      Step s p ((wake ch s i).goto p (.visited c i))
  /-- `release(&p->lock)` in `wakeup`. -/
  | unlockSlot {s : State} {p i : Slot} {c : Session} (hpt : s.point p = .visited c i) :
      Step s p ((s.goto p (.scan c (i + 1))).setLock i none)
  /-- `wakeup` returns. -/
  | wakeupDone {s : State} {p : Slot} {c : Session} {i : ℕ} (hpt : s.point p = .scan c i)
      (hi : NPROC ≤ i) : Step s p (s.goto p (.crit { c with woken := true }))
  /-- `while(!cond) sleep(ch, lk)`: `sleep` is called. -/
  | sleep {s : State} {p : Slot} {c : Session} (hpt : s.point p = .crit c)
      (hh : c.handler = false) (hcond : s.cond = false) : Step s p (s.goto p .sleep)
  /-- `acquire(&p->lock)` in `sleep`. -/
  | lockSelf {s : State} {p : Slot} (hpt : s.point p = .sleep) (hlock : s.plock p = none) :
      Step s p ((s.goto p .release).setLock p (some (.proc p)))
  /-- `release(lk)` in `sleep`. -/
  | release {s : State} {p : Slot} (hpt : s.point p = .release) :
      Step s p { s.goto p .setChan with lk := none }
  /-- `p->chan = chan`. -/
  | setChan {s : State} {p : Slot} (hpt : s.point p = .setChan) :
      Step s p ((s.goto p .setState).setChan p (some ch))
  /-- `p->state = SLEEPING`. -/
  | setState {s : State} {p : Slot} (hpt : s.point p = .setState) :
      Step s p ((s.goto p .sched).setState p .sleeping)
  /-- `sched()`, and the scheduler's `release(&p->lock)`. -/
  | sched {s : State} {p : Slot} (hpt : s.point p = .sched) :
      Step s p ((s.goto p .off).setLock p none)
  /-- `acquire(&p->lock)` in `scheduler`. -/
  | schedLock {s : State} {p : Slot} (hlock : s.plock p = none) :
      Step s p (s.setLock p (some .scheduler))
  /-- `scheduler` finds the process not `RUNNABLE` and releases its lock. -/
  | schedSkip {s : State} {p : Slot} (hlock : s.plock p = some .scheduler) :
      Step s p (s.setLock p none)
  /-- `scheduler` switches to a `RUNNABLE` process. -/
  | schedRun {s : State} {p : Slot} (hpt : s.point p = .off)
      (hlock : s.plock p = some .scheduler) (hst : s.state p = .runnable) :
      Step s p (((s.goto p .tidy).setState p .running).setLock p (some (.proc p)))
  /-- `p->chan = 0`. -/
  | tidy {s : State} {p : Slot} (hpt : s.point p = .tidy) :
      Step s p ((s.goto p .unlock).setChan p none)
  /-- `release(&p->lock)` in `sleep`. -/
  | unlock {s : State} {p : Slot} (hpt : s.point p = .unlock) :
      Step s p ((s.goto p .relock).setLock p none)
  /-- `acquire(lk)` in `sleep`. -/
  | relock {s : State} {p : Slot} (hpt : s.point p = .relock) (hlk : s.lk = none) :
      Step s p { s.goto p (.crit ⟨false, false, false⟩) with lk := some p }
  /-- `kill` makes a sleeping process `RUNNABLE`. -/
  | kill {s : State} {p : Slot} (hlock : s.plock p = none) (hst : s.state p = .sleeping) :
      Step s p (s.setState p .runnable)

/-- Nobody sleeps and no lock is held. -/
def init (s : State) : Prop :=
  s.lk = none ∧ ∀ p, s.state p ≠ .sleeping ∧ s.plock p = none ∧ s.point p = .idle

/-- The channel `ch` and its users. -/
def system : Lib.Lts State Slot where
  init := init
  step := Step ch

/-! ### The invariant -/

/-- The thread holds `lk`. -/
def Point.holdsLk : Point → Bool
  | .crit _ | .scan _ _ | .visit _ _ | .visited _ _ | .sleep | .release => true
  | _ => false

/-- The thread holds its own process lock. -/
def Point.holdsSelf : Point → Bool
  | .release | .setChan | .setState | .sched | .tidy | .unlock => true
  | _ => false

/-- The thread is in `wakeup` and holds the lock of slot `i`. -/
def Point.holdsSlot : Point → Option Slot
  | .visit _ i | .visited _ i => some i
  | _ => none

/-- The thread may be marked `SLEEPING`. -/
def Point.maySleep : Point → Bool
  | .sched | .off => true
  | _ => false

/-- The thread has given up `lk` and is not yet marked `SLEEPING`. -/
def Point.entering : Point → Bool
  | .setChan | .setState => true
  | _ => false

/-- The session has made the condition true. -/
def Point.owed : Point → Bool
  | .crit c | .scan c _ | .visit c _ | .visited c _ => c.owed
  | _ => false

/-- The session has looked at slot `j` in a call of `wakeup`. -/
def Point.passed (j : Slot) : Point → Prop
  | .crit c => c.woken
  | .scan c i => c.woken ∨ j < i
  | .visit c i => c.woken ∨ (j : ℕ) < i
  | .visited c i => c.woken ∨ (j : ℕ) ≤ i
  | _ => False

/-- The process sleeps on the channel or is about to. -/
def Pending (s : State) (j : Slot) : Prop :=
  (s.point j).entering ∨ (s.state j = .sleeping ∧ s.chan j = some ch)

/-- The invariant: who holds which lock, and what a session knows about those that sleep. -/
structure Inv (s : State) : Prop where
  /-- `lk` is held by the thread whose point says so. -/
  lk : ∀ p, (s.point p).holdsLk ↔ s.lk = some p
  /-- A thread in `sleep` holds its own lock. -/
  self : ∀ p, (s.point p).holdsSelf → s.plock p = some (.proc p)
  /-- A thread in `wakeup` holds the lock of the slot it looks at. -/
  slot : ∀ p i, (s.point p).holdsSlot = some i → s.plock i = some (.proc p) ∧ i ≠ p
  /-- Only switched-out threads are `SLEEPING`. -/
  asleep : ∀ p, s.state p = .sleeping → (s.point p).maySleep
  /-- A thread goes to sleep on a false condition. -/
  cond : ∀ p, s.point p = .sleep ∨ s.point p = .release → s.cond = false
  /-- No process that a session has looked at sleeps. -/
  passed : ∀ p j, (s.point p).passed j → ¬ Pending ch s j
  /-- If the condition is true and no session has made it so, nobody sleeps. -/
  quiet : s.cond → (∀ p, (s.point p).owed = false) → ∀ j, ¬ Pending ch s j

variable {ch} {s s' : State} {p : Slot}

/-! ### What a step leaves alone -/

theorem Session.back_cases (c : Session) : c.back = .idle ∨ c.back = .relock := by
  unfold Session.back
  split <;> simp

variable {q j : Slot} {c : Session}

theorem Step.point_of_ne (hs : Step ch s p s') (hq : q ≠ p) : s'.point q = s.point q := by
  cases hs <;> simp [hq]

theorem Inv.plock_of_ne (h : Inv ch s) (hs : Step ch s p s') {i : Slot} (hq : q ≠ p)
    (hi : s.plock i = some (.proc q)) : s'.plock i = some (.proc q) := by
  -- the step changes at most one lock, which is free or held by `p` or by a scheduler
  have hframe : ∀ (j : Slot) (o : Option Holder), s.plock j ≠ some (.proc q) →
      Function.update s.plock j o i = some (.proc q) := fun j o hj => by
    rwa [Function.update_of_ne]
    rintro rfl
    exact hj hi
  have hself := h.self p
  have hslot := h.slot p
  cases hs with
  | lockSlot hpt hne hlock => exact hframe _ _ (by simp [hlock])
  | @unlockSlot j c hpt =>
    have hj : s.plock j = some (.proc p) := (hslot j (by simp [hpt, Point.holdsSlot])).1
    exact hframe _ _ (by simp [hj, hq.symm])
  | lockSelf hpt hlock => exact hframe _ _ (by simp [hlock])
  | sched hpt =>
    have hp := hself (by simp [hpt, Point.holdsSelf])
    exact hframe _ _ (by simp [hp, hq.symm])
  | schedLock hlock => exact hframe _ _ (by simp [hlock])
  | schedSkip hlock => exact hframe _ _ (by simp [hlock])
  | schedRun hpt hlock hst => exact hframe _ _ (by simp [hlock])
  | unlock hpt =>
    have hp := hself (by simp [hpt, Point.holdsSelf])
    exact hframe _ _ (by simp [hp, hq.symm])
  | _ => simpa using hi

theorem Inv.lk_unique (h : Inv ch s) {r : Slot} (hq : (s.point q).holdsLk)
    (hr : (s.point r).holdsLk) : q = r := by
  have h1 := (h.lk q).mp hq
  have h2 := (h.lk r).mp hr
  exact Option.some.inj (h1.symm.trans h2)

theorem Point.holdsLk_of_passed {pt : Point} (h : pt.passed j) : pt.holdsLk := by
  cases pt <;> simp_all [Point.passed, Point.holdsLk]

/-! ### Who becomes pending -/

theorem sleeping_of_wake {i : Slot} (h : (wake ch s i).state j = .sleeping) :
    s.state j = .sleeping := by
  unfold wake at h
  split at h
  · by_cases hj : j = i
    · subst hj
      simp at h
    · simpa [hj] using h
  · exact h

/-- The states after a step: only the step before `sched` makes a process `SLEEPING`. -/
theorem Step.sleeping (hs : Step ch s p s') (hj : s'.state j = .sleeping) :
    s.state j = .sleeping ∨ (j = p ∧ s.point j = .setState) := by
  by_cases hjp : j = p
  · subst hjp
    cases hs with
    | test hpt => exact .inl (sleeping_of_wake hj)
    | setState hpt => exact .inr ⟨rfl, hpt⟩
    | schedRun hpt hlock hst => simp at hj
    | kill hlock hst => simp at hj
    | _ => exact .inl (by simpa using hj)
  · cases hs with
    | test hpt => exact .inl (sleeping_of_wake hj)
    | _ => exact .inl (by simpa [hjp] using hj)

/-- Only giving up `lk` inside `sleep` makes a process pending. -/
theorem Step.pending (hs : Step ch s p s') (hj : Pending ch s' j) :
    Pending ch s j ∨ (j = p ∧ s.point j = .release) := by
  by_cases hjp : j = p
  · subst hjp
    rcases hj with hent | ⟨hst, hch⟩
    · cases hs with
      | release hpt => exact .inr ⟨rfl, hpt⟩
      | setChan hpt => exact .inl (.inl (by simp [hpt, Point.entering]))
      | @done c hpt hwake =>
        rcases c.back_cases with hb | hb <;> simp [hb, Point.entering] at hent
      | setFalse hpt => exact .inl (.inl hent)
      | schedLock hlock => exact .inl (.inl hent)
      | schedSkip hlock => exact .inl (.inl hent)
      | kill hlock hst => exact .inl (.inl hent)
      | _ => simp [Point.entering] at hent
    · rcases hs.sleeping hst with hold | ⟨-, hpt⟩
      · cases hs with
        | setChan hpt => exact .inl (.inl (by simp [hpt, Point.entering]))
        | tidy hpt => simp at hch
        | _ => exact .inl (.inr ⟨hold, by simpa using hch⟩)
      · exact .inl (.inl (by simp [hpt, Point.entering]))
  · left
    rcases hj with hent | ⟨hst, hch⟩
    · exact .inl (by rwa [hs.point_of_ne hjp] at hent)
    · rcases hs.sleeping hst with hold | ⟨hp, -⟩
      · refine .inr ⟨hold, ?_⟩
        cases hs <;> simpa [hjp] using hch
      · exact absurd hp hjp

/-! ### Each part of the invariant is kept -/

theorem Inv.step_lk (h : Inv ch s) (hs : Step ch s p s') (q : Slot) :
    (s'.point q).holdsLk ↔ s'.lk = some q := by
  have hq := h.lk q
  have hp := h.lk p
  rcases eq_or_ne q p with rfl | hqp
  · cases hs with
    | @done c hpt hwake =>
      rcases c.back_cases with hb | hb <;> simp [hb, Point.holdsLk]
    | _ => simp_all [Point.holdsLk]
  · have hne := hqp.symm
    cases hs <;> simp_all [Point.holdsLk]

theorem Inv.step_self (h : Inv ch s) (hs : Step ch s p s') (q : Slot)
    (hq : (s'.point q).holdsSelf) : s'.plock q = some (.proc q) := by
  rcases eq_or_ne q p with rfl | hqp
  · have hself := h.self q
    cases hs with
    | @done c hpt hwake =>
      rcases c.back_cases with hb | hb <;> simp [hb, Point.holdsSelf] at hq
    | _ => simp_all [Point.holdsSelf]
  · rw [hs.point_of_ne hqp] at hq
    exact h.plock_of_ne hs hqp (h.self q hq)

theorem Inv.step_slot (h : Inv ch s) (hs : Step ch s p s') (q i : Slot)
    (hq : (s'.point q).holdsSlot = some i) : s'.plock i = some (.proc q) ∧ i ≠ q := by
  rcases eq_or_ne q p with rfl | hqp
  · have hslot := h.slot q
    cases hs with
    | @done c hpt hwake =>
      rcases c.back_cases with hb | hb <;> simp [hb, Point.holdsSlot] at hq
    | _ => simp_all [Point.holdsSlot]
  · rw [hs.point_of_ne hqp] at hq
    obtain ⟨hi, hne⟩ := h.slot q i hq
    exact ⟨h.plock_of_ne hs hqp hi, hne⟩

theorem Inv.step_asleep (h : Inv ch s) (hs : Step ch s p s') (q : Slot)
    (hq : s'.state q = .sleeping) : (s'.point q).maySleep := by
  rcases hs.sleeping hq with hold | ⟨rfl, hpt⟩
  · have hmay := h.asleep q hold
    rcases eq_or_ne q p with rfl | hqp
    · cases hs <;> simp_all [Point.maySleep]
    · rwa [hs.point_of_ne hqp]
  · -- before this step the process was not `SLEEPING`
    have hmay := h.asleep q
    cases hs <;> simp_all [Point.maySleep]

theorem Inv.step_cond (h : Inv ch s) (hs : Step ch s p s') (q : Slot)
    (hq : s'.point q = .sleep ∨ s'.point q = .release) : s'.cond = false := by
  rcases eq_or_ne q p with rfl | hqp
  · have hcond := h.cond q
    cases hs with
    | @done c hpt hwake => rcases c.back_cases with hb | hb <;> simp [hb] at hq
    | _ => simp_all
  · rw [hs.point_of_ne hqp] at hq
    have hfalse := h.cond q hq
    have hheld : (s.point q).holdsLk := by rcases hq with hq | hq <;> simp [hq, Point.holdsLk]
    cases hs with
    | setTrue hpt => exact absurd (h.lk_unique hheld (by simp [hpt, Point.holdsLk])) hqp
    | setFalse hpt => rfl
    | _ => simpa using hfalse

/-- A thread that is executing `wakeup` is not itself pending. -/
theorem Inv.not_pending_of_session (h : Inv ch s) (hp : (s.point p).holdsLk) :
    ¬ Pending ch s p := by
  rintro (hent | ⟨hst, -⟩)
  · cases hpt : s.point p <;> simp_all [Point.holdsLk, Point.entering]
  · have hmay := h.asleep p hst
    cases hpt : s.point p <;> simp_all [Point.holdsLk, Point.maySleep]

/-- After its test a slot is not pending: the process was not inside the window of `sleep`, whose
lock the scan holds, and if it was `SLEEPING` on the channel it no longer is. -/
theorem Inv.not_pending_test (h : Inv ch s) {i : Slot} (hpt : s.point p = .visit c i) :
    ¬ Pending ch ((wake ch s i).goto p (.visited c i)) i := by
  obtain ⟨hlock, hne⟩ := h.slot p i (by simp [hpt, Point.holdsSlot])
  rintro (hent | ⟨hst, hch⟩)
  · have hself := h.self i (by
      cases hi : s.point i <;> simp_all [Point.entering, Point.holdsSelf])
    simp [hlock, hne.symm] at hself
  · simp only [State.goto_state, State.goto_chan, wake_chan] at hst hch
    unfold wake at hst
    split at hst
    · simp at hst
    · rename_i hnot
      exact hnot ⟨hst, hch⟩

theorem Inv.step_passed (h : Inv ch s) (hs : Step ch s p s') (q j : Slot)
    (hq : (s'.point q).passed j) : ¬ Pending ch s' j := by
  have hkeep : (s.point q).passed j → ¬ Pending ch s' j := fun hpass hpend => by
    rcases hs.pending hpend with hold | ⟨rfl, hpt⟩
    · exact h.passed q j hpass hold
    · -- the process that gives up `lk` is the one in the session
      have hj : (s.point j).holdsLk := by simp [hpt, Point.holdsLk]
      obtain rfl := h.lk_unique (Point.holdsLk_of_passed hpass) hj
      simp [hpt, Point.passed] at hpass
  rcases eq_or_ne q p with rfl | hqp
  · cases hs with
    | @skip c hpt =>
      rcases eq_or_ne j q with rfl | hjq
      · intro hpend
        refine h.not_pending_of_session (p := j) (by simp [hpt, Point.holdsLk]) ?_
        rcases (Step.skip hpt).pending hpend with hold | ⟨-, hrel⟩
        · exact hold
        · simp [hpt] at hrel
      · refine hkeep ?_
        have hne : (j : ℕ) ≠ q := fun he => hjq (Fin.ext he)
        simp only [State.goto_point, Function.update_self, Point.passed] at hq
        simp only [hpt, Point.passed]
        exact hq.imp_right fun hlt => by omega
    | @test i c hpt =>
      rcases eq_or_ne j i with rfl | hji
      · exact h.not_pending_test hpt
      · refine hkeep ?_
        have hne : (j : ℕ) ≠ i := fun he => hji (Fin.ext he)
        simp only [State.goto_point, Function.update_self, Point.passed] at hq
        simp only [hpt, Point.passed]
        exact hq.imp_right fun hlt => by omega
    | @unlockSlot i c hpt =>
      refine hkeep ?_
      simp only [State.setLock_point, State.goto_point, Function.update_self,
        Point.passed] at hq
      simp only [hpt, Point.passed]
      exact hq.imp_right fun hlt => by omega
    | @wakeupDone c i hpt hi =>
      refine hkeep ?_
      simp only [hpt, Point.passed]
      exact .inr (j.isLt.trans_le hi)
    | @done c hpt hwake =>
      rcases c.back_cases with hb | hb <;> simp [hb, Point.passed] at hq
    | _ => exact hkeep (by simp_all [Point.passed])
  · rw [hs.point_of_ne hqp] at hq
    exact hkeep hq

theorem Inv.step_quiet (h : Inv ch s) (hs : Step ch s p s') (hcond : s'.cond)
    (howed : ∀ q, (s'.point q).owed = false) (j : Slot) : ¬ Pending ch s' j := by
  intro hpend
  rcases hs.pending hpend with hold | ⟨rfl, hpt⟩
  · -- the sessions of the others have not made the condition true either
    have hothers : (s.point p).owed = false → s.cond → False := fun hp hc => by
      refine h.quiet hc (fun q => ?_) j hold
      rcases eq_or_ne q p with rfl | hqp
      · exact hp
      · rw [← hs.point_of_ne hqp]
        exact howed q
    have hp := howed p
    cases hs with
    | @done c hpt hwake =>
      cases ho : c.owed with
      | true => exact h.passed p j (by simpa [hpt, Point.passed] using hwake ho) hold
      | false => exact hothers (by simp [hpt, Point.owed, ho]) hcond
    | sleep hpt hh hfalse => simp [hfalse] at hcond
    | setTrue hpt => simp [Point.owed] at hp
    | setFalse hpt => simp at hcond
    | _ => exact hothers (by simp_all [Point.owed]) (by simpa using hcond)
  · have hfalse := h.cond j (.inr hpt)
    cases hs <;> simp_all

theorem Inv.step (h : Inv ch s) (hs : Step ch s p s') : Inv ch s' where
  lk := h.step_lk hs
  self := h.step_self hs
  slot := h.step_slot hs
  asleep := h.step_asleep hs
  cond := h.step_cond hs
  passed := h.step_passed hs
  quiet := h.step_quiet hs

theorem Inv.of_init (h : init s) : Inv ch s := by
  obtain ⟨hlk, hall⟩ := h
  have hpt : ∀ p, s.point p = .idle := fun p => (hall p).2.2
  have hnone : ∀ j, ¬ Pending ch s j := by
    rintro j (hent | ⟨hst, -⟩)
    · simp [hpt, Point.entering] at hent
    · exact (hall j).1 hst
  refine ⟨?_, ?_, ?_, ?_, ?_, ?_, fun _ _ j => hnone j⟩
  · intro p
    simp [hpt, hlk, Point.holdsLk]
  · intro p hp
    simp [hpt, Point.holdsSelf] at hp
  · intro p i hp
    simp [hpt, Point.holdsSlot] at hp
  · intro p hst
    exact absurd hst (hall p).1
  · intro p hp
    simp [hpt] at hp
  · intro p j hp
    simp [hpt, Point.passed] at hp

theorem inv_of_reach (h : (system ch).Reach s) : Inv ch s :=
  h.induct (fun _ h0 => .of_init h0) fun _ _ _ _ hI hs => hI.step hs

/-- No wakeup is lost: when `lk` is free and the condition is true, no process sleeps on the
channel. Source: `proc.c` `sleep`, `wakeup`. -/
theorem no_lost_wakeup (h : (system ch).Reach s) (hlk : s.lk = none) (hcond : s.cond = true)
    (p : Slot) : ¬ (s.state p = .sleeping ∧ s.chan p = some ch) := by
  have hI := inv_of_reach h
  intro hsleep
  refine hI.quiet hcond (fun q => ?_) p (.inr hsleep)
  -- nobody is in a session
  have hq : ¬ (s.point q).holdsLk := fun hq => by simpa [hlk] using (hI.lk q).mp hq
  cases hpt : s.point q <;> simp_all [Point.holdsLk, Point.owed]

/-! ### A process is woken -/

/-- What is left of the state by a call of `wakeup` while no process lock is held: only processes that
slept on the channel may have become `RUNNABLE`. -/
structure Scanned (s s' : State) (p : Slot) : Prop where
  others : ∀ q, q ≠ p → s'.point q = s.point q
  free : ∀ q, s'.plock q = none
  lk : s'.lk = s.lk
  cond : s'.cond = s.cond
  chan : s'.chan = s.chan
  state : ∀ q, s'.state q = s.state q ∨ s'.state q = .runnable

/-- One slot of `wakeup`. -/
theorem reach_slot (h : (system ch).Reach s) {i : Slot} (hpt : s.point p = .scan c i)
    (hfree : ∀ q, s.plock q = none) :
    ∃ s', (system ch).Reach s' ∧ s'.point p = .scan c (i + 1) ∧ Scanned s s' p := by
  by_cases hi : i = p
  · subst hi
    exact ⟨_, h.step (.skip hpt), by simp, ⟨fun q hq => by simp [hq], hfree, rfl, rfl, rfl,
      fun q => .inl rfl⟩⟩
  · have h1 := h.step (.lockSlot hpt hi (hfree i))
    have h2 := h1.step (.test (p := p) (i := i) (c := c) (by simp))
    have h3 := h2.step (.unlockSlot (p := p) (i := i) (c := c) (by simp))
    refine ⟨_, h3, by simp, ⟨fun q hq => by simp [hq], fun q => ?_, by simp, by simp, by simp,
      fun q => ?_⟩⟩
    · rcases eq_or_ne q i with rfl | hq
      · simp
      · simp [hq, hfree]
    · rcases eq_or_ne q i with rfl | hq <;> unfold wake <;> split <;> simp [*]

/-- The rest of the scan. -/
theorem reach_scan (n : ℕ) (h : (system ch).Reach s) {i : ℕ} (hi : i + n = NPROC)
    (hpt : s.point p = .scan c i) (hfree : ∀ q, s.plock q = none) :
    ∃ s', (system ch).Reach s' ∧ s'.point p = .scan c NPROC ∧ Scanned s s' p := by
  induction n generalizing i s with
  | zero =>
    obtain rfl : i = NPROC := hi
    exact ⟨s, h, hpt, fun _ _ => rfl, hfree, rfl, rfl, rfl, fun _ => .inl rfl⟩
  | succ n ih =>
    obtain ⟨s₁, h₁, hpt₁, hs₁⟩ := reach_slot (i := ⟨i, by omega⟩) h hpt hfree
    obtain ⟨s₂, h₂, hpt₂, hs₂⟩ := ih (i := i + 1) h₁ (by omega) hpt₁ hs₁.free
    refine ⟨s₂, h₂, hpt₂, fun q hq => (hs₂.others q hq).trans (hs₁.others q hq), hs₂.free,
      hs₂.lk.trans hs₁.lk, hs₂.cond.trans hs₁.cond, hs₂.chan.trans hs₁.chan, fun q => ?_⟩
    rcases hs₂.state q with h2 | h2
    · rcases hs₁.state q with h1 | h1
      · exact .inl (h2.trans h1)
      · exact .inr (h2.trans h1)
    · exact .inr h2

/-- Process 0 finds the condition false and sleeps; process 1 makes it true and calls `wakeup`. -/
theorem no_lost_wakeup_woken :
    ∃ s, (system (.other 0)).Reach s ∧ s.lk = none ∧ s.cond = true ∧
      s.point ⟨0, by decide⟩ = .off ∧ s.chan ⟨0, by decide⟩ = some (.other 0) ∧
      s.state ⟨0, by decide⟩ = .runnable := by
  let p : Slot := ⟨0, by decide⟩
  let q : Slot := ⟨1, by decide⟩
  have hqp : q ≠ p := by decide
  have h0 : (system (.other 0)).Reach ⟨none, false, fun _ => .running, fun _ => none,
      fun _ => none, fun _ => .idle⟩ := .init ⟨rfl, fun p => ⟨by simp, rfl, rfl⟩⟩
  have h1 := h0.step (.acquire (p := p) rfl rfl)
  have h2 := h1.step (.sleep (p := p) (c := ⟨false, false, false⟩) (by simp) rfl rfl)
  have h3 := h2.step (.lockSelf (p := p) (by simp) rfl)
  have h4 := h3.step (.release (p := p) (by simp))
  have h5 := h4.step (.setChan (p := p) (by simp))
  have h6 := h5.step (.setState (p := p) (by simp))
  have h7 := h6.step (.sched (p := p) (by simp))
  have h8 := h7.step (.acquire (p := q) (by simp [hqp]) rfl)
  have h9 := h8.step (.setTrue (p := q) (c := ⟨false, false, false⟩) (by simp))
  have h10 := h9.step (.wakeup (p := q) (c := ⟨true, false, false⟩) (by simp))
  obtain ⟨s, h11, hpt, hs⟩ := reach_scan NPROC h10 (p := q) (i := 0)
    (c := ⟨true, false, false⟩) (by simp) (by simp) (fun r => by rcases eq_or_ne r p with rfl | hr <;> simp [*])
  have hs12 : Step (.other 0) s q (s.goto q (.crit ⟨true, true, false⟩)) := .wakeupDone hpt le_rfl
  have hs13 : Step (.other 0) (s.goto q (.crit ⟨true, true, false⟩)) q _ :=
    .done (c := ⟨true, true, false⟩) (by simp) fun _ => rfl
  have h13 := (h11.step hs12).step hs13
  have hcond : s.cond = true := hs.cond
  have hchan : s.chan p = some (.other 0) := by rw [hs.chan]; simp
  have hoff : s.point p = .off := by rw [hs.others p hqp.symm]; simp [hqp.symm]
  refine ⟨_, h13, rfl, hcond, ?_, hchan, ?_⟩
  · exact (hs13.point_of_ne hqp.symm).trans ((hs12.point_of_ne hqp.symm).trans hoff)
  -- it slept, and no process sleeps now
  · refine (hs.state p).resolve_left fun hst => ?_
    exact no_lost_wakeup h13 rfl hcond p ⟨hst.trans (by simp), hchan⟩

end Xv6.Sched.Sleep
