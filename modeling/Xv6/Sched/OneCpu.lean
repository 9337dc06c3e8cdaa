import Xv6.Sched.Model

/-!
# One CPU per process

In every reachable state a process is current on at most one CPU, and while its lock is free it is
current on some CPU exactly if its state is `RUNNING` (`one_cpu_per_process`). The lock is what makes
this hard to say: `p->lock` is taken by one thread and released by another across `swtch`, so
`Inv` records for each lock that is held which hand-off (or which `fork`) its holder is in
(`Inv.locked`), and what the state of the process is during each of them.

The invariant reads only five things of a state: the current process and mode of each CPU, and the
state, lock and kernel-thread point of each process. The step lemmas below are one for each way a
section can change these; `inv_step` then only has to say which of them a section is.

What `fork`, `exit` and `wait` do to the process table is said once, by `Effect`: a section either leaves
the rows of the table alone (as far as `Row` records them), or it is one of seven changes, each with what
was true before it.
-/

set_option linter.unusedSectionVars false

namespace Xv6.Sched

variable {C : Type} [DecidableEq C]

namespace State

variable (s : State C)

@[simp, grind =] theorem setProc_cpus (p : Slot) (c : C) (r : Proc) :
    (s.setProc p r).cpus c = s.cpus c := rfl

@[simp, grind =] theorem setProc_lock (p q : Slot) (r : Proc) :
    (s.setProc p r).lock q = s.lock q := rfl

@[simp, grind =] theorem setProc_procs (p q : Slot) (r : Proc) :
    (s.setProc p r).procs q = if q = p then r else s.procs q := by
  simp [setProc, Function.update_apply]

@[simp, grind =] theorem setCpu_cpus (c d : C) (r : Cpu) :
    (s.setCpu c r).cpus d = if d = c then r else s.cpus d := by
  simp [setCpu, Function.update_apply]

@[simp, grind =] theorem setCpu_lock (c : C) (q : Slot) (r : Cpu) :
    (s.setCpu c r).lock q = s.lock q := rfl

@[simp, grind =] theorem setCpu_procs (c : C) (q : Slot) (r : Cpu) :
    (s.setCpu c r).procs q = s.procs q := rfl

@[simp, grind =] theorem setLock_cpus (p : Slot) (c : C) (h : Option C) :
    (s.setLock p h).cpus c = s.cpus c := rfl

@[simp, grind =] theorem setLock_procs (p q : Slot) (h : Option C) :
    (s.setLock p h).procs q = s.procs q := rfl

@[simp, grind =] theorem setLock_lock (p q : Slot) (h : Option C) :
    (s.setLock p h).lock q = if q = p then h else s.lock q := by
  simp [setLock, Function.update_apply]

end State

open State

/-! ### The invariant -/

/-- The slot a kernel thread is creating, while it is inside `fork`. -/
def Point.creating : Point → Option Slot
  | .forkAlloc np | .forkParent np | .forkRunnable np => some np
  | _ => none

/-- The process a mode is about. -/
def Mode.slot : Mode → Option Slot
  | .scheduler => none
  | .entering p | .process p | .leaving p => some p

/-- The states in which a process hands its CPU back. -/
def parked : ProcState → Prop
  | .runnable | .sleeping | .zombie => True
  | _ => False

/-- What holds between any two sections. -/
structure Inv (s : State C) : Prop where
  /-- `c->proc` is the process whose thread, or hand-off, the CPU executes. -/
  proc_eq : ∀ c, (s.cpus c).proc = (s.cpus c).mode.slot
  /-- A process is current on at most one CPU. -/
  unique : ∀ c c' p, (s.cpus c).proc = some p → (s.cpus c').proc = some p → c = c'
  /-- During the hand-off to a process its lock is held by the CPU it starts on. -/
  entering : ∀ c p, (s.cpus c).mode = .entering p →
    (s.procs p).state = .running ∧ s.lock p = some c
  /-- A process whose thread executes is running. -/
  process : ∀ c p, (s.cpus c).mode = .process p → (s.procs p).state = .running
  /-- During the hand-off from a process its lock is held by the CPU it leaves. -/
  leaving : ∀ c p, (s.cpus c).mode = .leaving p →
    parked (s.procs p).state ∧ s.lock p = some c
  /-- A running process is on a CPU. -/
  running : ∀ p, (s.procs p).state = .running → ∃ c, (s.cpus c).proc = some p
  /-- A lock held between sections belongs to a hand-off or to a `fork`. -/
  locked : ∀ p c, s.lock p = some c → (s.cpus c).mode = .entering p ∨
    (s.cpus c).mode = .leaving p ∨
    ∃ q, (s.cpus c).mode = .process q ∧ (s.procs q).point = .forkAlloc p
  /-- A process being created is `USED`, and its creator can still run. -/
  creating : ∀ q np, (s.procs q).point.creating = some np → (s.procs np).state = .used ∧
    ((s.procs q).state = .running ∨ (s.procs q).state = .runnable)
  /-- A process is being created by at most one other. -/
  creator : ∀ q q' np, (s.procs q).point.creating = some np →
    (s.procs q').point.creating = some np → q = q'
  /-- After `allocproc` the creator runs and its CPU holds the new process's lock. -/
  alloc : ∀ q np, (s.procs q).point = .forkAlloc np →
    ∃ c, (s.cpus c).mode = .process q ∧ s.lock np = some c

variable {s s' : State C} {c : C} {p np : Slot} {r : Proc} {l : Label C}

/-- A process that a CPU has as current is running, or it is on its way off that CPU. -/
theorem Inv.current (h : Inv s) (hc : (s.cpus c).proc = some p) :
    (s.procs p).state = .running ∨ parked (s.procs p).state ∧ s.lock p = some c := by
  rw [h.proc_eq] at hc
  cases hm : (s.cpus c).mode with
  | scheduler => simp [hm, Mode.slot] at hc
  | entering q =>
    obtain rfl : q = p := by simpa [hm, Mode.slot] using hc
    exact .inl (h.entering c q hm).1
  | process q =>
    obtain rfl : q = p := by simpa [hm, Mode.slot] using hc
    exact .inl (h.process c q hm)
  | leaving q =>
    obtain rfl : q = p := by simpa [hm, Mode.slot] using hc
    exact .inr (h.leaving c q hm)

theorem Inv.ne_used (h : Inv s) (hc : (s.cpus c).proc = some p) : (s.procs p).state ≠ .used := by
  intro hu
  rcases h.current hc with hrun | ⟨hpark, -⟩
  · simp [hu] at hrun
  · simp [hu, parked] at hpark

/-- While its lock is free, a process is current on some CPU exactly if it is running. -/
theorem Inv.current_iff_running (h : Inv s) (hfree : s.lock p = none) :
    (∃ c, (s.cpus c).proc = some p) ↔ (s.procs p).state = .running := by
  refine ⟨fun ⟨c, hc⟩ => (h.current hc).resolve_right fun hpark => ?_, h.running p⟩
  simp [hfree] at hpark

theorem inv_boot (p : Slot) : Inv (boot C p) := by
  have hstate : ∀ q, ((boot C p).procs q).state ≠ .running := by
    intro q
    simp only [boot]
    split <;> simp
  constructor <;> intros <;> simp_all [boot, Mode.slot, Point.creating]

/-! ### One lemma for each kind of change -/

/-- Only the five components the invariant reads matter. -/
theorem Inv.congr (h : Inv s) (hcpus : s'.cpus = s.cpus) (hlock : s'.lock = s.lock)
    (hproc : ∀ p, (s'.procs p).state = (s.procs p).state ∧
      (s'.procs p).point = (s.procs p).point) : Inv s' := by
  have hst : ∀ p, (s'.procs p).state = (s.procs p).state := fun p => (hproc p).1
  have hpt : ∀ p, (s'.procs p).point = (s.procs p).point := fun p => (hproc p).2
  constructor <;> simp only [hcpus, hlock, hst, hpt]
  · exact h.proc_eq
  · exact h.unique
  · exact h.entering
  · exact h.process
  · exact h.leaving
  · exact h.running
  · exact h.locked
  · exact h.creating
  · exact h.creator
  · exact h.alloc

theorem Inv.wake (h : Inv s) (hfree : s.lock p = none) (hsleep : (s.procs p).state = .sleeping)
    (hr : r.state = .runnable) (hpt : r.point = (s.procs p).point) : Inv (s.setProc p r) := by
  cases h
  constructor <;> simp only [setProc_cpus, setProc_lock, setProc_procs] <;> grind

/-- `scheduler` picks a runnable process: lock, state, `c->proc` and the hand-off in one section. -/
theorem Inv.dispatch (h : Inv s) (hmode : (s.cpus c).mode = .scheduler) (hfree : s.lock p = none)
    (hst : (s.procs p).state = .runnable) (hr : r.state = .running)
    (hpt : r.point = (s.procs p).point) :
    Inv (((s.setProc p r).setLock p (some c)).setCpu c
      { proc := some p, mode := .entering p }) := by
  -- nobody has `p` as current: its lock is free and it is not running
  have hnone : ∀ d, (s.cpus d).proc ≠ some p := by
    intro d hd
    have := (h.current_iff_running hfree).mp ⟨d, hd⟩
    rw [hst] at this
    cases this
  cases h
  constructor <;> simp only [setProc_cpus, setProc_lock, setProc_procs, setCpu_cpus, setCpu_lock,
    setCpu_procs, setLock_cpus, setLock_lock, setLock_procs]
  all_goals grind [Mode.slot]

theorem Inv.resume (h : Inv s) (hmode : (s.cpus c).mode = .entering p)
    (hst : r.state = (s.procs p).state) (hpt : r.point = (s.procs p).point) :
    Inv (((s.setProc p r).setLock p none).setCpu c { s.cpus c with mode := .process p }) := by
  cases h
  constructor <;> simp only [setProc_cpus, setProc_lock, setProc_procs, setCpu_cpus, setCpu_lock,
    setCpu_procs, setLock_cpus, setLock_lock, setLock_procs]
  all_goals grind [Mode.slot]

/-- The scheduler switched to forgets the process and releases its lock. -/
theorem Inv.park (h : Inv s) (hmode : (s.cpus c).mode = .leaving p) :
    Inv ((s.setLock p none).setCpu c { proc := none, mode := .scheduler }) := by
  have hst := (h.leaving c p hmode).1
  cases h
  constructor <;> simp only [setCpu_cpus, setCpu_lock, setCpu_procs, setLock_cpus, setLock_lock,
    setLock_procs]
  all_goals grind [Mode.slot, parked]

/-- The running process gives up its CPU: it takes its own lock and passes it to the scheduler. A
process in `fork` can only do so by yielding, past the point where it holds the new process's
lock. -/
theorem Inv.sched (h : Inv s) (hmode : (s.cpus c).mode = .process p) (hfree : s.lock p = none)
    (hst : parked r.state) (hpt : ∀ np, (s.procs p).point ≠ .forkAlloc np)
    (hpt' : ∀ np, r.point ≠ .forkAlloc np)
    (hcre : ∀ np, r.point.creating = some np →
      (s.procs p).point.creating = some np ∧ r.state = .runnable) : Inv (Sched.sched s c p r) := by
  unfold Sched.sched
  cases h
  constructor <;> simp only [setProc_cpus, setProc_lock, setProc_procs, setCpu_cpus, setCpu_lock,
    setCpu_procs, setLock_cpus, setLock_lock, setLock_procs]
  all_goals grind [Mode.slot, parked, Point.creating]

theorem Inv.goto (h : Inv s) (pt : Point) (hmode : (s.cpus c).mode = .process p)
    (hpt : ∀ np, (s.procs p).point ≠ .forkAlloc np) (hpt' : ∀ np, pt ≠ .forkAlloc np)
    (hcre : ∀ np, pt.creating = some np → (s.procs p).point.creating = some np) :
    Inv (s.goto p pt) := by
  unfold State.goto
  cases h
  constructor <;> simp only [setProc_cpus, setProc_lock, setProc_procs]
  all_goals grind [Point.creating]

theorem Inv.ne_of_state (h : Inv s) {q : Slot} (hmode : (s.cpus c).mode = .process p)
    (hq : (s.procs q).state ≠ .running) : p ≠ q := by
  rintro rfl
  exact hq (h.process c p hmode)

theorem Inv.forkAlloc (h : Inv s) (hmode : (s.cpus c).mode = .process p)
    (hpt : (s.procs p).point = .user) (hfree : s.lock np = none)
    (hst : (s.procs np).state = .unused) (hr : r.state = .used) (hrpt : r.point = .user) :
    Inv (((s.setProc np r).setLock np (some c)).goto p (.forkAlloc np)) := by
  have hne : p ≠ np := h.ne_of_state hmode (by simp [hst])
  unfold State.goto
  cases h
  constructor <;> simp only [setProc_cpus, setProc_lock, setProc_procs, setLock_cpus, setLock_lock,
    setLock_procs]
  all_goals grind [Point.creating, Mode.slot, parked]

/-- `fork` gives up its hold on the new process's lock: the slot is freed again (memory ran out), or
kept for the rest of `fork`. -/
theorem Inv.forkLeave (h : Inv s) {pt : Point} (hmode : (s.cpus c).mode = .process p)
    (hpt : (s.procs p).point = .forkAlloc np) (hr : r.point = (s.procs np).point)
    (hkeep : (pt = .user ∧ r.state = .unused) ∨ (pt = .forkParent np ∧ r.state = .used)) :
    Inv (((s.setProc np r).setLock np none).goto p pt) := by
  have hused : (s.procs np).state = .used := (h.creating p np (by simp [hpt, Point.creating])).1
  have hne : p ≠ np := h.ne_of_state hmode (by simp [hused])
  have hnone : ∀ d, (s.cpus d).proc ≠ some np := fun d hd => h.ne_used hd hused
  obtain ⟨d, hd, hdl⟩ := h.alloc p np hpt
  obtain rfl : d = c := h.unique d c p (by simp [h.proc_eq, hd, Mode.slot])
    (by simp [h.proc_eq, hmode, Mode.slot])
  unfold State.goto
  cases h
  constructor <;> simp only [setProc_cpus, setProc_lock, setProc_procs, setLock_cpus, setLock_lock,
    setLock_procs]
  all_goals grind [Point.creating, Mode.slot, parked]

theorem Inv.forkRunnable (h : Inv s) (hmode : (s.cpus c).mode = .process p)
    (hpt : (s.procs p).point = .forkRunnable np) (hfree : s.lock np = none)
    (hr : r.state = .runnable) (hrpt : r.point = (s.procs np).point) :
    Inv ((s.setProc np r).goto p .user) := by
  have hused : (s.procs np).state = .used := (h.creating p np (by simp [hpt, Point.creating])).1
  have hne : p ≠ np := h.ne_of_state hmode (by simp [hused])
  unfold State.goto
  cases h
  constructor <;> simp only [setProc_cpus, setProc_lock, setProc_procs]
  all_goals grind [Point.creating, Mode.slot, parked]

theorem Inv.reap (h : Inv s) (hfree : s.lock np = none) (hst : (s.procs np).state = .zombie)
    (hr : r.state = .unused) (hrpt : r.point = (s.procs np).point) : Inv (s.setProc np r) := by
  cases h
  constructor <;> simp only [setProc_cpus, setProc_lock, setProc_procs]
  all_goals grind [Point.creating, Mode.slot, parked]

/-! ### Every section preserves the invariant -/

theorem Inv.withLocks (h : Inv s) (w : Option Slot) (n : ℤ) :
    Inv { s with waitLock := w, nextpid := n } :=
  h.congr rfl rfl fun _ => ⟨rfl, rfl⟩

theorem Inv.waitScan (h : Inv s) {addr i : ℕ} {havekids copied : Bool}
    (hmode : (s.cpus c).mode = .process p) (hpt : (s.procs p).point = .waitScan addr i havekids)
    (hs : Sched.waitScan s c p addr i havekids copied = some s') : Inv s' := by
  have hnf : ∀ np, (s.procs p).point ≠ .forkAlloc np := by simp [hpt]
  have hmove : ∀ pt : Point, (∀ np, pt ≠ .forkAlloc np) → pt.creating = none →
      Inv (s.goto p pt) := fun pt h1 h2 =>
    h.goto pt hmode hnf h1 (by simp [h2])
  have huser : Inv (s.goto p .user) := hmove _ (by simp) rfl
  simp only [Sched.waitScan] at hs
  split at hs
  · rename_i hi
    split_ifs at hs with hkid hfree hz hcopy
    · cases hs; exact huser.withLocks none _
    · -- the zombie is reaped; the reaper is another process, since it runs
      cases hs
      have hne : p ≠ ⟨i, hi⟩ := by
        rintro rfl
        have := h.process c _ hmode
        rw [hz] at this
        cases this
      have hreap : Inv (s.setProc ⟨i, hi⟩ (freeproc (s.procs ⟨i, hi⟩))) :=
        h.reap hfree hz rfl rfl
      have hgo := hreap.goto .user (c := c) hmode (by simp [hne, hpt]) (by simp)
        (by simp [Point.creating])
      exact hgo.withLocks none _
    · cases hs; exact hmove _ (by simp) rfl
    · cases hs; exact hmove _ (by simp) rfl
  · split_ifs at hs with hend hfree
    · cases hs; exact huser.withLocks none _
    · cases hs
      exact (h.sched hmode hfree (by simp [parked]) hnf (by simp)
        (by simp [Point.creating])).withLocks none _

theorem Inv.stepProcess (h : Inv s) (hmode : (s.cpus c).mode = .process p)
    (hs : Sched.stepProcess s c p l = some s') : Inv s' := by
  cases l <;> simp only [Sched.stepProcess, reduceCtorEq] at hs
  case yield =>
    split_ifs at hs with hg
    cases hs
    have hnf : ∀ np, (s.procs p).point ≠ .forkAlloc np := by
      intro np hnp
      simp [hnp, Point.preemptible] at hg
    exact h.sched hmode hg.2 (by simp [parked]) hnf (by simpa using hnf)
      (by simp)
  case sleep =>
    split_ifs at hs with hg
    cases hs
    exact h.sched hmode hg.2 (by simp [parked]) (by simp [hg.1]) (by simp [hg.1])
      (by simp [hg.1, Point.creating])
  case forkAlloc np =>
    split_ifs at hs with hg
    cases hs
    exact (h.forkAlloc hmode hg.1 hg.2.1 hg.2.2 rfl rfl).withLocks _ _
  case forkFail =>
    split at hs <;> cases hs
    rename_i np hpt
    exact h.forkLeave hmode hpt rfl (Or.inl ⟨rfl, rfl⟩)
  case forkRelease =>
    split at hs <;> cases hs
    rename_i np hpt
    have hused := (h.creating p np (by simp [hpt, Point.creating])).1
    have := h.forkLeave (r := s.procs np) hmode hpt rfl (Or.inr ⟨rfl, hused⟩)
    refine this.congr rfl rfl fun q => ?_
    by_cases hq : q = p <;> by_cases hq' : q = np <;> simp_all [State.goto]
  case forkParent =>
    split at hs <;> [skip; cases hs]
    rename_i np hpt
    split_ifs at hs
    cases hs
    have hgo := h.goto (.forkRunnable np) hmode (by simp [hpt]) (by simp)
      (by simp [hpt, Point.creating])
    refine hgo.congr rfl rfl fun q => ?_
    by_cases hq : q = p <;> by_cases hq' : q = np <;> by_cases hpn : p = np <;>
      simp_all [State.goto]
  case forkRunnable =>
    split at hs <;> [skip; cases hs]
    rename_i np hpt
    split_ifs at hs with hfree
    cases hs
    exact h.forkRunnable hmode hpt hfree rfl rfl
  case exitLock | waitLock =>
    split_ifs at hs with hg
    cases hs
    exact (h.goto _ hmode (by simp [hg.1]) (by simp) (by simp [Point.creating])).withLocks _ _
  case exitReparent =>
    split_ifs at hs with hg
    cases hs
    have hrep : ∀ q, (reparent s.initproc p s.procs q).state = (s.procs q).state ∧
        (reparent s.initproc p s.procs q).point = (s.procs q).point := by
      intro q
      unfold reparent
      split <;> simp
    have h' : Inv { s with procs := reparent s.initproc p s.procs } := h.congr rfl rfl hrep
    exact h'.goto _ hmode (by simp [hrep, hg]) (by simp) (by simp [Point.creating])
  case exitZombie =>
    split_ifs at hs with hg
    cases hs
    exact (h.sched hmode hg.2 (by simp [parked]) (by simp [hg.1]) (by simp)
      (by simp [Point.creating])).withLocks _ _
  case waitScan =>
    split at hs <;> [skip; cases hs]
    rename_i addr i havekids hpt
    exact h.waitScan hmode hpt hs
  case waitRelock =>
    split at hs <;> [skip; cases hs]
    rename_i addr hpt
    split_ifs at hs
    cases hs
    exact (h.goto _ hmode (by simp [hpt]) (by simp) (by simp [Point.creating])).withLocks _ _

theorem inv_step (h : Inv s) (hs : step l s = some s') : Inv s' := by
  unfold step at hs
  split at hs
  case h_1 c p =>
    split at hs <;> [skip; cases hs]
    rename_i hmode
    split_ifs at hs with hfree hst
    · cases hs; exact h.dispatch hmode hfree hst rfl rfl
    · cases hs; exact h
  case h_2 c =>
    split at hs <;> cases hs
    rename_i p hmode
    refine h.resume hmode ?_ ?_ <;> split <;> rfl
  case h_3 c =>
    split at hs <;> cases hs
    rename_i p hmode
    exact h.park hmode
  case h_4 c ch p =>
    split_ifs at hs with hg
    cases hs
    unfold wakeup1
    split_ifs with hsl
    · exact h.wake hg.2.2 hsl.1 rfl rfl
    · exact h.congr rfl rfl fun q => by by_cases hq : q = p <;> simp_all
  case h_5 c pid p =>
    split at hs <;> [skip; cases hs]
    split_ifs at hs with hg
    cases hs
    by_cases hwake : (s.procs p).pid = pid ∧ (s.procs p).state = .sleeping
    · exact h.wake hg.2 hwake.2 (by simp [kill1, hwake]) (by simp [kill1, hwake])
    · refine h.congr rfl rfl fun q => ?_
      by_cases hq : q = p
      · subst hq
        by_cases hpid : (s.procs q).pid = pid <;> simp_all [kill1]
      · simp [hq]
  case h_6 =>
    split at hs <;> [skip; cases hs]
    rename_i p hmode
    exact h.stepProcess hmode hs

theorem inv_reach (h : (system C).Reach s) : Inv s := by
  refine Lib.Lts.Reach.induct (I := Inv) ?_ ?_ h
  · rintro _ ⟨p, rfl⟩
    exact inv_boot p
  · intro t l t' _ hi hs
    exact inv_step hi hs

/-! ### Rows of the process table -/

/-- The stages of a process's life. -/
inductive Kind
  /-- `UNUSED`. -/
  | free
  /-- `USED`: being created. -/
  | new
  /-- `SLEEPING`, `RUNNABLE` or `RUNNING`. -/
  | live
  /-- `ZOMBIE`. -/
  | zombie
  deriving DecidableEq

/-- The stage a state belongs to. -/
def kindOf : ProcState → Kind
  | .unused => .free
  | .used => .new
  | .sleeping | .runnable | .running => .live
  | .zombie => .zombie

/-- What `fork`, `exit` and `wait` read and write of a process. -/
structure Row where
  /-- The stage of its life. -/
  kind : Kind
  /-- Process id. -/
  pid : ℤ
  /-- Exit status. -/
  xstate : ℤ
  /-- Parent process. -/
  parent : Option Slot

/-- The row of a process. -/
def Proc.row (r : Proc) : Row := ⟨kindOf r.state, r.pid, r.xstate, r.parent⟩

/-- The row `freeproc` leaves. -/
def Row.empty : Row := ⟨.free, 0, 0, none⟩

namespace State

/-- The rows of the table. -/
def rows (s : State C) : Slot → Row := fun q => (s.procs q).row

@[simp] theorem rows_setProc (s : State C) (p : Slot) (r : Proc) :
    (s.setProc p r).rows = Function.update s.rows p r.row := by
  funext q
  by_cases hq : q = p
  · subst hq
    simp [rows]
  · simp [rows, hq]

@[simp] theorem rows_setLock (s : State C) (p : Slot) (h : Option C) :
    (s.setLock p h).rows = s.rows := rfl

@[simp] theorem rows_setCpu (s : State C) (c : C) (r : Cpu) : (s.setCpu c r).rows = s.rows := rfl

@[simp] theorem rows_goto (s : State C) (p : Slot) (pt : Point) : (s.goto p pt).rows = s.rows := by
  rw [goto, rows_setProc]
  exact Function.update_eq_self p s.rows

@[simp] theorem rows_sched (s : State C) (c : C) (p : Slot) (r : Proc) :
    (sched s c p r).rows = Function.update s.rows p r.row := by
  simp [sched]

end State

theorem kind_free_iff (s : State C) (q : Slot) :
    (s.rows q).kind = .free ↔ (s.procs q).state = .unused := by
  cases h : (s.procs q).state <;> simp [State.rows, Proc.row, h, kindOf]

/-! ### The calls that are recorded -/

/-- What is recorded along a run. -/
inductive Event
  /-- A process calls `exit(status)`. -/
  | exited (pid status : ℤ)
  /-- The call of `wait` by `p` returns the pid of a child, and its status through `addr`. -/
  | waited (p : Slot) (pid status : ℤ)
  /-- The call of `wait` by `p` returns -1. -/
  | failed (p : Slot)
  deriving DecidableEq

/-- The return of `wait` by `p` at one slot of its scan, or at its end. Source: `proc.c` `wait`. -/
def waitEvents (s : State C) (p : Slot) (addr i : ℕ) (havekids copied : Bool) : List Event :=
  if h : i < NPROC then
    let np : Slot := ⟨i, h⟩
    if (s.procs np).parent = some p ∧ (s.procs np).state = .zombie then
      if addr ≠ 0 ∧ copied = false then [.failed p]
      else [.waited p (s.procs np).pid (s.procs np).xstate]
    else []
  else if havekids = false ∨ (s.procs p).killed then [.failed p]
  else []

/-- What a section adds to the record. -/
def events (s : State C) : Label C → List Event
  | .exitZombie c status =>
    match (s.cpus c).mode with
    | .process p => [.exited (s.procs p).pid status]
    | _ => []
  | .waitScan c copied =>
    match (s.cpus c).mode with
    | .process p =>
      match (s.procs p).point with
      | .waitScan addr i havekids => waitEvents s p addr i havekids copied
      | _ => []
    | _ => []
  | _ => []

/-- The section records no exit and no successful `wait`. -/
def Silent (s : State C) (l : Label C) : Prop := ∀ e ∈ events s l, ∃ p, e = .failed p

variable {addr i : ℕ} {havekids copied : Bool}

theorem Silent.of_nil (h : events s l = []) : Silent s l := by
  intro e he
  simp [h] at he

/-! ### What a section does to the table -/

/-- The changes a section can make to the rows, with what holds before each. -/
inductive Effect (s : State C) (l : Label C) (s' : State C) : Prop
  /-- No row changes. -/
  | quiet (hev : Silent s l) (hrows : s'.rows = s.rows) (hpid : s'.nextpid = s.nextpid)
  /-- `allocproc` takes a slot. -/
  | alloc (np : Slot) (hev : Silent s l) (hfree : (s.rows np).kind = .free)
      (hrows : s'.rows = Function.update s.rows np
        { s.rows np with kind := .new, pid := s.nextpid })
      (hpid : s'.nextpid = s.nextpid + 1)
  /-- A failing `fork` gives the slot back. -/
  | abort (np : Slot) (hev : Silent s l) (hnew : (s.rows np).kind = .new)
      (hrows : s'.rows = Function.update s.rows np .empty) (hpid : s'.nextpid = s.nextpid)
  /-- `fork` records the parent. -/
  | adopt (p np : Slot) (hev : Silent s l) (hnew : (s.rows np).kind = .new)
      (hlive : (s.rows p).kind = .live)
      (hrows : s'.rows = Function.update s.rows np { s.rows np with parent := some p })
      (hpid : s'.nextpid = s.nextpid)
  /-- `fork` makes the child runnable. -/
  | ready (np : Slot) (hev : Silent s l) (hnew : (s.rows np).kind = .new)
      (hrows : s'.rows = Function.update s.rows np { s.rows np with kind := .live })
      (hpid : s'.nextpid = s.nextpid)
  /-- `exit` gives its children to the first process. -/
  | reparent (p : Slot) (hev : Silent s l) (hexit : (s.procs p).point = .exitLocked)
      (hrows : s'.rows = fun q => if (s.rows q).parent = some p then
        { s.rows q with parent := some s.initproc } else s.rows q)
      (hpid : s'.nextpid = s.nextpid)
  /-- `exit` makes the process a zombie. -/
  | exit (p : Slot) (status : ℤ) (hev : events s l = [.exited (s.rows p).pid status])
      (hlive : (s.rows p).kind = .live) (hexit : (s.procs p).point = .exitReparented)
      (hrows : s'.rows = Function.update s.rows p
        { s.rows p with kind := .zombie, xstate := status })
      (hpid : s'.nextpid = s.nextpid)
  /-- `wait` reaps a child. -/
  | reap (p np : Slot) (hev : events s l = [.waited p (s.rows np).pid (s.rows np).xstate])
      (hchild : (s.rows np).parent = some p) (hzombie : (s.rows np).kind = .zombie)
      (hlock : s.lock np = none) (hrows : s'.rows = Function.update s.rows np .empty)
      (hpid : s'.nextpid = s.nextpid)

theorem Effect.of_row {r : Proc} (hev : Silent s l) (hr : r.row = (s.procs p).row)
    (hrows : s'.rows = Function.update s.rows p r.row) (hpid : s'.nextpid = s.nextpid) :
    Effect s l s' := by
  refine .quiet hev ?_ hpid
  rw [hrows, hr]
  exact Function.update_eq_self p s.rows

theorem Effect.of_waitScan (h : Inv s) (hmode : (s.cpus c).mode = .process p)
    (hpt : (s.procs p).point = .waitScan addr i havekids)
    (hs : waitScan s c p addr i havekids copied = some s') :
    Effect s (.waitScan c copied) s' ∧ s'.initproc = s.initproc := by
  have hrun := h.process c p hmode
  have hevs : events s (.waitScan c copied) = waitEvents s p addr i havekids copied := by
    simp [events, hmode, hpt]
  have hsilent : (∀ e ∈ waitEvents s p addr i havekids copied, ∃ q, e = .failed q) →
      Silent s (.waitScan c copied) := fun hall e he => hall e (hevs ▸ he)
  simp only [waitScan] at hs
  split at hs
  · rename_i hi
    split_ifs at hs with hkid hfree hz hcopy <;> cases hs <;> refine ⟨?_, rfl⟩
    · exact .quiet (hsilent (by simp [waitEvents, hi, hkid, hz, hcopy])) (State.rows_goto s p _) rfl
    · refine .reap p ⟨i, hi⟩ (hevs.trans ?_) hkid ?_ hfree ?_ rfl
      · simp [waitEvents, hi, hkid, hz, hcopy, State.rows, Proc.row]
      · simp [State.rows, Proc.row, hz, kindOf]
      · exact (State.rows_goto _ p _).trans (State.rows_setProc s _ _)
    · exact .quiet (hsilent (by simp [waitEvents, hi, hz])) (State.rows_goto s p _) rfl
    · exact .quiet (hsilent (by simp [waitEvents, hi, hkid])) (State.rows_goto s p _) rfl
  · rename_i hi
    split_ifs at hs with hend hfree <;> cases hs <;> refine ⟨?_, rfl⟩
    · exact .quiet (hsilent (by simp [waitEvents, hi, hend])) (State.rows_goto s p _) rfl
    · exact .of_row (hsilent (by simp [waitEvents, hi, hend]))
        (by simp [Proc.row, hrun, kindOf]) (State.rows_sched s c p _) rfl

theorem Effect.of_stepProcess (h : Inv s) (hmode : (s.cpus l.cpu).mode = .process p)
    (hs : stepProcess s l.cpu p l = some s') : Effect s l s' ∧ s'.initproc = s.initproc := by
  have hrun := h.process _ p hmode
  have hlive : (s.rows p).kind = .live := by simp [State.rows, Proc.row, hrun, kindOf]
  have hnew : ∀ np, (s.procs p).point.creating = some np → (s.rows np).kind = .new := by
    intro np hnp
    simp [State.rows, Proc.row, (h.creating p np hnp).1, kindOf]
  cases l <;> simp only [stepProcess, reduceCtorEq] at hs
  case yield c | sleep c ch =>
    split_ifs at hs
    cases hs
    exact ⟨.of_row (.of_nil rfl) (by simp [Proc.row, hrun, kindOf]) (State.rows_sched s _ p _) rfl,
      rfl⟩
  case forkAlloc c np =>
    split_ifs at hs with hg
    cases hs
    refine ⟨.alloc np (.of_nil rfl) (by simp [State.rows, Proc.row, hg.2.2, kindOf]) ?_ rfl, rfl⟩
    exact (State.rows_goto _ p _).trans (State.rows_setProc s np _)
  case forkFail c =>
    split at hs <;> cases hs
    rename_i np hpt
    refine ⟨.abort np (.of_nil rfl) (hnew np (by simp [hpt, Point.creating])) ?_ rfl, rfl⟩
    exact (State.rows_goto _ p _).trans (State.rows_setProc s np _)
  case forkRelease c =>
    split at hs <;> cases hs
    exact ⟨.quiet (.of_nil rfl) (State.rows_goto _ p _) rfl, rfl⟩
  case forkParent c =>
    split at hs <;> [skip; cases hs]
    rename_i np hpt
    split_ifs at hs
    cases hs
    refine ⟨.adopt p np (.of_nil rfl) (hnew np (by simp [hpt, Point.creating])) hlive ?_ rfl, rfl⟩
    exact (State.rows_goto _ p _).trans (State.rows_setProc s np _)
  case forkRunnable c =>
    split at hs <;> [skip; cases hs]
    rename_i np hpt
    split_ifs at hs
    cases hs
    refine ⟨.ready np (.of_nil rfl) (hnew np (by simp [hpt, Point.creating])) ?_ rfl, rfl⟩
    exact (State.rows_goto _ p _).trans (State.rows_setProc s np _)
  case exitLock c | waitLock c addr =>
    split_ifs at hs
    cases hs
    exact ⟨.quiet (.of_nil rfl) (State.rows_goto s p _) rfl, rfl⟩
  case exitReparent c =>
    split_ifs at hs with hg
    cases hs
    refine ⟨.reparent p (.of_nil rfl) hg ((State.rows_goto _ p _).trans ?_) rfl, rfl⟩
    funext q
    simp only [State.rows, Sched.reparent, Proc.row]
    by_cases hq : (s.procs q).parent = some p <;> simp [hq]
  case exitZombie c status =>
    split_ifs at hs with hg
    cases hs
    have hc : (s.cpus c).mode = .process p := hmode
    exact ⟨.exit p status (by simp [events, hc, State.rows, Proc.row]) hlive hg.1
      (State.rows_sched s c p _) rfl, rfl⟩
  case waitScan c copied =>
    split at hs <;> [skip; cases hs]
    rename_i addr i havekids hpt
    exact Effect.of_waitScan h hmode hpt hs
  case waitRelock c =>
    split at hs <;> [skip; cases hs]
    split_ifs at hs
    cases hs
    exact ⟨.quiet (.of_nil rfl) (State.rows_goto s p _) rfl, rfl⟩

/-- Every section has one of the effects, and leaves `initproc` alone. -/
theorem Effect.of_step (h : Inv s) (hs : step l s = some s') :
    Effect s l s' ∧ s'.initproc = s.initproc := by
  unfold step at hs
  split at hs
  case h_1 c p =>
    split at hs <;> [skip; cases hs]
    split_ifs at hs with hfree hst <;> cases hs <;> refine ⟨?_, rfl⟩
    · exact .of_row (.of_nil rfl) (by simp [Proc.row, hst, kindOf]) (State.rows_setProc s p _) rfl
    · exact .quiet (.of_nil rfl) rfl rfl
  case h_2 c =>
    split at hs <;> cases hs
    rename_i p hmode
    refine ⟨.of_row (.of_nil rfl) ?_ (State.rows_setProc s p _) rfl, rfl⟩
    split <;> rfl
  case h_3 c =>
    split at hs <;> cases hs
    exact ⟨.quiet (.of_nil rfl) rfl rfl, rfl⟩
  case h_4 c ch p =>
    split_ifs at hs
    cases hs
    refine ⟨.of_row (.of_nil rfl) ?_ (State.rows_setProc s p _) rfl, rfl⟩
    unfold wakeup1
    split_ifs with hsl
    · simp [Proc.row, hsl.1, kindOf]
    · rfl
  case h_5 c pid p =>
    split at hs <;> [skip; cases hs]
    split_ifs at hs
    cases hs
    refine ⟨.of_row (.of_nil rfl) ?_ (State.rows_setProc s p _) rfl, rfl⟩
    unfold kill1
    split_ifs with hpid hsl
    · simp [Proc.row, hsl, kindOf]
    · rfl
    · rfl
  case h_6 =>
    split at hs <;> [skip; cases hs]
    rename_i p hmode
    exact Effect.of_stepProcess h hmode hs

/-- A section that turns a slot into an unused one (`freeproc`, in `wait` or in a failing `fork`)
does so while no CPU has the process as current. -/
theorem Effect.freed_off_cpu (he : Effect s l s') (h : Inv s) (hst : (s.procs p).state ≠ .unused)
    (hst' : (s'.procs p).state = .unused) (c : C) : (s.cpus c).proc ≠ some p := by
  rw [ne_eq, ← kind_free_iff] at hst
  rw [← kind_free_iff] at hst'
  have hset : ∀ q r, r.kind ≠ .free → s'.rows = Function.update s.rows q r → False := by
    intro q r hr hrows
    rw [hrows] at hst'
    by_cases hq : p = q
    · subst hq
      exact hr (by simpa using hst')
    · exact hst (by simpa [hq] using hst')
  have hempty : ∀ q, s'.rows = Function.update s.rows q .empty → p = q := by
    intro q hrows
    by_contra hq
    exact hst (by simpa [hrows, hq] using hst')
  cases he with
  | quiet hev hrows hpid => exact absurd (hrows ▸ hst') hst
  | alloc np hev hnp hrows hpid => exact (hset np _ (by simp) hrows).elim
  | abort np hev hnew hrows hpid =>
    obtain rfl := hempty np hrows
    intro hc
    refine h.ne_used hc ?_
    cases hk : (s.procs p).state <;> simp_all [State.rows, Proc.row, kindOf]
  | adopt q np hev hnew hlive hrows hpid => exact (hset np _ (by simp [hnew]) hrows).elim
  | ready np hev hnew hrows hpid => exact (hset np _ (by simp) hrows).elim
  | reparent q hev hexit hrows hpid =>
    refine absurd ?_ hst
    by_cases hq : (s.rows p).parent = some q <;> simpa [hrows, hq] using hst'
  | exit q status hev hlive hexit hrows hpid => exact (hset q _ (by simp) hrows).elim
  | reap q np hev hchild hz hlock hrows hpid =>
    obtain rfl := hempty np hrows
    intro hc
    have hrun := (h.current_iff_running hlock).mp ⟨c, hc⟩
    simp [State.rows, Proc.row, hrun, kindOf] at hz

/-! ### The result -/

/-- **One CPU per process.** For any set of CPUs and any interleaving of the sections of `scheduler`,
`yield`, `sleep`, `wakeup`, `kill`, `fork`, `exit` and `wait`: a process is current on at most one
CPU; while its lock is free it is current on some CPU exactly if it is `RUNNING`; and `freeproc` is
never applied to a process that is current on a CPU. -/
theorem one_cpu_per_process (h : (system C).Reach s) (p : Slot) :
    (∀ c c', (s.cpus c).proc = some p → (s.cpus c').proc = some p → c = c') ∧
    (s.lock p = none → ((∃ c, (s.cpus c).proc = some p) ↔ (s.procs p).state = .running)) ∧
    (∀ l s', (system C).step s l s' → (s.procs p).state ≠ .unused →
      (s'.procs p).state = .unused → ∀ c, (s.cpus c).proc ≠ some p) := by
  have hinv := inv_reach h
  refine ⟨fun c c' => hinv.unique c c' p, hinv.current_iff_running, ?_⟩
  intro l s' hs hst hst' c
  exact (Effect.of_step hinv hs).1.freed_off_cpu hinv hst hst' c

/-- Of two CPUs, the second dispatches the first process, and it is then the only one to have it. -/
theorem one_cpu_per_process_dispatched : ∃ s : State Bool, (system Bool).Reach s ∧
    (s.cpus true).proc = some ⟨0, by decide⟩ ∧
    ∀ c, (s.cpus c).proc = some ⟨0, by decide⟩ → true = c := by
  have hreach := Lib.Lts.Reach.step (M := system Bool) (l := .dispatch true ⟨0, by decide⟩)
    (.init ⟨⟨0, by decide⟩, rfl⟩) rfl
  exact ⟨_, hreach, rfl, fun c hc => (one_cpu_per_process hreach ⟨0, by decide⟩).1 true c rfl hc⟩

end Xv6.Sched
