import Mathlib.Data.List.Nodup
import Xv6.Lib.Trans
import Xv6.Params

/-!
# Interrupts, spinlocks and switches

`acquire` turns interrupts off and the last `release` turns them on again if they were on. The
nesting depth `noff` and the flag `intena` live in the CPU, although they belong to the kernel
thread that runs there: `sched` carries `intena` across `swtch` in a local variable, and leaves
`noff` to the thread it switches to, since both hold exactly one lock.

The model has any set `C` of CPUs, a scheduler thread for each, a kernel thread for each process of
a set `P`, and spinlocks: the `p->lock`s and any set `K` of others. A thread may take and release
locks in any order, be interrupted wherever interrupts are on, and leave its CPU through `sched`,
which it calls holding only its own `p->lock`, after it has changed `p->state` (in `yield`, `sleep`
and `exit`). Steps are as fine as the code that other CPUs or an interrupt can come between:
`push_off` reads the flag in one step and turns interrupts off in another, `acquire` spins between
the two, and `release` frees the lock before it calls `pop_off`.
-/

set_option linter.unusedSectionVars false

namespace Xv6.Sched.Interrupts

/-- The spinlocks. -/
inductive Lock (P K : Type)
  /-- `p->lock`. -/
  | proc (p : P)
  | other (k : K)
  deriving DecidableEq

/-- The kernel threads: those of the processes and the schedulers. -/
inductive Tid (C P : Type)
  | proc (p : P)
  | scheduler (c : C)
  deriving DecidableEq

/-- The lock of a process's own thread. -/
def Tid.lock {C P K : Type} : Tid C P → Option (Lock P K)
  | .proc p => some (.proc p)
  | .scheduler _ => none

/-- The panics of `spinlock.c` and `sched`. -/
inductive Panic
  | acquire | release | pop_off_interruptible | pop_off
  | sched_lock | sched_locks | sched_running | sched_interruptible
  deriving DecidableEq, Repr

/-- Where a thread is. -/
inductive Point (P K : Type)
  /-- In any code but the following. -/
  | run
  /-- In `acquire(lk)`: `push_off` has read `old = intr_get()`. -/
  | pushing (lk : Lock P K) (old : Bool)
  /-- In `acquire(lk)`, after `push_off`. -/
  | spinning (lk : Lock P K)
  /-- In `release`, before `pop_off`. -/
  | popping
  /-- In `sched`, back from `swtch`. -/
  | resuming
  deriving DecidableEq

/-- A kernel thread. -/
structure Thread (P K : Type) where
  point : Point P K
  /-- The locks it holds. -/
  held : List (Lock P K)
  /-- It has changed its own `p->state` and is about to call `sched`. -/
  leaving : Bool
  /-- The local variable `intena` of the call of `sched` it is in, if any. -/
  saved : Option Bool
  /-- The points at which interrupts found it, the innermost first. -/
  traps : List (Point P K)
  /-- The interrupt flag before its outermost `acquire`; no code reads it. -/
  before : Option Bool

/-- The part of `struct cpu` at issue, and the interrupt flag of the hardware. Source: `proc.h`. -/
structure Cpu where
  /-- Device interrupts are enabled. -/
  intr : Bool
  /-- Depth of `push_off` nesting. -/
  noff : ℕ
  /-- Were interrupts enabled before `push_off`? -/
  intena : Bool

variable {C P K : Type}

/-- The number of calls of `push_off` that await their `pop_off`. -/
def Thread.depth (t : Thread P K) : ℕ :=
  t.held.length + match t.point with
    | .spinning _ | .popping => 1
    | _ => 0

/-- `acquire(lk)` has the lock. -/
def Thread.take (t : Thread P K) (lk : Lock P K) : Thread P K :=
  { t with point := .run, held := lk :: t.held }

/-- `release(lk)` has freed the lock. -/
def Thread.drop [DecidableEq P] [DecidableEq K] (t : Thread P K) (lk : Lock P K) : Thread P K :=
  { t with point := .popping, held := t.held.erase lk }

/-- `acquire(lk)` has called `push_off` while the flag was `intr`. -/
def Thread.push (t : Thread P K) (lk : Lock P K) (intr : Bool) : Thread P K :=
  { t with
    point := .spinning lk
    before := if t.depth = 0 then some intr else t.before }

/-- A thread that has not run yet: `allocproc` lets it start at `forkret`. -/
def Thread.fresh : Thread P K := ⟨.run, [], false, none, [], none⟩

/-- The thread of `p` when the scheduler switches to it: it holds `p->lock`, and is in `sched`
unless it starts at `forkret`. -/
def Thread.dispatched (t : Thread P K) (p : P) : Thread P K :=
  { t with
    held := [.proc p]
    leaving := false
    point := if t.saved = none then .run else .resuming }

/-- `push_off` after it has read the flag. Source: `spinlock.c` `push_off`. -/
def Cpu.push_off (k : Cpu) (old : Bool) : Cpu :=
  { intr := false, intena := if k.noff = 0 then old else k.intena, noff := k.noff + 1 }

/-- `pop_off`. Source: `spinlock.c` `pop_off`. -/
def Cpu.pop_off (k : Cpu) : Except Panic Cpu :=
  if k.intr then .error .pop_off_interruptible
  else if k.noff < 1 then .error .pop_off
  else .ok { k with
    noff := k.noff - 1
    intr := if k.noff - 1 = 0 ∧ k.intena = true then true else k.intr }

/-- The machine. -/
structure State (C P K : Type) where
  cpu : C → Cpu
  /-- The thread each CPU runs. -/
  current : C → Tid C P
  thread : Tid C P → Thread P K
  /-- `lk->cpu`, if `lk->locked`. -/
  holder : Lock P K → Option C
  /-- `p->state`. -/
  pstate : P → ProcState
  panic : Option Panic

/-- The steps; most are steps of the thread that runs on a CPU. -/
inductive Label (C P K : Type)
  /-- `intr_on` or `intr_off`, called with no lock held. -/
  | setIntr (c : C) (on : Bool)
  /-- An interrupt. -/
  | trap (c : C)
  /-- `kerneltrap` returns. -/
  | ret (c : C)
  /-- `acquire(lk)` begins. -/
  | acquire (c : C) (lk : Lock P K)
  /-- `push_off` turns interrupts off. -/
  | push (c : C)
  /-- `acquire` finds the lock free. -/
  | take (c : C)
  /-- `release(lk)` frees the lock. -/
  | drop (c : C) (lk : Lock P K)
  /-- `release` calls `pop_off`. -/
  | pop (c : C)
  /-- A thread that holds its own `p->lock` changes its state, in `yield`, `sleep` or `exit`. -/
  | mark (c : C) (st : ProcState)
  /-- Some thread that holds `p->lock` changes the state of a process that does not run. -/
  | setState (c : C) (p : P) (st : ProcState)
  /-- `allocproc` takes the slot `p`. -/
  | alloc (c : C) (p : P)
  /-- `sched` switches to the scheduler. -/
  | sched (c : C)
  /-- The scheduler switches to `p`. -/
  | switch (c : C) (p : P)
  /-- `sched` restores `intena`. -/
  | resume (c : C)

variable [DecidableEq C] [DecidableEq P] [DecidableEq K]

namespace State

/-- The thread that runs on `c`. -/
def on (s : State C P K) (c : C) : Thread P K := s.thread (s.current c)

/-- Replaces the record of CPU `c` and of the thread that runs there. -/
def put (s : State C P K) (c : C) (k : Cpu) (t : Thread P K) : State C P K :=
  { s with cpu := Function.update s.cpu c k, thread := Function.update s.thread (s.current c) t }

/-- Replaces the holder of a lock. -/
def setHolder (s : State C P K) (lk : Lock P K) (h : Option C) : State C P K :=
  { s with holder := Function.update s.holder lk h }

/-- Replaces `p->state`. -/
def setPstate (s : State C P K) (p : P) (st : ProcState) : State C P K :=
  { s with pstate := Function.update s.pstate p st }

/-- `holding(lk)` on CPU `c`. Source: `spinlock.c` `holding`. -/
def holding (s : State C P K) (c : C) (lk : Lock P K) : Bool := s.holder lk = some c

/-- The panic of `sched`, if its tests find a reason. Source: `proc.c` `sched`. -/
def schedPanic (s : State C P K) (c : C) (p : P) : Option Panic :=
  if s.holding c (.proc p) = false then some .sched_lock
  else if (s.cpu c).noff ≠ 1 then some .sched_locks
  else if s.pstate p = .running then some .sched_running
  else if (s.cpu c).intr then some .sched_interruptible
  else none

/-- `c` goes on with another thread: the one it leaves is left with the record `t`, the one it goes
on with has the record `t'`. Source: `swtch.S`. -/
def swtch (s : State C P K) (c : C) (t : Thread P K) (i : Tid C P)
    (t' : Thread P K) : State C P K :=
  { s with
    current := Function.update s.current c i
    thread := Function.update (Function.update s.thread (s.current c) t) i t' }

end State

/-- One step. -/
def act (s : State C P K) : Label C P K → Option (State C P K)
  | .setIntr c on =>
    if (s.on c).point = .run ∧ (s.on c).held = [] then
      some (s.put c { s.cpu c with intr := on } (s.on c))
    else none
  | .trap c =>
    if (s.cpu c).intr then
      some (s.put c { s.cpu c with intr := false }
        { s.on c with point := .run, traps := (s.on c).point :: (s.on c).traps })
    else none
  | .ret c =>
    match (s.on c).traps with
    | [] => none
    | pt :: rest =>
      if (s.on c).point = .run ∧ (s.on c).held = [] then
        some (s.put c { s.cpu c with intr := true } { s.on c with point := pt, traps := rest })
      else none
  | .acquire c lk =>
    if (s.on c).point = .run then
      some (s.put c (s.cpu c) { s.on c with point := .pushing lk (s.cpu c).intr })
    else none
  | .push c =>
    match (s.on c).point with
    | .pushing lk old =>
      let s' := s.put c ((s.cpu c).push_off old) ((s.on c).push lk (s.cpu c).intr)
      some (if s.holding c lk then { s' with panic := some .acquire } else s')
    | _ => none
  | .take c =>
    match (s.on c).point with
    | .spinning lk =>
      if s.holder lk = none then
        some ((s.put c (s.cpu c) ((s.on c).take lk)).setHolder lk (some c))
      else none
    | _ => none
  | .drop c lk =>
    if (s.on c).point = .run ∧ lk ∈ (s.on c).held ∧
        ¬ ((s.on c).leaving = true ∧ (s.current c).lock = some lk) then
      if s.holding c lk = false then some { s with panic := some .release }
      else
        some ((s.put c (s.cpu c) ((s.on c).drop lk)).setHolder lk none)
    else none
  | .pop c =>
    if (s.on c).point = .popping then
      match (s.cpu c).pop_off with
      | .error e => some { s with panic := some e }
      | .ok k => some (s.put c k { s.on c with point := .run })
    else none
  | .mark c st =>
    match s.current c with
    | .proc p =>
      if (s.on c).point = .run ∧ .proc p ∈ (s.on c).held ∧ st ≠ .running then
        some ((s.put c (s.cpu c) { s.on c with leaving := true }).setPstate p st)
      else none
    | .scheduler _ => none
  | .setState c p st =>
    if (s.on c).point = .run ∧ .proc p ∈ (s.on c).held ∧ s.pstate p ≠ .running ∧
        st ≠ .running then
      some (s.setPstate p st)
    else none
  | .alloc c p =>
    if (s.on c).point = .run ∧ .proc p ∈ (s.on c).held ∧ s.current c ≠ .proc p ∧
        s.pstate p = .unused then
      some ({ s with thread := Function.update s.thread (.proc p) .fresh }.setPstate p .used)
    else none
  | .sched c =>
    match s.current c with
    | .proc p =>
      if (s.on c).point = .run ∧ (s.on c).leaving = true ∧ (s.on c).held = [.proc p] then
        match s.schedPanic c p with
        | some e => some { s with panic := some e }
        | none =>
          some (s.swtch c { s.on c with held := [], saved := some (s.cpu c).intena }
            (.scheduler c) { s.thread (.scheduler c) with held := [.proc p], before := none })
      else none
    | .scheduler _ => none
  | .switch c p =>
    if s.current c = .scheduler c ∧ (s.on c).point = .run ∧ (s.on c).held = [.proc p] ∧
        s.pstate p = .runnable then
      some ((s.swtch c { s.on c with held := [], before := none } (.proc p)
        ((s.thread (.proc p)).dispatched p)).setPstate p .running)
    else none
  | .resume c =>
    match (s.on c).point, (s.on c).saved with
    | .resuming, some v =>
      some (s.put c { s.cpu c with intena := v } { s.on c with point := .run, saved := none })
    | _, _ => none

/-- One step. No step follows a panic. -/
def next (l : Label C P K) (s : State C P K) : Option (State C P K) :=
  if s.panic = none then act s l else none

/-- At boot every CPU is in its scheduler with no lock held, and every slot is free. -/
def boot (cpu : C → Bool) : State C P K where
  cpu c := ⟨cpu c, 0, false⟩
  current := .scheduler
  thread _ := .fresh
  holder _ := none
  pstate _ := .unused
  panic := none

/-- Any number of CPUs and threads, in any interleaving. -/
def system (C P K : Type) [DecidableEq C] [DecidableEq P] [DecidableEq K] :
    Lib.Lts (State C P K) (Label C P K) :=
  .ofFun (fun s => ∃ on, s = boot on) next

/-! ### What holds of a thread on a CPU, and off it -/

variable {s s' : State C P K} {c : C} {k : Cpu} {t : Thread P K} {p : P} {lk : Lock P K}

/-- A thread and the CPU it runs on: `noff` is the thread's own depth, interrupts are off at any
depth, a flag just read is still the flag, and `intena` is the flag before the outermost `acquire`,
or is about to be restored to it. -/
structure OnCpu (k : Cpu) (t : Thread P K) : Prop where
  noff : k.noff = t.depth
  off : 0 < t.depth → k.intr = false
  old : ∀ lk b, t.point = .pushing lk b → t.depth = 0 → k.intr = b
  intena : 0 < t.depth → t.point ≠ .resuming → ∀ b, t.before = some b → k.intena = b
  restore : t.point = .resuming →
    t.held ≠ [] ∧ ∃ v, t.saved = some v ∧ ∀ b, t.before = some b → v = b

/-- A thread that no CPU runs holds no lock and has saved its `intena`, unless it has never run. -/
structure OffCpu (t : Thread P K) : Prop where
  point : t.point = .run
  held : t.held = []
  saved : ∀ b, t.before = some b → t.saved = some b

/-- Interrupts find a thread only where they are on, so a flag read before is `true`. -/
def TrapsOk (t : Thread P K) : Prop := ∀ pt ∈ t.traps, pt = .run ∨ ∃ lk, pt = .pushing lk true

/-- The state of the process a CPU runs: `RUNNING`, or changed by its own thread, which then keeps
`p->lock`. -/
def StateOk (st : ProcState) (t : Thread P K) (p : P) : Prop :=
  if t.leaving then st ≠ .running ∧ .proc p ∈ t.held else st = .running

/-- The invariant. -/
structure Inv (s : State C P K) : Prop where
  on : ∀ c, OnCpu (s.cpu c) (s.on c)
  off : ∀ i, (∀ c, s.current c ≠ i) → OffCpu (s.thread i)
  traps : ∀ i, TrapsOk (s.thread i)
  nodup : ∀ i, (s.thread i).held.Nodup
  once : ∀ c c', s.current c = s.current c' → c = c'
  own : ∀ c c', s.current c = .scheduler c' → c' = c
  locks : ∀ lk c, s.holder lk = some c ↔ lk ∈ (s.on c).held
  states : ∀ c p, s.current c = .proc p → StateOk (s.pstate p) (s.on c) p
  idle : ∀ p, (∀ c, s.current c ≠ .proc p) → s.pstate p ≠ .running
  panic : s.panic = none ∨ s.panic = some .acquire

theorem Inv.boot (f : C → Bool) : Inv (boot f : State C P K) where
  on c := ⟨rfl, fun h => absurd h (by simp [State.on, Interrupts.boot, Thread.fresh, Thread.depth]),
    fun _ _ h => (by cases h), fun h => absurd h
      (by simp [State.on, Interrupts.boot, Thread.fresh, Thread.depth]), fun h => (by cases h)⟩
  off i _ := ⟨rfl, rfl, fun _ h => (by cases h)⟩
  traps i := by simp [TrapsOk, Interrupts.boot, Thread.fresh]
  nodup i := List.nodup_nil
  once c c' h := Tid.scheduler.inj h
  own c c' h := (Tid.scheduler.inj h).symm
  locks lk c := by simp [Interrupts.boot, State.on, Thread.fresh]
  states c p h := by cases h
  idle p _ := by simp [Interrupts.boot]
  panic := .inl rfl

/-! ### Steps of one thread -/

@[simp] theorem put_on (s : State C P K) (c : C) (k : Cpu) (t : Thread P K) :
    (s.put c k t).on c = t := by
  simp [State.on, State.put]

@[simp] theorem put_cpu (s : State C P K) (c : C) (k : Cpu) (t : Thread P K) :
    (s.put c k t).cpu c = k := by
  simp [State.put]

theorem Inv.put_on_ne (h : Inv s) {c' : C} (hc : c' ≠ c) : (s.put c k t).on c' = s.on c' := by
  have hne : s.current c' ≠ s.current c := fun he => hc (h.once _ _ he)
  simp [State.on, State.put, Function.update_of_ne hne]

theorem put_cpu_ne {c' : C} (hc : c' ≠ c) : (s.put c k t).cpu c' = s.cpu c' := by
  simp [State.put, Function.update_of_ne hc]

theorem all_update {Q : Thread P K → Prop} {f : Tid C P → Thread P K} {i : Tid C P}
    (h : ∀ j, Q (f j)) (ht : Q t) : ∀ j, Q (Function.update f i t j) :=
  (Function.forall_update_iff f fun _ => Q).mpr ⟨ht, fun j _ => h j⟩

/-- A step of the thread on `c`, with the holders of the locks and the states of the processes after
it. -/
theorem Inv.put_with (h : Inv s) (hon : OnCpu k t) (htraps : TrapsOk t) (hnodup : t.held.Nodup)
    {f : Lock P K → Option C} (hc : ∀ lk, f lk = some c ↔ lk ∈ t.held)
    (hf : ∀ lk, ∀ c' ≠ c, f lk = some c' ↔ s.holder lk = some c')
    {g : P → ProcState} (hstate : ∀ p, s.current c = .proc p → StateOk (g p) t p)
    (hg : ∀ p, s.current c ≠ .proc p → g p = s.pstate p) :
    Inv { s.put c k t with holder := f, pstate := g } where
  on c' := by
    by_cases hcc : c' = c
    · subst hcc
      show OnCpu ((s.put c' k t).cpu c') ((s.put c' k t).on c')
      simpa using hon
    · show OnCpu ((s.put c k t).cpu c') ((s.put c k t).on c')
      rw [h.put_on_ne hcc, put_cpu_ne hcc]
      exact h.on c'
  off i hi := by
    have hne : i ≠ s.current c := fun he => hi c he.symm
    simpa [State.put, Function.update_of_ne hne] using h.off i hi
  traps := all_update h.traps htraps
  nodup := all_update (Q := fun t => t.held.Nodup) h.nodup hnodup
  once := h.once
  own := h.own
  locks lk c' := by
    by_cases hcc : c' = c
    · subst hcc
      show _ ↔ lk ∈ ((s.put c' k t).on c').held
      rw [put_on]
      exact hc lk
    · show _ ↔ lk ∈ ((s.put c k t).on c').held
      rw [h.put_on_ne hcc]
      exact (hf lk c' hcc).trans (h.locks lk c')
  states c' p hp := by
    by_cases hcc : c' = c
    · subst hcc
      show StateOk (g p) ((s.put c' k t).on c') p
      rw [put_on]
      exact hstate p hp
    · show StateOk (g p) ((s.put c k t).on c') p
      rw [h.put_on_ne hcc, hg p fun he => hcc (h.once _ _ (hp.trans he.symm))]
      exact h.states c' p hp
  idle p hp := by
    show g p ≠ _
    rw [hg p (hp c)]
    exact h.idle p hp
  panic := h.panic

/-- The locks a thread that is about to leave must keep. -/
theorem Inv.own_mem (h : Inv s) (hp : s.current c = .proc p) (hl : (s.on c).leaving = true) :
    .proc p ∈ (s.on c).held := by
  have hst := h.states c p hp
  rw [StateOk, if_pos hl] at hst
  exact hst.2

theorem Inv.put_holder (h : Inv s) (hon : OnCpu k t) (htraps : TrapsOk t) (hnodup : t.held.Nodup)
    (hleave : t.leaving = (s.on c).leaving)
    (hown : ∀ p, s.current c = .proc p → t.leaving = true → .proc p ∈ t.held)
    {f : Lock P K → Option C} (hc : ∀ lk, f lk = some c ↔ lk ∈ t.held)
    (hf : ∀ lk, ∀ c' ≠ c, f lk = some c' ↔ s.holder lk = some c') :
    Inv { s.put c k t with holder := f } := by
  refine h.put_with hon htraps hnodup hc hf (fun p hp => ?_) fun _ _ => rfl
  have hold := h.states c p hp
  unfold StateOk at hold ⊢
  rw [← hleave] at hold
  split_ifs at hold ⊢ with hl
  · exact ⟨hold.1, hown p hp hl⟩
  · exact hold

/-- A step of the thread on `c` that changes none of its locks. -/
theorem Inv.put (h : Inv s) (hon : OnCpu k t) (htraps : TrapsOk t) (hheld : t.held = (s.on c).held)
    (hleave : t.leaving = (s.on c).leaving) : Inv (s.put c k t) := by
  refine h.put_holder (f := s.holder) hon htraps ?_ hleave ?_ ?_ fun _ _ _ => Iff.rfl
  · rw [hheld]
    exact h.nodup _
  · intro p hp hl
    rw [hheld]
    exact h.own_mem hp (hleave ▸ hl)
  · intro lk
    rw [hheld]
    exact h.locks lk c

theorem OnCpu.take (h : OnCpu k t) (hpt : t.point = .spinning lk) : OnCpu k (t.take lk) := by
  have hdepth : t.depth = t.held.length + 1 := by simp [Thread.depth, hpt]
  refine ⟨?_, fun _ => h.off (by omega), fun _ _ he => ?_, fun _ _ => ?_, fun he => ?_⟩
  · rw [h.noff, hdepth]
    rfl
  · cases he
  · exact h.intena (by omega) (by simp [hpt])
  · cases he

theorem Inv.take (h : Inv s) (hpt : (s.on c).point = .spinning lk) (hfree : s.holder lk = none) :
    Inv ((s.put c (s.cpu c) ((s.on c).take lk)).setHolder lk (some c)) := by
  have hmem : lk ∉ (s.on c).held := fun hm => by simpa [hfree] using (h.locks lk c).mpr hm
  refine h.put_holder ((h.on c).take hpt) (h.traps (s.current c)) ?_ rfl ?_ ?_ ?_
  · exact List.nodup_cons.mpr ⟨hmem, h.nodup _⟩
  · exact fun p hp hl => List.mem_cons_of_mem _ (h.own_mem hp hl)
  · intro lk'
    by_cases hlk : lk' = lk
    · subst hlk
      simp [Thread.take, State.put]
    · rw [Function.update_of_ne hlk]
      simpa [Thread.take, State.put, hlk] using h.locks lk' c
  · intro lk' c' hc
    by_cases hlk : lk' = lk
    · subst hlk
      simp [hfree, Ne.symm hc]
    · rw [Function.update_of_ne hlk]
      rfl

theorem OnCpu.drop (h : OnCpu k t) (hpt : t.point = .run) (hmem : lk ∈ t.held) :
    OnCpu k (t.drop lk) := by
  have hdepth : t.depth = t.held.length := by simp [Thread.depth, hpt]
  have hpos := List.length_pos_of_mem hmem
  refine ⟨?_, fun _ => h.off (by omega), fun _ _ he => ?_, fun _ _ => ?_, fun he => ?_⟩
  · rw [h.noff, hdepth]
    simp only [Thread.depth, Thread.drop, List.length_erase_of_mem hmem]
    omega
  · cases he
  · exact h.intena (by omega) (by simp [hpt])
  · cases he

theorem Inv.drop (h : Inv s) (hpt : (s.on c).point = .run) (hmem : lk ∈ (s.on c).held)
    (hkeep : ¬ ((s.on c).leaving = true ∧ (s.current c).lock = some lk)) :
    Inv ((s.put c (s.cpu c) ((s.on c).drop lk)).setHolder lk none) := by
  have hheld : s.holder lk = some c := (h.locks lk c).mpr hmem
  refine h.put_holder ((h.on c).drop hpt hmem) (h.traps (s.current c)) ((h.nodup _).erase lk) rfl
    ?_ ?_ ?_
  · intro p hp hl
    have hne : Lock.proc p ≠ lk := fun he => hkeep ⟨hl, by rw [hp, ← he]; rfl⟩
    exact (List.mem_erase_of_ne hne).mpr (h.own_mem hp hl)
  · intro lk'
    by_cases hlk : lk' = lk
    · subst hlk
      have hgone : lk' ∉ (s.on c).held.erase lk' := (h.nodup (s.current c)).not_mem_erase
      simpa [Thread.drop] using hgone
    · rw [Function.update_of_ne hlk]
      exact (h.locks lk' c).trans (List.mem_erase_of_ne hlk).symm
  · intro lk' c' hc
    by_cases hlk : lk' = lk
    · subst hlk
      simp [hheld, Ne.symm hc]
    · rw [Function.update_of_ne hlk]
      rfl

theorem OnCpu.push (h : OnCpu k t) {old : Bool} (hpt : t.point = .pushing lk old) :
    OnCpu (k.push_off old) (t.push lk k.intr) := by
  have hdepth : t.depth = t.held.length := by simp [Thread.depth, hpt]
  refine ⟨?_, fun _ => rfl, fun _ _ he => ?_, fun _ _ b hb => ?_, fun he => ?_⟩
  · show k.noff + 1 = _
    rw [h.noff, hdepth]
    rfl
  · cases he
  · show (if k.noff = 0 then old else k.intena) = b
    have hb' : (if t.depth = 0 then some k.intr else t.before) = some b := hb
    rw [h.noff]
    split_ifs at hb' ⊢ with hzero
    · -- nothing has changed the flag since it was read
      rw [← h.old lk old hpt hzero]
      exact Option.some.inj hb'
    · exact h.intena (by omega) (by simp [hpt]) b hb'
  · cases he

/-- `pop_off` does not panic in `release`, and gives back the flag with the last lock. -/
theorem OnCpu.pop_off (h : OnCpu k t) (hpt : t.point = .popping) :
    k.pop_off = .ok
      { k with
        noff := t.held.length
        intr := if t.held = [] ∧ k.intena = true then true else false } := by
  have hdepth : t.depth = t.held.length + 1 := by simp [Thread.depth, hpt]
  have hoff : k.intr = false := h.off (by omega)
  have hnoff : k.noff = t.held.length + 1 := by rw [h.noff, hdepth]
  rw [Cpu.pop_off, if_neg (by simp [hoff]), if_neg (by omega), hnoff, hoff]
  simp

theorem OnCpu.pop (h : OnCpu k t) (hpt : t.point = .popping) :
    OnCpu { k with
        noff := t.held.length
        intr := if t.held = [] ∧ k.intena = true then true else false }
      { t with point := .run } := by
  have hdepth : t.depth = t.held.length + 1 := by simp [Thread.depth, hpt]
  refine ⟨rfl, fun hpos => ?_, fun _ _ he => ?_, fun _ _ => ?_, fun he => ?_⟩
  · have hne : t.held ≠ [] := fun he => by simp [Thread.depth, he] at hpos
    simp [hne]
  · cases he
  · exact h.intena (by omega) (by simp [hpt])
  · cases he

/-- Between two locks the flag may change, and a thread may be interrupted or go back to where it
was. -/
theorem OnCpu.unlocked (h : OnCpu k t) {b : Bool} {pt : Point P K} {l : List (Point P K)}
    (hheld : t.held = []) (hpt : t.point = .run ∨ ∃ lk b, t.point = .pushing lk b)
    (hpt' : pt = .run ∨ ∃ lk, pt = .pushing lk b) :
    OnCpu { k with intr := b } { t with point := pt, traps := l } := by
  have hdepth : t.depth = 0 := by
    rcases hpt with hpt | ⟨lk, b, hpt⟩ <;> simp [Thread.depth, hpt, hheld]
  have hdepth' : Thread.depth { t with point := pt, traps := l } = 0 := by
    rcases hpt' with rfl | ⟨lk, rfl⟩ <;> simp [Thread.depth, hheld]
  refine ⟨?_, fun hpos => ?_, fun lk' b' he _ => ?_, fun hpos => ?_, fun he => ?_⟩
  · rw [hdepth']
    exact h.noff.trans hdepth
  · omega
  · rcases hpt' with rfl | ⟨lk, rfl⟩
    · cases he
    · cases he
      rfl
  · omega
  · rcases hpt' with rfl | ⟨lk, rfl⟩ <;> cases he

/-! ### Switches -/

/-- A CPU goes on with a thread that no CPU runs, which gets its locks. -/
theorem Inv.swtch (h : Inv s) {i : Tid C P} {t' : Thread P K} {f : P → ProcState}
    (hi : ∀ c', s.current c' ≠ i) (hsched : ∀ c', i = .scheduler c' → c' = c) (ht : OffCpu t)
    (htraps : TrapsOk t) (hon : OnCpu (s.cpu c) t') (htraps' : TrapsOk t')
    (hheld : t'.held = (s.on c).held)
    (hf : ∀ c' ≠ c, ∀ p, s.current c' = .proc p → f p = s.pstate p)
    (hstate : ∀ p, i = .proc p → StateOk (f p) t' p)
    (hidle : ∀ p, (∀ c' ≠ c, s.current c' ≠ .proc p) → i ≠ .proc p → f p ≠ .running) :
    Inv { s.swtch c t i t' with pstate := f } := by
  have hic : i ≠ s.current c := (hi c).symm
  have hcur : ∀ c' ≠ c, Function.update s.current c i c' = s.current c' :=
    fun c' hc => Function.update_of_ne hc _ _
  have hon_c : ({ s.swtch c t i t' with pstate := f }).on c = t' := by
    simp [State.on, State.swtch]
  have hon_ne : ∀ c' ≠ c, ({ s.swtch c t i t' with pstate := f }).on c' = s.on c' := by
    intro c' hc
    have hne : s.current c' ≠ s.current c := fun he => hc (h.once _ _ he)
    simp [State.on, State.swtch, Function.update_of_ne hc, Function.update_of_ne (hi c'),
      Function.update_of_ne hne]
  refine ⟨?_, ?_, ?_, ?_, ?_, ?_, ?_, ?_, ?_, h.panic⟩
  · intro c'
    by_cases hc : c' = c
    · subst hc
      rw [hon_c]
      exact hon
    · rw [hon_ne c' hc]
      exact h.on c'
  · intro j hj
    have hji : j ≠ i := fun he => hj c (by simp [State.swtch, he])
    by_cases hjc : j = s.current c
    · subst hjc
      simpa [State.swtch, Function.update_of_ne hji] using ht
    · have hnone : ∀ c', s.current c' ≠ j := by
        intro c' he
        by_cases hc : c' = c
        · exact hjc (by rw [← he, hc])
        · exact hj c' ((hcur c' hc).trans he)
      simpa [State.swtch, Function.update_of_ne hji, Function.update_of_ne hjc] using h.off j hnone
  · exact all_update (all_update h.traps htraps) htraps'
  · have hnil : t.held.Nodup := by simp [ht.held]
    have hnodup : t'.held.Nodup := by
      rw [hheld]
      exact h.nodup _
    exact all_update (Q := fun t => t.held.Nodup)
      (all_update (Q := fun t => t.held.Nodup) h.nodup hnil) hnodup
  · intro c₁ c₂ he
    have he' : Function.update s.current c i c₁ = Function.update s.current c i c₂ := he
    by_cases h₁ : c₁ = c <;> by_cases h₂ : c₂ = c
    · rw [h₁, h₂]
    · subst h₁
      rw [Function.update_self, hcur c₂ h₂] at he'
      exact absurd he'.symm (hi c₂)
    · subst h₂
      rw [Function.update_self, hcur c₁ h₁] at he'
      exact absurd he' (hi c₁)
    · rw [hcur c₁ h₁, hcur c₂ h₂] at he'
      exact h.once c₁ c₂ he'
  · intro c₁ c₂ he
    have he' : Function.update s.current c i c₁ = .scheduler c₂ := he
    by_cases h₁ : c₁ = c
    · subst h₁
      rw [Function.update_self] at he'
      exact hsched c₂ he'
    · rw [hcur c₁ h₁] at he'
      exact h.own c₁ c₂ he'
  · intro lk c'
    by_cases hc : c' = c
    · subst hc
      rw [hon_c, hheld]
      exact h.locks lk c'
    · rw [hon_ne c' hc]
      exact h.locks lk c'
  · intro c' p hp
    have hp' : Function.update s.current c i c' = .proc p := hp
    by_cases hc : c' = c
    · subst hc
      rw [Function.update_self] at hp'
      rw [hon_c]
      exact hstate p hp'
    · rw [hcur c' hc] at hp'
      rw [hon_ne c' hc]
      show StateOk (f p) _ p
      rw [hf c' hc p hp']
      exact h.states c' p hp'
  · intro p hp
    refine hidle p (fun c' hc he => hp c' ((hcur c' hc).trans he)) fun he => hp c ?_
    simp [State.swtch, he]

/-- An interrupt finds the thread with no lock. -/
theorem OnCpu.interrupted (h : OnCpu k t) (hintr : k.intr = true) :
    t.held = [] ∧ (t.point = .run ∨ ∃ lk, t.point = .pushing lk true) := by
  have hdepth : t.depth = 0 := by
    by_contra hne
    have := h.off (by omega)
    simp [hintr] at this
  have hheld : t.held = [] := by
    have hlen : t.held.length = 0 := by
      unfold Thread.depth at hdepth
      omega
    exact List.length_eq_zero_iff.mp hlen
  refine ⟨hheld, ?_⟩
  cases hpt : t.point with
  | run => exact .inl rfl
  | pushing lk b =>
    have hb := h.old lk b hpt hdepth
    rw [hintr] at hb
    subst hb
    exact .inr ⟨lk, rfl⟩
  | spinning lk => simp [Thread.depth, hpt] at hdepth
  | popping => simp [Thread.depth, hpt] at hdepth
  | resuming => exact absurd hheld (h.restore hpt).1

/-- `sched` finds no reason to panic when the thread holds only `p->lock` and has changed its state.
-/
theorem Inv.schedPanic (h : Inv s) (hp : s.current c = .proc p) (hpt : (s.on c).point = .run)
    (hleave : (s.on c).leaving = true) (hheld : (s.on c).held = [.proc p]) :
    s.schedPanic c p = none := by
  have hk := h.on c
  have hdepth : (s.on c).depth = 1 := by simp [Thread.depth, hpt, hheld]
  have hlock : s.holder (.proc p) = some c := (h.locks _ c).mpr (by simp [hheld])
  have hst := h.states c p hp
  rw [StateOk, if_pos hleave] at hst
  have hnoff : (s.cpu c).noff = 1 := hk.noff.trans hdepth
  simp [State.schedPanic, State.holding, hlock, hnoff, hst.1, hk.off (by omega)]

/-- A process that is not `RUNNING` and whose lock another thread holds runs nowhere. -/
theorem Inv.not_current (h : Inv s) (hmem : .proc p ∈ (s.on c).held) (hcur : s.current c ≠ .proc p)
    (hst : s.pstate p ≠ .running) (c' : C) : s.current c' ≠ .proc p := by
  intro he
  have hok := h.states c' p he
  unfold StateOk at hok
  split_ifs at hok with hl
  · have hc : some c = some c' := ((h.locks _ c).mpr hmem).symm.trans ((h.locks _ c').mpr hok.2)
    exact hcur (by rw [Option.some.inj hc]; exact he)
  · exact hst hok

theorem Inv.idle_of_other (h : Inv s) (hc : s.current c ≠ .proc p)
    (hother : ∀ c' ≠ c, s.current c' ≠ .proc p) : s.pstate p ≠ .running := by
  refine h.idle p fun c' he => ?_
  by_cases hcc : c' = c
  · exact hc (hcc ▸ he)
  · exact hother c' hcc he

theorem Inv.sched (h : Inv s) (hp : s.current c = .proc p) (hpt : (s.on c).point = .run)
    (hleave : (s.on c).leaving = true) (hheld : (s.on c).held = [.proc p]) :
    Inv (s.swtch c { s.on c with held := [], saved := some (s.cpu c).intena }
      (.scheduler c) { s.thread (.scheduler c) with held := [.proc p], before := none }) := by
  have hk := h.on c
  have hdepth : (s.on c).depth = 1 := by simp [Thread.depth, hpt, hheld]
  have hi : ∀ c', s.current c' ≠ .scheduler c := by
    intro c' he
    have := h.own c' c he
    subst this
    rw [hp] at he
    cases he
  have hoff := h.off _ hi
  have hst := h.states c p hp
  rw [StateOk, if_pos hleave] at hst
  refine h.swtch (f := s.pstate) hi (fun c' he => (Tid.scheduler.inj he).symm) ⟨hpt, rfl, ?_⟩
    (h.traps (s.current c)) ⟨?_, fun _ => ?_, ?_, ?_, ?_⟩ (h.traps (.scheduler c)) hheld.symm
    (fun _ _ _ _ => rfl) (fun p he => ?_) (fun p' hother _ => ?_)
  · exact fun b hb => congrArg some (hk.intena (by omega) (by simp [hpt]) b hb)
  · rw [hk.noff, hdepth]
    simp [Thread.depth, hoff.point]
  · exact hk.off (by omega)
  · intro lk b he
    exact absurd (hoff.point.symm.trans he) (by simp)
  · intro _ _ b hb
    cases hb
  · intro he
    exact absurd (hoff.point.symm.trans he) (by simp)
  · cases he
  · by_cases hpp : p' = p
    · subst hpp
      exact hst.1
    · refine h.idle_of_other (fun he => ?_) hother
      exact hpp (Tid.proc.inj (hp.symm.trans he)).symm

theorem Inv.switch (h : Inv s) (hcur : s.current c = .scheduler c) (hpt : (s.on c).point = .run)
    (hheld : (s.on c).held = [.proc p]) (hst : s.pstate p = .runnable) :
    Inv ((s.swtch c { s.on c with held := [], before := none } (.proc p)
      ((s.thread (.proc p)).dispatched p)).setPstate p .running) := by
  have hk := h.on c
  have hdepth : (s.on c).depth = 1 := by simp [Thread.depth, hpt, hheld]
  have hi : ∀ c', s.current c' ≠ .proc p :=
    h.not_current (c := c) (by simp [hheld]) (by simp [hcur]) (by simp [hst])
  have hoff := h.off _ hi
  refine h.swtch (f := Function.update s.pstate p .running) hi (fun c' he => ?_) ⟨hpt, rfl, ?_⟩
    (h.traps (s.current c)) ⟨?_, fun _ => ?_, ?_, ?_, ?_⟩ (h.traps (.proc p)) hheld.symm ?_ ?_ ?_
  · cases he
  · intro b hb
    cases hb
  · rw [hk.noff, hdepth]
    simp only [Thread.depth, Thread.dispatched]
    split_ifs <;> rfl
  · exact hk.off (by omega)
  · intro lk b he
    simp only [Thread.dispatched] at he
    split_ifs at he
  · intro _ hne b hb
    simp only [Thread.dispatched] at hne hb
    rw [hoff.saved b hb] at hne
    simp at hne
  · intro he
    refine ⟨by simp [Thread.dispatched], ?_⟩
    cases hs : (s.thread (.proc p)).saved with
    | none => simp [Thread.dispatched, hs] at he
    | some v =>
      refine ⟨v, hs, fun b hb => ?_⟩
      have := hoff.saved b hb
      rw [hs] at this
      exact Option.some.inj this
  · intro c' _ p' he
    have hne : p' ≠ p := fun heq => hi c' (by rw [he, heq])
    exact Function.update_of_ne hne _ _
  · intro p' he
    cases he
    simp [StateOk, Thread.dispatched]
  · intro p' hother hne
    have hpp : p' ≠ p := fun heq => hne (by rw [heq])
    rw [Function.update_of_ne hpp]
    exact h.idle_of_other (by simp [hcur]) hother

/-! ### States of processes -/

theorem Inv.mark (h : Inv s) {st : ProcState} (hp : s.current c = .proc p)
    (hmem : .proc p ∈ (s.on c).held) (hst : st ≠ .running) :
    Inv ((s.put c (s.cpu c) { s.on c with leaving := true }).setPstate p st) := by
  have hk := h.on c
  refine h.put_with (t := { s.on c with leaving := true }) (f := s.holder)
    ⟨hk.noff, hk.off, hk.old, hk.intena, hk.restore⟩ (h.traps (s.current c)) (h.nodup (s.current c))
    (fun lk => h.locks lk c) (fun _ _ _ => Iff.rfl) (fun p' hp' => ?_) fun p' hp' => ?_
  · obtain rfl : p' = p := Tid.proc.inj (hp'.symm.trans hp)
    show StateOk (Function.update s.pstate p' st p') _ p'
    rw [Function.update_self]
    exact ⟨hst, hmem⟩
  · have hne : p' ≠ p := fun he => hp' (by rw [he]; exact hp)
    exact Function.update_of_ne hne ..

theorem Inv.setState (h : Inv s) {st : ProcState} (hold : s.pstate p ≠ .running)
    (hst : st ≠ .running) : Inv (s.setPstate p st) := by
  refine ⟨h.on, h.off, h.traps, h.nodup, h.once, h.own, h.locks, ?_, ?_, h.panic⟩
  · intro c' p' hp'
    have hok := h.states c' p' hp'
    show StateOk (Function.update s.pstate p st p') (s.on c') p'
    by_cases hpp : p' = p
    · subst hpp
      rw [Function.update_self]
      unfold StateOk at hok ⊢
      split_ifs at hok ⊢ with hl
      · exact ⟨hst, hok.2⟩
      · exact absurd hok hold
    · rw [Function.update_of_ne hpp]
      exact hok
  · intro p' hp'
    show Function.update s.pstate p st p' ≠ _
    by_cases hpp : p' = p
    · subst hpp
      rwa [Function.update_self]
    · rw [Function.update_of_ne hpp]
      exact h.idle p' hp'

theorem Inv.alloc (h : Inv s) (hi : ∀ c', s.current c' ≠ .proc p) (hst : s.pstate p = .unused) :
    Inv ({ s with thread := Function.update s.thread (.proc p) .fresh }.setPstate p .used) := by
  have hon : ∀ c', Function.update s.thread (.proc p) .fresh (s.current c') = s.on c' :=
    fun c' => Function.update_of_ne (hi c') _ _
  have hfresh : Inv { s with thread := Function.update s.thread (.proc p) .fresh } := by
    refine ⟨?_, ?_, ?_, ?_, h.once, h.own, ?_, ?_, h.idle, h.panic⟩
    · intro c'
      show OnCpu (s.cpu c') (Function.update s.thread (.proc p) .fresh (s.current c'))
      rw [hon]
      exact h.on c'
    · intro i hoff
      by_cases hip : i = .proc p
      · subst hip
        simp only [Function.update_self]
        exact ⟨rfl, rfl, fun _ hb => (by cases hb)⟩
      · simpa [Function.update_of_ne hip] using h.off i hoff
    · exact all_update h.traps (by simp [TrapsOk, Thread.fresh])
    · exact all_update (Q := fun t => t.held.Nodup) h.nodup List.nodup_nil
    · intro lk c'
      show _ ↔ lk ∈ (Function.update s.thread (.proc p) .fresh (s.current c')).held
      rw [hon]
      exact h.locks lk c'
    · intro c' p' hp'
      show StateOk _ (Function.update s.thread (.proc p) .fresh (s.current c')) p'
      rw [hon]
      exact h.states c' p' hp'
  exact hfresh.setState (by simp [hst]) (by simp)

theorem Inv.act {l : Label C P K} (h : Inv s) (hs : act s l = some s') : Inv s' := by
  cases l <;> simp only [Interrupts.act] at hs
  case setIntr c b =>
    split_ifs at hs with hg
    cases hs
    exact h.put ((h.on c).unlocked (l := (s.on c).traps) hg.2 (.inl hg.1) (.inl hg.1))
      (h.traps _) rfl rfl
  case trap c =>
    split_ifs at hs with hg
    cases hs
    obtain ⟨hheld, hpt⟩ := (h.on c).interrupted hg
    have hpt' : (s.on c).point = .run ∨ ∃ lk b, (s.on c).point = .pushing lk b :=
      hpt.imp id (Exists.imp fun _ hlk => ⟨true, hlk⟩)
    refine h.put ((h.on c).unlocked hheld hpt' (.inl rfl)) ?_ rfl rfl
    intro pt hmem
    rcases List.mem_cons.mp hmem with rfl | hmem
    · exact hpt
    · exact h.traps _ pt hmem
  case ret c =>
    split at hs
    · cases hs
    · rename_i pt rest htr
      split_ifs at hs with hg
      cases hs
      have hok := h.traps (s.current c)
      have hok' : ∀ x ∈ pt :: rest, x = .run ∨ ∃ lk, x = .pushing lk true := by
        rw [← htr]
        exact hok
      exact h.put ((h.on c).unlocked hg.2 (.inl hg.1) (hok' pt List.mem_cons_self))
        (fun x hx => hok' x (List.mem_cons_of_mem pt hx)) rfl rfl
  case acquire c lk =>
    split_ifs at hs with hg
    cases hs
    have hk := h.on c
    have hdepth : (s.on c).depth = (s.on c).held.length := by simp [Thread.depth, hg]
    refine h.put ⟨?_, fun hpos => hk.off ?_, fun _ _ he _ => ?_, fun hpos _ => hk.intena ?_ ?_,
      fun he => ?_⟩ (h.traps (s.current c)) rfl rfl
    · exact hk.noff.trans hdepth
    · exact lt_of_lt_of_eq hpos hdepth.symm
    · cases he
      rfl
    · exact lt_of_lt_of_eq hpos hdepth.symm
    · simp [hg]
    · cases he
  case push c =>
    split at hs
    · rename_i lk old hpt
      have hinv := h.put ((h.on c).push hpt) (h.traps (s.current c)) rfl rfl
      split_ifs at hs
      · cases hs
        exact ⟨hinv.on, hinv.off, hinv.traps, hinv.nodup, hinv.once, hinv.own, hinv.locks,
          hinv.states, hinv.idle, .inr rfl⟩
      · cases hs
        exact hinv
    · cases hs
  case take c =>
    split at hs
    · rename_i lk hpt
      split_ifs at hs with hfree
      cases hs
      exact h.take hpt hfree
    · cases hs
  case drop c lk =>
    split_ifs at hs with hg hheld
    · rw [State.holding, (h.locks lk c).mpr hg.2.1] at hheld
      simp at hheld
    · cases hs
      exact h.drop hg.1 hg.2.1 hg.2.2
  case pop c =>
    split_ifs at hs with hg
    rw [(h.on c).pop_off hg] at hs
    cases hs
    exact h.put ((h.on c).pop hg) (h.traps (s.current c)) rfl rfl
  case mark c st =>
    split at hs
    · rename_i p hp
      split_ifs at hs with hg
      cases hs
      exact h.mark hp hg.2.1 hg.2.2
    · cases hs
  case setState c p st =>
    split_ifs at hs with hg
    cases hs
    exact h.setState hg.2.2.1 hg.2.2.2
  case alloc c p =>
    split_ifs at hs with hg
    cases hs
    exact h.alloc (h.not_current hg.2.1 hg.2.2.1 (by simp [hg.2.2.2])) hg.2.2.2
  case sched c =>
    split at hs
    · rename_i p hp
      split_ifs at hs with hg
      rw [h.schedPanic hp hg.1 hg.2.1 hg.2.2] at hs
      cases hs
      exact h.sched hp hg.1 hg.2.1 hg.2.2
    · cases hs
  case switch c p =>
    split_ifs at hs with hg
    cases hs
    exact h.switch hg.1 hg.2.1 hg.2.2.1 hg.2.2.2
  case resume c =>
    split at hs
    · rename_i v hpt hsaved
      cases hs
      have hk := h.on c
      obtain ⟨-, v', hv', hb⟩ := hk.restore hpt
      have hdepth : (s.on c).depth = (s.on c).held.length := by simp [Thread.depth, hpt]
      refine h.put ⟨hk.noff.trans hdepth, fun hpos => hk.off (lt_of_lt_of_eq hpos hdepth.symm),
        fun _ _ he => ?_, fun _ _ b hbe => ?_, fun he => ?_⟩ (h.traps (s.current c)) rfl rfl
      · cases he
      · rw [hsaved] at hv'
        rw [← hb b hbe]
        exact Option.some.inj hv'
      · cases he
    · cases hs

theorem inv_reach (h : (system C P K).Reach s) : Inv s := by
  refine Lib.Lts.Reach.induct ?_ ?_ h
  · rintro s ⟨f, rfl⟩
    exact .boot f
  · intro s l s' _ hi hs
    have hs' : next l s = some s' := hs
    unfold next at hs'
    split_ifs at hs'
    exact hi.act hs'

/-- **The interrupt state belongs to the thread.** In every reachable state interrupts are off on
every CPU whose `noff` is positive, and the only panic is that of an `acquire` of a lock the thread
holds already: those of `pop_off`, `sched` and `release` are unreachable. And when a process's
thread performs the release that matches its outermost `acquire`, on whatever CPU, the flag is again
what it was before that `acquire`. -/
theorem interrupts_per_thread (h : (system C P K).Reach s) :
    (∀ c, 0 < (s.cpu c).noff → (s.cpu c).intr = false) ∧
    (s.panic = none ∨ s.panic = some .acquire) ∧
    ∀ c p b s', s.current c = .proc p → (s.on c).point = .popping → (s.on c).held = [] →
      (s.on c).before = some b → next (.pop c) s = some s' → (s'.cpu c).intr = b := by
  have hinv := inv_reach h
  refine ⟨fun c hpos => ?_, hinv.panic, ?_⟩
  · have hk := hinv.on c
    exact hk.off (hk.noff ▸ hpos)
  · intro c p b s' _ hpt hheld hb hs
    have hk := hinv.on c
    have hdepth : 0 < (s.on c).depth := by simp [Thread.depth, hpt]
    have hena : (s.cpu c).intena = b := hk.intena hdepth (by simp [hpt]) b hb
    unfold next at hs
    split_ifs at hs
    simp only [act, if_pos hpt, hk.pop_off hpt] at hs
    cases hs
    rw [put_cpu]
    cases b <;> simp [hheld, hena]

/-- The first process starts on one CPU, turns interrupts on and yields; the other CPU runs it
again, and it has freed its lock there. -/
def migrate : List (Label Bool Unit Empty) :=
  [.acquire false (.proc ()), .push false, .take false, .alloc false (),
    .setState false () .runnable, .switch false (), .drop false (.proc ()), .pop false,
    .setIntr false true, .acquire false (.proc ()), .push false, .take false, .mark false .runnable,
    .sched false, .drop false (.proc ()), .pop false,
    .acquire true (.proc ()), .push true, .take true, .switch true (), .resume true,
    .drop true (.proc ())]

/-- The flag the process had on the first CPU is what it gets on the second. -/
theorem interrupts_per_thread_migrate :
    ∃ s s', (system Bool Unit Empty).Reach s ∧ s.current true = .proc () ∧
      (s.on true).before = some true ∧ (s.cpu true).intr = false ∧ s.panic = none ∧
      next (.pop true) s = some s' ∧ (s'.cpu true).intr = true := by
  obtain ⟨s, hrun, hcur, hpt, hheld, hb, hnoff, hpanic, s', hs'⟩ :
      ∃ s, Lib.Lts.run next migrate (boot fun _ => true) = some s ∧ s.current true = .proc () ∧
        (s.on true).point = .popping ∧ (s.on true).held = [] ∧ (s.on true).before = some true ∧
        0 < (s.cpu true).noff ∧ s.panic ≠ some .acquire ∧ ∃ s', next (.pop true) s = some s' :=
    ⟨_, rfl, by decide, by decide +kernel, by decide +kernel, by decide +kernel, by decide +kernel,
      by decide +kernel, _, rfl⟩
  have h0 : (system Bool Unit Empty).Reach (boot fun _ => true) := .init ⟨_, rfl⟩
  have hr : (system Bool Unit Empty).Reach s := h0.run_all hrun
  obtain ⟨hoff, hnone, hpop⟩ := interrupts_per_thread hr
  exact ⟨s, s', hr, hcur, hb, hoff true hnoff, hnone.resolve_right hpanic, hs',
    hpop true () true s' hcur hpt hheld hb hs'⟩

/-- A lock is held by a thread that a CPU runs. -/
theorem Inv.exists_current (h : Inv s) {i : Tid C P} (hi : lk ∈ (s.thread i).held) :
    ∃ c, s.current c = i ∧ s.holder lk = some c := by
  by_contra hno
  have hoff : ∀ c, s.current c ≠ i := by
    rintro c rfl
    exact hno ⟨c, rfl, (h.locks lk c).mpr hi⟩
  simp [(h.off i hoff).held] at hi

/-- **Spinlocks exclude their users.** In every reachable state at most one thread holds a lock. That
thread is the one some CPU runs, with interrupts off there, so it is not waiting for a CPU. And
`holding` says on each CPU whether the thread that it runs holds the lock. -/
theorem spinlocks_exclusive (h : (system C P K).Reach s) (lk : Lock P K) :
    (∀ i j, lk ∈ (s.thread i).held → lk ∈ (s.thread j).held → i = j) ∧
    (∀ i, lk ∈ (s.thread i).held → ∃ c, s.current c = i ∧ (s.cpu c).intr = false) ∧
    ∀ c, s.holding c lk = true ↔ lk ∈ (s.on c).held := by
  have hinv := inv_reach h
  refine ⟨fun i j hi hj => ?_, fun i hi => ?_, fun c => ?_⟩
  · obtain ⟨c, rfl, hc⟩ := hinv.exists_current hi
    obtain ⟨c', rfl, hc'⟩ := hinv.exists_current hj
    rw [Option.some.inj (hc.symm.trans hc')]
  · obtain ⟨c, rfl, -⟩ := hinv.exists_current hi
    have hpos := List.length_pos_of_mem hi
    exact ⟨c, rfl, (hinv.on c).off (by rw [Thread.depth, State.on]; omega)⟩
  · rw [← hinv.locks]
    exact decide_eq_true_iff

/-- A scheduler hands the lock of a process over to it, while the scheduler of the other CPU waits for
that lock. -/
theorem spinlocks_exclusive_taken : ∃ s, (system Bool Unit Empty).Reach s ∧
    .proc () ∈ (s.thread (.proc ())).held ∧ (s.on true).point = .spinning (.proc ()) ∧
    next (.take true) s = none ∧ ∀ j, .proc () ∈ (s.thread j).held → .proc () = j := by
  obtain ⟨s, hrun, hs, hspin, htake⟩ : ∃ s : State Bool Unit Empty,
      Lib.Lts.run next (migrate.take 6 ++ [.acquire true (.proc ()), .push true])
        (boot fun _ => true) = some s ∧ .proc () ∈ (s.thread (.proc ())).held ∧
      (s.on true).point = .spinning (.proc ()) ∧ next (.take true) s = none :=
    ⟨_, rfl, by decide +kernel, by decide +kernel, rfl⟩
  have hr : (system Bool Unit Empty).Reach s := Lib.Lts.Reach.run_all (.init ⟨_, rfl⟩) hrun
  exact ⟨s, hr, hs, hspin, htake, fun j hj => (spinlocks_exclusive hr _).1 _ j hs hj⟩

end Xv6.Sched.Interrupts
