import Mathlib.Data.Fintype.Basic
import Xv6.Lib.Trans
import Xv6.Params

/-!
# Process scheduling: who runs where

The part of `proc.c` that moves processes between CPUs, as a transition system over any set `C` of
CPUs. A step is one section executed under some `p->lock`. Three sections do not release the lock
they take, and the lock stays held in the state after the step:

* `scheduler` marks `p` `RUNNING` and calls `swtch`; the lock is released by `p`'s own kernel thread
  (in `yield`, `sleep` or `forkret`), which is the step `resume`.
* `yield`, `sleep` and `exit` change the state of the running process and call `sched`; the lock is
  released by the scheduler of that CPU, which is the step `park`.
* `allocproc` returns with `np->lock` held, and `fork` releases it later (or frees the slot).

Every other section (one slot of `wakeup` or `kill`, one slot of the scan in `wait`, the last
section of `fork`) takes and releases the lock in one step. `wakeup` and `kill` may be run on any
CPU at any moment at which it holds no process lock, since interrupt handlers call the former; a
timer interrupt may make the running process yield whenever it holds no lock at all.
-/

namespace Xv6.Sched

/-- A sleep channel: the address of a process (`wait` sleeps on its own) or of anything else. -/
inductive Chan
  | proc (p : Slot)
  | other (addr : ℕ)
  deriving DecidableEq, Repr

/-- Where `swtch(&c->context, &p->context)` continues: at `forkret` for a new process, else after
the call of `sched` in `yield` or in `sleep`. Source: `proc.c` `allocproc`, `yield`, `sleep`. -/
inductive Context
  | forkret | yield | sleep
  deriving DecidableEq, Repr

/-- The point a process's kernel thread has reached in the calls whose sections depend on each
other. -/
inductive Point
  /-- In user space, or in kernel code that holds neither a process lock nor `wait_lock`. -/
  | user
  /-- In `fork`, holding `np->lock`: `allocproc` has returned `np`. -/
  | forkAlloc (np : Slot)
  /-- In `fork`, `np->lock` released and `np->parent` not yet set. -/
  | forkParent (np : Slot)
  /-- In `fork`, before the section that makes `np` runnable. -/
  | forkRunnable (np : Slot)
  /-- In `exit`, holding `wait_lock`, before `reparent`. -/
  | exitLocked
  /-- In `exit`, holding `wait_lock`, after `reparent`. -/
  | exitReparented
  /-- In `wait(addr)`, holding `wait_lock`, before slot `i` of the scan. -/
  | waitScan (addr i : ℕ) (havekids : Bool)
  /-- In `wait(addr)`, woken up and about to take `wait_lock` again. -/
  | waitResume (addr : ℕ)
  /-- In the last call of `sched` in `exit`, which never returns. -/
  | dead
  deriving DecidableEq, Repr

/-- `struct proc`, less what memory management and the file system keep in it.
Source: `proc.h`. -/
structure Proc where
  /-- Process state. -/
  state : ProcState
  /-- If not none, sleeping on that channel. -/
  chan : Option Chan
  /-- If true, has been killed. -/
  killed : Bool
  /-- Exit status to be returned to the parent's `wait`. -/
  xstate : ℤ
  /-- Process id. -/
  pid : ℤ
  /-- Parent process. -/
  parent : Option Slot
  /-- `swtch` here to run the process. -/
  context : Context
  /-- What the kernel thread is doing. -/
  point : Point
  deriving DecidableEq, Repr

/-- The thread a CPU executes, with the process lock it holds across a switch. -/
inductive Mode
  /-- The scheduler loop, between two sections. -/
  | scheduler
  /-- The thread of `p`, switched to and still holding `p->lock`. -/
  | entering (p : Slot)
  /-- The thread of `p`. -/
  | process (p : Slot)
  /-- The scheduler, switched to from `p` and still holding `p->lock`. -/
  | leaving (p : Slot)
  deriving DecidableEq, Repr

/-- `struct cpu`. Source: `proc.h`. -/
structure Cpu where
  /-- The process running on this CPU, or none. -/
  proc : Option Slot
  /-- What the CPU executes. -/
  mode : Mode
  deriving DecidableEq, Repr

variable {C : Type} [DecidableEq C]

/-- The process table, the CPUs and the locks. -/
structure State (C : Type) where
  /-- `cpus[]`. -/
  cpus : C → Cpu
  /-- `proc[]`. -/
  procs : Slot → Proc
  /-- The CPU that holds `p->lock`. -/
  lock : Slot → Option C
  /-- The process whose kernel thread holds `wait_lock`. -/
  waitLock : Option Slot
  /-- The next pid `allocpid` hands out. -/
  nextpid : ℤ
  /-- The first process. -/
  initproc : Slot

namespace State

/-- Replaces the record of process `p`. -/
def setProc (s : State C) (p : Slot) (r : Proc) : State C :=
  { s with procs := Function.update s.procs p r }

/-- Replaces the record of CPU `c`. -/
def setCpu (s : State C) (c : C) (r : Cpu) : State C :=
  { s with cpus := Function.update s.cpus c r }

/-- Records the holder of `p->lock`. -/
def setLock (s : State C) (p : Slot) (h : Option C) : State C :=
  { s with lock := Function.update s.lock p h }

/-- Moves the kernel thread of `p` to another point. -/
def goto (s : State C) (p : Slot) (pt : Point) : State C :=
  s.setProc p { s.procs p with point := pt }

/-- `struct proc *myproc()` on CPU `c`. -/
def myproc (s : State C) (c : C) : Option Slot := (s.cpus c).proc

end State

/-- The record `freeproc` leaves behind. Source: `proc.c` `freeproc`. -/
def freeproc (r : Proc) : Proc :=
  { r with state := .unused, chan := none, killed := false, xstate := 0, pid := 0, parent := none }

/-- The record of a slot that `allocproc` has taken. Source: `proc.c` `allocproc`. -/
def allocproc (r : Proc) (pid : ℤ) : Proc :=
  { r with state := .used, pid := pid, context := .forkret, point := .user }

/-- One slot of `wakeup(chan)`. Source: `proc.c` `wakeup`. -/
def wakeup1 (r : Proc) (ch : Chan) : Proc :=
  if r.state = .sleeping ∧ r.chan = some ch then { r with state := .runnable } else r

/-- One slot of `kill(pid)`. Source: `proc.c` `kill`. -/
def kill1 (r : Proc) (pid : ℤ) : Proc :=
  if r.pid = pid then
    { r with killed := true, state := if r.state = .sleeping then .runnable else r.state }
  else r

/-- `reparent(p)` gives the children of `p` to init. Source: `proc.c` `reparent`. -/
def reparent (initproc p : Slot) (procs : Slot → Proc) : Slot → Proc := fun pp =>
  if (procs pp).parent = some p then { procs pp with parent := some initproc } else procs pp

/-- `sched` on CPU `c`, called by the running process `p` with its new record: the lock of `p`, taken
in the same step, passes to the scheduler of `c`. Source: `proc.c` `sched`. -/
def sched (s : State C) (c : C) (p : Slot) (r : Proc) : State C :=
  ((s.setProc p r).setLock p (some c)).setCpu c { s.cpus c with mode := .leaving p }

/-- The points at which a process holds no lock, so that interrupts are on and it may yield. -/
def Point.preemptible : Point → Bool
  | .user | .forkParent _ | .forkRunnable _ | .waitResume _ => true
  | _ => false

/-- Whether the code on a CPU holds some process lock. -/
def holdsProcLock (s : State C) (c : C) : Bool :=
  match (s.cpus c).mode with
  | .scheduler => false
  | .entering _ | .leaving _ => true
  | .process p => match (s.procs p).point with
    | .forkAlloc _ => true
    | _ => false

/-- The sections that can be executed, each with the CPU that executes it. -/
inductive Label (C : Type)
  /-- One slot of the loop of `scheduler`. -/
  | dispatch (c : C) (p : Slot)
  /-- The thread switched to leaves `sched` (or starts in `forkret`) and releases its lock. -/
  | resume (c : C)
  /-- The scheduler switched to clears `c->proc` and releases the lock. -/
  | park (c : C)
  /-- A timer interrupt makes the running process call `yield`. -/
  | yield (c : C)
  /-- The running process sleeps on a channel. -/
  | sleep (c : C) (ch : Chan)
  /-- One slot of `wakeup`. -/
  | wakeup (c : C) (ch : Chan) (p : Slot)
  /-- One slot of `kill`. -/
  | kill (c : C) (pid : ℤ) (p : Slot)
  /-- `fork`: `allocproc` finds the slot `np`. -/
  | forkAlloc (c : C) (np : Slot)
  /-- `fork`: memory ran out, `freeproc(np)` and release. -/
  | forkFail (c : C)
  /-- `fork`: the first release of `np->lock`. -/
  | forkRelease (c : C)
  /-- `fork`: `np->parent = p` under `wait_lock`. -/
  | forkParent (c : C)
  /-- `fork`: `np->state = RUNNABLE`. -/
  | forkRunnable (c : C)
  /-- `exit`: `acquire(&wait_lock)`. -/
  | exitLock (c : C)
  /-- `exit`: `reparent(p)`. -/
  | exitReparent (c : C)
  /-- `exit`: the section that makes the process a zombie. -/
  | exitZombie (c : C) (status : ℤ)
  /-- `wait`: `acquire(&wait_lock)`. -/
  | waitLock (c : C) (addr : ℕ)
  /-- `wait`: one slot of the scan, or its end; `copied` is the outcome of `copyout`. -/
  | waitScan (c : C) (copied : Bool)
  /-- `wait`: `acquire(&wait_lock)` on the way out of `sleep`. -/
  | waitRelock (c : C)

/-- One slot of the scan in `wait(addr)` by process `p`, and what follows the last slot.
Source: `proc.c` `wait`. -/
def waitScan (s : State C) (c : C) (p : Slot) (addr i : ℕ) (havekids copied : Bool) :
    Option (State C) :=
  if h : i < NPROC then
    let np : Slot := ⟨i, h⟩
    if (s.procs np).parent = some p then
      -- `acquire(&np->lock)`: makes sure the child isn't still in `exit()` or `swtch()`
      if s.lock np = none then
        if (s.procs np).state = .zombie then
          if addr ≠ 0 ∧ copied = false then
            some { s.goto p .user with waitLock := none }
          else
            some { (s.setProc np (freeproc (s.procs np))).goto p .user with waitLock := none }
        else some (s.goto p (.waitScan addr (i + 1) true))
      else none
    else some (s.goto p (.waitScan addr (i + 1) havekids))
  else if havekids = false ∨ (s.procs p).killed then
    some { s.goto p .user with waitLock := none }
  else if s.lock p = none then
    -- `sleep(p, &wait_lock)`
    some { sched s c p { s.procs p with
      chan := some (.proc p), state := .sleeping, context := .sleep,
      point := .waitResume addr } with waitLock := none }
  else none

/-- The sections a process `p` that runs on CPU `c` can execute.
Source: `proc.c` `yield`, `sleep`, `fork`, `exit`, `wait`. -/
def stepProcess (s : State C) (c : C) (p : Slot) : Label C → Option (State C)
  | .yield _ =>
    if (s.procs p).point.preemptible ∧ s.lock p = none then
      some (sched s c p { s.procs p with state := .runnable, context := .yield })
    else none
  | .sleep _ ch =>
    if (s.procs p).point = .user ∧ s.lock p = none then
      some (sched s c p { s.procs p with chan := some ch, state := .sleeping, context := .sleep })
    else none
  | .forkAlloc _ np =>
    if (s.procs p).point = .user ∧ s.lock np = none ∧ (s.procs np).state = .unused then
      some { ((s.setProc np (allocproc (s.procs np) s.nextpid)).setLock np (some c)).goto p
        (.forkAlloc np) with nextpid := s.nextpid + 1 }
    else none
  | .forkFail _ =>
    match (s.procs p).point with
    | .forkAlloc np =>
      some (((s.setProc np (freeproc (s.procs np))).setLock np none).goto p .user)
    | _ => none
  | .forkRelease _ =>
    match (s.procs p).point with
    | .forkAlloc np => some ((s.setLock np none).goto p (.forkParent np))
    | _ => none
  | .forkParent _ =>
    match (s.procs p).point with
    | .forkParent np =>
      if s.waitLock = none then
        some ((s.setProc np { s.procs np with parent := some p }).goto p (.forkRunnable np))
      else none
    | _ => none
  | .forkRunnable _ =>
    match (s.procs p).point with
    | .forkRunnable np =>
      if s.lock np = none then
        some ((s.setProc np { s.procs np with state := .runnable }).goto p .user)
      else none
    | _ => none
  | .exitLock _ =>
    if (s.procs p).point = .user ∧ s.waitLock = none ∧ p ≠ s.initproc then
      some { s.goto p .exitLocked with waitLock := some p }
    else none
  | .exitReparent _ =>
    if (s.procs p).point = .exitLocked then
      some ({ s with procs := reparent s.initproc p s.procs }.goto p .exitReparented)
    else none
  | .exitZombie _ status =>
    if (s.procs p).point = .exitReparented ∧ s.lock p = none then
      some { sched s c p { s.procs p with
        xstate := status, state := .zombie, point := .dead } with waitLock := none }
    else none
  | .waitLock _ addr =>
    if (s.procs p).point = .user ∧ s.waitLock = none then
      some { s.goto p (.waitScan addr 0 false) with waitLock := some p }
    else none
  | .waitScan _ copied =>
    match (s.procs p).point with
    | .waitScan addr i havekids => waitScan s c p addr i havekids copied
    | _ => none
  | .waitRelock _ =>
    match (s.procs p).point with
    | .waitResume addr =>
      if s.waitLock = none then
        some { s.goto p (.waitScan addr 0 false) with waitLock := some p }
      else none
    | _ => none
  | _ => none

/-- The CPU that executes a section. -/
def Label.cpu : Label C → C
  | dispatch c _ | resume c | park c | yield c | sleep c _ | wakeup c _ _ | kill c _ _
  | forkAlloc c _ | forkFail c | forkRelease c | forkParent c | forkRunnable c
  | exitLock c | exitReparent c | exitZombie c _ | waitLock c _ | waitScan c _ | waitRelock c => c

/-- The state after a section, if it can be executed. -/
def step (l : Label C) (s : State C) : Option (State C) :=
  match l with
  | .dispatch c p =>
    match (s.cpus c).mode with
    | .scheduler =>
      if s.lock p = none then
        if (s.procs p).state = .runnable then
          some (((s.setProc p { s.procs p with state := .running }).setLock p (some c)).setCpu c
            { proc := some p, mode := .entering p })
        else some s
      else none
    | _ => none
  | .resume c =>
    match (s.cpus c).mode with
    | .entering p =>
      let r := s.procs p
      -- `sleep` tidies up with `p->chan = 0`; `yield` and `forkret` only release
      let r' := if r.context = .sleep then { r with chan := none } else r
      some (((s.setProc p r').setLock p none).setCpu c { s.cpus c with mode := .process p })
    | _ => none
  | .park c =>
    match (s.cpus c).mode with
    | .leaving p => some ((s.setLock p none).setCpu c { proc := none, mode := .scheduler })
    | _ => none
  | .wakeup c ch p =>
    if holdsProcLock s c = false ∧ s.myproc c ≠ some p ∧ s.lock p = none then
      some (s.setProc p (wakeup1 (s.procs p) ch))
    else none
  | .kill c pid p =>
    match (s.cpus c).mode with
    | .process _ =>
      if holdsProcLock s c = false ∧ s.lock p = none then
        some (s.setProc p (kill1 (s.procs p) pid))
      else none
    | _ => none
  | l =>
    match (s.cpus l.cpu).mode with
    | .process p => stepProcess s l.cpu p l
    | _ => none

/-- The state after `userinit`: one runnable process, every CPU about to enter `scheduler`.
Source: `proc.c` `procinit`, `userinit`. -/
def boot (C : Type) (initproc : Slot) : State C where
  cpus _ := { proc := none, mode := .scheduler }
  procs p :=
    { state := if p = initproc then .runnable else .unused, chan := none, killed := false,
      xstate := 0, pid := if p = initproc then 1 else 0, parent := none, context := .forkret,
      point := .user }
  lock _ := none
  waitLock := none
  nextpid := 2
  initproc := initproc

/-- The scheduling of `proc.c` as a transition system. -/
def system (C : Type) [DecidableEq C] : Lib.Lts (State C) (Label C) :=
  .ofFun (fun s => ∃ p, s = boot C p) step

end Xv6.Sched
