import Mathlib.Data.List.FinRange
import Xv6.Mem.Vm

/-!
# Processes, open files and pipes

The parts of `proc.c`, `file.c`, `pipe.c` and `sysfile.c` that allocate, share and free memory. The
state `Kern` holds physical memory, the process table, the file table and the contents of the pipes,
each under the address of its page. A system call runs to its end in one piece; a call that has to
wait returns without a result and is made again.

Scheduling is the subject of `Xv6.Sched`; here a process that can run, runs or sleeps is `RUNNABLE`.
The inode layer is left out except for the references that current directories hold: closing an inode
file only gives its entry of the file table back.
-/

namespace Xv6.Kernel

open Lib (Bytes Code)
open Mem

/-- A slot of the table `ftable.file[NFILE]`. -/
abbrev FileId := Fin NFILE

/-- A file descriptor. -/
abbrev Fd := Fin NOFILE

/-- A slot of the table `itable.inode[NINODE]`. -/
abbrev InodeId := Fin NINODE

/-- `struct file`. Source: `file.h`. -/
structure File where
  type : FdType
  ref : ℕ
  readable : Bool
  writable : Bool
  pipe : ℕ

/-- The state of a pipe that decides when it is freed. Source: `pipe.c` `struct pipe`. -/
structure Pipe where
  readopen : Bool
  writeopen : Bool

/-- `struct proc`. Source: `proc.h`. -/
structure Proc where
  state : ProcState
  killed : Bool
  xstate : ℤ
  pid : ℤ
  parent : Option Slot
  sz : ℕ
  pagetable : ℕ
  trapframe : ℕ
  ofile : Fd → Option FileId
  cwd : Option InodeId
  /-- The name, for debugging, up to its NUL. -/
  name : List UInt8

/-- The state of the kernel. -/
structure Kern where
  /-- RAM and the page allocator. -/
  phys : Phys
  procs : Slot → Proc
  ftable : FileId → File
  /-- The field `ref` of the inodes in memory; what open files do to it is the subject of `Xv6.Fs`. -/
  iref : InodeId → ℤ
  /-- The pipes, by the address of their page. -/
  pipes : ℕ → Pipe
  initproc : Slot
  nextpid : ℤ
  kernel_pagetable : ℕ
  /-- The physical pages of the kernel stacks. -/
  kstack : Slot → ℕ
  /-- Physical address of the page `trampoline`. -/
  trampoline : ℕ

/-- Code of the kernel. -/
abbrev KCode := Code Kern

/-- Code of the memory system as code of the kernel. -/
def vm {α : Type} (x : PCode α) : KCode α := Code.zoom Kern.phys (fun k s => { k with phys := s }) x

/-- Changes one process. -/
def setProc (p : Slot) (f : Proc → Proc) : KCode Unit :=
  Code.modify fun k => { k with procs := Function.update k.procs p (f (k.procs p)) }

/-- Changes one entry of the file table. -/
def setFile (i : FileId) (f : File → File) : KCode Unit :=
  Code.modify fun k => { k with ftable := Function.update k.ftable i (f (k.ftable i)) }

/-- Changes one pipe. -/
def setPipe (pi : ℕ) (f : Pipe → Pipe) : KCode Unit :=
  Code.modify fun k => { k with pipes := Function.update k.pipes pi (f (k.pipes pi)) }

/-- Changes the references to an inode; following a null pointer is a trap of the kernel. -/
def addRef (ip : Option InodeId) (d : ℤ) : KCode Unit :=
  match ip with
  | none => Code.panic "kerneltrap"
  | some i => Code.modify fun k => { k with iref := Function.update k.iref i (k.iref i + d) }

/-- Counts one more reference to an inode. Source: `fs.c` `idup`. -/
def idup (ip : Option InodeId) : KCode Unit := addRef ip 1

/-- Gives a reference to an inode up. Source: `fs.c` `iput`, without what it does to the disk. -/
def iput (ip : Option InodeId) : KCode Unit := addRef ip (-1)

/-- The string that `safestrcpy` leaves in a buffer of `n` bytes. Source: `string.c` `safestrcpy`. -/
def safestrcpy (t : List UInt8) (n : ℕ) : List UInt8 := (t.takeWhile (· ≠ 0)).take (n - 1)

/-- The bytes of a number, as the kernel keeps it in a variable. -/
def bytesOf (v : ℕ) : Bytes := fun i => UInt8.ofNat (v / 256 ^ i)

/-! ### Files and pipes -/

/-- Closes one end of a pipe and frees the pipe with the last. Source: `pipe.c` `pipeclose`. -/
def pipeclose (pi : ℕ) (writable : Bool) : KCode Unit := do
  if writable then setPipe pi fun q => { q with writeopen := false }
  else setPipe pi fun q => { q with readopen := false }
  let k ← Code.get
  if (k.pipes pi).readopen = false ∧ (k.pipes pi).writeopen = false then vm (kfree pi)

/-- Allocates an entry of the file table. Source: `file.c` `filealloc`. -/
def filealloc : KCode (Option FileId) := do
  let k ← Code.get
  match (List.finRange NFILE).find? (fun f => (k.ftable f).ref = 0) with
  | none => return none
  | some f => do
    setFile f fun x => { x with ref := 1 }
    return some f

/-- Counts one more reference. Source: `file.c` `filedup`. -/
def filedup (f : FileId) : KCode Unit := do
  let k ← Code.get
  if (k.ftable f).ref < 1 then Code.panic "filedup"
  else setFile f fun x => { x with ref := x.ref + 1 }

/-- Gives one reference up and closes the file with the last. Source: `file.c` `fileclose`. -/
def fileclose (f : FileId) : KCode Unit := do
  let k ← Code.get
  if (k.ftable f).ref < 1 then Code.panic "fileclose" else
  if 1 < (k.ftable f).ref then setFile f fun x => { x with ref := x.ref - 1 } else do
  let ff := k.ftable f
  setFile f fun x => { x with ref := 0, type := .FD_NONE }
  if ff.type = .FD_PIPE then pipeclose ff.pipe ff.writable

/-- Makes a pipe with its two files. Source: `pipe.c` `pipealloc`. -/
def pipealloc : KCode (Option (FileId × FileId)) := do
  match ← filealloc with
  | none => return none
  | some f0 => do
    match ← filealloc with
    | none => do
      fileclose f0
      return none
    | some f1 => do
      let pi ← vm kalloc
      if pi = 0 then do
        fileclose f0
        fileclose f1
        return none
      else do
        setPipe pi fun _ => { readopen := true, writeopen := true }
        setFile f0 fun x =>
          { x with type := .FD_PIPE, readable := true, writable := false, pipe := pi }
        setFile f1 fun x =>
          { x with type := .FD_PIPE, readable := false, writable := true, pipe := pi }
        return some (f0, f1)

/-- Allocates a file descriptor of process `p`. Source: `sysfile.c` `fdalloc`. -/
def fdalloc (p : Slot) (f : FileId) : KCode (Option Fd) := do
  let k ← Code.get
  match (List.finRange NOFILE).find? (fun fd => (k.procs p).ofile fd = none) with
  | none => return none
  | some fd => do
    setProc p fun x => { x with ofile := Function.update x.ofile fd (some f) }
    return some fd

/-- The open file of a descriptor given by the user. Source: `sysfile.c` `argfd`. -/
def argfd (p : Slot) (n : ℤ) : KCode (Option (Fd × FileId)) := do
  let k ← Code.get
  if h : 0 ≤ n ∧ n < NOFILE then
    let fd : Fd := ⟨n.toNat, by omega⟩
    return ((k.procs p).ofile fd).map fun f => (fd, f)
  else return none

/-- Clears a file descriptor. -/
def clearFd (p : Slot) (fd : Fd) : KCode Unit :=
  setProc p fun x => { x with ofile := Function.update x.ofile fd none }

/-- Source: `sysfile.c` `sys_dup`. -/
def sys_dup (p : Slot) (n : ℤ) : KCode ℤ := do
  match ← argfd p n with
  | none => return -1
  | some (_, f) => do
    match ← fdalloc p f with
    | none => return -1
    | some fd => do
      filedup f
      return fd

/-- Source: `sysfile.c` `sys_close`. -/
def sys_close (p : Slot) (n : ℤ) : KCode ℤ := do
  match ← argfd p n with
  | none => return -1
  | some (fd, f) => do
    clearFd p fd
    fileclose f
    return 0

/-- What `sys_open` does to the file table for an inode of type `type`; on failure the file table is
as before. Source: `sysfile.c` `sys_open`. -/
def sys_open (p : Slot) (type : FdType) (readable writable : Bool) : KCode ℤ := do
  match ← filealloc with
  | none => return -1
  | some f => do
    match ← fdalloc p f with
    | none => do
      fileclose f
      return -1
    | some fd => do
      setFile f fun x => { x with type := type, readable := readable, writable := writable }
      return fd

/-- Source: `sysfile.c` `sys_pipe`. -/
def sys_pipe (p : Slot) (fdarray : ℕ) : KCode ℤ := do
  match ← pipealloc with
  | none => return -1
  | some (rf, wf) => do
    match ← fdalloc p rf with
    | none => do
      fileclose rf
      fileclose wf
      return -1
    | some fd0 => do
      match ← fdalloc p wf with
      | none => do
        clearFd p fd0
        fileclose rf
        fileclose wf
        return -1
      | some fd1 => do
        let k ← Code.get
        let pagetable := (k.procs p).pagetable
        let r ← vm (copyout pagetable fdarray (bytesOf fd0) 0 4)
        -- the second copy is made only if the first worked
        let r ← if r < 0 then pure r
          else vm (copyout pagetable ((fdarray + 4) % 2 ^ 64) (bytesOf fd1) 0 4)
        if r < 0 then do
          clearFd p fd0
          clearFd p fd1
          fileclose rf
          fileclose wf
          return -1
        else return 0

/-! ### Processes -/

/-- A user page table with the trampoline and a trapframe, or 0.
Source: `proc.c` `proc_pagetable`. -/
def proc_pagetable (trampoline trapframe : ℕ) : PCode ℕ := do
  let pagetable ← uvmcreate
  if pagetable = 0 then return 0 else do
  if (← mappages pagetable TRAMPOLINE PGSIZE trampoline (PTE_R ||| PTE_X)) < 0 then do
    uvmfree pagetable 0
    return 0
  else do
  if (← mappages pagetable TRAPFRAME PGSIZE trapframe (PTE_R ||| PTE_W)) < 0 then do
    uvmunmap pagetable TRAMPOLINE 1 false
    uvmfree pagetable 0
    return 0
  else return pagetable

/-- Frees a user page table and the memory it refers to. Source: `proc.c` `proc_freepagetable`. -/
def proc_freepagetable (pagetable sz : ℕ) : PCode Unit := do
  uvmunmap pagetable TRAMPOLINE 1 false
  uvmunmap pagetable TRAPFRAME 1 false
  uvmfree pagetable sz

/-- Frees a process with its memory. Source: `proc.c` `freeproc`. -/
def freeproc (p : Slot) : KCode Unit := do
  let x := (← Code.get).procs p
  if x.trapframe ≠ 0 then vm (kfree x.trapframe)
  setProc p fun x => { x with trapframe := 0 }
  if x.pagetable ≠ 0 then vm (proc_freepagetable x.pagetable x.sz)
  setProc p fun x =>
    { x with pagetable := 0, sz := 0, pid := 0, parent := none, name := [], killed := false,
             xstate := 0, state := .unused }

/-- Finds an unused slot and sets it up to run in the kernel. Source: `proc.c` `allocproc`. -/
def allocproc : KCode (Option Slot) := do
  let k ← Code.get
  match (List.finRange NPROC).find? (fun p => (k.procs p).state = .unused) with
  | none => return none
  | some p => do
    -- allocpid
    Code.modify fun k => { k with nextpid := k.nextpid + 1 }
    setProc p fun x => { x with pid := k.nextpid, state := .used }
    let trapframe ← vm kalloc
    setProc p fun x => { x with trapframe := trapframe }
    if trapframe = 0 then do
      freeproc p
      return none
    else do
    let pagetable ← vm (proc_pagetable k.trampoline trapframe)
    setProc p fun x => { x with pagetable := pagetable }
    if pagetable = 0 then do
      freeproc p
      return none
    else return some p

/-- Grows or shrinks user memory by `n` bytes; sizes are cut to 32 bits on the way.
Source: `proc.c` `growproc`. -/
def growproc (p : Slot) (n : ℤ) : KCode ℤ := do
  let x := (← Code.get).procs p
  let sz := x.sz % 2 ^ 32
  let sum := ((sz + n) % 2 ^ 32).toNat
  if 0 < n then do
    let r ← vm (uvmalloc x.pagetable sz sum)
    if r % 2 ^ 32 = 0 then return -1 else do
    setProc p fun x => { x with sz := r % 2 ^ 32 }
    return 0
  else if n < 0 then do
    let r ← vm (uvmdealloc x.pagetable sz sum)
    setProc p fun x => { x with sz := r % 2 ^ 32 }
    return 0
  else do
    setProc p fun x => { x with sz := sz }
    return 0

/-- Source: `sysproc.c` `sys_sbrk`. -/
def sys_sbrk (p : Slot) (n : ℤ) : KCode ℤ := do
  let addr := ((← Code.get).procs p).sz
  if (← growproc p n) < 0 then return -1 else return sext32 addr

/-- The loop of `fork` over the file descriptors of `p`. Source: `proc.c` `fork`. -/
def dupFiles (p np : Slot) : List Fd → KCode Unit
  | [] => return
  | fd :: fds => do
    match ((← Code.get).procs p).ofile fd with
    | none => dupFiles p np fds
    | some f => do
      filedup f
      setProc np fun x => { x with ofile := Function.update x.ofile fd (some f) }
      dupFiles p np fds

/-- Creates a copy of process `p`. Source: `proc.c` `fork`. -/
def fork (p : Slot) : KCode ℤ := do
  match ← allocproc with
  | none => return -1
  | some np => do
    let x := (← Code.get).procs p
    let y := (← Code.get).procs np
    if (← vm (uvmcopy x.pagetable y.pagetable x.sz)) < 0 then do
      freeproc np
      return -1
    else do
    setProc np fun y => { y with sz := x.sz }
    -- copy saved user registers; the child sees 0 from fork
    vm (memmove y.trapframe x.trapframe 288)
    vm (store64 (y.trapframe + 112) 0)
    dupFiles p np (List.finRange NOFILE)
    idup x.cwd
    setProc np fun y => { y with cwd := x.cwd, name := safestrcpy x.name 16 }
    setProc np fun y => { y with parent := some p }
    setProc np fun y => { y with state := .runnable }
    return y.pid

/-- The loop of `exit` over the file descriptors. Source: `proc.c` `exit`. -/
def closeFiles (p : Slot) : List Fd → KCode Unit
  | [] => return
  | fd :: fds => do
    match ((← Code.get).procs p).ofile fd with
    | none => closeFiles p fds
    | some f => do
      fileclose f
      clearFd p fd
      closeFiles p fds

/-- Passes the children of `p` to init. Source: `proc.c` `reparent`. -/
def reparent (p : Slot) : KCode Unit :=
  Code.modify fun k =>
    { k with procs := fun q =>
        if (k.procs q).parent = some p then { k.procs q with parent := some k.initproc }
        else k.procs q }

/-- Exits process `p`, which stays a zombie until its parent waits. Source: `proc.c` `exit`. -/
def exit (p : Slot) (status : ℤ) : KCode Unit := do
  if p = (← Code.get).initproc then Code.panic "init exiting" else do
  closeFiles p (List.finRange NOFILE)
  iput ((← Code.get).procs p).cwd
  setProc p fun x => { x with cwd := none }
  reparent p
  setProc p fun x => { x with xstate := status, state := .zombie }

/-- The scan of `wait` over the process table: the result if a child has exited, and otherwise
whether there are children. Source: `proc.c` `wait`. -/
def waitScan (p : Slot) (addr : ℕ) : List Slot → Bool → KCode (ℤ ⊕ Bool)
  | [], havekids => return .inr havekids
  | np :: nps, havekids => do
    let x := (← Code.get).procs np
    if x.parent ≠ some p then waitScan p addr nps havekids else
    if x.state ≠ .zombie then waitScan p addr nps true else do
    let pagetable := ((← Code.get).procs p).pagetable
    let r ← if addr = 0 then pure 0
      else vm (copyout pagetable addr (bytesOf (x.xstate % 2 ^ 32).toNat) 0 4)
    if r < 0 then return .inl (-1) else do
    freeproc np
    return .inl x.pid

/-- Waits for a child to exit; without a result the process sleeps and will scan again.
Source: `proc.c` `wait`. -/
def wait (p : Slot) (addr : ℕ) : KCode (Option ℤ) := do
  match ← waitScan p addr (List.finRange NPROC) false with
  | .inl r => return some r
  | .inr havekids =>
    if !havekids || ((← Code.get).procs p).killed then return some (-1) else return none

/-- Marks the first process with the given pid as killed. Source: `proc.c` `kill`. -/
def kill (pid : ℤ) : KCode ℤ := do
  let k ← Code.get
  match (List.finRange NPROC).find? (fun p => (k.procs p).pid = pid) with
  | none => return -1
  | some p => do
    setProc p fun x => { x with killed := true }
    return 0

end Xv6.Kernel
