import Xv6.Kernel.Model

/-!
# `exec` and the system calls

`exec.c` for any file, the argument fetching of `sys_exec`, and the calls that a process can make.
-/

namespace Xv6.Kernel

open Lib (Bytes Code)
open Mem

/-! ### Reading a program -/

/-- The contents of the file to execute, whose size is an `uint`. -/
structure Image where
  size : ℕ
  data : Bytes
  small : size < 2 ^ 32

/-- The number of bytes that `readi` delivers at `off`. Source: `fs.c` `readi`. -/
def Image.readi (f : Image) (off n : ℕ) : ℕ :=
  if f.size < off ∨ (off + n) % 2 ^ 32 < off then 0 else min n (f.size - off)

/-- A field of a structure read from the file at `off`. -/
@[irreducible] def Image.field (f : Image) (off width : ℕ) : ℕ := f.data.load off width

/-- The loop of `loadseg` with `k` pages to go from `i` on. Source: `exec.c` `loadseg`. -/
def loadsegLoop (pagetable va : ℕ) (f : Image) (offset sz : ℕ) : ℕ → ℕ → PCode ℤ
  | 0, _ => return 0
  | k + 1, i => do
    let pa ← walkaddr pagetable ((va + i) % 2 ^ 64)
    if pa = 0 then Code.panic "loadseg: address should exist" else do
    let n := if sz - i < PGSIZE then sz - i else PGSIZE
    let off := (offset + i) % 2 ^ 32
    -- what readi found is copied even if it is too little
    memput pa f.data off (f.readi off n)
    if f.readi off n ≠ n then return -1
    else loadsegLoop pagetable va f offset sz k (i + PGSIZE)

/-- Loads a program segment; sizes and offsets are `uint`. Source: `exec.c` `loadseg`. -/
def loadseg (pagetable va : ℕ) (f : Image) (offset sz : ℕ) : PCode ℤ :=
  if va % PGSIZE ≠ 0 then Code.panic "loadseg: va must be page aligned"
  else loadsegLoop pagetable va f offset sz ((sz + PGSIZE - 1) / PGSIZE) 0

/-- The loop of `exec` over the program headers: whether it came to the end, and the size of the
memory allocated so far. Source: `exec.c` `exec`. -/
def loadSegs (f : Image) (pagetable : ℕ) : ℕ → ℕ → ℕ → PCode (Bool × ℕ)
  | 0, _, sz => return (true, sz)
  | n + 1, off, sz =>
    if f.readi off 56 ≠ 56 then return (false, sz) else
    let type := f.field off 4
    let poff := f.field (off + 8) 8
    let vaddr := f.field (off + 16) 8
    let filesz := f.field (off + 32) 8
    let memsz := f.field (off + 40) 8
    if type ≠ ELF_PROG_LOAD then loadSegs f pagetable n ((off + 56) % 2 ^ 32) sz else
    if memsz < filesz then return (false, sz) else
    if (vaddr + memsz) % 2 ^ 64 < vaddr then return (false, sz) else do
    let sz1 ← uvmalloc pagetable sz ((vaddr + memsz) % 2 ^ 64)
    if sz1 = 0 then return (false, sz) else
    if vaddr % PGSIZE ≠ 0 then return (false, sz1) else do
    if (← loadseg pagetable vaddr f (poff % 2 ^ 32) (filesz % 2 ^ 32)) < 0 then return (false, sz1)
    else loadSegs f pagetable n ((off + 56) % 2 ^ 32) sz1

/-! ### Arguments -/

/-- `strlen` of a string in physical memory that ends within `n` bytes. Source: `string.c`. -/
def strlen (m : Bytes) : ℕ → ℕ → ℕ
  | 0, _ => 0
  | n + 1, a => if m a = 0 then 0 else strlen m n (a + 1) + 1

/-- The loop of `exec` that pushes the argument strings: the stack pointers of the strings and of
the end, or nothing if they do not fit. Source: `exec.c` `exec`. -/
def pushArgs (pagetable stackbase : ℕ) : List ℕ → ℕ → ℕ → PCode (Option (List ℕ × ℕ))
  | [], _, sp => return some ([], sp)
  | arg :: args, argc, sp =>
    if MAXARG ≤ argc then return none else do
    let s ← Code.get
    let len := strlen s.mem PGSIZE arg
    let sp := (sp + 2 ^ 64 - (len + 1)) % 2 ^ 64
    let sp := sp - sp % 16
    if sp < stackbase then return none else do
    if (← copyout pagetable sp s.mem arg (len + 1)) < 0 then return none else do
    match ← pushArgs pagetable stackbase args (argc + 1) sp with
    | none => return none
    | some (ustack, sp') => return some (sp :: ustack, sp')

/-- The array `ustack` as bytes. -/
def wordBytes (ws : List ℕ) : Bytes := fun i => bytesOf (ws.getD (i / 8) 0) (i % 8)

/-- The part of `exec` after the program is loaded: the stack with the arguments. It returns the size
of user memory, and `argc` and the stack pointer if all went well. Source: `exec.c` `exec`. -/
def buildStack (pagetable sz : ℕ) (argv : List ℕ) : PCode (ℕ × Option (ℕ × ℕ)) := do
  let sz := PGROUNDUP sz
  let sz1 ← uvmalloc pagetable sz (sz + 2 * PGSIZE)
  if sz1 = 0 then return (sz, none) else do
  uvmclear pagetable (sz1 - 2 * PGSIZE)
  let stackbase := sz1 - PGSIZE
  match ← pushArgs pagetable stackbase argv 0 sz1 with
  | none => return (sz1, none)
  | some (ustack, sp) => do
    let argc := ustack.length
    let sp := (sp + 2 ^ 64 - (argc + 1) * 8) % 2 ^ 64
    let sp := sp - sp % 16
    if sp < stackbase then return (sz1, none) else do
    if (← copyout pagetable sp (wordBytes (ustack ++ [0])) 0 ((argc + 1) * 8)) < 0 then
      return (sz1, none)
    else return (sz1, some (argc, sp))

/-- The loop of `exec` that finds the last part of a path; `last` is the part found so far.
Source: `exec.c` `exec`. -/
def lastName (last : List UInt8) : List UInt8 → List UInt8
  | [] => last
  -- 47 is '/'
  | c :: s => if c = 47 then lastName s s else lastName last s

/-- Replaces the memory of process `p` by a program, which was found under `path`; `argv` are the
pages of the argument strings. Source: `exec.c` `exec`. -/
def exec (p : Slot) (path : List UInt8) (file : Option Image) (argv : List ℕ) : KCode ℤ := do
  match file with
  | none => return -1
  | some f => do
    let k ← Code.get
    if f.readi 0 64 ≠ 64 then return -1 else
    if f.field 0 4 ≠ ELF_MAGIC then return -1 else do
    let pagetable ← vm (proc_pagetable k.trampoline (k.procs p).trapframe)
    if pagetable = 0 then return -1 else do
    let (done, sz) ← vm (loadSegs f pagetable (f.field 56 2) (f.field 32 8 % 2 ^ 32) 0)
    if done = false then do
      vm (proc_freepagetable pagetable sz)
      return -1
    else do
    match ← vm (buildStack pagetable sz argv) with
    | (sz, none) => do
      vm (proc_freepagetable pagetable sz)
      return -1
    | (sz, some (argc, sp)) => do
      let x := k.procs p
      vm (store64 (x.trapframe + 120) sp)
      setProc p fun x => { x with name := safestrcpy (lastName path path) 16 }
      -- commit to the user image
      setProc p fun x => { x with pagetable := pagetable, sz := sz }
      vm (store64 (x.trapframe + 24) (f.field 24 8))
      vm (store64 (x.trapframe + 48) sp)
      vm (proc_freepagetable x.pagetable x.sz)
      return argc

/-- Fetches a word of user memory. Source: `syscall.c` `fetchaddr`. -/
def fetchaddr (pagetable sz addr : ℕ) : PCode (Option ℕ) := do
  if sz ≤ addr ∨ sz < (addr + 8) % 2 ^ 64 then return none else do
  let (r, buf) ← copyin pagetable (fun _ => 0) addr 8
  if r ≠ 0 then return none else return some (buf.load 0 8)

/-- Fetches a string of user memory into the page `buf`. Source: `syscall.c` `fetchstr`. -/
def fetchstr (pagetable addr buf : ℕ) : PCode ℤ := do
  let (r, str) ← copyinstr pagetable addr PGSIZE
  let copied := if r < 0 then str else str ++ [0]
  memput buf (fun i => copied.getD i 0) 0 copied.length
  if r < 0 then return r else return str.length

/-- The loop of `sys_exec` from argument `i` on: the pages of the arguments fetched, and whether all
were. Source: `sysfile.c` `sys_exec`. -/
def fetchArgs (pagetable sz uargv : ℕ) : ℕ → ℕ → PCode (List ℕ × Bool)
  -- i >= NELEM(argv)
  | 0, _ => return ([], false)
  | n + 1, i => do
    match ← fetchaddr pagetable sz ((uargv + 8 * i) % 2 ^ 64) with
    | none => return ([], false)
    | some uarg =>
      if uarg = 0 then return ([], true) else do
      let page ← kalloc
      if page = 0 then return ([], false) else do
      if (← fetchstr pagetable uarg page) < 0 then return ([page], false) else do
      let (pages, ok) ← fetchArgs pagetable sz uargv n (i + 1)
      return (page :: pages, ok)

/-- Frees the pages of the arguments. Source: `sysfile.c` `sys_exec`. -/
def freeArgs : List ℕ → PCode Unit
  | [] => return
  | page :: pages => do
    kfree page
    freeArgs pages

/-- Source: `sysfile.c` `sys_exec`. `namei` finds the file for a path. -/
def sys_exec (p : Slot) (namei : List UInt8 → Option Image) (path uargv : ℕ) : KCode ℤ := do
  let x := (← Code.get).procs p
  let (r, name) ← vm (copyinstr x.pagetable path 128)
  if r < 0 then return -1 else do
  let (argv, ok) ← vm (fetchArgs x.pagetable x.sz uargv MAXARG 0)
  if ok then do
    let ret ← exec p name (namei name) argv
    vm (freeArgs argv)
    return ret
  else do
    vm (freeArgs argv)
    return -1

/-! ### System calls -/

/-- What a process can ask for. -/
inductive Call
  | fork
  | exec (namei : List UInt8 → Option Image) (path uargv : ℕ)
  | sbrk (n : ℤ)
  | pipe (fdarray : ℕ)
  | dup (fd : ℤ)
  | close (fd : ℤ)
  | openFile (type : FdType) (h : type ≠ .FD_PIPE) (readable writable : Bool)
  | exit (status : ℤ)
  | kill (pid : ℤ)
  | wait (addr : ℕ)
  /-- A store by the user program, or bytes that a `read` delivers. -/
  | store (addr : ℕ) (source : Bytes) (len : ℕ)

/-- The code of a call by process `p`. -/
def Call.run (p : Slot) : Call → KCode Unit
  | .fork => do let _ ← Kernel.fork p
  | .exec namei path uargv => do let _ ← sys_exec p namei path uargv
  | .sbrk n => do let _ ← sys_sbrk p n
  | .pipe fdarray => do let _ ← sys_pipe p fdarray
  | .dup fd => do let _ ← sys_dup p fd
  | .close fd => do let _ ← sys_close p fd
  | .openFile type _ readable writable => do let _ ← sys_open p type readable writable
  | .exit status => Kernel.exit p status
  | .kill pid => do let _ ← Kernel.kill pid
  | .wait addr => do let _ ← Kernel.wait p addr
  | .store addr source len => do
    let k ← Code.get
    let _ ← vm (copyout (k.procs p).pagetable addr source 0 len)

end Xv6.Kernel
