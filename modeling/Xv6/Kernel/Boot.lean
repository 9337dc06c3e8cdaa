import Xv6.Kernel.Exec

/-!
# The first process

`userinit` sets up the first process, once the allocator has its pages and the kernel its page table
and stacks.
-/

namespace Xv6.Kernel

open Lib (Bytes Code)
open Mem

/-- An unused entry of the file table. -/
def File.empty : File :=
  { type := .FD_NONE, ref := 0, readable := false, writable := false, pipe := 0 }

/-- An unused slot of the process table. -/
def Proc.empty : Proc where
  state := .unused
  killed := false
  xstate := 0
  pid := 0
  parent := none
  sz := 0
  pagetable := 0
  trapframe := 0
  ofile _ := none
  cwd := none
  name := []

/-- The program that the first process runs. Source: `proc.c` `initcode`. -/
def initcode : List UInt8 :=
  [0x17, 0x05, 0x00, 0x00, 0x13, 0x05, 0x45, 0x02,
   0x97, 0x05, 0x00, 0x00, 0x93, 0x85, 0x35, 0x02,
   0x93, 0x08, 0x70, 0x00, 0x73, 0x00, 0x00, 0x00,
   0x93, 0x08, 0x20, 0x00, 0x73, 0x00, 0x00, 0x00,
   0xef, 0xf0, 0x9f, 0xff, 0x2f, 0x69, 0x6e, 0x69,
   0x74, 0x00, 0x00, 0x24, 0x00, 0x00, 0x00, 0x00,
   0x00, 0x00, 0x00, 0x00]

/-- The bytes of `"initcode"`. Source: `proc.c` `userinit`. -/
def initName : List UInt8 := [105, 110, 105, 116, 99, 111, 100, 101]

/-- Sets up the first process. A failing `allocproc` makes the kernel read through a null pointer,
which traps. Source: `proc.c` `userinit`. -/
def userinit : KCode Unit := do
  match ← allocproc with
  | none => Code.panic "kerneltrap"
  | some p => do
    Code.modify fun k => { k with initproc := p }
    let x := (← Code.get).procs p
    vm (uvminit x.pagetable (fun i => initcode.getD i 0) initcode.length)
    setProc p fun x => { x with sz := PGSIZE }
    vm (store64 (x.trapframe + 24) 0)
    vm (store64 (x.trapframe + 48) PGSIZE)
    -- namei("/") takes the first slot of the table of inodes
    let ip : Option InodeId := some ⟨0, NINODE_pos⟩
    idup ip
    setProc p fun x => { x with name := safestrcpy initName 16, cwd := ip }
    setProc p fun x => { x with state := .runnable }

end Xv6.Kernel
