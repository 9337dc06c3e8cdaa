import Xv6.Lib.Bytes
import Xv6.Lib.Wp
import Xv6.Params

/-!
# The physical page allocator

`kalloc.c` over a byte-addressed physical memory. As in the source the free list is threaded through
the free pages themselves: the first word of a free page is the address of the next one, and a store
into a free page would corrupt the list. Any call of `kalloc` may fail: `fail` says which ones do, so
a result for every `fail` covers a failure at every point.
-/

namespace Xv6.Mem

open Lib (Bytes Code)

/-- Physical memory and the page allocator. -/
structure Phys where
  /-- The bytes of RAM. -/
  mem : Bytes
  /-- `kmem.freelist`, the address of the first free page, or 0. -/
  freelist : ℕ
  /-- Which calls of `kalloc` fail although a page may be free. -/
  fail : ℕ → Bool
  /-- The number of calls of `kalloc` so far. -/
  calls : ℕ
  /-- `end`, the first address after the kernel. -/
  kend : ℕ

/-- Code that uses only physical memory. -/
abbrev PCode := Code Phys

/-- Reads the 64-bit word at a physical address. -/
def load64 (a : ℕ) : PCode ℕ := Code.gets fun s => s.mem.load a 8

/-- Writes the 64-bit word at a physical address. -/
def store64 (a v : ℕ) : PCode Unit := Code.modify fun s => { s with mem := s.mem.store a 8 v }

/-- `memset` in physical memory. -/
def memset (a : ℕ) (c : UInt8) (n : ℕ) : PCode Unit :=
  Code.modify fun s => { s with mem := s.mem.fill a n c }

/-- `memmove` within physical memory. -/
def memmove (dst src n : ℕ) : PCode Unit :=
  Code.modify fun s => { s with mem := s.mem.copy dst n s.mem src }

/-- `memmove` into physical memory from bytes kept elsewhere in the kernel. -/
def memput (dst : ℕ) (source : Bytes) (src n : ℕ) : PCode Unit :=
  Code.modify fun s => { s with mem := s.mem.copy dst n source src }

/-- The 64-bit value of a number that was stored in an `int`. -/
def sext32 (x : ℕ) : ℕ :=
  if x % 2 ^ 32 < 2 ^ 31 then x % 2 ^ 32 else x % 2 ^ 32 + (2 ^ 64 - 2 ^ 32)

/-- `PGROUNDUP`, in 64-bit arithmetic. Source: `riscv.h`. -/
def PGROUNDUP (sz : ℕ) : ℕ := (sz + PGSIZE - 1) % 2 ^ 64 / PGSIZE * PGSIZE

/-- `PGROUNDDOWN`. Source: `riscv.h`. -/
def PGROUNDDOWN (a : ℕ) : ℕ := a / PGSIZE * PGSIZE

/-- Frees a page of physical memory. Source: `kalloc.c` `kfree`. -/
def kfree (pa : ℕ) : PCode Unit := do
  let s ← Code.get
  if pa % PGSIZE ≠ 0 ∨ pa < s.kend ∨ PHYSTOP ≤ pa then Code.panic "kfree" else
  -- fill with junk to catch dangling refs
  memset pa 1 PGSIZE
  -- r->next = kmem.freelist; kmem.freelist = r
  store64 pa s.freelist
  Code.modify fun s => { s with freelist := pa }

/-- Allocates a page of physical memory, or returns 0. Source: `kalloc.c` `kalloc`. -/
def kalloc : PCode ℕ := do
  let s ← Code.get
  Code.modify fun s => { s with calls := s.calls + 1 }
  if s.fail s.calls then return 0 else
  let r := s.freelist
  if r = 0 then return 0 else do
  let next ← load64 r
  Code.modify fun s => { s with freelist := next }
  -- fill with junk
  memset r 5 PGSIZE
  return r

end Xv6.Mem
