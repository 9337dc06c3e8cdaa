import Xv6.Mem.Phys

/-!
# Page tables

`vm.c` over the byte memory of `Xv6.Mem.Phys`: a page table is the physical address of its root
page, and every function reads and writes page-table entries as 64-bit words of physical memory, as
the source does. Loops that count addresses up in steps of a page recurse on the number of steps
left; 64-bit sums are cut where the source's arithmetic wraps.
-/

namespace Xv6.Mem

open Lib (Bytes Code)

/-! ### `riscv.h` -/

/-- Valid. -/
def PTE_V : ℕ := 1

/-- Readable. -/
def PTE_R : ℕ := 2

/-- Writable. -/
def PTE_W : ℕ := 4

/-- Executable. -/
def PTE_X : ℕ := 8

/-- User can access. -/
def PTE_U : ℕ := 16

/-- Shifts a physical address to its place in a page-table entry. -/
def PA2PTE (pa : ℕ) : ℕ := (pa >>> 12) <<< 10

/-- The physical address in a page-table entry, in 64-bit arithmetic. -/
def PTE2PA (pte : ℕ) : ℕ := ((pte >>> 10) <<< 12) % 2 ^ 64

/-- The flags of a page-table entry. -/
def PTE_FLAGS (pte : ℕ) : ℕ := pte &&& 0x3FF

/-- The 9-bit index of a virtual address at a level of the page table. -/
def PX (level va : ℕ) : ℕ := (va >>> (12 + 9 * level)) &&& 0x1FF

/-! ### Walking and mapping -/

/-- The loop of `walk` over the levels still to descend, from a page-table page.
Source: `vm.c` `walk`. -/
def walkFrom (va : ℕ) (alloc : Bool) : List ℕ → ℕ → PCode ℕ
  | [], pagetable => return pagetable + 8 * PX 0 va
  | level :: levels, pagetable => do
    let pte := pagetable + 8 * PX level va
    let v ← load64 pte
    if v &&& PTE_V ≠ 0 then walkFrom va alloc levels (PTE2PA v) else
    if alloc = false then return 0 else do
    let page ← kalloc
    if page = 0 then return 0 else do
    memset page 0 PGSIZE
    store64 pte (PA2PTE page ||| PTE_V)
    walkFrom va alloc levels page

/-- The address of the entry for `va`, or 0. Source: `vm.c` `walk`. -/
def walk (pagetable va : ℕ) (alloc : Bool) : PCode ℕ :=
  if MAXVA ≤ va then Code.panic "walk" else walkFrom va alloc [2, 1] pagetable

/-- The physical address of a user page, or 0. Source: `vm.c` `walkaddr`. -/
def walkaddr (pagetable va : ℕ) : PCode ℕ :=
  if MAXVA ≤ va then return 0 else do
  let pte ← walk pagetable va false
  if pte = 0 then return 0 else do
  let v ← load64 pte
  if v &&& PTE_V = 0 then return 0 else
  if v &&& PTE_U = 0 then return 0 else
  return PTE2PA v

/-- The loop of `mappages` with `n` pages to map after the one at `a`.
Source: `vm.c` `mappages`. -/
def mapLoop (pagetable perm : ℕ) : ℕ → ℕ → ℕ → PCode ℤ
  | n, a, pa => do
    let pte ← walk pagetable a true
    if pte = 0 then return -1 else do
    let v ← load64 pte
    if v &&& PTE_V ≠ 0 then Code.panic "remap" else do
    store64 pte (PA2PTE pa ||| perm ||| PTE_V)
    match n with
    | 0 => return 0
    | n + 1 => mapLoop pagetable perm n ((a + PGSIZE) % 2 ^ 64) ((pa + PGSIZE) % 2 ^ 64)

/-- Maps the pages of `[va, va+size)` to consecutive physical pages. Source: `vm.c` `mappages`. -/
def mappages (pagetable va size pa perm : ℕ) : PCode ℤ :=
  let a := PGROUNDDOWN va
  let last := PGROUNDDOWN ((va + size + 2 ^ 64 - 1) % 2 ^ 64)
  mapLoop pagetable perm ((last + 2 ^ 64 - a) % 2 ^ 64 / PGSIZE) a pa

/-- The loop of `uvmunmap` over `n` pages from `a` on. Source: `vm.c` `uvmunmap`. -/
def unmapLoop (pagetable : ℕ) (do_free : Bool) : ℕ → ℕ → PCode Unit
  | 0, _ => return
  | n + 1, a => do
    let pte ← walk pagetable a false
    if pte = 0 then Code.panic "uvmunmap: walk" else do
    let v ← load64 pte
    if v &&& PTE_V = 0 then Code.panic "uvmunmap: not mapped" else
    if PTE_FLAGS v = PTE_V then Code.panic "uvmunmap: not a leaf" else do
    if do_free then kfree (PTE2PA v)
    store64 pte 0
    unmapLoop pagetable do_free n (a + PGSIZE)

/-- Removes `npages` mappings, optionally freeing the pages. Source: `vm.c` `uvmunmap`. -/
def uvmunmap (pagetable va npages : ℕ) (do_free : Bool) : PCode Unit :=
  if va % PGSIZE ≠ 0 then Code.panic "uvmunmap: not aligned" else
  unmapLoop pagetable do_free (((va + npages * PGSIZE) % 2 ^ 64 - va) / PGSIZE) va

/-- An empty user page table, or 0. Source: `vm.c` `uvmcreate`. -/
def uvmcreate : PCode ℕ := do
  let pagetable ← kalloc
  if pagetable = 0 then return 0 else do
  memset pagetable 0 PGSIZE
  return pagetable

/-- Loads the first program at address 0. A failing `kalloc` makes the kernel write to address 0,
which traps. Source: `vm.c` `uvminit`. -/
def uvminit (pagetable : ℕ) (src : Bytes) (sz : ℕ) : PCode Unit := do
  if PGSIZE ≤ sz then Code.panic "inituvm: more than a page" else do
  let mem ← kalloc
  if mem = 0 then Code.panic "kerneltrap" else do
  memset mem 0 PGSIZE
  let _ ← mappages pagetable 0 PGSIZE mem (PTE_W ||| PTE_R ||| PTE_X ||| PTE_U)
  memput mem src 0 sz

/-- Shrinks a process. The page count is an `int`. Source: `vm.c` `uvmdealloc`. -/
def uvmdealloc (pagetable oldsz newsz : ℕ) : PCode ℕ :=
  if oldsz ≤ newsz then return oldsz else do
  if PGROUNDUP newsz < PGROUNDUP oldsz then
    let npages := sext32 ((PGROUNDUP oldsz - PGROUNDUP newsz) / PGSIZE)
    uvmunmap pagetable (PGROUNDUP newsz) npages true
  return newsz

/-- The loop of `uvmalloc` with `n` pages to go from `a` on. Source: `vm.c` `uvmalloc`. -/
def allocLoop (pagetable oldsz newsz : ℕ) : ℕ → ℕ → PCode ℕ
  | 0, _ => return newsz
  | n + 1, a => do
    let mem ← kalloc
    if mem = 0 then do
      let _ ← uvmdealloc pagetable a oldsz
      return 0
    else do
    memset mem 0 PGSIZE
    if (← mappages pagetable a PGSIZE mem (PTE_W ||| PTE_X ||| PTE_R ||| PTE_U)) ≠ 0 then do
      kfree mem
      let _ ← uvmdealloc pagetable a oldsz
      return 0
    else allocLoop pagetable oldsz newsz n (a + PGSIZE)

/-- Grows a process; returns the new size or 0. Source: `vm.c` `uvmalloc`. -/
def uvmalloc (pagetable oldsz newsz : ℕ) : PCode ℕ :=
  if newsz < oldsz then return oldsz else
  let oldsz := PGROUNDUP oldsz
  allocLoop pagetable oldsz newsz ((newsz - oldsz + PGSIZE - 1) / PGSIZE) oldsz

/-- The loop of `freewalk` over the entries of a page-table page; `sub` frees a page below it.
Source: `vm.c` `freewalk`. -/
def freeEntries (sub : ℕ → PCode Unit) (pagetable : ℕ) : List ℕ → PCode Unit
  | [] => return
  | i :: is => do
    let pte ← load64 (pagetable + 8 * i)
    if pte &&& PTE_V ≠ 0 ∧ pte &&& (PTE_R ||| PTE_W ||| PTE_X) = 0 then do
      -- this PTE points to a lower-level page table
      sub (PTE2PA pte)
      store64 (pagetable + 8 * i) 0
      freeEntries sub pagetable is
    else if pte &&& PTE_V ≠ 0 then Code.panic "freewalk: leaf"
    else freeEntries sub pagetable is

/-- The indices of a page-table page with `n` entries. -/
@[irreducible] def entryIndices (n : ℕ) : List ℕ := List.range n

/-- Recursively frees page-table pages. The source recurses without a bound; here `depth` levels are
followed. Source: `vm.c` `freewalk`. -/
def freewalk : ℕ → ℕ → PCode Unit
  | 0, _ => Code.panic "freewalk: too deep"
  | depth + 1, pagetable => do
    freeEntries (freewalk depth) pagetable (entryIndices 512)
    kfree pagetable

/-- Frees user memory and then the page table. Source: `vm.c` `uvmfree`. -/
def uvmfree (pagetable sz : ℕ) : PCode Unit := do
  if 0 < sz then uvmunmap pagetable 0 (PGROUNDUP sz / PGSIZE) true
  freewalk 3 pagetable

/-- The loop of `uvmcopy` with `n` pages to go from `i` on. Source: `vm.c` `uvmcopy`. -/
def copyLoop (old new : ℕ) : ℕ → ℕ → PCode ℤ
  | 0, _ => return 0
  | n + 1, i => do
    let pte ← walk old i false
    if pte = 0 then Code.panic "uvmcopy: pte should exist" else do
    let v ← load64 pte
    if v &&& PTE_V = 0 then Code.panic "uvmcopy: page not present" else do
    let mem ← kalloc
    if mem = 0 then do
      uvmunmap new 0 (i / PGSIZE) true
      return -1
    else do
    memmove mem (PTE2PA v) PGSIZE
    if (← mappages new i PGSIZE mem (PTE_FLAGS v)) ≠ 0 then do
      kfree mem
      uvmunmap new 0 (i / PGSIZE) true
      return -1
    else copyLoop old new n (i + PGSIZE)

/-- Copies the parent's memory into the child's page table. Source: `vm.c` `uvmcopy`. -/
def uvmcopy (old new sz : ℕ) : PCode ℤ := copyLoop old new ((sz + PGSIZE - 1) / PGSIZE) 0

/-- Makes a page inaccessible to the user. Source: `vm.c` `uvmclear`. -/
def uvmclear (pagetable va : ℕ) : PCode Unit := do
  let pte ← walk pagetable va false
  if pte = 0 then Code.panic "uvmclear" else do
  let v ← load64 pte
  store64 pte (v - (v &&& PTE_U))

/-! ### Copying between kernel and user -/

/-- Copies to user memory; every turn handles the rest of one page, so `len` turns suffice.
Source: `vm.c` `copyout`. -/
def copyoutLoop (pagetable : ℕ) (source : Bytes) : ℕ → ℕ → ℕ → ℕ → PCode ℤ
  | 0, _, _, _ => return 0
  | fuel + 1, dstva, src, len =>
    if len = 0 then return 0 else do
    let va0 := PGROUNDDOWN dstva
    let pa0 ← walkaddr pagetable va0
    if pa0 = 0 then return -1 else do
    let n := min (PGSIZE - (dstva - va0)) len
    memput (pa0 + (dstva - va0)) source src n
    copyoutLoop pagetable source fuel ((va0 + PGSIZE) % 2 ^ 64) (src + n) (len - n)

/-- Copies `len` bytes of `source` from `src` on to the user address `dstva`.
Source: `vm.c` `copyout`. -/
def copyout (pagetable dstva : ℕ) (source : Bytes) (src len : ℕ) : PCode ℤ :=
  copyoutLoop pagetable source len dstva src len

/-- Copies from user memory. Source: `vm.c` `copyin`. -/
def copyinLoop (pagetable : ℕ) : ℕ → Bytes → ℕ → ℕ → ℕ → PCode (ℤ × Bytes)
  | 0, dst, _, _, _ => return (0, dst)
  | fuel + 1, dst, at_, srcva, len =>
    if len = 0 then return (0, dst) else do
    let va0 := PGROUNDDOWN srcva
    let pa0 ← walkaddr pagetable va0
    if pa0 = 0 then return (-1, dst) else do
    let n := min (PGSIZE - (srcva - va0)) len
    let s ← Code.get
    copyinLoop pagetable fuel (dst.copy at_ n s.mem (pa0 + (srcva - va0))) (at_ + n)
      ((va0 + PGSIZE) % 2 ^ 64) (len - n)

/-- Copies `len` bytes from the user address `srcva` to the kernel buffer `dst`, which is returned as
it is afterwards. Source: `vm.c` `copyin`. -/
def copyin (pagetable : ℕ) (dst : Bytes) (srcva len : ℕ) : PCode (ℤ × Bytes) :=
  copyinLoop pagetable len dst 0 srcva len

/-- The inner loop of `copyinstr`: bytes up to a NUL, at most `n`, with whether the NUL was found.
Source: `vm.c` `copyinstr`. -/
def takeStr (mem : Bytes) : ℕ → ℕ → List UInt8 × Bool
  | 0, _ => ([], false)
  | n + 1, p =>
    if mem p = 0 then ([], true) else
    let (s, found) := takeStr mem n (p + 1)
    (mem p :: s, found)

/-- Copies a string from user memory. Source: `vm.c` `copyinstr`. -/
def copyinstrLoop (pagetable : ℕ) : ℕ → List UInt8 → ℕ → ℕ → PCode (ℤ × List UInt8)
  | 0, dst, _, _ => return (-1, dst)
  | fuel + 1, dst, srcva, max =>
    if max = 0 then return (-1, dst) else do
    let va0 := PGROUNDDOWN srcva
    let pa0 ← walkaddr pagetable va0
    if pa0 = 0 then return (-1, dst) else do
    let n := min (PGSIZE - (srcva - va0)) max
    let s ← Code.get
    let (part, found) := takeStr s.mem n (pa0 + (srcva - va0))
    if found then return (0, dst ++ part)
    else copyinstrLoop pagetable fuel (dst ++ part) ((va0 + PGSIZE) % 2 ^ 64) (max - n)

/-- Copies a NUL-terminated string of at most `max` bytes from user memory; the string is returned
without its NUL. Source: `vm.c` `copyinstr`. -/
def copyinstr (pagetable srcva max : ℕ) : PCode (ℤ × List UInt8) :=
  copyinstrLoop pagetable max [] srcva max

end Xv6.Mem
