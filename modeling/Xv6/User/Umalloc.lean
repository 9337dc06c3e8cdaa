import Mathlib.Algebra.Ring.Nat
import Xv6.Lib.Trans

/-!
# The user-level allocator

`umalloc.c`: `malloc` and `free` over a circular list of free blocks, after Kernighan and Ritchie. A block
starts with a header, and its size counts units of `sizeof(Header)` bytes, the header included. The heap
is the memory of the process as headers: `hdr a` is what a header at the byte address `a` holds. A
program may write whatever it likes into the blocks it was given, behind their headers.

The search loops of the source have no bound; here they take one, and give `none` when it is too small.
How `sbrk` turns out is a parameter. In `gapped` it either fails or returns a region above all it returned
before, at any distance; `User.Sbrk` has the system call as it is.
-/

namespace Xv6.User

/-- `sizeof(Header)`. -/
def HDR : ℕ := 16

/-- `Header`. Source: `umalloc.c`. -/
structure Header where
  /-- Next block if on the free list. -/
  ptr : ℕ
  /-- Size of this block in units; an `uint`. -/
  size : ℕ

/-- The memory of the process and the static variables of `umalloc.c`. -/
structure Heap where
  hdr : ℕ → Header
  /-- `freep`, none before the first `malloc`. -/
  freep : Option ℕ
  /-- The end of the memory of the process. -/
  brk : ℕ
  /-- The units obtained from `sbrk`; no code reads it. -/
  units : ℕ

/-- The loop of `free`, for at most so many turns: the node after which the block `bp` belongs.
Source: `umalloc.c` `free`. -/
def findPlace (hdr : ℕ → Header) (bp : ℕ) : ℕ → ℕ → Option ℕ
  | 0, _ => none
  | fuel + 1, p =>
    if bp > p ∧ bp < (hdr p).ptr then some p
    else if p ≥ (hdr p).ptr ∧ (bp > p ∨ bp < (hdr p).ptr) then some p
    else findPlace hdr bp fuel (hdr p).ptr

/-- `free` joins `bp` to the block above it, if they touch. -/
def joinUpper (hdr : ℕ → Header) (p bp : ℕ) : ℕ → Header :=
  if bp + HDR * (hdr bp).size = (hdr p).ptr then
    Function.update hdr bp
      ⟨(hdr (hdr p).ptr).ptr, ((hdr bp).size + (hdr (hdr p).ptr).size) % 2 ^ 32⟩
  else Function.update hdr bp ⟨(hdr p).ptr, (hdr bp).size⟩

/-- `free` joins `bp` to the block `p` below it, if they touch, and links it behind it otherwise. -/
def joinLower (hdr : ℕ → Header) (p bp : ℕ) : ℕ → Header :=
  if p + HDR * (hdr p).size = bp then
    Function.update hdr p ⟨(hdr bp).ptr, ((hdr p).size + (hdr bp).size) % 2 ^ 32⟩
  else Function.update hdr p ⟨bp, (hdr p).size⟩

/-- Puts the block `ap` on the free list. Source: `umalloc.c` `free`. -/
def free (fuel : ℕ) (ap : ℕ) (s : Heap) : Option Heap :=
  let bp := ap - HDR
  match s.freep with
  | none => none
  | some p₀ =>
    match findPlace s.hdr bp fuel p₀ with
    | none => none
    | some p =>
      some { s with hdr := joinLower (joinUpper s.hdr p bp) p bp, freep := some p }

/-- The memory of a process ends below. `sys_sbrk` returns an `int`, so a heap never gets near it. -/
def MAXBRK : ℕ := 2 ^ 36

/-- `(char*)-1`. -/
def FAILED : ℕ := 2 ^ 64 - 1

/-- A call of `sbrk`: for the bytes asked for and the end of the memory, the address it returns and the
new end. -/
abbrev Sbrk := ℕ → ℕ → ℕ × ℕ

/-- Fails, or returns a region that starts `gap` bytes above the end of the memory. -/
def gapped (gap : Option ℕ) : Sbrk := fun n brk =>
  match gap with
  | none => (FAILED, brk)
  | some g => if brk + g + n ≤ MAXBRK then (brk + g, brk + g + n) else (FAILED, brk)

/-- The end of the page of an address. Source: `riscv.h` `PGROUNDUP`. -/
def pageEnd (sz : ℕ) : ℕ := (sz + 4095) / 4096 * 4096

/-- A block of `nu` units at `p`, and the memory ends at `brk`. -/
def Heap.grow (s : Heap) (p nu brk : ℕ) : Heap :=
  { s with hdr := Function.update s.hdr p ⟨(s.hdr p).ptr, nu⟩, brk := brk, units := s.units + nu }

/-- Asks the system for more memory and frees it. The answer is `freep`, or none if `sbrk` fails. The
header is written at the address that `sbrk` returned: 12 bytes, and if their pages are not mapped the
process is killed, and the call does not return. Source: `umalloc.c` `morecore`. -/
def morecore (fuel : ℕ) (sbrk : Sbrk) (nu : ℕ) (s : Heap) : Option (Option ℕ × Heap) :=
  let nu := if nu < 4096 then 4096 else nu
  let r := sbrk (nu * HDR) s.brk
  if r.1 = FAILED then some (none, { s with brk := r.2 })
  else if pageEnd r.2 < r.1 + 12 then none
  else
    match free fuel (r.1 + HDR) (s.grow r.1 nu r.2) with
    | none => none
    | some s' => some (s'.freep, s')

/-- Takes `nunits` units from the block `p` behind `prevp`, which has at least as many.
Source: `umalloc.c` `malloc`. -/
def takeFrom (nunits prevp p : ℕ) (s : Heap) : ℕ × Heap :=
  if (s.hdr p).size = nunits then
    (p + HDR,
      { s with
        hdr := Function.update s.hdr prevp ⟨(s.hdr p).ptr, (s.hdr prevp).size⟩
        freep := some prevp })
  else
    let rest := (s.hdr p).size - nunits
    let q := p + HDR * rest
    let hdr := Function.update s.hdr p ⟨(s.hdr p).ptr, rest⟩
    (q + HDR, { s with hdr := Function.update hdr q ⟨(hdr q).ptr, nunits⟩, freep := some prevp })

/-- The loop of `malloc`, for at most so many turns; `sbrks i` is the `i`-th call of `sbrk`.
Source: `umalloc.c` `malloc`. -/
def search (fuel : ℕ) (sbrks : ℕ → Sbrk) (nunits : ℕ) :
    ℕ → ℕ → ℕ → ℕ → Heap → Option (ℕ × Heap)
  | 0, _, _, _, _ => none
  | k + 1, i, prevp, p, s =>
    if (s.hdr p).size ≥ nunits then some (takeFrom nunits prevp p s)
    else if s.freep = some p then
      match morecore fuel (sbrks i) nunits s with
      | none => none
      | some (none, s') => some (0, s')
      | some (some p', s') => search fuel sbrks nunits k (i + 1) p' (s'.hdr p').ptr s'
    else search fuel sbrks nunits k i p (s.hdr p).ptr s

/-- The units for a request: the header and the bytes, rounded up. Source: `umalloc.c` `malloc`. -/
def unitsFor (nbytes : UInt32) : ℕ := (nbytes.toNat + HDR - 1) / HDR + 1

/-- The list before the first `malloc`: `base` alone, of size 0. -/
def Heap.start (base : ℕ) (s : Heap) : Heap :=
  { s with hdr := Function.update s.hdr base ⟨base, 0⟩, freep := some base }

/-- The address of a block of `nbytes` bytes, or 0. Source: `umalloc.c` `malloc`. -/
def malloc (base fuel : ℕ) (sbrks : ℕ → Sbrk) (nbytes : UInt32) (s : Heap) :
    Option (ℕ × Heap) :=
  match s.freep with
  | none =>
    let s := s.start base
    search fuel sbrks (unitsFor nbytes) fuel 0 base (s.hdr base).ptr s
  | some prevp => search fuel sbrks (unitsFor nbytes) fuel 0 prevp (s.hdr prevp).ptr s

/-! ### A program that uses it -/

/-- The heap and the headers of the blocks the program has and has not freed. -/
structure State where
  heap : Heap
  live : List ℕ

/-- The byte `a` lies in a block the program has, behind its header. -/
def State.Payload (s : State) (a : ℕ) : Prop :=
  ∃ x ∈ s.live, x + HDR ≤ a ∧ a < x + HDR * (s.heap.hdr x).size

/-- What a call of `malloc` makes of the program: `r` is what it returns. -/
def State.after (s : State) (r : ℕ) (heap : Heap) : State :=
  ⟨heap, if r = 0 then s.live else (r - HDR) :: s.live⟩

/-- What the program does. -/
inductive Label
  | malloc (nbytes : UInt32)
  | free (ap : ℕ)
  /-- Writes into its blocks. -/
  | write
  /-- Grows the process itself. -/
  | sbrk (n : ℕ)

/-- One step of the program, where a call of `sbrk` turns out in one of the ways `how`. -/
inductive Step {ι : Type} (base : ℕ) (how : ι → Sbrk) : State → Label → State → Prop
  | malloc {s : State} {fuel r : ℕ} {heap : Heap} (turns : ℕ → ι) (nbytes : UInt32)
      (h : malloc base fuel (how ∘ turns) nbytes s.heap = some (r, heap)) :
      Step base how s (.malloc nbytes) (s.after r heap)
  | free {s : State} {fuel x : ℕ} {heap : Heap} (hx : x ∈ s.live)
      (h : free fuel (x + HDR) s.heap = some heap) :
      Step base how s (.free (x + HDR)) ⟨heap, s.live.erase x⟩
  | write {s : State} (hdr : ℕ → Header)
      (h : ∀ a, (∀ d < HDR, ¬ s.Payload (a + d)) → hdr a = s.heap.hdr a) :
      Step base how s .write ⟨{ s.heap with hdr := hdr }, s.live⟩
  | sbrk {s : State} (turn : ι) (n : ℕ) (hn : n < 2 ^ 31) :
      Step base how s (.sbrk n) ⟨{ s.heap with brk := (how turn n s.heap.brk).2 }, s.live⟩

/-- A program whose memory, of any content, ends at `lo` when it starts, with the static variable `base`
in it; `lim` is the largest end there can be. -/
def system {ι : Type} (base lo lim : ℕ) (how : ι → Sbrk) : Lib.Lts State Label where
  init s := ∃ hdr, base + HDR ≤ lo ∧ lo ≤ lim ∧ s = ⟨⟨hdr, none, lo, 0⟩, []⟩
  step := Step base how

/-- The request, with its header, is a number of bytes that an `int` can hold. -/
def Modest (_ : State) : Label → Prop
  | .malloc nbytes => unitsFor nbytes * HDR < 2 ^ 31
  | _ => True

end Xv6.User
