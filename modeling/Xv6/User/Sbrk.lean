import Xv6.User.Allocator

/-!
# `malloc` on top of the real `sbrk`

`sbrk` takes an `int`, and so does `growproc`, which computes with 32-bit sizes. `morecore` passes it a
64-bit number of bytes, and records in the header of the new block the number of units it asked for,
whatever it got. Here `malloc` is run over `sys_sbrk` and `growproc` as they are; the end of the memory in
the heap, `brk`, is `p->sz`.

For requests below 2^31 bytes `sys_sbrk` is `Honest`, so that the results about runs of the allocator
apply; and every block lies above the memory the program started with. For larger ones `malloc` returns
memory the process does not have, or takes some away.
-/

namespace Xv6.User

open Lib

/-! ### The system call -/

/-- The memory there is for processes: `PHYSTOP - KERNBASE`. Source: `memlayout.h`. -/
def MEMORY : ℕ := 2 ^ 27

/-- The new size, or 0: `kalloc` fails if there is no free page, and all pages lie in the memory.
Source: `vm.c` `uvmalloc`. -/
def uvmalloc (room : Bool) (oldsz newsz : ℕ) : ℕ :=
  if newsz < oldsz then oldsz
  else if newsz ≤ MEMORY ∧ (room ∨ pageEnd newsz ≤ pageEnd oldsz) then newsz
  else 0

/-- The new size. Source: `vm.c` `uvmdealloc`. -/
def uvmdealloc (oldsz newsz : ℕ) : ℕ := if newsz ≥ oldsz then oldsz else newsz

/-- The new size of the process, none if it fails; `sz` and the sums are of type `uint`.
Source: `proc.c` `growproc`. -/
def growproc (room : Bool) (n : ℤ) (psz : ℕ) : Option ℕ :=
  let sz := psz % 2 ^ 32
  let newsz := ((sz + n) % 2 ^ 32).toNat
  if 0 < n then
    if uvmalloc room sz newsz = 0 then none else some (uvmalloc room sz newsz)
  else if n < 0 then some (uvmdealloc sz newsz)
  else some sz

/-- A number as an `int`. -/
def toInt (x : ℕ) : ℤ := if x % 2 ^ 32 < 2 ^ 31 then (x % 2 ^ 32 : ℕ) else (x % 2 ^ 32 : ℕ) - 2 ^ 32

/-- The address the program gets, an `int` in a 64-bit register, and the new size of the process.
Source: `sysproc.c` `sys_sbrk`. -/
def sysSbrk (room : Bool) : Sbrk := fun n psz =>
  match growproc room (toInt n) psz with
  | none => (FAILED, psz)
  | some psz' => ((toInt psz % 2 ^ 64).toNat, psz')

/-! ### Requests that an `int` can hold -/

theorem toInt_of_lt {x : ℕ} (h : x < 2 ^ 31) : toInt x = x := by
  have hmod : x % 2 ^ 32 = x := Nat.mod_eq_of_lt (by omega)
  rw [toInt, hmod, if_pos h]

theorem sysSbrk_honest (room : Bool) : Honest MEMORY (sysSbrk room) := by
  intro n psz hn hpsz
  have hM : MEMORY = 2 ^ 27 := rfl
  have hsz : psz % 2 ^ 32 = psz := Nat.mod_eq_of_lt (by omega)
  have hnew : (((psz : ℤ) + n) % 2 ^ 32).toNat = psz + n := by omega
  have haddr : ((psz : ℤ) % 2 ^ 64).toNat = psz := by omega
  unfold sysSbrk growproc
  simp only [toInt_of_lt hn, toInt_of_lt (show psz < 2 ^ 31 by omega), hsz, hnew, haddr]
  rcases Nat.eq_zero_or_pos n with rfl | hpos
  · exact .inr ⟨psz, rfl, le_rfl, hpsz⟩
  rw [if_pos (show (0 : ℤ) < n by omega)]
  by_cases h : psz + n ≤ MEMORY ∧ (room = true ∨ pageEnd (psz + n) ≤ pageEnd psz)
  · have hval : uvmalloc room psz (psz + n) = psz + n := by
      rw [uvmalloc, if_neg (by omega), if_pos h]
    rw [hval, if_neg (by omega)]
    exact .inr ⟨psz, rfl, le_rfl, h.1⟩
  · have hval : uvmalloc room psz (psz + n) = 0 := by
      rw [uvmalloc, if_neg (by omega), if_neg h]
    rw [hval, if_pos rfl]
    exact .inl rfl

/-- **`malloc` returns memory that `sbrk` has added**, as long as every request, with its header, is below
2^31 bytes: after any run of `malloc`, `free`, writes and `sbrk`, the next call of `malloc` ends, with 0 or
with a pointer to at least the bytes asked for, all of which lie between the end of the memory the program
started with and the end of its memory now; and the process has not shrunk. -/
theorem malloc_within_memory {base lo : ℕ} {st : State}
    (h : ((system base lo MEMORY sysSbrk).restrict Modest).Reach st)
    (rooms : ℕ → Bool) (nbytes : UInt32) (hsize : unitsFor nbytes * HDR < 2 ^ 31) :
    ∃ F r heap, (∀ fuel ≥ F, malloc base fuel (sysSbrk ∘ rooms) nbytes st.heap = some (r, heap)) ∧
      st.heap.brk ≤ heap.brk ∧
      (r = 0 ∨ lo ≤ r ∧ r + nbytes.toNat ≤ heap.brk) := by
  have htidy := Tidy.of_reach (by decide) sysSbrk_honest h
  obtain ⟨F, ⟨r, heap⟩, ⟨-, hgrow, hr⟩, hF⟩ := htidy.malloc (sysSbrk ∘ rooms) (sysSbrk_honest _) hsize
  refine ⟨F, r, heap, hF, hgrow, hr.imp And.left ?_⟩
  rintro ⟨x, l', rfl, hready, hsz⟩
  have hblock := hready.list.live_block (x := x) List.mem_cons_self
  dsimp only at hsz hblock
  rw [hsz] at hblock
  unfold unitsFor HDR at *
  omega

/-- The first call of a program whose memory ends at 4096. -/
theorem malloc_within_memory_first :
    ∃ F r heap, (∀ fuel ≥ F,
        malloc 16 fuel (sysSbrk ∘ fun _ => true) 100 firstHeap = some (r, heap)) ∧
      firstHeap.brk ≤ heap.brk ∧ (r = 0 ∨ 4096 ≤ r ∧ r + 100 ≤ heap.brk) :=
  @malloc_within_memory 16 4096 ⟨firstHeap, []⟩
    (.init ⟨_, by decide, by decide, rfl⟩) (fun _ => true) 100 (by decide)

/-- A request of 2^32 - 1 bytes makes `malloc` ask for 16 and return a pointer to the end of them. For a
request of 2^32 - 4112 bytes, `morecore` passes a negative number to `sbrk`, which takes away all 4096
bytes that the process has, and the call does not return. -/
theorem malloc_beyond_memory :
    (∃ heap, malloc 16 4 (sysSbrk ∘ fun _ => true) (UInt32.ofNat (2 ^ 32 - 1)) firstHeap =
        some (4112, heap) ∧ heap.brk = 4112) ∧
      sysSbrk true (unitsFor (UInt32.ofNat (2 ^ 32 - 4112)) * HDR) firstHeap.brk = (4096, 0) ∧
      malloc 16 4 (sysSbrk ∘ fun _ => true) (UInt32.ofNat (2 ^ 32 - 4112)) firstHeap = none :=
  ⟨⟨_, rfl, rfl⟩, by decide, rfl⟩

end Xv6.User
