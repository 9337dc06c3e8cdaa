import Mathlib.Data.Nat.Bitwise
import Xv6.Mem.Vm

/-!
# Page-table entries

Arithmetic of the macros of `riscv.h`: the address and the flags of an entry are read back
(`PTE2PA_or`, `PTE_FLAGS_or`, `or_and_flags`), and the three indices of a virtual address determine
its page number (`vpn_idx`).
-/

namespace Xv6.Mem

/-- An index into a page-table page. -/
abbrev Idx := Fin 512

theorem PGSIZE_eq : PGSIZE = 4096 := rfl

theorem MAXVA_eq : MAXVA = 274877906944 := rfl

theorem PHYSTOP_eq : PHYSTOP = 2281701376 := rfl

theorem KERNBASE_eq : KERNBASE = 2147483648 := rfl

theorem TRAPFRAME_eq : TRAPFRAME = 274877898752 := rfl

/-! ### Addresses and flags -/

theorem PA2PTE_eq (pa : ℕ) : PA2PTE pa = 1024 * (pa / 4096) := by
  simp only [PA2PTE, Nat.shiftRight_eq_div_pow, Nat.shiftLeft_eq]
  norm_num
  ring

theorem PTE2PA_eq (pte : ℕ) : PTE2PA pte = pte / 1024 * 4096 % 2 ^ 64 := by
  simp [PTE2PA, Nat.shiftRight_eq_div_pow, Nat.shiftLeft_eq]

theorem PTE2PA_aligned (pte : ℕ) : PTE2PA pte % 4096 = 0 := by
  rw [PTE2PA_eq]
  omega

theorem PTE_FLAGS_eq (pte : ℕ) : PTE_FLAGS pte = pte % 1024 := by
  rw [PTE_FLAGS, show (0x3FF : ℕ) = 2 ^ 10 - 1 from rfl, Nat.and_two_pow_sub_one_eq_mod]

variable {pa f : ℕ}

theorem PA2PTE_or (hf : f < 1024) : PA2PTE pa ||| f = 1024 * (pa / 4096) + f := by
  rw [PA2PTE_eq]
  exact (Nat.two_pow_add_eq_or_of_lt (i := 10) hf (pa / 4096)).symm

theorem PTE2PA_or (hpa : pa % 4096 = 0) (hlt : pa < 2 ^ 64) (hf : f < 1024) :
    PTE2PA (PA2PTE pa ||| f) = pa := by
  rw [PTE2PA_eq, PA2PTE_or hf]
  omega

theorem PTE_FLAGS_or (hf : f < 1024) : PTE_FLAGS (PA2PTE pa ||| f) = f := by
  rw [PTE_FLAGS_eq, PA2PTE_or hf]
  omega

/-- A mask of flags sees only the flags of an entry. -/
theorem or_and_flags {m : ℕ} (hm : m < 1024) : (PA2PTE pa ||| f) &&& m = f &&& m := by
  apply Nat.eq_of_testBit_eq
  intro i
  simp only [Nat.testBit_and, Nat.testBit_or]
  by_cases hi : i < 10
  · have : (PA2PTE pa).testBit i = false := by
      rw [PA2PTE, Nat.testBit_shiftLeft]
      simp [Nat.not_le.mpr hi]
    simp [this]
  · have : m.testBit i = false :=
      Nat.testBit_lt_two_pow
        (lt_of_lt_of_le hm (Nat.pow_le_pow_right Nat.two_pos (Nat.le_of_not_lt hi)))
    simp [this]

theorem PA2PTE_or_lt (hpa : pa < 2 ^ 64) (hf : f < 1024) : PA2PTE pa ||| f < 256 ^ 8 := by
  rw [PA2PTE_or hf]
  omega

theorem flags_or_lt {g : ℕ} (hf : f < 1024) (hg : g < 1024) : f ||| g < 1024 :=
  Nat.or_lt_two_pow (n := 10) hf hg

/-- What an entry of the upper levels says about the page-table page below it: it is not valid if
there is none, and otherwise holds its address and none of the flags of a leaf. -/
structure Points (pte page : ℕ) : Prop where
  none : page = 0 → pte &&& PTE_V = 0
  valid : page ≠ 0 → pte &&& PTE_V ≠ 0
  inner : page ≠ 0 → pte &&& (PTE_R ||| PTE_W ||| PTE_X) = 0
  addr : page ≠ 0 → PTE2PA pte = page

theorem points_none {pte : ℕ} (h : pte &&& PTE_V = 0) : Points pte 0 :=
  ⟨fun _ => h, fun h0 => absurd rfl h0, fun h0 => absurd rfl h0, fun h0 => absurd rfl h0⟩

theorem points_link {page : ℕ} (h : page ≠ 0) (hp : page % 4096 = 0) (hlt : page < 2 ^ 64) :
    Points (PA2PTE page ||| PTE_V) page where
  none h0 := absurd h0 h
  valid _ := by
    rw [or_and_flags (by decide)]
    decide
  inner _ := by
    rw [or_and_flags (by decide)]
    rfl
  addr _ := PTE2PA_or hp hlt (by decide)

/-! ### Indices -/

theorem PX_eq (level va : ℕ) : PX level va = va / 2 ^ (12 + 9 * level) % 512 := by
  rw [PX, show (0x1FF : ℕ) = 2 ^ 9 - 1 from rfl, Nat.and_two_pow_sub_one_eq_mod,
    Nat.shiftRight_eq_div_pow]

theorem PX_lt (level va : ℕ) : PX level va < 512 := by
  rw [PX_eq]
  exact Nat.mod_lt _ (by decide)

/-- The index of a virtual address at a level. -/
def idx (level va : ℕ) : Idx := ⟨PX level va, PX_lt level va⟩

/-- The page number with the given indices. -/
def vpn (i j k : Idx) : ℕ := (i * 512 + j) * 512 + k

theorem vpn_inj {i j k i' j' k' : Idx} (h : vpn i j k = vpn i' j' k') :
    i = i' ∧ j = j' ∧ k = k' := by
  unfold vpn at h
  have := i.isLt
  have := j.isLt
  have := k.isLt
  have := i'.isLt
  have := j'.isLt
  have := k'.isLt
  refine ⟨Fin.ext ?_, Fin.ext ?_, Fin.ext ?_⟩ <;> omega

theorem vpn_idx {va : ℕ} (h : va < 2 ^ 39) : vpn (idx 2 va) (idx 1 va) (idx 0 va) = va / 4096 := by
  simp only [vpn, idx, PX_eq, Nat.reduceMul, Nat.reduceAdd, Nat.reducePow]
  omega

theorem lt_of_lt_MAXVA {va : ℕ} (h : va < MAXVA) : va < 2 ^ 39 := lt_trans h (by decide)

end Xv6.Mem
