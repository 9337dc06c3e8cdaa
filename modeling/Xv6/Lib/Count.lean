import Mathlib.Data.Fintype.BigOperators
import Mathlib.Tactic.Ring

/-!
# Counting references

`refs o a` is the number of holders `i` with `o i = some a`. Reference counts of the development are
tied to it; `refs_update` says what handing a reference over to a holder does to every count.
-/

namespace Xv6.Lib

variable {ι α : Type*} [Fintype ι] [DecidableEq α]

/-- The number of holders that refer to `a`. -/
def refs (o : ι → Option α) (a : α) : ℕ := (Finset.univ.filter fun i => o i = some a).card

theorem refs_eq_sum (o : ι → Option α) (a : α) : refs o a = ∑ i, if o i = some a then 1 else 0 := by
  rw [refs, Finset.card_filter]

/-- Replacing what one holder refers to. -/
theorem refs_update [DecidableEq ι] (o : ι → Option α) (i : ι) (v : Option α) (a : α) :
    refs (Function.update o i v) a + (if o i = some a then 1 else 0) =
      refs o a + (if v = some a then 1 else 0) := by
  rw [refs_eq_sum, refs_eq_sum, ← Finset.add_sum_erase _ _ (Finset.mem_univ i),
    ← Finset.add_sum_erase _ (fun j => if o j = some a then 1 else 0) (Finset.mem_univ i),
    Function.update_self]
  have hrest : ∑ j ∈ Finset.univ.erase i, (if Function.update o i v j = some a then 1 else 0) =
      ∑ j ∈ Finset.univ.erase i, if o j = some a then 1 else 0 :=
    Finset.sum_congr rfl fun j hj => by rw [Function.update_of_ne (Finset.ne_of_mem_erase hj)]
  rw [hrest]
  omega

theorem sum_change [DecidableEq ι] (f g : ι → ℕ) (i : ι) (h : ∀ j, j ≠ i → g j = f j) :
    ∑ j, g j + f i = ∑ j, f j + g i := by
  have hrest : ∑ j ∈ Finset.univ.erase i, g j = ∑ j ∈ Finset.univ.erase i, f j :=
    Finset.sum_congr rfl fun j hj => h j (Finset.ne_of_mem_erase hj)
  rw [← Finset.add_sum_erase _ g (Finset.mem_univ i),
    ← Finset.add_sum_erase _ f (Finset.mem_univ i), hrest]
  ring

theorem refs_pos {o : ι → Option α} {a : α} {i : ι} (h : o i = some a) : 0 < refs o a :=
  Finset.card_pos.mpr ⟨i, Finset.mem_filter.mpr ⟨Finset.mem_univ i, h⟩⟩

theorem refs_eq_zero {o : ι → Option α} {a : α} : refs o a = 0 ↔ ∀ i, o i ≠ some a := by
  rw [refs, Finset.card_eq_zero, Finset.filter_eq_empty_iff]
  exact ⟨fun h i => h (Finset.mem_univ i), fun h i _ => h i⟩

end Xv6.Lib
