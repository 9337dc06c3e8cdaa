import Mathlib.Data.List.Basic
import Mathlib.Order.Lattice

/-!
# Finite maps in arrays of slots

A map is kept in the slots below `len`: each is free, or holds a key with its value. The first slot with
a key is found by a search from the start; a new key goes into the first free slot, or into a new slot at
the end. While the keys in the slots are distinct, the array represents a map.
-/

set_option linter.unusedSectionVars false

namespace Xv6.Lib

namespace Slots

variable {K V : Type} [DecidableEq K] {s s' : ℕ → Option (K × V)} {len i j : ℕ} {key : K} {x : V}

/-- The slot holds the key. -/
def hit (s : ℕ → Option (K × V)) (key : K) (j : ℕ) : Option (ℕ × V) :=
  match s j with
  | some (k, x) => if k = key then some (j, x) else none
  | none => none

/-- The first slot below `len` that holds the key, and the value. -/
def find (s : ℕ → Option (K × V)) (len : ℕ) (key : K) : Option (ℕ × V) :=
  (List.range len).findSome? (hit s key)

/-- The value of a key. -/
def lookup (s : ℕ → Option (K × V)) (len : ℕ) (key : K) : Option V := (find s len key).map Prod.snd

/-- No two slots hold the same key. -/
def Distinct (s : ℕ → Option (K × V)) (len : ℕ) : Prop :=
  ∀ i j k x y, i < len → j < len → s i = some (k, x) → s j = some (k, y) → i = j

/-- The first free slot, or the end. -/
def firstFree (s : ℕ → Option (K × V)) (len : ℕ) : ℕ :=
  ((List.range len).find? fun j => (s j).isNone).getD len

theorem hit_eq_some : hit s key j = some (i, x) ↔ j = i ∧ s j = some (key, x) := by
  unfold hit
  cases hj : s j with
  | none => simp
  | some kx =>
    obtain ⟨k, y⟩ := kx
    by_cases hk : k = key
    · simp [hk]
    · simp [hk]

theorem hit_eq_none : hit s key j = none ↔ ∀ x, s j ≠ some (key, x) := by
  unfold hit
  cases hj : s j with
  | none => simp
  | some kx =>
    obtain ⟨k, y⟩ := kx
    by_cases hk : k = key
    · simp [hk]
    · simp [hk]

theorem find_eq_none : find s len key = none ↔ ∀ j, j < len → ∀ x, s j ≠ some (key, x) := by
  simp only [find, List.findSome?_eq_none_iff, List.mem_range, hit_eq_none]

theorem find_eq_some (h : find s len key = some (j, x)) : j < len ∧ s j = some (key, x) := by
  obtain ⟨i, hi, hhit⟩ := List.exists_of_findSome?_eq_some h
  obtain ⟨rfl, hs⟩ := hit_eq_some.mp hhit
  exact ⟨List.mem_range.mp hi, hs⟩

theorem Distinct.find (h : Distinct s len) (hj : j < len) (hs : s j = some (key, x)) :
    find s len key = some (j, x) := by
  cases hf : Slots.find s len key with
  | none => exact absurd hs (find_eq_none.mp hf j hj x)
  | some iy =>
    obtain ⟨i, y⟩ := iy
    obtain ⟨hi, hsi⟩ := find_eq_some hf
    obtain rfl := h i j key y x hi hj hsi hs
    rw [hs] at hsi
    obtain ⟨-, rfl⟩ := Prod.mk.inj (Option.some.inj hsi)
    rfl

theorem Distinct.lookup_eq_some (h : Distinct s len) :
    lookup s len key = some x ↔ ∃ j, j < len ∧ s j = some (key, x) := by
  constructor
  · intro hl
    obtain ⟨⟨j, y⟩, hf, rfl⟩ := Option.map_eq_some_iff.mp hl
    exact ⟨j, find_eq_some hf⟩
  · rintro ⟨j, hj, hs⟩
    rw [lookup, h.find hj hs]
    rfl

theorem lookup_eq_none : lookup s len key = none ↔ ∀ j, j < len → ∀ x, s j ≠ some (key, x) := by
  rw [lookup, Option.map_eq_none_iff, find_eq_none]

/-! ### The first free slot -/

theorem firstFree_le : firstFree s len ≤ len := by
  unfold firstFree
  cases hf : (List.range len).find? fun j => (s j).isNone with
  | none => exact le_refl len
  | some j => exact le_of_lt (List.mem_range.mp (List.mem_of_find?_eq_some hf))

theorem firstFree_free (h : firstFree s len < len) : s (firstFree s len) = none := by
  unfold firstFree at h ⊢
  cases hf : (List.range len).find? fun j => (s j).isNone with
  | none =>
    rw [hf] at h
    exact absurd h (lt_irrefl len)
  | some j =>
    have := List.find?_some hf
    exact Option.isNone_iff_eq_none.mp this

theorem firstFree_eq_len (h : firstFree s len = len) (hj : j < len) : s j ≠ none := by
  unfold firstFree at h
  cases hf : (List.range len).find? fun j => (s j).isNone with
  | none =>
    have := List.find?_eq_none.mp hf j (List.mem_range.mpr hj)
    intro hs
    exact this (by rw [hs]; rfl)
  | some i =>
    rw [hf] at h
    have := List.mem_range.mp (List.mem_of_find?_eq_some hf)
    exact absurd h (Nat.ne_of_lt this)

/-! ### Changes -/

section change

variable {len' : ℕ} (hsame : ∀ i, i < len → i ≠ j → s' i = s i)

include hsame

/-- A new key is put into slot `j`, which is free or at the end. -/
theorem Distinct.insert (h : Distinct s len) (hj : j ≤ len) (hlen : len' = max len (j + 1))
    (hnew : s' j = some (key, x)) (habsent : lookup s len key = none) : Distinct s' len' := by
  have hold : ∀ i, i < len' → i ≠ j → i < len := by omega
  have hother : ∀ i k y, i < len' → i ≠ j → s' i = some (k, y) → k ≠ key := by
    intro i k y hi hij hs hk
    rw [hsame i (hold i hi hij) hij, hk] at hs
    exact lookup_eq_none.mp habsent i (hold i hi hij) y hs
  intro a b k y z ha hb hsa hsb
  by_cases haj : a = j
  · by_cases hbj : b = j
    · rw [haj, hbj]
    · rw [haj, hnew] at hsa
      obtain ⟨rfl, -⟩ := Prod.mk.inj (Option.some.inj hsa)
      exact absurd rfl (hother b key z hb hbj hsb)
  · by_cases hbj : b = j
    · rw [hbj, hnew] at hsb
      obtain ⟨rfl, -⟩ := Prod.mk.inj (Option.some.inj hsb)
      exact absurd rfl (hother a key y ha haj hsa)
    · rw [hsame a (hold a ha haj) haj] at hsa
      rw [hsame b (hold b hb hbj) hbj] at hsb
      exact h a b k y z (hold a ha haj) (hold b hb hbj) hsa hsb

theorem Distinct.lookup_insert (h : Distinct s len) (hj : j ≤ len) (hlen : len' = max len (j + 1))
    (hfree : j < len → s j = none) (hnew : s' j = some (key, x)) (habsent : lookup s len key = none)
    (k : K) : lookup s' len' k = Function.update (lookup s len) key (some x) k := by
  have hold : ∀ i, i < len' → i ≠ j → i < len := by omega
  have h' := h.insert hsame hj hlen hnew habsent
  by_cases hk : k = key
  · rw [hk, Function.update_self]
    exact h'.lookup_eq_some.mpr ⟨j, by omega, hnew⟩
  · rw [Function.update_of_ne hk]
    refine Option.ext fun y => ?_
    rw [h'.lookup_eq_some, h.lookup_eq_some]
    constructor
    · rintro ⟨i, hi, hs⟩
      by_cases hij : i = j
      · rw [hij, hnew] at hs
        exact absurd (Prod.mk.inj (Option.some.inj hs)).1.symm hk
      · exact ⟨i, hold i hi hij, by rwa [hsame i (hold i hi hij) hij] at hs⟩
    · rintro ⟨i, hi, hs⟩
      have hij : i ≠ j := by
        rintro rfl
        rw [hfree hi] at hs
        cases hs
      exact ⟨i, by omega, by rwa [hsame i hi hij]⟩

theorem Distinct.erase (h : Distinct s len) (hfree : s' j = none) : Distinct s' len := by
  have hne : ∀ i k y, s' i = some (k, y) → i ≠ j := by
    rintro i k y hs rfl
    rw [hfree] at hs
    cases hs
  intro a b k y z ha hb hsa hsb
  have haj := hne a k y hsa
  have hbj := hne b k z hsb
  rw [hsame a ha haj] at hsa
  rw [hsame b hb hbj] at hsb
  exact h a b k y z ha hb hsa hsb

theorem Distinct.lookup_erase (h : Distinct s len) (hj : j < len) (hold : s j = some (key, x))
    (hfree : s' j = none) (k : K) : lookup s' len k = Function.update (lookup s len) key none k := by
  have h' := h.erase hsame hfree
  by_cases hk : k = key
  · rw [hk, Function.update_self, lookup_eq_none]
    intro i hi y hs
    by_cases hij : i = j
    · rw [hij, hfree] at hs
      cases hs
    · rw [hsame i hi hij] at hs
      exact hij (h i j key y x hi hj hs hold)
  · rw [Function.update_of_ne hk]
    refine Option.ext fun y => ?_
    rw [h'.lookup_eq_some, h.lookup_eq_some]
    refine exists_congr fun i => and_congr_right fun hi => ?_
    by_cases hij : i = j
    · rw [hij, hfree, hold]
      refine iff_of_false nofun fun he => hk ?_
      exact (Prod.mk.inj (Option.some.inj he)).1.symm
    · rw [hsame i hi hij]

end change

end Slots

end Xv6.Lib
