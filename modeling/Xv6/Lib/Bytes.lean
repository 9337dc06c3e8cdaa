import Mathlib.Tactic.Ring
import Mathlib.Tactic.Linarith

/-!
# Byte memories

A memory is a function from addresses to bytes. `load m a n` reads `n` bytes as a little-endian
number and `store m a n v` writes one; `fill` and `copy` are `memset` and `memmove`. A load depends
only on the bytes it reads (`load_congr`), and each write changes only its own range
(`store_of_not_mem`, `fill_of_not_mem`, `copy_of_not_mem`): with the round trip `load_store` these
are the rules every proof about memory contents uses.
-/

namespace Xv6.Lib

/-- A memory of bytes. -/
abbrev Bytes := ℕ → UInt8

namespace Bytes

/-- The little-endian number in the `n` bytes from `a` on. -/
def load (m : Bytes) (a : ℕ) : ℕ → ℕ
  | 0 => 0
  | n + 1 => (m a).toNat + 256 * load m (a + 1) n

/-- Writes the low `n` bytes of `v` from `a` on. -/
def store (m : Bytes) (a n v : ℕ) : Bytes := fun x =>
  if a ≤ x ∧ x < a + n then UInt8.ofNat (v / 256 ^ (x - a)) else m x

/-- `memset`. -/
def fill (m : Bytes) (a n : ℕ) (c : UInt8) : Bytes := fun x =>
  if a ≤ x ∧ x < a + n then c else m x

/-- `memmove` from `src`, a range of the memory `from`. -/
def copy (m : Bytes) (dst n : ℕ) (source : Bytes) (src : ℕ) : Bytes := fun x =>
  if dst ≤ x ∧ x < dst + n then source (src + (x - dst)) else m x

variable {m m' : Bytes} {a b n k v : ℕ} {c : UInt8} {x src : ℕ} {source : Bytes}

theorem store_of_not_mem (h : ¬ (a ≤ x ∧ x < a + n)) : store m a n v x = m x := if_neg h

theorem fill_of_not_mem (h : ¬ (a ≤ x ∧ x < a + n)) : fill m a n c x = m x := if_neg h

theorem fill_of_mem (h : a ≤ x ∧ x < a + n) : fill m a n c x = c := if_pos h

theorem copy_of_not_mem (h : ¬ (a ≤ x ∧ x < a + n)) :
    copy m a n source src x = m x := if_neg h

theorem copy_of_mem (h : a ≤ x ∧ x < a + n) :
    copy m a n source src x = source (src + (x - a)) := if_pos h

theorem copy_append :
    copy (copy m a n source src) (a + n) k source (src + n) = copy m a (n + k) source src := by
  funext x
  by_cases h1 : a + n ≤ x ∧ x < a + n + k
  · rw [copy_of_mem h1, copy_of_mem (by omega)]
    congr 1
    omega
  · rw [copy_of_not_mem h1]
    by_cases h2 : a ≤ x ∧ x < a + n
    · rw [copy_of_mem h2, copy_of_mem (by omega)]
    · rw [copy_of_not_mem h2, copy_of_not_mem (by omega)]

theorem copy_zero : copy m a 0 source src = m := by
  funext x
  exact copy_of_not_mem (by omega)

theorem load_congr (h : ∀ x, a ≤ x → x < a + n → m x = m' x) : load m a n = load m' a n := by
  induction n generalizing a with
  | zero => rfl
  | succ n ih =>
    simp only [load]
    rw [h a (le_refl a) (by omega), ih fun x h1 h2 => h x (by omega) (by omega)]

theorem load_lt : load m a n < 256 ^ n := by
  induction n generalizing a with
  | zero => simp [load]
  | succ n ih =>
    have hb : (m a).toNat < 256 := (m a).toNat_lt
    have := ih (a := a + 1)
    simp only [load, pow_succ]
    omega

theorem load_zero (h : ∀ x, a ≤ x → x < a + n → m x = 0) : load m a n = 0 := by
  induction n generalizing a with
  | zero => rfl
  | succ n ih =>
    simp only [load]
    rw [h a (le_refl a) (by omega), ih fun x h1 h2 => h x (by omega) (by omega)]
    rfl

theorem load_store_of_disjoint (h : a + n ≤ b ∨ b + k ≤ a) :
    load (store m a n v) b k = load m b k :=
  load_congr fun x h1 h2 => store_of_not_mem (by omega)

theorem load_copy_of_disjoint (h : a + n ≤ b ∨ b + k ≤ a) :
    load (copy m a n source src) b k = load m b k :=
  load_congr fun x h1 h2 => copy_of_not_mem (by omega)

theorem load_fill_zero (h : a ≤ b ∧ b + k ≤ a + n) : load (fill m a n 0) b k = 0 :=
  load_zero fun x h1 h2 => fill_of_mem (by omega)

/-- The bytes of `v` read back from the `j`-th on. -/
theorem load_store_from (j k : ℕ) (h : j + k ≤ n) :
    load (store m a n v) (a + j) k = v / 256 ^ j % 256 ^ k := by
  induction k generalizing j with
  | zero => simp [load, Nat.mod_one]
  | succ k ih =>
    have hbyte : store m a n v (a + j) = UInt8.ofNat (v / 256 ^ j) := by
      rw [store, if_pos (by omega)]
      simp
    simp only [load]
    rw [hbyte, show a + j + 1 = a + (j + 1) by ring, ih (j + 1) (by omega)]
    have hdiv : v / 256 ^ (j + 1) = v / 256 ^ j / 256 := by
      rw [pow_succ, Nat.div_div_eq_div_mul]
    rw [UInt8.toNat_ofNat', hdiv, pow_succ' 256 k, Nat.mod_mul]

/-- What is stored is read back, cut to its length. -/
theorem load_store : load (store m a n v) a n = v % 256 ^ n := by
  simpa using load_store_from (m := m) (a := a) (v := v) 0 n (by omega)

theorem load_store_of_lt (h : v < 256 ^ n) : load (store m a n v) a n = v := by
  rw [load_store, Nat.mod_eq_of_lt h]

end Bytes

end Xv6.Lib
