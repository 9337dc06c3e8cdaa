import Xv6.Lib.Bytes
import Mathlib.Data.List.Range

/-!
# Strings and copies in memory

`ulib.c`: `strchr` and `memmove`, on a memory of bytes, and the `memmove` of the kernel in
`string.c`. `strchr` takes the number of bytes it may look at, the rest of the buffer its argument
points into. The two loops of `memmove` overwrite bytes they may still have to copy, and the two
functions choose between them by different tests; `memmove_eq_copy` and `Kstring.memmove_eq_copy`
say that each direction is used only where it copies every byte before it is overwritten.

The ranges lie in the address space, so pointers into them and to their ends do not wrap.
-/

namespace Xv6.Ulib

open Xv6.Lib

variable {mem mem' : Bytes} {a b n p : ℕ} {c : UInt8} {w : List UInt8}

/-! ### Ranges of bytes as lists -/

/-- The `n` bytes from `a` on. -/
def bytes (mem : Bytes) (a n : ℕ) : List UInt8 := (List.range' a n).map mem

@[simp]
theorem bytes_zero : bytes mem a 0 = [] := rfl

theorem bytes_succ : bytes mem a (n + 1) = mem a :: bytes mem (a + 1) n := by
  rw [bytes, List.range'_succ]
  rfl

@[simp]
theorem length_bytes : (bytes mem a n).length = n := by
  simp [bytes]

theorem bytes_add {k : ℕ} : bytes mem a (n + k) = bytes mem a n ++ bytes mem (a + n) k := by
  simp only [bytes, ← List.map_append, List.range'_append_1]

theorem bytes_congr (h : ∀ x, a ≤ x → x < a + n → mem x = mem' x) :
    bytes mem a n = bytes mem' a n := by
  refine List.map_congr_left fun x hx => ?_
  obtain ⟨h1, h2⟩ := List.mem_range'_1.mp hx
  exact h x h1 h2

theorem bytes_append {u v : List UInt8} (h : bytes mem a (u ++ v).length = u ++ v) :
    bytes mem a u.length = u ∧ bytes mem (a + u.length) v.length = v := by
  rw [List.length_append, bytes_add] at h
  exact List.append_inj h length_bytes

/-- A list as the bytes of a memory. -/
theorem bytes_getD (l : List UInt8) : bytes (fun i => l.getD i 0) 0 l.length = l := by
  refine List.ext_getElem (by simp) fun i h1 h2 => ?_
  simp [bytes, h2]

/-- The bytes a copy has written. -/
theorem bytes_copy {source : Bytes} {src : ℕ} :
    bytes (Bytes.copy mem a n source src) a n = bytes source src n := by
  refine List.ext_getElem (by simp) fun i h1 h2 => ?_
  have hi : i < n := by simpa using h1
  simp only [bytes, List.getElem_map, List.getElem_range', Nat.one_mul]
  rw [Bytes.copy_of_mem ⟨Nat.le_add_right a i, Nat.add_lt_add_left hi a⟩, Nat.add_sub_cancel_left]

/-! ### Strings -/

/-- The address of the first `c` of the string at `s`. Source: `ulib.c` `strchr`. -/
def strchr (mem : Bytes) (c : UInt8) : ℕ → ℕ → Option ℕ
  | 0, _ => none
  | n + 1, s =>
    if mem s = 0 then none
    else if mem s = c then some s
    else strchr mem c n (s + 1)

/-- The bytes of the string at `s`, up to the NUL byte. -/
def cstring (mem : Bytes) : ℕ → ℕ → List UInt8
  | 0, _ => []
  | n + 1, s => if mem s = 0 then [] else mem s :: cstring mem n (s + 1)

/-- `strchr` passes over bytes that are neither NUL nor `c`. -/
theorem strchr_skip (hw : bytes mem p w.length = w) (hfree : ∀ x ∈ w, x ≠ 0 ∧ x ≠ c) :
    strchr mem c (w.length + n) p = strchr mem c n (p + w.length) := by
  induction w generalizing p with
  | nil => simp
  | cons x w ih =>
    rw [List.length_cons, bytes_succ] at hw
    obtain ⟨hx, hw⟩ := List.cons.inj hw
    obtain ⟨⟨h0, hc⟩, hfree⟩ := List.forall_mem_cons.mp hfree
    rw [List.length_cons, Nat.add_right_comm, strchr, hx, if_neg h0, if_neg hc, ih hw hfree]
    congr 1
    omega

theorem strchr_found (hw : bytes mem p w.length = w) (hfree : ∀ x ∈ w, x ≠ 0 ∧ x ≠ c)
    (hc : mem (p + w.length) = c) (h0 : c ≠ 0) (hn : w.length < n) :
    strchr mem c n p = some (p + w.length) := by
  obtain ⟨k, rfl⟩ := Nat.exists_eq_add_of_lt hn
  rw [Nat.add_assoc, strchr_skip hw hfree, strchr, hc, if_neg h0, if_pos rfl]

theorem strchr_none (hw : bytes mem p w.length = w) (hfree : ∀ x ∈ w, x ≠ 0 ∧ x ≠ c)
    (h0 : mem (p + w.length) = 0) (hn : w.length < n) : strchr mem c n p = none := by
  obtain ⟨k, rfl⟩ := Nat.exists_eq_add_of_lt hn
  rw [Nat.add_assoc, strchr_skip hw hfree, strchr, if_pos h0]

theorem cstring_eq (hw : bytes mem p w.length = w) (hfree : ∀ x ∈ w, x ≠ 0)
    (h0 : mem (p + w.length) = 0) (hn : w.length < n) : cstring mem n p = w := by
  induction w generalizing p n with
  | nil =>
    obtain ⟨k, rfl⟩ := Nat.exists_eq_add_of_lt hn
    rw [cstring, if_pos]
    simpa using h0
  | cons x w ih =>
    rw [List.length_cons, bytes_succ] at hw
    obtain ⟨hx, hw⟩ := List.cons.inj hw
    obtain ⟨hx0, hfree⟩ := List.forall_mem_cons.mp hfree
    rw [List.length_cons] at h0 hn
    obtain ⟨k, rfl⟩ := Nat.exists_eq_add_of_lt hn
    rw [cstring, hx, if_neg hx0, ih hw hfree _ (by omega)]
    rwa [Nat.add_assoc, Nat.add_comm 1]

/-! ### `memmove` -/

/-- `while(n-- > 0) *dst++ = *src++`. -/
def copyUp (mem : Bytes) : ℕ → ℕ → ℕ → Bytes
  | 0, _, _ => mem
  | n + 1, dst, src => copyUp (Function.update mem dst (mem src)) n (dst + 1) (src + 1)

/-- `while(n-- > 0) *--dst = *--src`, from the ends of the two ranges. -/
def copyDown (mem : Bytes) : ℕ → ℕ → ℕ → Bytes
  | 0, _, _ => mem
  | n + 1, dst, src => copyDown (Function.update mem (dst + n) (mem (src + n))) n dst src

/-- Source: `ulib.c` `memmove`. The argument is the number of turns of the loop, none if the `int`
is negative. -/
def memmove (mem : Bytes) (dst src n : ℕ) : Bytes :=
  if dst < src then copyUp mem n dst src else copyDown mem n dst src

/-- Upwards, the byte just written lies below every byte still to be read, or above all of them. -/
theorem copyUp_eq (dst src : ℕ) (h : dst ≤ src ∨ src + n ≤ dst) :
    copyUp mem n dst src = Bytes.copy mem dst n mem src := by
  induction n generalizing mem dst src with
  | zero => exact Bytes.copy_zero.symm
  | succ n ih =>
    rw [copyUp, ih (dst + 1) (src + 1) (by omega)]
    funext x
    by_cases hx : dst + 1 ≤ x ∧ x < dst + 1 + n
    · rw [Bytes.copy_of_mem hx, Bytes.copy_of_mem (by omega), Function.update_of_ne (by omega)]
      congr 1
      omega
    · rw [Bytes.copy_of_not_mem hx]
      by_cases hd : x = dst
      · rw [hd, Function.update_self, Bytes.copy_of_mem (by omega), Nat.sub_self, Nat.add_zero]
      · rw [Function.update_of_ne hd, Bytes.copy_of_not_mem (by omega)]

/-- Downwards, the byte just written lies above every byte still to be read, or is the one read. -/
theorem copyDown_eq (dst src : ℕ) (h : src ≤ dst) :
    copyDown mem n dst src = Bytes.copy mem dst n mem src := by
  induction n generalizing mem with
  | zero => exact Bytes.copy_zero.symm
  | succ n ih =>
    rw [copyDown, ih]
    funext x
    by_cases hx : dst ≤ x ∧ x < dst + n
    · rw [Bytes.copy_of_mem hx, Bytes.copy_of_mem (by omega), Function.update_of_ne (by omega)]
    · rw [Bytes.copy_of_not_mem hx]
      by_cases hd : x = dst + n
      · rw [hd, Function.update_self, Bytes.copy_of_mem (by omega), Nat.add_sub_cancel_left]
      · rw [Function.update_of_ne hd, Bytes.copy_of_not_mem (by omega)]

theorem memmove_eq_copy (mem : Bytes) (dst src n : ℕ) :
    memmove mem dst src n = Bytes.copy mem dst n mem src := by
  unfold memmove
  split_ifs with h
  · exact copyUp_eq dst src (.inl h.le)
  · exact copyDown_eq dst src (Nat.le_of_not_lt h)

/-- The `n` bytes from `dst` on are what the `n` bytes from `src` on were, and nothing else changed.
-/
def Simultaneous (mem mem' : Bytes) (dst src n : ℕ) : Prop :=
  (∀ i < n, mem' (dst + i) = mem (src + i)) ∧ ∀ x, ¬ (dst ≤ x ∧ x < dst + n) → mem' x = mem x

theorem simultaneous_copy (mem : Bytes) (dst src n : ℕ) :
    Simultaneous mem (Bytes.copy mem dst n mem src) dst src n := by
  refine ⟨fun i hi => ?_, fun x hx => Bytes.copy_of_not_mem hx⟩
  rw [Bytes.copy_of_mem ⟨Nat.le_add_right dst i, Nat.add_lt_add_left hi dst⟩,
    Nat.add_sub_cancel_left]

end Xv6.Ulib

/-! ### The kernel's `memmove` -/

namespace Xv6.Kstring

open Xv6.Lib Xv6.Ulib

/-- Source: `string.c` `memmove`. -/
def memmove (mem : Bytes) (dst src n : ℕ) : Bytes :=
  if src < dst ∧ src + n > dst then copyDown mem n dst src else copyUp mem n dst src

theorem memmove_eq_copy (mem : Bytes) (dst src n : ℕ) :
    memmove mem dst src n = Bytes.copy mem dst n mem src := by
  unfold memmove
  split_ifs with h
  · exact copyDown_eq dst src h.1.le
  · refine copyUp_eq dst src ?_
    rw [not_and_or, not_lt, not_lt] at h
    exact h

/-- **Both `memmove` copy as if at once**, whatever the overlap of the two ranges, and so they
agree. -/
theorem memmove_simultaneous (mem : Bytes) (dst src n : ℕ) :
    Simultaneous mem (memmove mem dst src n) dst src n ∧
    Simultaneous mem (Ulib.memmove mem dst src n) dst src n ∧
    memmove mem dst src n = Ulib.memmove mem dst src n := by
  rw [memmove_eq_copy, Ulib.memmove_eq_copy]
  exact ⟨simultaneous_copy mem dst src n, simultaneous_copy mem dst src n, rfl⟩

end Xv6.Kstring
