import Mathlib.Data.Nat.ModEq
import Mathlib.Data.List.Basic

/-!
# Ring buffers with free-running counters

A ring of `N` cells is used through two counters that only ever grow and are kept modulo `M`, a
multiple of `N`. `Ring.Holds cells xs r` relates the cells to the unbounded history: `xs` is
everything ever put in, of which the first `r` have been taken out, and the rest lies in the cells.
The lemmas of the first section let the wrapped counters stand for the unbounded ones: they index
the same cell, and they are equal exactly when the unbounded ones are, as long as these are less
than `M` apart.
-/

namespace Xv6.Lib

/-- A number that a counter is compared with. -/
theorem toNat_toUInt32 {n : Int32} (hn : 0 ≤ n.toInt) : (n.toUInt32.toNat : ℤ) = n.toInt := by
  have hlt := n.toUInt32.toNat_lt
  have hcond : n.toInt = if 2 * n.toUInt32.toNat < 2 ^ 32 then (n.toUInt32.toNat : ℤ)
      else (n.toUInt32.toNat : ℤ) - (2 ^ 32 : ℕ) := BitVec.toInt_eq_toNat_cond n.toBitVec
  split_ifs at hcond <;> omega

namespace Ring

/-! ### Wrapped counters -/

/-- A wrapped counter indexes the cell of the unbounded one. -/
theorem mod_mod_cell {N M : ℕ} (h : N ∣ M) (n : ℕ) : n % M % N = n % N := Nat.mod_mod_of_dvd n h

theorem mod_eq_iff {M a b : ℕ} (hab : a ≤ b) (h : b - a < M) : b % M = a % M ↔ b = a := by
  constructor
  · intro he
    have hd : (b - a) % M = 0 := Nat.sub_mod_eq_zero_of_mod_eq he
    rw [Nat.mod_eq_of_lt h] at hd
    omega
  · rintro rfl
    rfl

/-- The wrapped difference of two counters less than `M` apart. -/
theorem sub_mod_eq {M a b : ℕ} (hab : a ≤ b) (h : b - a < M) :
    (M - a % M + b % M) % M = b - a := by
  have hM : 0 < M := by omega
  have ha := Nat.mod_lt a hM
  rw [← Nat.mod_eq_of_lt h]
  apply Nat.ModEq.add_right_cancel' (a % M)
  have h1 : M - a % M + b % M + a % M = b % M + M := by omega
  have h2 : b - a + a % M ≡ b [MOD M] := by
    calc b - a + a % M ≡ b - a + a [MOD M] := Nat.ModEq.add_left _ (Nat.mod_modEq a M)
      _ = b := by omega
  calc M - a % M + b % M + a % M = b % M + M := h1
    _ ≡ b % M [MOD M] := by simp [Nat.ModEq]
    _ ≡ b [MOD M] := Nat.mod_modEq b M
    _ ≡ b - a + a % M [MOD M] := h2.symm

/-! ### The cells -/

variable {α : Type*} {N r : ℕ} {cells : ℕ → α} {xs : List α} {x : α}

/-- Of the history `xs` the first `r` are gone, and the others lie in the cells of a ring of `N`. -/
structure Holds (N : ℕ) (cells : ℕ → α) (xs : List α) (r : ℕ) : Prop where
  taken_le : r ≤ xs.length
  room : xs.length - r ≤ N
  cell : ∀ j, r ≤ j → ∀ hj : j < xs.length, cells (j % N) = xs[j]

theorem Holds.empty (N : ℕ) (cells : ℕ → α) : Holds N cells [] 0 :=
  ⟨by simp, by simp, fun j _ hj => by simp at hj⟩

/-- Writing the cell that comes next, in a ring that is not full, changes nothing in the ring. -/
theorem Holds.write (h : Holds N cells xs r) (hroom : xs.length - r < N) :
    Holds N (Function.update cells (xs.length % N) x) xs r := by
  refine ⟨h.taken_le, h.room, fun j hr hj => ?_⟩
  -- two counters less than `N` apart do not share a cell
  have hne : j % N ≠ xs.length % N := fun he => by
    have := (mod_eq_iff (M := N) (a := j) (b := xs.length) (by omega) (by omega)).mp he.symm
    omega
  rw [Function.update_of_ne hne]
  exact h.cell j hr hj

theorem Holds.push (h : Holds N cells xs r) (hroom : xs.length - r < N)
    (hx : cells (xs.length % N) = x) : Holds N cells (xs ++ [x]) r := by
  have hle := h.taken_le
  refine ⟨by simp; omega, by simp; omega, fun j hr hj => ?_⟩
  rw [List.length_append, List.length_singleton] at hj
  by_cases hlast : j = xs.length
  · subst hlast
    simpa using hx
  · have hlt : j < xs.length := by omega
    rw [List.getElem_append_left hlt]
    exact h.cell j hr hlt

theorem Holds.put (h : Holds N cells xs r) (hroom : xs.length - r < N) :
    Holds N (Function.update cells (xs.length % N) x) (xs ++ [x]) r :=
  (h.write hroom).push hroom (by simp)

theorem Holds.take (h : Holds N cells xs r) (hr : r < xs.length) : Holds N cells xs (r + 1) :=
  ⟨by omega, by have := h.room; omega, fun j hj hlt => h.cell j (by omega) hlt⟩

/-- The cell the next element is taken from. -/
theorem Holds.front (h : Holds N cells xs r) (hr : r < xs.length) : cells (r % N) = xs[r] :=
  h.cell r (le_refl r) hr

theorem Holds.unput (h : Holds N cells (xs ++ [x]) r) (hr : r ≤ xs.length) :
    Holds N cells xs r := by
  have hroom := h.room
  rw [List.length_append, List.length_singleton] at hroom
  refine ⟨hr, by omega, fun j hj hlt => ?_⟩
  rw [h.cell j hj (by simp; omega), List.getElem_append_left hlt]

/-- The cells from the counter `r` on, in order, are the part of the history not yet taken. -/
theorem Holds.drop_eq (h : Holds N cells xs r) :
    xs.drop r = (List.range (xs.length - r)).map fun j => cells ((r + j) % N) := by
  refine List.ext_getElem (by simp) fun j hj _ => ?_
  rw [List.length_drop] at hj
  rw [List.getElem_drop, List.getElem_map, List.getElem_range]
  exact (h.cell (r + j) (by omega) (by omega)).symm

/-! ### Wrapped counters and what lies between them -/

/-- A ring of `N` cells whose counters `r` and `w`, kept modulo `M`, have the elements `q` between
them. -/
def Queue (M N : ℕ) (cells : ℕ → α) (r w : ℕ) (q : List α) : Prop :=
  ∃ xs k, Holds N cells xs k ∧ r = k % M ∧ w = xs.length % M ∧ q = xs.drop k

namespace Queue

variable {M w : ℕ} {q : List α}

theorem empty (M N : ℕ) (cells : ℕ → α) : Queue M N cells 0 0 [] :=
  ⟨[], 0, .empty N cells, by simp, by simp, by simp⟩

theorem eq_iff (h : Queue M N cells r w q) (hNM : N < M) : r = w ↔ q = [] := by
  obtain ⟨xs, k, hh, rfl, rfl, rfl⟩ := h
  have hle := hh.taken_le
  have hroom := hh.room
  rw [eq_comm, mod_eq_iff hle (by omega), List.drop_eq_nil_iff]
  omega

theorem upper_eq (h : Queue M N cells r w q) : w = (r + q.length) % M := by
  obtain ⟨xs, k, hh, rfl, rfl, rfl⟩ := h
  have hle := hh.taken_le
  rw [List.length_drop, Nat.mod_add_mod, Nat.add_sub_cancel' hle]

theorem length_le (h : Queue M N cells r w q) : q.length ≤ N := by
  obtain ⟨xs, k, hh, rfl, rfl, rfl⟩ := h
  rw [List.length_drop]
  exact hh.room

theorem sub_mod (h : Queue M N cells r w q) (hNM : N < M) : (M - r + w) % M = q.length := by
  obtain ⟨xs, k, hh, rfl, rfl, rfl⟩ := h
  rw [List.length_drop]
  exact sub_mod_eq hh.taken_le (lt_of_le_of_lt hh.room hNM)

theorem write (h : Queue M N cells r w q) (hdvd : N ∣ M) (hroom : q.length < N) :
    Queue M N (Function.update cells (w % N) x) r w q := by
  obtain ⟨xs, k, hh, rfl, rfl, rfl⟩ := h
  rw [List.length_drop] at hroom
  rw [mod_mod_cell hdvd]
  exact ⟨xs, k, hh.write hroom, rfl, rfl, rfl⟩

theorem push (h : Queue M N cells r w q) (hdvd : N ∣ M) (hroom : q.length < N)
    (hx : cells (w % N) = x) : Queue M N cells r ((w + 1) % M) (q ++ [x]) := by
  obtain ⟨xs, k, hh, rfl, rfl, rfl⟩ := h
  rw [List.length_drop] at hroom
  rw [mod_mod_cell hdvd] at hx
  refine ⟨xs ++ [x], k, hh.push hroom hx, rfl, by simp, ?_⟩
  rw [List.drop_append_of_le_length hh.taken_le]

theorem cons_cases (h : Queue M N cells r w (x :: q)) : ∃ xs k, ∃ hk : k < xs.length,
    Holds N cells xs k ∧ r = k % M ∧ w = xs.length % M ∧ xs[k] = x ∧ q = xs.drop (k + 1) := by
  obtain ⟨xs, k, hh, hr, hw, hq⟩ := h
  have hk : k < xs.length := by
    by_contra hge
    rw [List.drop_eq_nil_of_le (by omega)] at hq
    cases hq
  rw [List.drop_eq_getElem_cons hk] at hq
  exact ⟨xs, k, hk, hh, hr, hw, (List.cons.inj hq).1.symm, (List.cons.inj hq).2⟩

theorem front (h : Queue M N cells r w (x :: q)) (hdvd : N ∣ M) : cells (r % N) = x := by
  obtain ⟨xs, k, hk, hh, rfl, rfl, rfl, rfl⟩ := h.cons_cases
  rw [mod_mod_cell hdvd, hh.front hk]

theorem pop (h : Queue M N cells r w (x :: q)) : Queue M N cells ((r + 1) % M) w q := by
  obtain ⟨xs, k, hk, hh, rfl, rfl, rfl, rfl⟩ := h.cons_cases
  exact ⟨xs, k + 1, hh.take hk, by simp, rfl, rfl⟩

theorem back (h : Queue M N cells r w (q ++ [x])) (hdvd : N ∣ M) (hM : 1 < M) :
    cells ((M - 1 + w) % M % N) = x := by
  obtain ⟨xs, k, hh, rfl, rfl, hq⟩ := h
  have hle := hh.taken_le
  have hlen : xs.length - k = q.length + 1 := by simpa using (congrArg List.length hq).symm
  have hcell : (M - 1 + xs.length % M) % M = (xs.length - 1) % M := by
    rw [Nat.add_mod_mod, show M - 1 + xs.length = M + (xs.length - 1) by omega, Nat.add_mod_left]
  have hlt : q.length < (xs.drop k).length := by simp; omega
  have hlast : (xs.drop k)[q.length] = xs[xs.length - 1] := by
    simp only [List.getElem_drop]
    congr 1
    omega
  rw [hcell, mod_mod_cell hdvd, hh.cell (xs.length - 1) (by omega) (by omega), ← hlast]
  simp [← hq]

/-- The elements are the cells from the lower counter on. -/
theorem cell (h : Queue M N cells r w q) (hdvd : N ∣ M) {j : ℕ} (hj : j < q.length) :
    cells ((r + j) % M % N) = q[j] := by
  obtain ⟨xs, k, hh, rfl, rfl, rfl⟩ := h
  rw [List.length_drop] at hj
  rw [Nat.mod_add_mod, mod_mod_cell hdvd, hh.cell (k + j) (by omega) (by omega), List.getElem_drop]

theorem popBack (h : Queue M N cells r w (q ++ [x])) (hM : 1 < M) :
    Queue M N cells r ((M - 1 + w) % M) q := by
  obtain ⟨xs, k, hh, rfl, rfl, hq⟩ := h
  have hle := hh.taken_le
  have hlen : xs.length - k = q.length + 1 := by simpa using (congrArg List.length hq).symm
  have hxs : xs = (xs.take k ++ q) ++ [x] := by
    rw [List.append_assoc, hq, List.take_append_drop]
  have hlen' : (xs.take k ++ q).length = xs.length - 1 := by simp; omega
  refine ⟨xs.take k ++ q, k, ?_, rfl, ?_, ?_⟩
  · rw [hxs] at hh
    exact hh.unput (by omega)
  · rw [hlen', Nat.add_mod_mod, show M - 1 + xs.length = M + (xs.length - 1) by omega,
      Nat.add_mod_left]
  · rw [List.drop_append_of_le_length (by simp; omega)]
    simp

end Queue

end Ring

end Xv6.Lib
