import Mathlib.Dynamics.PeriodicPts.Defs

/-!
# Circular linked lists

`Linked next l c` says that following `next` visits the elements of `l` in order and then `c`; a circular
list with first node `b` and further nodes `l` is `Linked next (b :: l) b`. Such a list is taken apart and
put together with `linked_append`. From every node one gets to every other (`exists_iterate`), so a
search around the circle finds the first node it is looking for (`exists_first`).
-/

namespace Xv6.Lib

variable {α : Type*} {f g : α → α} {b c x y : α} {l l₁ l₂ : List α}

/-- `next` leads from each element of the list to the one after it, and from the last one to `c`. -/
def Linked (next : α → α) : List α → α → Prop
  | [], _ => True
  | x :: l, c => next x = l.headD c ∧ Linked next l c

/-- Two lists linked one after the other. -/
theorem linked_append :
    Linked f (l₁ ++ l₂) c ↔ Linked f l₁ (l₂.headD c) ∧ Linked f l₂ c := by
  induction l₁ with
  | nil => simp [Linked]
  | cons x l ih =>
    have hhead : (l ++ l₂).headD c = l.headD (l₂.headD c) := by cases l <;> rfl
    simp only [List.cons_append, Linked, hhead, ih, and_assoc]

theorem Linked.congr (h : Linked f l c) (hfg : ∀ x ∈ l, g x = f x) : Linked g l c := by
  induction l with
  | nil => trivial
  | cons x l ih =>
    exact ⟨(hfg x List.mem_cons_self).trans h.1,
      ih h.2 fun y hy => hfg y (List.mem_cons_of_mem x hy)⟩

/-- An element, its successor and the rest. -/
theorem Linked.next_eq (h : Linked f (l₁ ++ x :: l₂) c) : f x = l₂.headD c :=
  (linked_append.mp h).2.1

theorem Linked.next_mem (h : Linked f (b :: l) b) (hx : x ∈ b :: l) : f x ∈ b :: l := by
  obtain ⟨l₁, l₂, hl⟩ := List.append_of_mem hx
  rw [hl] at h ⊢
  rw [h.next_eq]
  cases l₂ with
  | nil =>
    -- the last node leads back to the first
    cases l₁ with
    | nil => simp_all
    | cons y l₁ =>
      rw [List.cons_append, List.cons.injEq] at hl
      simp [hl.1]
  | cons y l₂ => simp

theorem Linked.split (h : Linked f (b :: l) b) (hx : x ∈ b :: l) (hne : f x ≠ b) :
    ∃ l₁ l₂, b :: l = l₁ ++ x :: f x :: l₂ := by
  obtain ⟨l₁, l₂, hl⟩ := List.append_of_mem hx
  rw [hl] at h
  have hnext := h.next_eq
  cases l₂ with
  | nil => exact absurd hnext hne
  | cons y l₂ => exact ⟨l₁, l₂, by rw [hl, hnext]; rfl⟩

/-- A set that contains the first node and the successors of its elements contains all nodes. -/
theorem Linked.forall_mem {P : α → Prop} (h : Linked f (x :: l) c) (hx : P x)
    (hP : ∀ y, P y → P (f y)) : ∀ y ∈ x :: l, P y := by
  induction l generalizing x with
  | nil => simpa using hx
  | cons z l ih =>
    have hz : f x = z := h.1
    exact List.forall_mem_cons.mpr ⟨hx, ih h.2 (hz ▸ hP x hx)⟩

/-! ### Going around -/

theorem Linked.iterate_end (h : Linked f (x :: l) c) : ∃ k, f^[k] x = c := by
  induction l generalizing x with
  | nil => exact ⟨1, h.1⟩
  | cons y l ih =>
    obtain ⟨k, hk⟩ := ih h.2
    exact ⟨k + 1, by rw [Function.iterate_succ_apply, h.1]; exact hk⟩

theorem Linked.iterate_mem (h : Linked f (b :: l) b) (hx : x ∈ b :: l) (k : ℕ) :
    f^[k] x ∈ b :: l := by
  induction k generalizing x with
  | zero => exact hx
  | succ k ih => exact ih (h.next_mem hx)

/-- From every node one gets to every node. -/
theorem Linked.exists_iterate (h : Linked f (b :: l) b) (hx : x ∈ b :: l) (hy : y ∈ b :: l) :
    ∃ k, f^[k] x = y := by
  have hto : ∃ k, f^[k] x = b := by
    obtain ⟨l₁, l₂, hl⟩ := List.append_of_mem hx
    rw [hl] at h
    exact (linked_append.mp h).2.iterate_end
  have hfrom : ∃ k, f^[k] b = y := by
    obtain ⟨l₁, l₂, hl⟩ := List.append_of_mem hy
    cases l₁ with
    | nil =>
      rw [List.nil_append, List.cons.injEq] at hl
      exact ⟨0, hl.1⟩
    | cons z l₁ =>
      rw [hl] at h
      rw [List.cons_append, List.cons.injEq] at hl
      rw [hl.1]
      exact (linked_append.mp h).1.iterate_end
  obtain ⟨k, hk⟩ := hto
  obtain ⟨m, hm⟩ := hfrom
  exact ⟨m + k, by rw [Function.iterate_add_apply, hk, hm]⟩

theorem Linked.exists_first {P : α → Prop} (h : Linked f (b :: l) b) (hx : x ∈ b :: l)
    (hP : ∃ y ∈ b :: l, P y) : ∃ k, P (f^[k] x) ∧ ∀ j < k, ¬ P (f^[j] x) := by
  classical
  have hex : ∃ k, P (f^[k] x) := by
    obtain ⟨y, hy, hPy⟩ := hP
    obtain ⟨k, hk⟩ := h.exists_iterate hx hy
    exact ⟨k, hk ▸ hPy⟩
  exact ⟨Nat.find hex, Nat.find_spec hex, fun j hj => Nat.find_min hex hj⟩

/-- Such a search, begun behind `q`, comes back to `q` last. -/
theorem ne_of_first {P : α → Prop} {q : α} {k : ℕ} (hk : P (f^[k] (f q)))
    (hfirst : ∀ j < k, ¬ P (f^[j] (f q))) {j : ℕ} (hj : j < k) : f^[j] (f q) ≠ q := by
  intro hq
  -- from here on the search would only see what it has seen
  have hper : Function.IsPeriodicPt f (j + 1) (f q) := by
    show f^[j + 1] (f q) = f q
    rw [Function.iterate_succ_apply', hq]
  have hmod : k % (j + 1) < k := (Nat.mod_lt k (Nat.succ_pos j)).trans_le hj
  exact hfirst _ hmod (by rwa [hper.iterate_mod_apply])

end Xv6.Lib
