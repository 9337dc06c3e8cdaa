import Xv6.Kernel.Ownership

/-!
# The shape of address spaces

The valid leaves of a user page table are the pages of user memory up to the size of the process,
the trapframe and the trampoline. The functions of `vm.c` panic when they meet any other shape, so
calls by processes never make them panic. `userinit` is the exception: `uvminit` does not look at the
result of `mappages`, and if `kalloc` fails there the first process has a size but no page.
-/

namespace Xv6.Kernel

open Lib (Bytes Code Lts)
open Mem

/-- The shape of a user page table in memory. -/
structure ShapeOf (m : Bytes) (pagetable sz : ℕ) : Prop where
  /-- Entries of the upper levels are no leaves. -/
  inner : ∀ path page (i : Idx), path.length < 2 → follow m pagetable path = some page →
    ¬ IsLeaf (m.load (page + 8 * i) 8)
  /-- Valid entries of the last level are leaves. -/
  leaf : ∀ i j n, leafEntry m pagetable i j n &&& PTE_V ≠ 0 → IsLeaf (leafEntry m pagetable i j n)
  /-- The valid ones are the pages of user memory, the trapframe and the trampoline. -/
  valid : ∀ i j n, leafEntry m pagetable i j n &&& PTE_V ≠ 0 ↔
    vpn i j n * PGSIZE < PGROUNDUP sz ∨ Special i j n
  /-- The user cannot access the last two. -/
  kernel : ∀ i j n, Special i j n → leafEntry m pagetable i j n &&& PTE_U = 0

/-- The shape of all address spaces, and that no call by a live process makes the kernel panic,
except that the first process must not exit. -/
structure WellShaped (k : Kern) : Prop where
  shape : ∀ p, (k.procs p).state ≠ .unused →
    ShapeOf k.phys.mem (k.procs p).pagetable (k.procs p).sz
  no_panic : ∀ p c msg, Live k p → Call.run p c k = .panic msg → msg = "init exiting"

section shape

variable {s : Phys} {l : List ℕ} {A : PTab} {trampoline trapframe sz : ℕ}

theorem special_leaf {v : ℕ} (h : v = topPage ∨ v = trampolinePage) :
    IsLeaf ((procLayout trampoline trapframe).special v) := by
  rcases h with rfl | rfl
  · rw [procLayout, layoutOf, Layout.add_special_self]
    exact isLeaf_trapframe
  · rw [procLayout, layoutOf, Layout.add_special_of_ne (by decide), trampLayout,
      Layout.add_special_self]
    exact isLeaf_tramp

/-- The address space of a process has its shape in memory. -/
theorem shapeOf_user (h : User (procLayout trampoline trapframe) s l A (npages sz)) :
    ShapeOf s.mem A.root sz := by
  have hram := h.le_ram
  have htop : topPage = 67108862 := rfl
  have htramp : trampolinePage = 67108863 := rfl
  have hround : PGROUNDUP sz = npages sz * 4096 := PGROUNDUP_eq (by unfold npages at hram; omega)
  have hlow : ∀ i j n, vpn i j n < npages sz → IsLeaf (A.leaf (vpn i j n)) := fun i j n hv =>
    h.space.mapped.leaf _ (Nat.zero_le _) (by omega)
  have hspecial : ∀ i j n, Special i j n → npages sz ≤ vpn i j n := by
    intro i j n hs
    rw [special_iff] at hs
    omega
  refine ⟨?_, ?_, ?_, ?_⟩
  · intro path page i hlen hfollow
    rw [follow_some h.rep hlen.le] at hfollow
    obtain ⟨rfl, hne⟩ := hfollow
    exact (h.rep.inner path i hlen hne).not_isLeaf
  · intro i j n hv
    rw [leafEntry_eq h.rep] at hv ⊢
    by_cases hs : Special i j n
    · rw [h.space.rest _ (hspecial i j n hs)]
      exact special_leaf (special_iff.mp hs)
    · exact hlow i j n (leaf_below h hs hv)
  · intro i j n
    rw [leafEntry_eq h.rep, hround, PGSIZE_eq]
    constructor
    · intro hv
      by_cases hs : Special i j n
      · exact .inr hs
      · have hlt := leaf_below h hs hv
        exact .inl (by omega)
    · intro hv
      rcases hv with hv | hs
      · exact (hlow i j n (by omega)).1
      · rw [h.space.rest _ (hspecial i j n hs)]
        exact (special_leaf (special_iff.mp hs)).1
  · intro i j n hs
    rw [leafEntry_eq h.rep, h.space.rest _ (hspecial i j n hs)]
    exact Layout.special_kernel _ _

theorem Good.wellShaped {k : Kern} (h : Good k) : WellShaped k := by
  refine ⟨fun p hp => ?_, fun p c msg hlive hpanic => call_panic h hlive hpanic⟩
  obtain ⟨l, own, hinv⟩ := h
  obtain ⟨A, hroot, hu, -, -⟩ := hinv.space hp
  rw [hroot]
  exact shapeOf_user hu

end shape

/-- In every run in which `userinit` gets its pages, all address spaces have their shape and no call
makes the kernel panic. -/
theorem address_space_shape {k : Kern} (h : (system.restrict Supplied).Reach k) : WellShaped k :=
  (good_of_reach h).wellShaped

theorem address_space_shape_small :
    ∃ k, userinit (stock 7 fun _ => false) = .ok () k ∧ WellShaped k := by
  obtain ⟨k, hrun, hreach⟩ := userinit_returns
    (stock_ready (n := 7) (by decide) (by decide) fun _ => false)
    (stocked_stock (by decide) (by decide))
  exact ⟨k, hrun, address_space_shape hreach⟩

/-- The first process can run and has a size, but its first page is not mapped. -/
def Unmapped (k : Kern) : Prop :=
  (k.procs k.initproc).state = .runnable ∧ (k.procs k.initproc).sz = PGSIZE ∧
    leafEntry k.phys.mem (k.procs k.initproc).pagetable (idx 2 0) (idx 1 0) (idx 0 0) &&&
      PTE_V = 0

instance (k : Kern) : Decidable (Unmapped k) := by
  unfold Unmapped
  infer_instance

theorem Unmapped.not_wellShaped {k : Kern} (h : Unmapped k) : ¬ WellShaped k := by
  obtain ⟨hstate, hsz, hentry⟩ := h
  intro hshape
  have hof := hshape.shape k.initproc (by rw [hstate]; decide)
  rw [hsz] at hof
  exact (hof.valid (idx 2 0) (idx 1 0) (idx 0 0)).mpr (.inl (by decide)) hentry

theorem reach_userinit {k k' : Kern} (h : Ready k) (hrun : userinit k = .ok () k') :
    system.Reach k' := by
  have hstep : system.step k .userinit k' := ⟨h.2, hrun⟩
  exact .step (.init h) hstep

/-- When only the sixth call of `kalloc` fails, the one for a page-table page in `uvminit`, the first
process has a size of one page and no page. -/
theorem userinit_unmapped : ∃ k, userinit (stock 7 fun n => n = 5) = .ok () k ∧ system.Reach k ∧
    Unmapped k ∧ ¬ WellShaped k := by
  have hpasses : (userinit (stock 7 fun n => n = 5)).passes (fun k => decide (Unmapped k)) = true := by
    decide +kernel
  obtain ⟨⟨⟩, k, hrun, htest⟩ := Lib.Res.exists_of_passes hpasses
  have hbad := of_decide_eq_true htest
  exact ⟨k, hrun, reach_userinit (stock_ready (by decide) (by decide) _) hrun, hbad, hbad.not_wellShaped⟩

end Xv6.Kernel
