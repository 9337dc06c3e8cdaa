import Xv6.Mem.Translate
import Xv6.Mem.User

/-!
# Copying, freeing and accessing address spaces

Specifications of `uvmcopy`, `freewalk`, `uvmfree` and of the functions that copy between the kernel
and user memory, in the terms of `Xv6.Mem.User`.
-/

namespace Xv6.Mem

open Lib (Bytes Code)

section copy

variable {L : Layout} {s s' s'' : Phys} {l l' l'' : List ℕ} {A A' B : PTab} {n n' : ℕ}
  {T T' : Set ℕ}

/-- A table that belongs to someone else. -/
structure Foreign (s : Phys) (l : List ℕ) (T : Set ℕ) (B : PTab) : Prop where
  rep : Rep s.mem B
  heap : Heap s l B.tables
  off : ∀ pa ∈ B.tables, pa ∉ T

theorem Foreign.effect (h : Foreign s l T B) (he : Effect s l T s' l' T') : Foreign s' l' T' B where
  rep := h.rep.congr fun path i hn => by
    have := i.isLt
    exact he.load_eq (h.rep.aligned path) (by omega) (h.off _ (PTab.mem_tables hn))
      (h.heap.disjoint _ (PTab.mem_tables hn))
  heap :=
    { he.heap with
      owned := fun pa hpa => by
        rw [he.kend_eq]
        exact h.heap.owned pa hpa
      disjoint := fun pa hpa => (he.foreign (h.off pa hpa) (h.heap.disjoint pa hpa)).2 }
  off pa hpa := (he.foreign (h.off pa hpa) (h.heap.disjoint pa hpa)).1

/-- Another owner's effect leaves an address space alone. -/
theorem User.frame (h : User L s l A n) (he : Effect s l T s' l' T')
    (hoff : ∀ pa ∈ A.footprint n, pa ∉ T) : User L s' l' A n := by
  have hf : Foreign s l T A :=
    ⟨h.rep, h.heap.subset Set.subset_union_left, fun pa hpa => hoff pa (.inl hpa)⟩
  exact ⟨(hf.effect he).rep,
    { he.heap with
      owned := fun pa hpa => by
        rw [he.kend_eq]
        exact h.heap.owned pa hpa
      disjoint := fun pa hpa => (he.foreign (hoff pa hpa) (h.heap.disjoint pa hpa)).2 }, h.space⟩

theorem User.kept (h : User L s l A n) (he : Effect s l T s' l' T')
    (hoff : ∀ pa ∈ A.footprint n, pa ∉ T) : Kept s.mem A s'.mem A n :=
  .of_effect (fun _ _ => rfl) he (fun pa hpa => hoff pa (.inr hpa))
    fun pa hpa => h.heap.disjoint pa (.inr hpa)

theorem User.kept_off (h : User L s l A n) (he : Effect s l A.tables s' l' T') :
    Kept s.mem A s'.mem A n :=
  .of_effect (fun _ _ => rfl) he h.space.mapped.sep fun pa hpa => h.heap.disjoint pa (.inr hpa)

/-- A layout that allows more flags. -/
theorem User.relax {L' : Layout} (h : User L s l A n) (hL : L'.special = L.special)
    (hf : ∀ f, L.flags f → L'.flags f) : User L' s l A n :=
  ⟨h.rep, h.heap, h.space.mapped, fun v hv => hf _ (h.space.flags v hv), fun v hv => by
    rw [hL]
    exact h.space.rest v hv⟩

theorem IsLeaf.flags_or {pte : ℕ} (h : IsLeaf pte) : PTE_FLAGS pte ||| PTE_V = PTE_FLAGS pte := by
  have hodd := (isLeaf_iff.mp h).1
  have hor := Nat.two_pow_add_eq_or_of_lt (i := 1) (b := 1) (by decide) (pte % 1024 / 2)
  rw [PTE_FLAGS_eq, PTE_V, show pte % 1024 = 2 ^ 1 * (pte % 1024 / 2) + 1 by omega, hor,
    Nat.or_assoc, Nat.or_self]

theorem PTE_FLAGS_lt (pte : ℕ) : PTE_FLAGS pte < 1024 := by
  rw [PTE_FLAGS_eq]
  exact Nat.mod_lt _ (by decide)

/-- Page `w` of the second address space is a copy of that of the first. -/
structure Copied (m : Bytes) (B : PTab) (m' : Bytes) (A : PTab) (w : ℕ) : Prop where
  flags : PTE_FLAGS (A.leaf w) = PTE_FLAGS (B.leaf w)
  byte : ∀ off, off < 4096 → A.byte m' w off = B.byte m w off

variable {LB : Layout} {w : ℕ}

theorem Copied.kept {m m' m'' : Bytes} (h : Copied m B m' A w) (hk : Kept m' A m'' A' n)
    (hw : w < n) : Copied m B m'' A' w :=
  ⟨by rw [hk.leaf w hw, h.flags], fun off hoff => (hk.byte w off hw hoff).trans (h.byte off hoff)⟩

theorem Copied.source {m m' m'' : Bytes} (h : Copied m' B m'' A w) (hk : Kept m B m' B n)
    (hw : w < n) : Copied m B m'' A w :=
  ⟨h.flags, fun off hoff => (h.byte off hoff).trans (hk.byte w off hw hoff)⟩

/-- The loop of `uvmcopy`: what is copied already stays, and the next pages are added. -/
theorem copyLoop_spec (k : ℕ) {v : ℕ} (h : User L s l A v) (hB : User LB s l B n)
    (hLB : ∀ f, LB.flags f → L.flags f) (hoff : ∀ pa ∈ B.footprint n, pa ∉ A.footprint v)
    (hv : v + k ≤ n) :
    Code.wp (copyLoop B.root A.root k (v * 4096)) (fun r s' => ∃ l' A',
      r = 0 ∧ Resized L s l A v s' l' A' (v + k) ∧ Kept s.mem A s'.mem A' v ∧
        (∀ w, v ≤ w → w < v + k → Copied s.mem B s'.mem A' w) ∨
      r = -1 ∧ Resized L s l A v s' l' A' 0) s := by
  induction k generalizing s l A v with
  | zero => exact ⟨l, A, .inl ⟨rfl, .refl h, .refl, fun w h1 h2 => absurd h2 (by omega)⟩⟩
  | succ k ih =>
    have hfl := hLB _ (hB.space.flags v (by omega))
    have hlv := isLeaf_flags.mp (L.flags_leaf _ hfl)
    have htop : topPage = 67108862 := rfl
    have hram := hB.le_ram
    have hdiv : v * 4096 / PGSIZE = v - 0 := Nat.mul_div_cancel _ (by decide)
    refine walk_mapped hB.rep (hB.heap.subset Set.subset_union_left) (by omega) hlv.ne_zero
      fun hn hpos hload => ?_
    rw [if_neg hpos, load64, Code.wp_bind, Code.wp_gets, hload, if_neg hlv.1]
    refine kalloc_user_spec h (fun s1 hres _ _ => ?_) fun mem s1 l1 hmem h1 hs1 heff1 hm1 _ => ?_
    · rw [if_pos rfl, Code.wp_bind, hdiv, ← zero_mul 4096]
      refine Code.wp_mono (uvmunmap_spec hres.user (by omega) (by omega)) ?_
      rintro - s2 ⟨l2, A2, hres2, -, -⟩
      exact ⟨l2, A2, .inr ⟨rfl, hres.trans hres2⟩⟩
    · rw [if_neg hmem, memmove, Code.wp_bind, Code.wp_modify, Code.wp_bind]
      have hcopy := sameOff_copy (m := s1.mem) s1.mem (PTE2PA (B.leaf v))
        (hs1.heap.owned mem (.inl rfl)).aligned (show 0 + PGSIZE ≤ 4096 by decide)
      obtain ⟨h2, hs2, heff2⟩ := hs1.write h1 hcopy
      have hkept1 := hB.kept heff1 hoff
      have hkept2 := (Kept.of_sameOff hm1 fun pa hpa he =>
        hs1.fresh (.inr (Set.mem_singleton_iff.mp he ▸ hpa))).trans (hs1.kept hcopy)
      refine Code.wp_mono (mappages_user_spec h2 hs2 (by omega) (PTE_FLAGS_lt _)
        (by rwa [hlv.flags_or])) ?_
      rintro r s3 ⟨l3, A3, hroot, hkept3,
        ⟨rfl, h3, heff3, -, hfl3, hbytes3, -⟩ | ⟨rfl, h3, hs3, heff3, -⟩⟩
      · have hgrow : Resized L s l A v s3 l3 A3 (v + 1) :=
          ⟨h3, (heff1.trans heff2).trans heff3, hroot⟩
        have hcopied : Copied s.mem B s3.mem A3 v := by
          refine ⟨hfl3.trans hlv.flags_or, fun off hlt => (hbytes3 off hlt).trans ?_⟩
          have hin : s1.mem.copy mem PGSIZE s1.mem (PTE2PA (B.leaf v)) (mem + off) =
              s1.mem (PTE2PA (B.leaf v) + (mem + off - mem)) :=
            Bytes.copy_of_mem ⟨Nat.le_add_right .., by rw [PGSIZE_eq]; omega⟩
          rw [Nat.add_sub_cancel_left] at hin
          exact hin.trans (hkept1.byte v off (by omega) hlt)
        have hoff3 : ∀ pa ∈ B.footprint n, pa ∉ A3.footprint (v + 1) := fun pa hpa =>
          (hgrow.eff.foreign (hoff pa hpa) (hB.heap.disjoint pa hpa)).1
        rw [if_neg (by decide), ← hroot,
          show v * 4096 + PGSIZE = (v + 1) * 4096 by rw [PGSIZE_eq]; omega]
        refine Code.wp_mono (ih h3 (hB.frame hgrow.eff hoff) hoff3 (by omega)) ?_
        rintro r s4 ⟨l4, A4, ⟨hr0, hres, hkept4, hnew⟩ | ⟨hr0, hres⟩⟩
        · rw [show v + 1 + k = v + (k + 1) by omega] at hres hnew
          refine ⟨l4, A4, .inl ⟨hr0, hgrow.trans hres,
            (hkept2.trans hkept3).trans (hkept4.mono (by omega)), fun w h1 h2 => ?_⟩⟩
          by_cases hw : w = v
          · exact hw ▸ hcopied.kept hkept4 (by omega)
          · exact (hnew w (by omega) h2).source (hB.kept hgrow.eff hoff) (by omega)
        · exact ⟨l4, A4, .inr ⟨hr0, hgrow.trans hres⟩⟩
      · rw [if_pos (by decide), Code.wp_bind]
        refine Code.wp_mono (kfree_spare_spec h3 hs3) ?_
        rintro - s4 ⟨h4, heff4, -⟩
        have hback : Resized L s l A v s4 (mem :: l3) A3 v :=
          ⟨h4, ((heff1.trans heff2).trans heff3).trans heff4, hroot⟩
        rw [Code.wp_bind, hdiv, ← hroot, ← zero_mul 4096]
        refine Code.wp_mono (uvmunmap_spec h4 (by omega) (by omega)) ?_
        rintro - s5 ⟨l5, A5, hres, -⟩
        exact ⟨l5, A5, .inr ⟨rfl, hback.trans hres⟩⟩

/-- `uvmcopy` into an empty address space copies all pages, or leaves it empty. -/
theorem uvmcopy_spec {sz : ℕ} (h : User L s l A 0) (hB : User LB s l B (npages sz))
    (hLB : ∀ f, LB.flags f → L.flags f)
    (hoff : ∀ pa ∈ B.footprint (npages sz), pa ∉ A.footprint 0) :
    Code.wp (uvmcopy B.root A.root sz) (fun r s' => ∃ l' A',
      r = 0 ∧ Resized L s l A 0 s' l' A' (npages sz) ∧
        (∀ w, w < npages sz → Copied s.mem B s'.mem A' w) ∨
      r = -1 ∧ Resized L s l A 0 s' l' A' 0) s := by
  have hc : Code.wp (copyLoop B.root A.root (npages sz) (0 * 4096)) _ s :=
    copyLoop_spec (npages sz) h hB hLB hoff (by omega)
  rw [zero_mul, zero_add] at hc
  apply Code.wp_mono hc
  rintro r s' ⟨l', A', ⟨hr, hres, -, hcopy⟩ | hfail⟩
  · exact ⟨l', A', .inl ⟨hr, hres, fun w hw => hcopy w (Nat.zero_le w) hw⟩⟩
  · exact ⟨l', A', .inr hfail⟩

end copy

/-! ### `freewalk` -/

/-- The page-table pages at and below a path. -/
def PTab.below (A : PTab) (path : List Idx) : Set ℕ := {pa | pa ≠ 0 ∧ ∃ q, A.node (path ++ q) = pa}

/-- The page-table pages below the entries `is` of the page at a path. -/
def PTab.under (A : PTab) (path : List Idx) (is : List Idx) : Set ℕ :=
  {pa | ∃ i ∈ is, pa ∈ A.below (path ++ [i])}

section freewalk

variable {m : Bytes} {s s' : Phys} {l l' : List ℕ} {A : PTab} {path is : List Idx} {i : Idx}

theorem PTab.below_nil : A.below [] = A.tables := rfl

theorem PTab.below_eq (hn : A.node path ≠ 0) :
    A.below path = insert (A.node path) (A.under path (List.finRange 512)) := by
  ext pa
  constructor
  · rintro ⟨hpa, q, hq⟩
    cases q with
    | nil => exact .inl (by rw [← hq, List.append_nil])
    | cons i q => exact .inr ⟨i, List.mem_finRange i, hpa, q, by simpa using hq⟩
  · rintro (rfl | ⟨i, -, hpa, q, hq⟩)
    · exact ⟨hn, [], by rw [List.append_nil]⟩
    · exact ⟨hpa, i :: q, by simpa using hq⟩

theorem PTab.under_nil : A.under path [] = ∅ :=
  Set.eq_empty_of_forall_notMem fun _ ⟨_, hi, _⟩ => List.not_mem_nil hi

theorem PTab.under_cons : A.under path (i :: is) = A.below (path ++ [i]) ∪ A.under path is := by
  ext pa
  constructor
  · rintro ⟨j, hj, hpa⟩
    rcases List.mem_cons.mp hj with rfl | hj
    · exact .inl hpa
    · exact .inr ⟨j, hj, hpa⟩
  · rintro (hpa | ⟨j, hj, hpa⟩)
    · exact ⟨i, List.mem_cons_self, hpa⟩
    · exact ⟨j, List.mem_cons_of_mem _ hj, hpa⟩

theorem Rep.below_empty (h : Rep m A) (h0 : A.node path = 0) : A.below path = ∅ :=
  Set.eq_empty_of_forall_notMem fun _ ⟨hpa, q, hq⟩ => hpa (hq.symm.trans (h.none_below h0 q))

theorem Rep.below_disjoint (h : Rep m A) (hi : i ∉ is) {pa : ℕ}
    (hpa : pa ∈ insert (A.node path) (A.under path is)) : pa ∉ A.below (path ++ [i]) := by
  rintro ⟨hne, q, hq⟩
  rcases hpa with rfl | ⟨j, hj, -, q', hq'⟩
  · have := h.inj _ _ hne hq.symm
    simp at this
  · have := h.inj (path ++ [i] ++ q) (path ++ [j] ++ q') (hq ▸ hne) (hq.trans hq'.symm)
    simp only [List.append_assoc, List.append_cancel_left_eq, List.singleton_append,
      List.cons.injEq] at this
    exact hi (this.1 ▸ hj)

/-- Without mapped pages every word of a page-table page is an entry for a page-table page. -/
theorem Rep.points (h : Rep m A) (hleaf : ∀ v, A.leaf v &&& PTE_V = 0) (hn : A.node path ≠ 0)
    (i : Idx) : Points (m.load (A.node path + 8 * i) 8) (A.node (path ++ [i])) := by
  by_cases hlen : path.length < 2
  · exact h.inner path i hlen hn
  · have hlen2 : path.length = 2 := by
      have := h.depth path hn
      omega
    obtain ⟨a, b, rfl⟩ := List.length_eq_two.mp hlen2
    have hnone : A.node ([a, b] ++ [i]) = 0 := by
      by_contra hne
      exact absurd (h.depth _ hne) (by simp)
    rw [hnone, h.last a b i hn]
    exact points_none (hleaf _)

/-- `freewalk` at a depth frees everything at and below a path. -/
def FreewalkOk (m : Bytes) (A : PTab) (depth : ℕ) : Prop :=
  ∀ path s l, path.length + depth = 3 → A.node path ≠ 0 → Heap s l (A.below path) →
    (∀ x, PGROUNDDOWN x ∈ A.below path → s.mem x = m x) →
    Code.wp (freewalk depth (A.node path)) (fun _ s' => ∃ l',
      Effect s l (A.below path) s' l' ∅) s

theorem freeEntries_spec {depth : ℕ} (hr : Rep m A) (hsub : FreewalkOk m A depth)
    (hlen : path.length + depth = 2) (hnd : is.Nodup)
    (hh : Heap s l (insert (A.node path) (A.under path is)))
    (hself : ∀ i ∈ is, Points (s.mem.load (A.node path + 8 * (i : ℕ)) 8) (A.node (path ++ [i])))
    (hbelow : ∀ x, PGROUNDDOWN x ∈ A.under path is → s.mem x = m x) :
    Code.wp (freeEntries (freewalk depth) (A.node path) (is.map Fin.val)) (fun _ s' => ∃ l',
      Effect s l (insert (A.node path) (A.under path is)) s' l' {A.node path}) s := by
  induction is generalizing s l with
  | nil =>
    rw [PTab.under_nil, insert_empty_eq] at hh ⊢
    exact ⟨l, .refl hh⟩
  | cons i is ih =>
    obtain ⟨hi, hnd'⟩ := List.nodup_cons.mp hnd
    have hfp : insert (A.node path) (A.under path (i :: is)) =
        A.below (path ++ [i]) ∪ insert (A.node path) (A.under path is) := by
      rw [PTab.under_cons, Set.union_insert]
    have hself' : ∀ j ∈ is, Points (s.mem.load (A.node path + 8 * (j : ℕ)) 8)
        (A.node (path ++ [j])) := fun j hj => hself j (List.mem_cons_of_mem _ hj)
    have hentry := hself i List.mem_cons_self
    simp only [List.map_cons, freeEntries, load64, store64, Code.wp_bind, Code.wp_gets,
      Code.wp_ite, Code.wp_modify]
    by_cases hnode : A.node (path ++ [i]) = 0
    · have hfp0 : insert (A.node path) (A.under path (i :: is)) =
          insert (A.node path) (A.under path is) := by
        rw [hfp, hr.below_empty hnode, Set.empty_union]
      have hinvalid := hentry.none hnode
      refine ⟨fun h => absurd hinvalid h.1, fun _ => ⟨fun h => absurd hinvalid h, fun _ => ?_⟩⟩
      rw [hfp0] at hh ⊢
      exact ih hnd' hh hself' fun x hx => hbelow x (PTab.under_cons ▸ .inr hx)
    · refine ⟨fun _ => ?_, fun h => absurd ⟨hentry.valid hnode, hentry.inner hnode⟩ h⟩
      rw [hentry.addr hnode]
      rw [hfp] at hh ⊢
      refine Code.wp_mono (hsub (path ++ [i]) s l (by simp; omega) hnode
        (hh.subset Set.subset_union_left) fun x hx => hbelow x (PTab.under_cons ▸ .inl hx)) ?_
      rintro - s1 ⟨l1, heff1⟩
      have hmem1 : ∀ x, PGROUNDDOWN x ∈ insert (A.node path) (A.under path is) →
          s1.mem x = s.mem x := fun x hx =>
        heff1.frame x (hr.below_disjoint hi hx) (hh.disjoint _ (.inr hx))
      have heff1' := heff1.frame_union (hh.subset Set.subset_union_right)
        fun pa hpa => hr.below_disjoint hi hpa
      rw [Set.empty_union] at heff1'
      have hilt := i.isLt
      have hoff := sameOff_store (m := s1.mem) (v := 0) (hr.aligned path)
        (by omega : 8 * (i : ℕ) + 8 ≤ 4096)
      have heff2 := heff1'.heap.write (hoff.mono (by simp))
      refine Code.wp_mono (ih hnd' heff2.heap (fun j hj => ?_) fun x hx => ?_) ?_
      · have hij : (i : ℕ) ≠ j := fun he => hi (Fin.ext he ▸ hj)
        have hjlt := j.isLt
        have hload : s1.mem.load (A.node path + 8 * (j : ℕ)) 8 =
            s.mem.load (A.node path + 8 * (j : ℕ)) 8 :=
          Bytes.load_congr fun x h1 h2 => hmem1 x
            (.inl (PGROUNDDOWN_of_mem (hr.aligned path) (by omega) (by omega)))
        rw [Bytes.load_store_of_disjoint (by omega), hload]
        exact hself' j hj
      · rw [← hbelow x (PTab.under_cons ▸ .inr hx), ← hmem1 x (.inr hx)]
        refine hoff x fun he => ?_
        obtain ⟨j, hj, hpa⟩ := hx
        rw [Set.mem_singleton_iff.mp he] at hpa
        exact hr.below_disjoint List.not_mem_nil (Set.mem_insert (A.node path) (A.under path [])) hpa
      · rintro - s3 ⟨l3, heff3⟩
        exact ⟨l3, (heff1'.trans heff2).trans heff3⟩

theorem entryIndices_eq (n : ℕ) : entryIndices n = (List.finRange n).map Fin.val := by
  rw [entryIndices, List.map_coe_finRange_eq_range]

/-- `freewalk` on a table without mapped pages frees all its pages. -/
theorem freewalkOk (hr : Rep m A) (hleaf : ∀ v, A.leaf v &&& PTE_V = 0) (depth : ℕ) :
    FreewalkOk m A depth := by
  induction depth with
  | zero =>
    intro path s l hlen hn
    have := hr.depth path hn
    omega
  | succ depth ih =>
    intro path s l hlen hn hh hmem
    rw [PTab.below_eq hn] at hh hmem ⊢
    have hself : ∀ i ∈ List.finRange 512, Points (s.mem.load (A.node path + 8 * (i : ℕ)) 8)
        (A.node (path ++ [i])) := fun i _ => by
      have := i.isLt
      have hload : s.mem.load (A.node path + 8 * (i : ℕ)) 8 =
          m.load (A.node path + 8 * (i : ℕ)) 8 :=
        Bytes.load_congr fun x h1 h2 => hmem x
          (.inl (PGROUNDDOWN_of_mem (hr.aligned path) (by omega) (by omega)))
      rw [hload]
      exact hr.points hleaf hn i
    have hnd := List.nodup_finRange 512
    rw [freewalk, entryIndices_eq 512, Code.wp_bind]
    -- only that the entries are distinct matters from here on
    generalize List.finRange 512 = is at hh hmem hself hnd ⊢
    refine Code.wp_mono (freeEntries_spec hr ih (by omega) hnd hh hself
      fun x hx => hmem x (.inr hx)) ?_
    rintro - s1 ⟨l1, heff1⟩
    refine Code.wp_mono (kfree_spec heff1.heap rfl) ?_
    rintro - s2 ⟨heff2, -⟩
    rw [Set.sdiff_self] at heff2
    exact ⟨_, heff1.trans heff2⟩

end freewalk

/-! ### Creating and freeing an address space -/

section free

variable {L : Layout} {s s' : Phys} {l l' : List ℕ} {A A' : PTab} {n v : ℕ} {T : Set ℕ}

/-- The table that consists of one empty page. -/
def PTab.single (page : ℕ) : PTab where
  node path := if path = [] then page else 0
  leaf _ := 0

theorem PTab.single_node_of_ne {page : ℕ} {path : List Idx} (h : path ≠ []) :
    (PTab.single page).node path = 0 := if_neg h

theorem PTab.tables_single {page : ℕ} (hp : page ≠ 0) : (PTab.single page).tables = {page} := by
  ext pa
  constructor
  · rintro ⟨hpa, path, hn⟩
    by_cases h : path = []
    · exact (hn.symm.trans (if_pos h))
    · exact absurd (hn.symm.trans (if_neg h)) hpa
  · rintro rfl
    exact ⟨hp, [], rfl⟩

theorem rep_single {m : Bytes} {page : ℕ} (hp : page ≠ 0) (hal : page % 4096 = 0) :
    Rep (m.fill page 4096 0) (PTab.single page) where
  root_ne := hp
  aligned path := by
    show (if path = [] then page else 0) % 4096 = 0
    split_ifs
    · exact hal
    · rfl
  inner path i _ hn := by
    have hi := i.isLt
    have hpath : path = [] := by
      by_contra h
      exact hn (if_neg h)
    have hnone : (PTab.single page).node (path ++ [i]) = 0 := if_neg (by simp)
    have hload : (m.fill page 4096 0).load (page + 8 * (i : ℕ)) 8 = 0 :=
      Bytes.load_fill_zero ⟨Nat.le_add_right .., by omega⟩
    rw [hnone, hpath]
    show Points ((m.fill page 4096 0).load (page + 8 * (i : ℕ)) 8) 0
    rw [hload]
    exact points_none rfl
  last i j _ hn := absurd (PTab.single_node_of_ne (List.cons_ne_nil i [j])) hn
  inner_none path i _ := if_neg (by simp)
  last_none _ _ _ _ := rfl
  depth path hn := by
    have hpath : path = [] := by
      by_contra h
      exact hn (if_neg h)
    simp [hpath]
  inj p q hp' he := by
    have h1 : p = [] := by
      by_contra h
      exact hp' (if_neg h)
    have h2 : q = [] := by
      by_contra h
      exact hp' (he.trans (if_neg h))
    rw [h1, h2]
  high _ _ := rfl

/-- The empty layout: nothing is mapped above user memory. -/
def Layout.bare (flags : ℕ → Prop) (h : ∀ f, flags f → IsLeaf f) : Layout where
  special _ := 0
  flags := flags
  special_low _ _ := rfl
  special_kernel _ := Nat.zero_and _
  flags_leaf := h

/-- A layout with one entry more, which the user cannot access. -/
def Layout.add (L : Layout) (v pte : ℕ) (hv : topPage ≤ v) (hk : pte &&& PTE_U = 0) : Layout where
  special := Function.update L.special v pte
  flags := L.flags
  special_low w hw := by
    rw [Function.update_of_ne (by omega)]
    exact L.special_low w hw
  special_kernel w := by
    by_cases hw : w = v
    · rw [hw, Function.update_self, hk]
    · rw [Function.update_of_ne hw]
      exact L.special_kernel w
  flags_leaf := L.flags_leaf

variable {hv : topPage ≤ v} {pte : ℕ}

theorem Layout.add_special_self {hk : pte &&& PTE_U = 0} :
    (L.add v pte hv hk).special v = pte := Function.update_self ..

theorem Layout.add_special_of_ne {w : ℕ} {hk : pte &&& PTE_U = 0} (h : w ≠ v) :
    (L.add v pte hv hk).special w = L.special w := Function.update_of_ne h ..

theorem uvmcreate_spec (flags : ℕ → Prop) (hf : ∀ f, flags f → IsLeaf f) (hh : Heap s l ∅) :
    Code.wp uvmcreate (fun r s' => (r = 0 ∧ Effect s l ∅ s' l ∅ ∧ ¬ Plenty s l 1) ∨
      ∃ l' A, r ≠ 0 ∧ A.root = r ∧ User (.bare flags hf) s' l' A 0 ∧
        Effect s l ∅ s' l' (A.footprint 0) ∧ ∀ m, Plenty s l (m + 1) → Plenty s' l' m) s := by
  rw [uvmcreate, Code.wp_bind]
  refine Code.wp_mono (kalloc_spec hh) ?_
  rintro page s1 (⟨rfl, heff, -, hst⟩ | ⟨l1, rfl, heff, -, hpos, -, hst⟩)
  · exact .inl ⟨rfl, heff, hst⟩
  · rw [if_neg hpos, memset, Code.wp_bind, Code.wp_modify]
    have hram := heff.heap.owned page (.inl rfl)
    have hfp : (PTab.single page).footprint 0 = insert page ∅ := by
      rw [PTab.footprint, PTab.pages_zero, Set.union_empty, PTab.tables_single hpos,
        insert_empty_eq]
    have heff' := heff.trans (heff.heap.write ((sameOff_fill hram.aligned (c := 0)).mono (by simp)))
    rw [← hfp] at heff'
    refine .inr ⟨l1, PTab.single page, hpos, rfl, ⟨rep_single hpos hram.aligned, heff'.heap,
      ⟨⟨fun w _ h2 => absurd h2 (by omega), fun w _ _ h2 => absurd h2 (by omega), ?_⟩,
        fun w hw => absurd hw (by omega), fun _ _ => rfl⟩⟩, heff', hst⟩
    rw [PTab.pages_zero]
    exact fun pa hpa => hpa.elim

/-- `uvmfree` on an address space without special entries gives all its pages back. -/
theorem uvmfree_spec {sz : ℕ} (h : User L s l A (npages sz)) (hL : ∀ v, L.special v = 0) :
    Code.wp (uvmfree A.root sz) (fun _ s' => ∃ l',
      Effect s l (A.footprint (npages sz)) s' l' ∅) s := by
  have hram := h.le_ram
  -- once user memory is unmapped no entry is left
  have hwalk : ∀ {s : Phys} {l : List ℕ} {A : PTab} (d : ℕ), d = 3 → User L s l A 0 →
      Code.wp (freewalk d A.root) (fun _ s' => ∃ l', Effect s l (A.footprint 0) s' l' ∅) s := by
    intro s l A d hd h0
    have hfp : A.footprint 0 = A.below [] := by
      rw [PTab.footprint, PTab.pages_zero, Set.union_empty, PTab.below_nil]
    have hh := h0.heap
    rw [hfp] at hh ⊢
    have hnone : ∀ v, A.leaf v &&& PTE_V = 0 := fun v => by
      rw [h0.space.rest v (Nat.zero_le v), hL v]
      rfl
    exact freewalkOk h0.rep hnone d [] s l (by rw [hd]; rfl) h0.rep.root_ne hh fun _ _ => rfl
  rw [uvmfree, Code.wp_ite]
  generalize hd : 3 = d
  refine ⟨fun hpos => ?_, fun hz => ?_⟩
  · have hpg : PGROUNDUP sz / PGSIZE = npages sz - 0 := by
      rw [PGROUNDUP_eq (by unfold npages at hram; omega), PGSIZE_eq]
      omega
    have hunmap : Code.wp (uvmunmap A.root (0 * 4096) (npages sz - 0) true) _ s :=
      uvmunmap_spec h (Nat.zero_le _) (by omega)
    rw [zero_mul] at hunmap
    rw [hpg, Code.wp_bind]
    refine Code.wp_mono hunmap ?_
    rintro - s1 ⟨l1, A1, hres, -⟩
    rw [← hres.root_eq]
    refine Code.wp_mono (hwalk d hd.symm hres.user) ?_
    rintro - s2 ⟨l2, heff⟩
    exact ⟨l2, hres.eff.trans heff⟩
  · obtain rfl : sz = 0 := by omega
    exact hwalk d hd.symm h

theorem uvmfree_zero_spec (h : User L s l A 0) (hL : ∀ v, L.special v = 0) :
    Code.wp (uvmfree A.root 0) (fun _ s' => ∃ l', Effect s l (A.footprint 0) s' l' ∅) s := by
  have h0 : npages 0 = 0 := by decide
  have hu := @uvmfree_spec L s l A 0
  rw [h0] at hu
  exact hu h hL

end free

/-! ### Entries above user memory -/

section special

variable {L : Layout} {s s' : Phys} {l l' : List ℕ} {A A' : PTab} {n v : ℕ}

theorem User.special (L' : Layout) {pte : ℕ} (h : User L s l A n)
    (hc : Changed s l A s' l' A') (hleaf : A'.leaf = Function.update A.leaf v pte) (hv : n ≤ v)
    (hL : L'.special = Function.update L.special v pte) (hf : L'.flags = L.flags) :
    User L' s' l' A' n ∧ Effect s l (A.footprint n) s' l' (A'.footprint n) := by
  have hlow : ∀ w, w < n → A'.leaf w = A.leaf w := fun w hw => by
    rw [hleaf, Function.update_of_ne (by omega)]
  have hpg : A'.pages 0 n = A.pages 0 n := PTab.pages_congr fun w _ h2 => hlow w (by omega)
  have hU : Heap s l (A.pages 0 n) := h.heap.subset Set.subset_union_right
  have heff := hc.eff.frame_union hU h.space.mapped.sep
  have hfp : A'.footprint n = A'.tables ∪ A.pages 0 n := by rw [PTab.footprint, hpg]
  rw [← hfp] at heff
  refine ⟨⟨hc.rep, heff.heap, h.space.mapped.congr hlow fun pa hpa =>
    (hc.eff.foreign (h.space.mapped.sep pa hpa) (hU.disjoint pa hpa)).1, fun w hw => ?_,
    fun w hw => ?_⟩, heff⟩
  · rw [hlow w hw, hf]
    exact h.space.flags w hw
  · rw [hleaf, hL]
    by_cases hwv : w = v
    · rw [hwv, Function.update_self, Function.update_self]
    · rw [Function.update_of_ne hwv, Function.update_of_ne hwv]
      exact h.space.rest w hw

theorem mappages_special_spec (L' : Layout) {pa perm : ℕ} (h : User L s l A n) (hv : n ≤ v)
    (hmax : v < 67108864) (h0 : L.special v = 0) (hpa : pa < 2 ^ 64) (hperm : perm < 1024)
    (hL : L'.special = Function.update L.special v (PA2PTE pa ||| perm ||| PTE_V))
    (hf : L'.flags = L.flags) :
    Code.wp (mappages A.root (v * 4096) PGSIZE pa perm) (fun r s' => ∃ l' A', A'.root = A.root ∧
      Effect s l (A.footprint n) s' l' (A'.footprint n) ∧
      (r = 0 ∧ User L' s' l' A' n ∧ (∀ m, Plenty s l (m + A.mapCost v) → Plenty s' l' m) ∨
        r = -1 ∧ User L s' l' A' n ∧ ¬ Plenty s l (A.mapCost v))) s := by
  refine Code.wp_mono (mappage_spec hperm h.rep (h.heap.subset Set.subset_union_left) hmax hpa
    ((h.space.rest v hv).trans h0)) ?_
  rintro r s' ⟨l', A', hc, ⟨hr0, hleaf, hst⟩ | ⟨hr0, hleaf, hst⟩⟩
  · have hsp := h.special L' hc hleaf hv hL hf
    exact ⟨l', A', hc.root_eq, hsp.2, .inl ⟨hr0, hsp.1, hst⟩⟩
  · have hsame : A'.leaf = Function.update A.leaf v 0 := by
      rw [hleaf, ← (h.space.rest v hv).trans h0, Function.update_eq_self]
    have hsp := h.special L hc hsame hv (by rw [← h0, Function.update_eq_self]) rfl
    exact ⟨l', A', hc.root_eq, hsp.2, .inr ⟨hr0, hsp.1, hst⟩⟩

theorem uvmunmap_special_spec (L' : Layout) (h : User L s l A n) (hv : n ≤ v) (hmax : v < 67108864)
    (hleaf : IsLeaf (L.special v)) (hL : L'.special = Function.update L.special v 0)
    (hf : L'.flags = L.flags) :
    Code.wp (uvmunmap A.root (v * 4096) 1 false) (fun _ s' => ∃ A', A'.root = A.root ∧
      Effect s l (A.footprint n) s' l (A'.footprint n) ∧ User L' s' l A' n) s := by
  refine Code.wp_mono (uvmunmap_keep_spec h.rep (h.heap.subset Set.subset_union_left) hmax
    (by rwa [h.space.rest v hv])) ?_
  rintro - s' ⟨hr, heff⟩
  have hc : Changed s l A s' l (A.setLeaf v 0) :=
    ⟨hr, heff, rfl⟩
  have hsp := h.special L' hc rfl hv hL hf
  exact ⟨A.setLeaf v 0, rfl, hsp.2, hsp.1⟩

end special

/-! ### Access from the kernel -/

section access

variable {L : Layout} {s s' : Phys} {l l' : List ℕ} {A A' : PTab} {n : ℕ}

theorem User.write {m : Bytes} (h : User L s l A n) (hm : SameOff (A.pages 0 n) s.mem m) :
    Resized L s l A n { s with mem := m } l A n := by
  have heff := h.heap.write (hm.mono Set.subset_union_right)
  exact ⟨⟨h.rep.sameOff hm fun pa hpa hpg => h.space.mapped.sep pa hpg hpa, heff.heap, h.space⟩,
    heff, rfl⟩

theorem uvminit_spec (src : Bytes) {sz : ℕ} (h : User L s l A 0) (hsz : sz < 4096)
    (hflags : L.flags (PTE_W ||| PTE_R ||| PTE_X ||| PTE_U ||| PTE_V)) (hpl : Plenty s l 3) :
    Code.wp (uvminit A.root src sz) (fun _ s' => ∃ l' A', Resized L s l A 0 s' l' A' 1 ∧
      ∀ m, Plenty s l (m + 3) → Plenty s' l' m) s := by
  rw [uvminit, if_neg (by rw [PGSIZE_eq]; omega)]
  refine kalloc_user_spec h (fun s1 _ _ hst => absurd (hpl.mono (by decide)) hst) ?_
  intro mem s1 l1 hmem h1 hs1 heff1 _ hst1
  rw [if_neg hmem, memset, Code.wp_bind, Code.wp_modify, Code.wp_bind]
  have hal := (hs1.heap.owned mem (.inl rfl)).aligned
  obtain ⟨h2, hs2, heff2⟩ := hs1.write h1 (sameOff_fill (c := 0) hal)
  have hmap := mappages_user_spec h2 hs2 (by decide) (by decide) hflags
  rw [zero_mul] at hmap
  apply Code.wp_mono hmap
  intro r s3 hres
  obtain ⟨l3, A3, hroot, -, ⟨rfl, h3, heff3, hpa, -, -, hst3⟩ | ⟨-, -, -, -, hst⟩⟩ := hres
  · have hpage : mem ∈ A3.pages 0 1 := ⟨0, le_rfl, Nat.one_pos, hpa⟩
    have hput := sameOff_copy (m := s3.mem) src 0 hal ((Nat.zero_add sz).trans_le hsz.le)
    have hres := h3.write (hput.mono (Set.singleton_subset_iff.mpr hpage))
    rw [memput, Code.wp_modify]
    exact ⟨l3, A3, ⟨hres.user, ((heff1.trans heff2).trans heff3).trans hres.eff, hroot⟩,
      fun m hm => hst3 m (hst1 (m + 2) hm)⟩
  · exact absurd (hst1 2 hpl) hst

/-- `walkaddr` finds pages of user memory only, and misses only those without `PTE_U`. -/
theorem walkaddr_spec {va : ℕ} (h : User L s l A n) :
    Code.wp (walkaddr A.root va) (fun r s' => s' = s ∧
      ((r = 0 ∧ (va / 4096 < n → A.leaf (va / 4096) &&& PTE_U = 0)) ∨
        va / 4096 < n ∧ r = PTE2PA (A.leaf (va / 4096)))) s := by
  have hram := h.le_ram
  have hfp : Heap s l A.tables := h.heap.subset Set.subset_union_left
  rw [walkaddr, Code.wp_ite]
  refine ⟨fun hva => ⟨rfl, .inl ⟨rfl, fun hn => ?_⟩⟩, fun hva => ?_⟩
  · rw [MAXVA_eq] at hva
    omega
  · have hva' : va < MAXVA := Nat.lt_of_not_le hva
    rw [Code.wp_bind]
    refine Code.wp_mono (walk_spec hva' h.rep hfp) ?_
    rintro pte s' ⟨rfl, ⟨rfl, hn⟩ | ⟨hn, rfl⟩⟩
    · exact ⟨rfl, .inl ⟨rfl, fun _ => by rw [h.rep.leaf_none hva' hn, Nat.zero_and]⟩⟩
    · have hload := h.rep.load_leaf hva' hn
      have hpos : A.node (leafPath va) + 8 * (idx 0 va : ℕ) ≠ 0 := by omega
      simp only [load64, Code.wp_bind, Code.wp_gets, Code.wp_ite, Code.wp_pure, hload, hpos,
        false_implies, not_false_eq_true, true_implies, true_and]
      refine ⟨fun hV => .inl fun hlt => ?_, fun _ => ⟨fun hU => .inl fun _ => hU, fun hU => .inr ?_⟩⟩
      · exact absurd hV (h.space.mapped.leaf _ (Nat.zero_le _) (by omega)).1
      · refine ⟨?_, trivial⟩
        by_contra hge
        rw [h.space.rest _ (by omega)] at hU
        exact hU (L.special_kernel _)

theorem PTab.mem_pages {w : ℕ} (hw : w < n) : PTE2PA (A.leaf w) ∈ A.pages 0 n :=
  ⟨w, Nat.zero_le w, by omega, rfl⟩

theorem User.page_aligned (h : User L s l A n) {pa : ℕ} (hpa : pa ∈ A.pages 0 n) : pa % 4096 = 0 :=
  (h.heap.owned pa (.inr hpa)).aligned

variable {source dst : Bytes} {srcva dstva src v : ℕ}

theorem copyoutLoop_spec (fuel : ℕ) {len : ℕ} (h : User L s l A n) :
    Code.wp (copyoutLoop A.root source fuel dstva src len) (fun _ s' =>
      Resized L s l A n s' l A n) s := by
  induction fuel generalizing s dstva src len with
  | zero => exact .refl h
  | succ fuel ih =>
    rw [copyoutLoop, Code.wp_ite]
    refine ⟨fun _ => .refl h, fun _ => ?_⟩
    rw [Code.wp_bind]
    refine Code.wp_mono (walkaddr_spec h) ?_
    rintro pa s' ⟨rfl, hpa⟩
    rw [Code.wp_ite]
    refine ⟨fun _ => .refl h, fun hne => ?_⟩
    obtain ⟨hlt, rfl⟩ := hpa.resolve_left fun h0 => hne h0.1
    have hmem := PTab.mem_pages (A := A) hlt
    simp only [memput, Code.wp_bind, Code.wp_modify]
    have hfit : dstva - PGROUNDDOWN dstva + min (PGSIZE - (dstva - PGROUNDDOWN dstva)) len ≤
        4096 := by
      rw [PGROUNDDOWN_eq, PGSIZE_eq]
      omega
    have hw := h.write ((sameOff_copy source src (h.page_aligned hmem) hfit).mono
      (Set.singleton_subset_iff.mpr hmem))
    exact Code.wp_mono (ih hw.user) fun _ _ hres => hw.trans hres

theorem copyout_spec {len : ℕ} (h : User L s l A n) :
    Code.wp (copyout A.root dstva source src len) (fun _ s' => Resized L s l A n s' l A n) s :=
  copyoutLoop_spec len h

theorem copyinLoop_spec (fuel : ℕ) {pos len : ℕ} (h : User L s l A n) :
    Code.wp (copyinLoop A.root fuel dst pos srcva len) (fun _ s' => s' = s) s := by
  induction fuel generalizing dst pos srcva len with
  | zero => exact rfl
  | succ fuel ih =>
    rw [copyinLoop, Code.wp_ite]
    refine ⟨fun _ => rfl, fun _ => ?_⟩
    rw [Code.wp_bind]
    refine Code.wp_mono (walkaddr_spec h) ?_
    rintro pa s' ⟨rfl, -⟩
    rw [Code.wp_ite]
    exact ⟨fun _ => rfl, fun _ => ih⟩

theorem copyin_spec {len : ℕ} (h : User L s l A n) :
    Code.wp (copyin A.root dst srcva len) (fun _ s' => s' = s) s := copyinLoop_spec len h

theorem takeStr_length (m : Bytes) (n p : ℕ) :
    (takeStr m n p).1.length ≤ n ∧ ((takeStr m n p).2 = true → (takeStr m n p).1.length < n) := by
  induction n generalizing p with
  | zero => exact ⟨le_rfl, fun hc => absurd hc (by simp [takeStr])⟩
  | succ n ih =>
    rw [takeStr]
    split
    · exact ⟨Nat.zero_le _, fun _ => Nat.succ_pos n⟩
    · obtain ⟨h1, h2⟩ := ih (p + 1)
      exact ⟨Nat.succ_le_succ h1, fun hf => Nat.succ_lt_succ (h2 hf)⟩

theorem copyinstrLoop_spec (fuel : ℕ) (dst : List UInt8) (srcva max : ℕ) (h : User L s l A n) :
    Code.wp (copyinstrLoop A.root fuel dst srcva max) (fun r s' => s' = s ∧
      r.2.length ≤ dst.length + max ∧ (¬ r.1 < 0 → r.2.length < dst.length + max)) s := by
  induction fuel generalizing dst srcva max with
  | zero => exact ⟨rfl, Nat.le_add_right .., fun hc => absurd (by decide : (-1 : ℤ) < 0) hc⟩
  | succ fuel ih =>
    have hfail : s = s ∧ dst.length ≤ dst.length + max ∧
        (¬ (-1 : ℤ) < 0 → dst.length < dst.length + max) :=
      ⟨rfl, Nat.le_add_right .., fun hc => absurd (by decide) hc⟩
    rw [copyinstrLoop, Code.wp_ite]
    refine ⟨fun _ => hfail, fun _ => ?_⟩
    rw [Code.wp_bind]
    apply Code.wp_mono (walkaddr_spec h)
    intro pa s' hres
    obtain ⟨rfl, -⟩ := hres
    rw [Code.wp_ite]
    refine ⟨fun _ => hfail, fun _ => ?_⟩
    rw [Code.wp_bind, Code.wp_get]
    obtain ⟨hlen, hfound⟩ := takeStr_length s'.mem (min (PGSIZE - (srcva - PGROUNDDOWN srcva)) max)
      (pa + (srcva - PGROUNDDOWN srcva))
    generalize takeStr s'.mem (min (PGSIZE - (srcva - PGROUNDDOWN srcva)) max)
      (pa + (srcva - PGROUNDDOWN srcva)) = part at hlen hfound
    obtain ⟨part, found⟩ := part
    generalize hn : min (PGSIZE - (srcva - PGROUNDDOWN srcva)) max = cut at hlen hfound
    have hcut : cut ≤ max := hn ▸ Nat.min_le_right ..
    dsimp only at hlen hfound ⊢
    rw [Code.wp_ite]
    constructor
    · intro hf
      have hlt := hfound hf
      rw [Code.wp_pure, List.length_append]
      exact ⟨rfl, by omega, fun _ => by omega⟩
    · intro _
      apply Code.wp_mono (ih _ _ _)
      intro r s'' hres
      obtain ⟨rfl, h1, h2⟩ := hres
      rw [List.length_append] at h1 h2
      exact ⟨rfl, by omega, fun hr => by have := h2 hr; omega⟩

/-- `copyinstr` changes nothing and returns at most `max` bytes, with the NUL if it succeeds. -/
theorem copyinstr_spec {max : ℕ} (h : User L s l A n) :
    Code.wp (copyinstr A.root srcva max) (fun r s' => s' = s ∧ r.2.length ≤ max ∧
      (¬ r.1 < 0 → r.2.length < max)) s := by
  have hspec := copyinstrLoop_spec max [] srcva max h
  rwa [List.length_nil, Nat.zero_add] at hspec

theorem and_U (pte : ℕ) : pte &&& PTE_U = 16 * (pte / 16 % 2) := by
  rw [PTE_U, show (16 : ℕ) = 2 ^ 4 from rfl, Nat.and_two_pow, Nat.toNat_testBit, Nat.mul_comm]

theorem Space.setFlags {L' : Layout} {pte : ℕ} (h : Space L A n) (hv : v < n)
    (hpa : PTE2PA pte = PTE2PA (A.leaf v)) (hfl : L'.flags (PTE_FLAGS pte))
    (hL : L'.special = L.special) (hf : ∀ f, L.flags f → L'.flags f) :
    Space L' (A.setLeaf v pte) n ∧ (A.setLeaf v pte).pages 0 n = A.pages 0 n := by
  have hpa' : ∀ w, PTE2PA ((A.setLeaf v pte).leaf w) = PTE2PA (A.leaf w) := fun w => by
    by_cases hw : w = v
    · rw [hw, PTab.setLeaf_leaf_self, hpa]
    · rw [PTab.setLeaf_leaf_of_ne hw]
  have hpg : (A.setLeaf v pte).pages 0 n = A.pages 0 n := by
    ext pa
    simp only [PTab.pages, hpa']
  have hflags : ∀ w, w < n → L'.flags (PTE_FLAGS ((A.setLeaf v pte).leaf w)) := fun w hw => by
    by_cases hwv : w = v
    · rw [hwv, PTab.setLeaf_leaf_self]
      exact hfl
    · rw [PTab.setLeaf_leaf_of_ne hwv]
      exact hf _ (h.flags w hw)
  refine ⟨⟨⟨fun w _ h2 => ?_, fun w w' h1 h2 h3 h4 he => ?_, ?_⟩, hflags, fun w hw => ?_⟩, hpg⟩
  · exact isLeaf_flags.mp (L'.flags_leaf _ (hflags w (by omega)))
  · rw [hpa', hpa'] at he
    exact h.mapped.inj w w' h1 h2 h3 h4 he
  · rw [hpg]
    exact h.mapped.sep
  · rw [PTab.setLeaf_leaf_of_ne (by omega), hL]
    exact h.rest w hw

/-- Page `v` of an address space was closed to the user, and nothing else changed. -/
structure Closed (m : Bytes) (A : PTab) (v : ℕ) (m' : Bytes) (A' : PTab) (n : ℕ) : Prop where
  user : A'.leaf v &&& PTE_U = 0
  leaf : ∀ w, w ≠ v → A'.leaf w = A.leaf w
  byte : ∀ w off, w < n → off < 4096 → A'.byte m' w off = A.byte m w off

theorem uvmclear_spec (L' : Layout) (h : User L s l A n) (hv : v < n) (hL : L'.special = L.special)
    (hf : ∀ f, L.flags f → L'.flags f) (hclear : ∀ f, L.flags f → L'.flags (f - (f &&& PTE_U))) :
    Code.wp (uvmclear A.root (v * 4096)) (fun _ s' => ∃ A', A'.root = A.root ∧
      Effect s l (A.footprint n) s' l (A'.footprint n) ∧ User L' s' l A' n ∧
      Closed s.mem A v s'.mem A' n) s := by
  have hram := h.le_ram
  have hleaf := h.space.mapped.leaf v (Nat.zero_le v) (by omega)
  have hpa : PTE2PA (A.leaf v - (A.leaf v &&& PTE_U)) = PTE2PA (A.leaf v) := by
    rw [PTE2PA_eq, PTE2PA_eq, and_U]
    omega
  have hfl : PTE_FLAGS (A.leaf v - (A.leaf v &&& PTE_U)) =
      PTE_FLAGS (A.leaf v) - (PTE_FLAGS (A.leaf v) &&& PTE_U) := by
    rw [and_U, and_U, PTE_FLAGS_eq, PTE_FLAGS_eq]
    omega
  refine walk_mapped h.rep (h.heap.subset Set.subset_union_left) (by omega) hleaf.ne_zero
    fun hn hpos hload => ?_
  rw [if_neg hpos, load64, Code.wp_bind, Code.wp_gets, hload, store64, Code.wp_modify]
  obtain ⟨hsp, hpg⟩ := h.space.setFlags hv hpa (by rw [hfl]; exact hclear _ (h.space.flags v hv)) hL
    hf
  have hlt : A.leaf v - (A.leaf v &&& PTE_U) < 256 ^ 8 :=
    lt_of_le_of_lt (Nat.sub_le ..) (hload ▸ Bytes.load_lt)
  have hst : Changed s l A _ l (A.setLeaf v _) :=
    Changed.clear h.rep (h.heap.subset Set.subset_union_left) (by omega) hn hlt
  have heff := hst.eff.frame_union (h.heap.subset Set.subset_union_right) h.space.mapped.sep
  rw [PTab.setLeaf_tables, ← hpg] at heff
  have hbytes := h.kept_off hst.eff
  refine ⟨A.setLeaf v (A.leaf v - (A.leaf v &&& PTE_U)), rfl, ?_, ⟨hst.rep, heff.heap, hsp⟩, ?_,
    fun w hw => PTab.setLeaf_leaf_of_ne hw, fun w off hw hoff => ?_⟩
  · rw [PTab.footprint, ← hpg]
    exact heff
  · rw [PTab.setLeaf_leaf_self, and_U, and_U]
    omega
  · refine Eq.trans ?_ (hbytes.byte w off hw hoff)
    by_cases hwv : w = v
    · rw [hwv, PTab.byte, PTab.setLeaf_leaf_self, hpa, PTab.byte]
    · rw [PTab.byte, PTab.setLeaf_leaf_of_ne hwv, PTab.byte]

end access

end Xv6.Mem
