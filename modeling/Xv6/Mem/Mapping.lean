import Xv6.Mem.Table

/-!
# Mapping and unmapping

What `mappages` and `uvmunmap` do to the tree of a page table, for any number of pages. A failed
`mappages` leaves the pages mapped so far, which for a single page is none.
-/

namespace Xv6.Mem

open Lib (Bytes Code)

/-- The entries after mapping `k` pages from page number `v` on to the physical pages from `pa` on. -/
def mapped (leaf : ℕ → ℕ) (v pa perm k : ℕ) : ℕ → ℕ := fun w =>
  if v ≤ w ∧ w < v + k then PA2PTE ((pa + (w - v) * 4096) % 2 ^ 64) ||| perm ||| PTE_V else leaf w

@[simp] theorem mapped_zero {leaf : ℕ → ℕ} {v pa perm : ℕ} : mapped leaf v pa perm 0 = leaf := by
  funext w
  exact if_neg (by omega)

theorem mapped_succ {leaf : ℕ → ℕ} {v pa perm k : ℕ} (hpa : pa < 2 ^ 64) :
    mapped (Function.update leaf v (PA2PTE pa ||| perm ||| PTE_V)) (v + 1) ((pa + 4096) % 2 ^ 64) perm
      k = mapped leaf v pa perm (k + 1) := by
  funext w
  unfold mapped
  by_cases hw : w = v
  · subst hw
    rw [if_neg (by omega), if_pos (by omega), Function.update_self, Nat.sub_self, zero_mul, add_zero,
      Nat.mod_eq_of_lt hpa]
  · rw [Function.update_of_ne hw]
    by_cases hin : v + 1 ≤ w ∧ w < v + 1 + k
    · have haddr : ((pa + 4096) % 2 ^ 64 + (w - (v + 1)) * 4096) % 2 ^ 64 =
          (pa + (w - v) * 4096) % 2 ^ 64 := by omega
      rw [if_pos hin, if_pos (by omega), haddr]
    · rw [if_neg hin, if_neg (by omega)]

/-- The tree changed to `A'`. -/
structure Changed (s : Phys) (l : List ℕ) (A : PTab) (s' : Phys) (l' : List ℕ) (A' : PTab) :
    Prop where
  rep : Rep s'.mem A'
  eff : Effect s l A.tables s' l' A'.tables
  root_eq : A'.root = A.root

section map

variable {s s' s'' : Phys} {l l' l'' : List ℕ} {A A' A'' : PTab}

theorem Grown.changed (h : Grown s l A s' l' A') : Changed s l A s' l' A' :=
  ⟨h.rep, h.eff, h.root_eq⟩

theorem Changed.trans (h : Changed s l A s' l' A') (h' : Changed s' l' A' s'' l'' A'') :
    Changed s l A s'' l'' A'' :=
  ⟨h'.rep, h.eff.trans h'.eff, h'.root_eq.trans h.root_eq⟩

theorem Changed.heap (h : Changed s l A s' l' A') : Heap s' l' A'.tables := h.eff.heap

theorem Changed.store (hr : Rep s.mem A) (hh : Heap s l A.tables) {va pte : ℕ} (hva : va < MAXVA)
    (hn : A.node (leafPath va) ≠ 0) (hpte : pte < 256 ^ 8) :
    Changed s l A { s with mem := s.mem.store (A.node (leafPath va) + 8 * idx 0 va) 8 pte } l
      (A.setLeaf (va / 4096) pte) :=
  have hst := hr.store_leaf hh hva hn hpte
  ⟨hst.1, hst.2, rfl⟩

/-- How many page-table pages mapping the page number `v` takes. -/
def PTab.mapCost (A : PTab) (v : ℕ) : ℕ := walkCost A (leafPath (v * 4096)) 2

variable {perm pa : ℕ}

/-- One turn of `mappages`: it panics on a page that is mapped already, fails for want of a page-table
page, or maps the page and goes on with `rest`. -/
theorem map_turn {v : ℕ} {rest : PCode ℤ} {R : ℤ → Phys → Prop} {E : String → Prop}
    (hperm : perm < 1024) (hr : Rep s.mem A) (hh : Heap s l A.tables) (hv : v < 67108864)
    (hpa : pa < 2 ^ 64) (hvalid : A.leaf v &&& PTE_V ≠ 0 → E "remap")
    (hfail : ∀ s' l' A', Changed s l A s' l' A' → A'.leaf = A.leaf → ¬ Plenty s l (A.mapCost v) →
      R (-1) s')
    (hrest : ∀ s' l' A', Changed s l A s' l' A' → A.leaf v &&& PTE_V = 0 →
      A'.leaf = Function.update A.leaf v (PA2PTE pa ||| perm ||| PTE_V) →
      (∀ m, Plenty s l (m + A.mapCost v) → Plenty s' l' m) → Code.wpe rest R E s') :
    Code.wpe (do
      let pte ← walk A.root (v * 4096) true
      if pte = 0 then return -1 else do
      let e ← load64 pte
      if e &&& PTE_V ≠ 0 then Code.panic "remap" else do
      store64 pte (PA2PTE pa ||| perm ||| PTE_V)
      rest) R E s := by
  have hva : v * 4096 < MAXVA := by
    rw [MAXVA_eq]
    omega
  have hvpn : v * 4096 / 4096 = v := Nat.mul_div_cancel _ (by omega)
  have hpte : PA2PTE pa ||| perm ||| PTE_V < 256 ^ 8 := by
    rw [Nat.or_assoc]
    exact PA2PTE_or_lt hpa (flags_or_lt hperm (by decide))
  rw [Code.wpe_bind]
  apply Code.wpe_of_wp (walk_alloc_spec hva hr hh)
  rintro pte s1 ⟨l1, A1, hg, hres⟩
  have hc := hg.changed
  rcases hres with ⟨rfl, hst⟩ | ⟨hn, rfl, hst⟩
  · exact hfail s1 l1 A1 hc hg.leaf_eq hst
  · have hpos : A1.node (leafPath (v * 4096)) + 8 * (idx 0 (v * 4096) : ℕ) ≠ 0 := by omega
    simp only [load64, store64, Code.wpe_bind, Code.wpe_gets, Code.wpe_ite, Code.wpe_modify,
      Code.wpe_panic, hpos, false_implies, not_false_eq_true, true_implies, true_and]
    rw [hg.rep.load_leaf hva hn, hvpn, hg.leaf_eq]
    refine ⟨hvalid, fun hV => ?_⟩
    have hstore : Changed s1 l1 A1 _ l1 _ :=
      Changed.store hg.rep hg.eff.heap hva hn hpte
    refine hrest _ l1 _ (hc.trans hstore) (not_not.mp hV) ?_ hst
    rw [hvpn]
    simp only [PTab.setLeaf, hg.leaf_eq]

theorem mapCost_le (A : PTab) (v : ℕ) : A.mapCost v ≤ 2 := walkCost_le ..

/-- `mappages` maps all pages, none of which was mapped; or fails for want of a page-table page with
some of them mapped; or panics, and then one of them was mapped before. -/
theorem mapLoop_spec (hperm : perm < 1024) (n : ℕ) {v : ℕ} (hr : Rep s.mem A)
    (hh : Heap s l A.tables) (hv : v + n < 67108864) (hpa : pa < 2 ^ 64) :
    Code.wpe (mapLoop A.root perm n (v * 4096) pa) (fun r s' => ∃ l' A' k,
      Changed s l A s' l' A' ∧ A'.leaf = mapped A.leaf v pa perm k ∧
      (∀ w, v ≤ w → w < v + k → A.leaf w &&& PTE_V = 0) ∧
      (r = 0 ∧ k = n + 1 ∨ r = -1 ∧ k ≤ n ∧ ¬ Plenty s l (2 * (n + 1))))
      (fun msg => msg = "remap" ∧ ∃ w, v ≤ w ∧ w ≤ v + n ∧ A.leaf w &&& PTE_V ≠ 0) s := by
  induction n generalizing s l A v pa with
  | zero =>
    refine map_turn hperm hr hh (by omega) hpa (fun hV => ⟨rfl, v, le_rfl, le_rfl, hV⟩) ?_ ?_
    · intro s1 l1 A1 hc hl hst
      refine ⟨l1, A1, 0, hc, by rw [hl, mapped_zero], fun w h1 h2 => absurd h2 (by omega),
        .inr ⟨rfl, le_rfl, fun hpl => hst (hpl.mono (mapCost_le A v))⟩⟩
    · intro s1 l1 A1 hc hV hl _
      refine ⟨l1, A1, 1, hc, by rw [hl, ← mapped_succ hpa, mapped_zero], fun w h1 h2 => ?_,
        .inl ⟨rfl, rfl⟩⟩
      rwa [show w = v by omega]
  | succ n ih =>
    refine map_turn hperm hr hh (by omega) hpa (fun hV => ⟨rfl, v, le_rfl, by omega, hV⟩) ?_ ?_
    · intro s1 l1 A1 hc hl hst
      refine ⟨l1, A1, 0, hc, by rw [hl, mapped_zero], fun w h1 h2 => absurd h2 (by omega),
        .inr ⟨rfl, Nat.zero_le _, fun hpl => hst (hpl.mono ?_)⟩⟩
      have := mapCost_le A v
      omega
    · intro s1 l1 A1 hc hV hl hst
      rw [← hc.root_eq, PGSIZE_eq, show (v * 4096 + 4096) % 2 ^ 64 = (v + 1) * 4096 by omega]
      have hother : ∀ w, v + 1 ≤ w → A1.leaf w = A.leaf w := fun w hw => by
        rw [hl, Function.update_of_ne (by omega)]
      have hnext := ih (v := v + 1) hc.rep hc.heap (by omega)
        (show (pa + 4096) % 2 ^ 64 < 2 ^ 64 from Nat.mod_lt _ (by decide))
      apply Code.wpe_mono hnext
      · rintro r s2 ⟨l2, A2, k, hc2, hl2, hnew, hres⟩
        refine ⟨l2, A2, k + 1, hc.trans hc2, by rw [hl2, hl, mapped_succ hpa], ?_, ?_⟩
        · intro w h1 h2
          by_cases hw : w = v
          · rwa [hw]
          · rw [← hother w (by omega)]
            exact hnew w (by omega) (by omega)
        · rcases hres with ⟨hr0, hk⟩ | ⟨hr0, hk, hpl⟩
          · exact .inl ⟨hr0, by omega⟩
          · refine .inr ⟨hr0, by omega, fun hall => hpl (hst _ (hall.mono ?_))⟩
            have := mapCost_le A v
            omega
      · rintro msg ⟨rfl, w, h1, h2, hw⟩
        rw [hother w h1] at hw
        exact ⟨rfl, w, by omega, by omega, hw⟩

/-- The bounds that `mappages` computes. -/
theorem mappages_eq {va size root : ℕ} (hsize : 1 ≤ size) (hmax : va + size ≤ MAXVA) :
    mappages root va size pa perm =
      mapLoop root perm ((va + size - 1) / 4096 - va / 4096) (va / 4096 * 4096) pa := by
  rw [MAXVA_eq] at hmax
  have hcount : (PGROUNDDOWN ((va + size + 2 ^ 64 - 1) % 2 ^ 64) + 2 ^ 64 - va / 4096 * 4096) % 2 ^ 64 /
      PGSIZE = (va + size - 1) / 4096 - va / 4096 := by
    rw [PGROUNDDOWN_eq, PGSIZE_eq]
    omega
  rw [mappages, PGROUNDDOWN_eq va, hcount]

theorem mappage_spec {v : ℕ} (hperm : perm < 1024) (hr : Rep s.mem A) (hh : Heap s l A.tables)
    (hv : v < 67108864) (hpa : pa < 2 ^ 64) (hleaf : A.leaf v = 0) :
    Code.wp (mappages A.root (v * 4096) PGSIZE pa perm) (fun r s' => ∃ l' A',
      Changed s l A s' l' A' ∧
      (r = 0 ∧ A'.leaf = Function.update A.leaf v (PA2PTE pa ||| perm ||| PTE_V) ∧
          (∀ m, Plenty s l (m + A.mapCost v) → Plenty s' l' m) ∨
        r = -1 ∧ A'.leaf = A.leaf ∧ ¬ Plenty s l (A.mapCost v))) s := by
  have heq : mappages A.root (v * 4096) PGSIZE pa perm = mapLoop A.root perm 0 (v * 4096) pa := by
    rw [mappages_eq (by decide) (by rw [PGSIZE_eq, MAXVA_eq]; omega),
      show (v * 4096 + PGSIZE - 1) / 4096 - v * 4096 / 4096 = 0 by rw [PGSIZE_eq]; omega,
      Nat.mul_div_cancel _ (by omega)]
  rw [heq, Code.wp_iff_wpe]
  refine map_turn hperm hr hh hv hpa (fun hV => absurd (by rw [hleaf]; rfl) hV) ?_ ?_
  · intro s1 l1 A1 hc hl hst
    exact ⟨l1, A1, hc, .inr ⟨rfl, hl, hst⟩⟩
  · intro s1 l1 A1 hc _ hl hst
    exact ⟨l1, A1, hc, .inl ⟨rfl, hl, hst⟩⟩

end map

/-! ### `uvmunmap` -/

/-- The physical pages of the `n` page numbers from `v` on. -/
def PTab.pages (A : PTab) (v n : ℕ) : Set ℕ :=
  {pa | ∃ w, v ≤ w ∧ w < v + n ∧ PTE2PA (A.leaf w) = pa}

/-- An entry that maps a page. -/
def IsLeaf (pte : ℕ) : Prop := pte &&& PTE_V ≠ 0 ∧ pte &&& (PTE_R ||| PTE_W ||| PTE_X) ≠ 0

/-- The page numbers from `v` on map `n` different pages, none of them a page-table page. -/
structure Mapped (A : PTab) (v n : ℕ) : Prop where
  leaf : ∀ w, v ≤ w → w < v + n → IsLeaf (A.leaf w)
  inj : ∀ w w', v ≤ w → w < v + n → v ≤ w' → w' < v + n →
    PTE2PA (A.leaf w) = PTE2PA (A.leaf w') → w = w'
  sep : ∀ pa ∈ A.pages v n, pa ∉ A.tables

/-- The tree without the entries of the `n` page numbers from `v` on. -/
def PTab.unmap (A : PTab) (v n : ℕ) : PTab :=
  { A with leaf := fun w => if v ≤ w ∧ w < v + n then 0 else A.leaf w }

section unmap

variable {s s' s'' : Phys} {l l' l'' : List ℕ} {A A' A'' : PTab} {v n : ℕ}

theorem PTab.unmap_zero : A.unmap v 0 = A := by
  unfold PTab.unmap
  congr 1
  funext w
  exact if_neg (by omega)

theorem PTab.unmap_succ : (A.setLeaf v 0).unmap (v + 1) n = A.unmap v (n + 1) := by
  unfold PTab.unmap PTab.setLeaf
  congr 1
  funext w
  by_cases hw : w = v
  · subst hw
    simp
  · simp only [Function.update_of_ne hw]
    by_cases hin : v + 1 ≤ w ∧ w < v + 1 + n
    · rw [if_pos hin, if_pos (by omega)]
    · rw [if_neg hin, if_neg (by omega)]

theorem PTab.pages_zero : A.pages v 0 = ∅ := by
  refine Set.eq_empty_of_forall_notMem ?_
  rintro pa ⟨w, h1, h2, -⟩
  omega

theorem PTab.pages_congr (h : ∀ w, v ≤ w → w < v + n → A'.leaf w = A.leaf w) :
    A'.pages v n = A.pages v n := by
  ext pa
  constructor <;> rintro ⟨w, h1, h2, h3⟩
  · exact ⟨w, h1, h2, by rw [← h w h1 h2]; exact h3⟩
  · exact ⟨w, h1, h2, by rw [h w h1 h2]; exact h3⟩

theorem PTab.pages_succ : A.pages v (n + 1) = insert (PTE2PA (A.leaf v)) (A.pages (v + 1) n) := by
  ext pa
  constructor
  · rintro ⟨w, h1, h2, rfl⟩
    by_cases hw : w = v
    · exact .inl (by rw [hw])
    · exact .inr ⟨w, by omega, by omega, rfl⟩
  · rintro (rfl | ⟨w, h1, h2, rfl⟩)
    · exact ⟨v, le_rfl, by omega, rfl⟩
    · exact ⟨w, by omega, by omega, rfl⟩

theorem Mapped.head_not_mem (h : Mapped A v (n + 1)) : PTE2PA (A.leaf v) ∉ A.pages (v + 1) n := by
  rintro ⟨w, h1, h2, h3⟩
  have := h.inj w v (by omega) (by omega) le_rfl (by omega) h3
  omega

theorem Mapped.tail (h : Mapped A v (n + 1)) : Mapped (A.setLeaf v 0) (v + 1) n := by
  have hsame : ∀ w, v + 1 ≤ w → (A.setLeaf v 0).leaf w = A.leaf w := fun w hw =>
    PTab.setLeaf_leaf_of_ne (by omega)
  refine ⟨fun w h1 h2 => ?_, fun w w' h1 h2 h3 h4 he => ?_, fun pa hpa => ?_⟩
  · rw [hsame w h1]
    exact h.leaf w (by omega) (by omega)
  · rw [hsame w h1, hsame w' h3] at he
    exact h.inj w w' (by omega) (by omega) (by omega) (by omega) he
  · rw [PTab.pages_congr fun w h1 _ => hsame w h1] at hpa
    exact h.sep pa (PTab.pages_succ ▸ .inr hpa)

/-- The address of the entry of a page number. -/
def PTab.entryAddr (A : PTab) (v : ℕ) : ℕ := A.node (leafPath (v * 4096)) + 8 * idx 0 (v * 4096)

theorem walk_mapped {α : Type} {K : ℕ → PCode α} {R : α → Phys → Prop} (hr : Rep s.mem A)
    (hh : Heap s l A.tables) (hv : v < 67108864) (hleaf : A.leaf v ≠ 0)
    (hK : A.node (leafPath (v * 4096)) ≠ 0 → A.entryAddr v ≠ 0 →
      s.mem.load (A.entryAddr v) 8 = A.leaf v → Code.wp (K (A.entryAddr v)) R s) :
    Code.wp (walk A.root (v * 4096) false >>= K) R s := by
  have hva : v * 4096 < MAXVA := by
    rw [MAXVA_eq]
    omega
  have hvpn : v * 4096 / 4096 = v := Nat.mul_div_cancel _ (by omega)
  rw [Code.wp_bind]
  refine Code.wp_mono (walk_spec hva hr hh) ?_
  rintro r s' ⟨rfl, ⟨-, hn⟩ | ⟨hn, rfl⟩⟩
  · exact absurd (hvpn ▸ hr.leaf_none hva hn) hleaf
  · refine hK hn ?_ (by rw [PTab.entryAddr, hr.load_leaf hva hn, hvpn])
    unfold PTab.entryAddr
    omega

variable {pte : ℕ}

theorem Changed.clear (hr : Rep s.mem A) (hh : Heap s l A.tables) (hv : v < 67108864)
    (hn : A.node (leafPath (v * 4096)) ≠ 0) (hpte : pte < 256 ^ 8) :
    Changed s l A { s with mem := s.mem.store (A.entryAddr v) 8 pte } l (A.setLeaf v pte) := by
  have hva : v * 4096 < MAXVA := by
    rw [MAXVA_eq]
    omega
  have h : Changed s l A _ l _ := Changed.store hr hh hva hn hpte
  rwa [Nat.mul_div_cancel _ (by omega : 0 < 4096)] at h

theorem Points.not_isLeaf {page : ℕ} (h : Points pte page) : ¬ IsLeaf pte := by
  rintro ⟨hvalid, hflags⟩
  by_cases hpage : page = 0
  · exact hvalid (h.none hpage)
  · exact hflags (h.inner hpage)

theorem IsLeaf.ne_zero (h : IsLeaf pte) : pte ≠ 0 := by
  rintro rfl
  exact h.1 rfl

theorem isLeaf_iff : IsLeaf pte ↔ pte % 2 = 1 ∧ pte % 16 / 2 ≠ 0 := by
  have h15 : pte &&& 14 = pte % 16 / 2 * 2 := by
    have hsmall : ∀ y < 16, y &&& 14 = y / 2 * 2 := by decide
    rw [← hsmall _ (Nat.mod_lt _ (by decide)), ← Nat.and_two_pow_sub_one_eq_mod pte 4,
      Nat.and_assoc]
    rfl
  rw [IsLeaf, show PTE_R ||| PTE_W ||| PTE_X = 14 from rfl, h15, PTE_V, Nat.and_one_is_mod]
  omega

theorem isLeaf_flags : IsLeaf (PTE_FLAGS pte) ↔ IsLeaf pte := by
  rw [isLeaf_iff, isLeaf_iff, PTE_FLAGS_eq]
  omega

theorem IsLeaf.flags_ne (h : IsLeaf pte) : PTE_FLAGS pte ≠ PTE_V := by
  intro hf
  exact absurd (isLeaf_iff.mp (hf ▸ isLeaf_flags.mpr h)) (by decide)

/-- The number of pages that `uvmunmap` goes through. -/
theorem uvmunmap_eq {root : ℕ} {do_free : Bool} (hv : v + n ≤ 67108864) :
    uvmunmap root (v * 4096) n do_free = unmapLoop root do_free n (v * 4096) := by
  have hcount : ((v * 4096 + n * PGSIZE) % 2 ^ 64 - v * 4096) / PGSIZE = n := by
    rw [PGSIZE_eq]
    omega
  have hal : v * 4096 % PGSIZE = 0 := Nat.mul_mod_left ..
  rw [uvmunmap, if_neg (not_not_intro hal), hcount]

theorem unmapLoop_keep_spec (hr : Rep s.mem A) (hh : Heap s l A.tables) (hv : v + n ≤ 67108864)
    (hleaf : ∀ w, v ≤ w → w < v + n → IsLeaf (A.leaf w)) :
    Code.wp (unmapLoop A.root false n (v * 4096)) (fun _ s' =>
      Rep s'.mem (A.unmap v n) ∧ Effect s l A.tables s' l A.tables) s := by
  induction n generalizing s A v with
  | zero => exact ⟨by rwa [PTab.unmap_zero], .refl hh⟩
  | succ n ih =>
    have hfirst := hleaf v le_rfl (by omega)
    refine walk_mapped hr hh (by omega) hfirst.ne_zero fun hn hpos hload => ?_
    have hst : Changed s l A _ l (A.setLeaf v 0) :=
      Changed.clear hr hh (by omega) hn (by norm_num)
    simp only [load64, store64, Code.wp_bind, Code.wp_gets, Code.wp_ite, Code.wp_modify,
      Code.wp_panic, hload]
    refine ⟨hpos, fun _ => ⟨hfirst.1, fun _ => ⟨hfirst.flags_ne, fun _ =>
      ⟨fun h => absurd h Bool.false_ne_true, fun _ => ?_⟩⟩⟩⟩
    have hnext := ih (v := v + 1) hst.rep hst.heap (by omega) fun w h1 h2 => by
      rw [PTab.setLeaf_leaf_of_ne (by omega)]
      exact hleaf w (by omega) (by omega)
    rw [show (v + 1) * 4096 = v * 4096 + PGSIZE by rw [PGSIZE_eq]; omega] at hnext
    apply Code.wp_mono hnext
    rintro - s2 ⟨hr2, heff2⟩
    rw [PTab.unmap_succ] at hr2
    exact ⟨hr2, hst.eff.trans heff2⟩

theorem uvmunmap_keep_spec (hr : Rep s.mem A) (hh : Heap s l A.tables) (hv : v < 67108864)
    (hleaf : IsLeaf (A.leaf v)) :
    Code.wp (uvmunmap A.root (v * 4096) 1 false) (fun _ s' =>
      Rep s'.mem (A.setLeaf v 0) ∧ Effect s l A.tables s' l A.tables) s := by
  rw [uvmunmap_eq (by omega)]
  apply Code.wp_mono (unmapLoop_keep_spec hr hh (by omega) fun w h1 h2 => by rwa [show w = v by omega])
  rintro - s' ⟨hr', heff⟩
  rw [← PTab.unmap_succ, PTab.unmap_zero] at hr'
  exact ⟨hr', heff⟩

theorem unmapLoop_spec (hr : Rep s.mem A) (hh : Heap s l (A.tables ∪ A.pages v n))
    (hv : v + n ≤ 67108864) (hm : Mapped A v n) :
    Code.wp (unmapLoop A.root true n (v * 4096)) (fun _ s' => ∃ l',
      Rep s'.mem (A.unmap v n) ∧ Effect s l (A.tables ∪ A.pages v n) s' l' A.tables) s := by
  induction n generalizing s l A v with
  | zero =>
    rw [PTab.pages_zero, Set.union_empty] at hh ⊢
    exact ⟨l, by rwa [PTab.unmap_zero], .refl hh⟩
  | succ n ih =>
    have hleaf := hm.leaf v le_rfl (by omega)
    have hpages : A.tables ∪ A.pages v (n + 1) =
        insert (PTE2PA (A.leaf v)) (A.tables ∪ A.pages (v + 1) n) := by
      rw [PTab.pages_succ, Set.union_insert]
    have hpa : PTE2PA (A.leaf v) ∉ A.tables ∪ A.pages (v + 1) n := by
      rintro (h | h)
      · exact hm.sep _ (PTab.pages_succ ▸ .inl rfl) h
      · exact hm.head_not_mem h
    refine walk_mapped hr (hh.subset Set.subset_union_left) (by omega) hleaf.ne_zero
      fun hn hpos hload => ?_
    simp only [load64, store64, Code.wp_bind, Code.wp_gets, Code.wp_ite, Code.wp_modify,
      Code.wp_panic, hload]
    refine ⟨hpos, fun _ => ⟨hleaf.1, fun _ => ⟨hleaf.flags_ne, fun _ => ⟨fun _ => ?_,
      fun h => absurd trivial h⟩⟩⟩⟩
    refine Code.wp_mono (kfree_spec hh (hpages ▸ Set.mem_insert (PTE2PA (A.leaf v)) _)) ?_
    rintro - s1 ⟨heff, hoff⟩
    rw [hpages, Set.insert_sdiff_self_of_notMem hpa] at heff
    have hr1 : Rep s1.mem A := hr.sameOff hoff fun q hq he =>
      hpa (.inl (Set.mem_singleton_iff.mp he ▸ hq))
    have hst : Changed s1 _ A _ _ (A.setLeaf v 0) :=
      Changed.clear hr1 (heff.heap.subset Set.subset_union_left) (by omega) hn (by norm_num)
    have hpg : (A.setLeaf v 0).pages (v + 1) n = A.pages (v + 1) n :=
      PTab.pages_congr fun w h1 _ => PTab.setLeaf_leaf_of_ne (by omega)
    have hst' := hst.eff.frame_union (heff.heap.subset Set.subset_union_right)
      fun q hq hT => hm.tail.sep q (hpg ▸ hq) hT
    rw [← hpg] at hst'
    have hnext := ih hst.rep hst'.heap (by omega) hm.tail
    rw [show (v + 1) * 4096 = v * 4096 + PGSIZE by rw [PGSIZE_eq]; omega] at hnext
    refine Code.wp_mono hnext ?_
    rintro - s2 ⟨l2, hr2, heff2⟩
    rw [PTab.unmap_succ] at hr2
    refine ⟨l2, hr2, ?_⟩
    rw [hpages]
    rw [hpg] at heff2 hst'
    exact (heff.trans hst').trans heff2

end unmap

end Xv6.Mem
