import Mathlib.Data.Fintype.Basic
import Xv6.Mem.Heap

/-!
# Page tables as trees

A three-level page table in memory represents a tree: `node path` is the page-table page reached by
a list of at most two indices (0 if there is none), and `leaf v` is the entry of page number `v` (0
if it was never set). `Rep m A` ties such a tree to the words of memory. The functions of `vm.c` that
walk or change a table are specified by what they do to the tree.
-/

namespace Xv6.Mem

open Lib (Bytes Code)

/-- The contents of a page table. -/
structure PTab where
  /-- The page-table page at a path, or 0. -/
  node : List Idx → ℕ
  /-- The entry of a page number, or 0. -/
  leaf : ℕ → ℕ

/-- The root page. -/
def PTab.root (A : PTab) : ℕ := A.node []

/-- The page-table pages. -/
def PTab.tables (A : PTab) : Set ℕ := {pa | pa ≠ 0 ∧ ∃ path, A.node path = pa}

/-- The table `A` is stored in the memory `m`. -/
structure Rep (m : Bytes) (A : PTab) : Prop where
  root_ne : A.node [] ≠ 0
  aligned : ∀ path, A.node path % 4096 = 0
  inner : ∀ path (i : Idx), path.length < 2 → A.node path ≠ 0 →
    Points (m.load (A.node path + 8 * i) 8) (A.node (path ++ [i]))
  last : ∀ i j k : Idx, A.node [i, j] ≠ 0 → m.load (A.node [i, j] + 8 * k) 8 = A.leaf (vpn i j k)
  inner_none : ∀ path (i : Idx), A.node path = 0 → A.node (path ++ [i]) = 0
  last_none : ∀ i j k : Idx, A.node [i, j] = 0 → A.leaf (vpn i j k) = 0
  depth : ∀ path, A.node path ≠ 0 → path.length ≤ 2
  inj : ∀ p q, A.node p ≠ 0 → A.node p = A.node q → p = q
  high : ∀ v, 134217728 ≤ v → A.leaf v = 0

section rep

variable {m m' : Bytes} {A : PTab} {T : Set ℕ} {path : List Idx} {v pte page : ℕ} {i : Idx}

theorem PTab.mem_tables (h : A.node path ≠ 0) : A.node path ∈ A.tables :=
  ⟨h, path, rfl⟩

theorem Rep.congr (h : Rep m A)
    (hm : ∀ path (i : Idx), A.node path ≠ 0 →
      m'.load (A.node path + 8 * i) 8 = m.load (A.node path + 8 * i) 8) : Rep m' A :=
  { h with
    inner := fun path i hp hn => by
      rw [hm path i hn]
      exact h.inner path i hp hn
    last := fun i j k hn => (hm [i, j] k hn).trans (h.last i j k hn) }

theorem Rep.sameOff (h : Rep m A) (hm : SameOff T m m') (hT : ∀ pa ∈ A.tables, pa ∉ T) :
    Rep m' A :=
  h.congr fun path i hn => by
    have := i.isLt
    exact hm.load_eq (h.aligned path) (by omega) (hT _ (PTab.mem_tables hn))

theorem Rep.none_below (h : Rep m A) (h0 : A.node path = 0) (q : List Idx) :
    A.node (path ++ q) = 0 := by
  induction q generalizing path with
  | nil => simpa using h0
  | cons i q ih =>
    have := ih (h.inner_none path i h0)
    simpa using this

/-- Adds a page-table page. -/
def PTab.addNode (A : PTab) (path : List Idx) (page : ℕ) : PTab :=
  { A with node := Function.update A.node path page }

/-- Sets the entry of a page number. -/
def PTab.setLeaf (A : PTab) (v pte : ℕ) : PTab := { A with leaf := Function.update A.leaf v pte }

@[simp] theorem PTab.setLeaf_node : (A.setLeaf v pte).node = A.node := rfl

@[simp] theorem PTab.addNode_leaf :
    (A.addNode path page).leaf = A.leaf := rfl

@[simp] theorem PTab.setLeaf_tables : (A.setLeaf v pte).tables = A.tables := rfl

@[simp] theorem PTab.setLeaf_root : (A.setLeaf v pte).root = A.root := rfl

@[simp] theorem PTab.setLeaf_leaf_self : (A.setLeaf v pte).leaf v = pte :=
  Function.update_self ..

theorem PTab.setLeaf_leaf_of_ne {w : ℕ} (h : w ≠ v) :
    (A.setLeaf v pte).leaf w = A.leaf w := Function.update_of_ne h ..

@[simp] theorem PTab.addNode_self :
    (A.addNode path page).node path = page := Function.update_self ..

theorem PTab.addNode_of_ne {p : List Idx} (h : p ≠ path) :
    (A.addNode path page).node p = A.node p := Function.update_of_ne h ..

theorem PTab.tables_addNode (h0 : A.node path = 0) (hp : page ≠ 0) :
    (A.addNode path page).tables = insert page A.tables := by
  ext pa
  constructor
  · rintro ⟨hpa, p, hnode⟩
    by_cases h : p = path
    · subst h
      exact .inl (by rw [← hnode, PTab.addNode_self])
    · rw [PTab.addNode_of_ne h] at hnode
      exact .inr ⟨hpa, p, hnode⟩
  · rintro (rfl | ⟨hpa, p, hnode⟩)
    · exact ⟨hp, path, PTab.addNode_self⟩
    · refine ⟨hpa, p, ?_⟩
      rw [PTab.addNode_of_ne]
      · exact hnode
      · rintro rfl
        exact hpa (hnode.symm.trans h0)

/-- Two entries of a table at different places do not overlap. -/
theorem Rep.entry_disjoint (h : Rep m A) {p q : List Idx} {j : Idx} (hp : A.node p ≠ 0)
    (hne : ¬ (p = q ∧ i = j)) :
    A.node p + 8 * i + 8 ≤ A.node q + 8 * j ∨ A.node q + 8 * j + 8 ≤ A.node p + 8 * i := by
  have h1 := h.aligned p
  have h2 := h.aligned q
  have hi := i.isLt
  have hj := j.isLt
  by_cases hpq : p = q
  · subst hpq
    have : (i : ℕ) ≠ j := fun hij => hne ⟨rfl, Fin.ext hij⟩
    omega
  · have : A.node p ≠ A.node q := fun he => hpq (h.inj p q hp he)
    omega

theorem Rep.setLeaf (h : Rep m A) {j k : Idx} (hn : A.node [i, j] ≠ 0) (hpte : pte < 256 ^ 8) :
    Rep (m.store (A.node [i, j] + 8 * k) 8 pte) (A.setLeaf (vpn i j k) pte) where
  root_ne := h.root_ne
  aligned := h.aligned
  inner path i' hlen hp := by
    rw [Bytes.load_store_of_disjoint]
    · exact h.inner path i' hlen hp
    · refine h.entry_disjoint hn fun ⟨he, _⟩ => ?_
      subst he
      exact absurd hlen (lt_irrefl 2)
  last i' j' k' hp := by
    by_cases he : vpn i' j' k' = vpn i j k
    · obtain ⟨rfl, rfl, rfl⟩ := vpn_inj he
      rw [PTab.setLeaf_leaf_self]
      exact Bytes.load_store_of_lt hpte
    · rw [PTab.setLeaf_leaf_of_ne he, ← h.last i' j' k' hp]
      refine Bytes.load_store_of_disjoint (h.entry_disjoint hn ?_)
      rintro ⟨hij, rfl⟩
      obtain ⟨rfl, rfl⟩ : i = i' ∧ j = j' := by simpa using hij
      exact he rfl
  inner_none := h.inner_none
  last_none i' j' k' hp := by
    rw [PTab.setLeaf_leaf_of_ne]
    · exact h.last_none i' j' k' hp
    · intro he
      obtain ⟨rfl, rfl, rfl⟩ := vpn_inj he
      exact hn hp
  depth := h.depth
  inj := h.inj
  high v hv := by
    rw [PTab.setLeaf_leaf_of_ne]
    · exact h.high v hv
    · have := i.isLt
      have := j.isLt
      have := k.isLt
      unfold vpn
      omega

theorem Rep.addNode (h : Rep m A) (hlen : path.length < 2) (hp : A.node path ≠ 0)
    (h0 : A.node (path ++ [i]) = 0) (hpage : page ≠ 0) (hal : page % 4096 = 0) (hlt : page < 2 ^ 64)
    (hfresh : page ∉ A.tables) :
    Rep ((m.fill page 4096 0).store (A.node path + 8 * i) 8 (PA2PTE page ||| PTE_V))
      (A.addNode (path ++ [i]) page) := by
  have hnew : ∀ q, A.node q ≠ 0 → A.node q ≠ page := fun q hq he => hfresh ⟨hpage, q, he⟩
  have hfill : Rep (m.fill page 4096 0) A :=
    h.sameOff (sameOff_fill hal) fun pa hpa he => hfresh (Set.mem_singleton_iff.mp he ▸ hpa)
  -- an entry of the new page is still zero after the store into its parent
  have hzero : ∀ k : Idx, ((m.fill page 4096 0).store (A.node path + 8 * i) 8
      (PA2PTE page ||| PTE_V)).load (page + 8 * k) 8 = 0 := fun k => by
    have hk := k.isLt
    have hi := i.isLt
    have := h.aligned path
    have := hnew path hp
    rw [Bytes.load_store_of_disjoint (by omega), Bytes.load_fill_zero (by omega)]
  have hkids : ∀ q j, q ++ [j] = path ++ [i] ↔ q = path ∧ j = i := fun q j => by
    refine ⟨fun he => ⟨List.append_inj_left' he rfl, ?_⟩, fun ⟨hq, hj⟩ => by rw [hq, hj]⟩
    simpa using List.append_inj_right' he rfl
  refine ⟨?_, ?_, ?_, ?_, ?_, ?_, ?_, ?_, h.high⟩
  · rw [PTab.addNode_of_ne (by simp)]
    exact h.root_ne
  · intro q
    by_cases hq : q = path ++ [i]
    · rw [hq, PTab.addNode_self]
      exact hal
    · rw [PTab.addNode_of_ne hq]
      exact h.aligned q
  · intro q j hq hnode
    by_cases hqe : q = path ++ [i]
    · subst hqe
      rw [PTab.addNode_self, hzero, PTab.addNode_of_ne (by simp), h.inner_none _ _ h0]
      exact points_none rfl
    · rw [PTab.addNode_of_ne hqe] at hnode ⊢
      by_cases hqj : q ++ [j] = path ++ [i]
      · obtain ⟨rfl, rfl⟩ := (hkids q j).mp hqj
        rw [PTab.addNode_self, Bytes.load_store_of_lt (PA2PTE_or_lt hlt (by decide))]
        exact points_link hpage hal hlt
      · have hne : ¬ (path = q ∧ i = j) := by
          rintro ⟨rfl, rfl⟩
          exact hqj rfl
        rw [PTab.addNode_of_ne hqj, Bytes.load_store_of_disjoint (hfill.entry_disjoint hp hne)]
        exact hfill.inner q j hq hnode
  · intro a b c hnode
    by_cases hab : [a, b] = path ++ [i]
    · rw [hab, PTab.addNode_self, hzero]
      exact (h.last_none a b c (hab ▸ h0)).symm
    · rw [PTab.addNode_of_ne hab] at hnode ⊢
      rw [PTab.addNode_leaf, ← hfill.last a b c hnode]
      refine Bytes.load_store_of_disjoint (hfill.entry_disjoint hp ?_)
      rintro ⟨rfl, -⟩
      exact absurd hlen (lt_irrefl 2)
  · intro q j hq
    by_cases hqe : q = path ++ [i]
    · rw [hqe, PTab.addNode_self] at hq
      exact absurd hq hpage
    · rw [PTab.addNode_of_ne hqe] at hq
      have hqj : q ++ [j] ≠ path ++ [i] := fun he =>
        hp (((hkids q j).mp he).1 ▸ hq)
      rw [PTab.addNode_of_ne hqj]
      exact h.inner_none q j hq
  · intro a b c hnode
    by_cases hab : [a, b] = path ++ [i]
    · rw [hab, PTab.addNode_self] at hnode
      exact absurd hnode hpage
    · rw [PTab.addNode_of_ne hab] at hnode
      exact h.last_none a b c hnode
  · intro q hq
    by_cases hqe : q = path ++ [i]
    · subst hqe
      rw [List.length_append, List.length_singleton]
      exact hlen
    · rw [PTab.addNode_of_ne hqe] at hq
      exact h.depth q hq
  · intro p q hpn he
    by_cases hpe : p = path ++ [i] <;> by_cases hqe : q = path ++ [i]
    · rw [hpe, hqe]
    · subst hpe
      rw [PTab.addNode_self, PTab.addNode_of_ne hqe] at he
      exact absurd he.symm (hnew q (he ▸ hpage))
    · subst hqe
      rw [PTab.addNode_of_ne hpe] at he hpn
      rw [PTab.addNode_self] at he
      exact absurd he (hnew p hpn)
    · rw [PTab.addNode_of_ne hpe] at he hpn
      rw [PTab.addNode_of_ne hqe] at he
      exact h.inj p q hpn he

end rep

/-! ### `walk` -/

/-- The path to the entry of an address. -/
def leafPath (va : ℕ) : List Idx := [idx 2 va, idx 1 va]

/-- Page-table pages were added; no entry changed. -/
structure Grown (s : Phys) (l : List ℕ) (A : PTab) (s' : Phys) (l' : List ℕ) (A' : PTab) :
    Prop where
  rep : Rep s'.mem A'
  eff : Effect s l A.tables s' l' A'.tables
  leaf_eq : A'.leaf = A.leaf
  root_eq : A'.root = A.root

section walk

variable {s s' s'' : Phys} {l l' l'' : List ℕ} {A A' A'' : PTab} {p : List Idx}

theorem Grown.refl (hr : Rep s.mem A) (hh : Heap s l A.tables) : Grown s l A s l A :=
  ⟨hr, .refl hh, rfl, rfl⟩

theorem Grown.trans (h : Grown s l A s' l' A') (h' : Grown s' l' A' s'' l'' A'') :
    Grown s l A s'' l'' A'' :=
  ⟨h'.rep, h.eff.trans h'.eff, h'.leaf_eq.trans h.leaf_eq, h'.root_eq.trans h.root_eq⟩

/-- One page more, linked from the page at `path`. -/
theorem Grown.link {path : List Idx} {i : Idx} {page : ℕ} (hr : Rep s.mem A)
    (heff : Effect s l A.tables s' l' (insert page A.tables)) (hnew : page ∉ A.tables)
    (hpage : page ≠ 0) (hm : SameOff {page} s.mem s'.mem)
    (hlen : path.length < 2) (hp : A.node path ≠ 0) (h0 : A.node (path ++ [i]) = 0) :
    Grown s l A
      { s' with mem := (s'.mem.fill page 4096 0).store (A.node path + 8 * i) 8
                  (PA2PTE page ||| PTE_V) }
      l' (A.addNode (path ++ [i]) page) := by
  have hram := heff.heap.owned page (Set.mem_insert ..)
  have hr' : Rep s'.mem A :=
    hr.sameOff hm fun pa hpa he => hnew (Set.mem_singleton_iff.mp he ▸ hpa)
  have htab : (A.addNode (path ++ [i]) page).tables = insert page A.tables :=
    PTab.tables_addNode h0 hpage
  refine ⟨hr'.addNode hlen hp h0 hpage hram.aligned hram.lt hnew, ?_, rfl,
    PTab.addNode_of_ne (by simp)⟩
  rw [htab]
  have hi := i.isLt
  exact heff.trans (heff.heap.write (((sameOff_fill hram.aligned).mono (by simp)).trans
    ((sameOff_store (hr.aligned path) (by omega)).mono (by
      rintro _ rfl
      exact .inr (PTab.mem_tables hp)))))

/-- How many page-table pages `walk` allocates at most for the last `n` levels of the path `p`. -/
def walkCost (A : PTab) (p : List Idx) (n : ℕ) : ℕ := if A.node p = 0 then n else 0

theorem walkCost_le (A : PTab) (p : List Idx) (n : ℕ) : walkCost A p n ≤ n := by
  unfold walkCost
  split
  · exact le_rfl
  · exact Nat.zero_le n

variable {va : ℕ}

/-- What the loop of `walk` returns from the page at `path`. -/
theorem walkFrom_spec {alloc : Bool} (levels : List ℕ) (path : List Idx)
    (hlen : path.length + levels.length = 2) (hr : Rep s.mem A) (hh : Heap s l A.tables)
    (hp : A.node path ≠ 0) :
    Code.wp (walkFrom va alloc levels (A.node path)) (fun r s' => ∃ l' A',
      Grown s l A s' l' A' ∧ (alloc = false → s' = s ∧ l' = l ∧ A' = A) ∧
      ((r = 0 ∧ A'.node (path ++ levels.map (idx · va)) = 0 ∧ (alloc = true →
          ¬ Plenty s l (walkCost A (path ++ levels.map (idx · va)) levels.length))) ∨
        A'.node (path ++ levels.map (idx · va)) ≠ 0 ∧
        r = A'.node (path ++ levels.map (idx · va)) + 8 * idx 0 va ∧
        ∀ m, Plenty s l (m + walkCost A (path ++ levels.map (idx · va)) levels.length) →
          Plenty s' l' m)) s := by
  induction levels generalizing path s l A with
  | nil =>
    simp only [walkFrom, Code.wp_pure, List.map_nil, List.append_nil]
    exact ⟨l, A, .refl hr hh, fun _ => ⟨trivial, rfl, rfl⟩,
      .inr ⟨hp, rfl, fun m hpl => hpl.mono (Nat.le_add_right ..)⟩⟩
  | cons level levels ih =>
    have hlen2 : path.length < 2 := by
      rw [List.length_cons] at hlen
      omega
    have hlen' : (path ++ [idx level va]).length + levels.length = 2 := by
      rw [List.length_append, List.length_singleton]
      rw [List.length_cons] at hlen
      omega
    have hsplit : path ++ (level :: levels).map (idx · va) =
        (path ++ [idx level va]) ++ levels.map (idx · va) := by simp
    have hentry := hr.inner path (idx level va) hlen2 hp
    rw [hsplit, List.length_cons]
    simp only [walkFrom, load64, store64, memset, Code.wp_bind, Code.wp_gets, Code.wp_ite,
      Code.wp_pure, Code.wp_modify]
    rw [show PX level va = (idx level va : ℕ) from rfl]
    by_cases hnode : A.node (path ++ [idx level va]) = 0
    · -- the page for this level is missing, and so is everything below it
      have hbelow := hr.none_below hnode (levels.map (idx · va))
      have hcost : walkCost A ((path ++ [idx level va]) ++ levels.map (idx · va))
          (levels.length + 1) = levels.length + 1 := if_pos hbelow
      rw [hcost]
      refine ⟨fun hne => absurd (hentry.none hnode) hne, fun _ => ⟨fun ha => ?_, fun ha => ?_⟩⟩
      · refine ⟨l, A, .refl hr hh, fun _ => ⟨trivial, rfl, rfl⟩, .inl ⟨trivial, hbelow, ?_⟩⟩
        exact fun ht => absurd (ha.symm.trans ht) (by decide)
      · apply Code.wp_mono (kalloc_spec hh)
        intro page s1 hres
        rcases hres with ⟨rfl, heff, hm, hpl⟩ | ⟨l1, rfl, heff, hnew, hpage, hm, hpl⟩
        · refine ⟨fun _ => ⟨l, A, ⟨hm ▸ hr, heff, rfl, rfl⟩, fun hf => absurd hf ha,
            .inl ⟨trivial, hbelow, fun _ hc => hpl (hc.mono (by omega))⟩⟩, fun h => absurd rfl h⟩
        · refine ⟨fun h => absurd h hpage, fun _ => ?_⟩
          have hlink := Grown.link hr heff hnew hpage hm hlen2 hp hnode
          have hstep := ih (path ++ [idx level va]) hlen' hlink.rep hlink.eff.heap
            (by rw [PTab.addNode_self]; exact hpage)
          rw [PTab.addNode_self] at hstep
          apply Code.wp_mono hstep
          intro r s2 hres
          obtain ⟨l2, A2, hg, -, hres⟩ := hres
          refine ⟨l2, A2, hlink.trans hg, fun hf => absurd hf ha, ?_⟩
          have hle := walkCost_le (A.addNode (path ++ [idx level va]) page)
            ((path ++ [idx level va]) ++ levels.map (idx · va)) levels.length
          rcases hres with ⟨hr0, hn0, hst⟩ | ⟨hn, hr0, hst⟩
          · exact .inl ⟨hr0, hn0, fun ht hc => hst ht ((hpl _ hc).mono hle)⟩
          · refine .inr ⟨hn, hr0, fun m hc => hst m ((hpl _ ?_).mono (Nat.add_le_add_left hle m))⟩
            rwa [Nat.add_assoc]
    · rw [hentry.addr hnode]
      refine ⟨fun _ => ?_, fun h => absurd (hentry.valid hnode) h⟩
      have hle : walkCost A ((path ++ [idx level va]) ++ levels.map (idx · va)) levels.length ≤
          walkCost A ((path ++ [idx level va]) ++ levels.map (idx · va)) (levels.length + 1) := by
        unfold walkCost
        split <;> omega
      apply Code.wp_mono (ih _ hlen' hr hh hnode)
      intro r s' hres
      obtain ⟨l', A', hg, hsame, hres⟩ := hres
      refine ⟨l', A', hg, hsame, hres.imp ?_ ?_⟩
      · rintro ⟨h1, h2, h3⟩
        exact ⟨h1, h2, fun ha hc => h3 ha (hc.mono hle)⟩
      · rintro ⟨h1, h2, h3⟩
        exact ⟨h1, h2, fun m hc => h3 m (hc.mono (Nat.add_le_add_left hle m))⟩

/-- `walk` with `alloc`: the entry's address, or 0 when `kalloc` failed. -/
theorem walk_alloc_spec (hva : va < MAXVA) (hr : Rep s.mem A) (hh : Heap s l A.tables) :
    Code.wp (walk A.root va true) (fun r s' => ∃ l' A', Grown s l A s' l' A' ∧
      ((r = 0 ∧ ¬ Plenty s l (walkCost A (leafPath va) 2)) ∨ A'.node (leafPath va) ≠ 0 ∧
        r = A'.node (leafPath va) + 8 * idx 0 va ∧
        ∀ m, Plenty s l (m + walkCost A (leafPath va) 2) → Plenty s' l' m)) s := by
  rw [walk, Code.wp_ite]
  refine ⟨fun h => absurd hva (Nat.not_lt.mpr h), fun _ => ?_⟩
  apply Code.wp_mono (walkFrom_spec [2, 1] [] rfl hr hh hr.root_ne)
  intro r s' hres
  obtain ⟨l', A', hg, -, hres⟩ := hres
  exact ⟨l', A', hg, hres.imp_left fun ⟨h1, _, h3⟩ => ⟨h1, h3 rfl⟩⟩

/-- `walk` without `alloc` reads only: the entry's address, or 0 when there is none. -/
theorem walk_spec (hva : va < MAXVA) (hr : Rep s.mem A) (hh : Heap s l A.tables) :
    Code.wp (walk A.root va false) (fun r s' => s' = s ∧
      ((r = 0 ∧ A.node (leafPath va) = 0) ∨ A.node (leafPath va) ≠ 0 ∧
        r = A.node (leafPath va) + 8 * idx 0 va)) s := by
  rw [walk, Code.wp_ite]
  refine ⟨fun h => absurd hva (Nat.not_lt.mpr h), fun _ => ?_⟩
  apply Code.wp_mono (walkFrom_spec [2, 1] [] rfl hr hh hr.root_ne)
  intro r s' hres
  obtain ⟨l', A', -, hsame, hres⟩ := hres
  obtain ⟨rfl, rfl, rfl⟩ := hsame rfl
  exact ⟨rfl, hres.imp (fun ⟨h1, h2, _⟩ => ⟨h1, h2⟩) fun ⟨h1, h2, _⟩ => ⟨h1, h2⟩⟩

theorem Rep.load_leaf (hr : Rep s.mem A) (hva : va < MAXVA) (hn : A.node (leafPath va) ≠ 0) :
    s.mem.load (A.node (leafPath va) + 8 * idx 0 va) 8 = A.leaf (va / 4096) := by
  rw [← vpn_idx (lt_of_lt_MAXVA hva)]
  exact hr.last _ _ _ hn

/-- An address without an entry has the tree's entry 0. -/
theorem Rep.leaf_none (hr : Rep s.mem A) (hva : va < MAXVA) (hn : A.node (leafPath va) = 0) :
    A.leaf (va / 4096) = 0 := by
  rw [← vpn_idx (lt_of_lt_MAXVA hva)]
  exact hr.last_none _ _ _ hn

theorem Rep.store_leaf (hr : Rep s.mem A) (hh : Heap s l A.tables) {pte : ℕ} (hva : va < MAXVA)
    (hn : A.node (leafPath va) ≠ 0) (hpte : pte < 256 ^ 8) :
    Rep (s.mem.store (A.node (leafPath va) + 8 * idx 0 va) 8 pte) (A.setLeaf (va / 4096) pte) ∧
    Effect s l A.tables
      { s with mem := s.mem.store (A.node (leafPath va) + 8 * idx 0 va) 8 pte } l A.tables := by
  refine ⟨?_, hh.write ((sameOff_store (hr.aligned _) (by omega)).mono ?_)⟩
  · rw [← vpn_idx (lt_of_lt_MAXVA hva)]
    exact hr.setLeaf hn hpte
  · rintro _ rfl
    exact PTab.mem_tables hn

end walk

end Xv6.Mem
