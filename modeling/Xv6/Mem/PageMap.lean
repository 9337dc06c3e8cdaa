import Xv6.Mem.Copy

/-!
# Page tables as maps

`mappages` and `uvmunmap` seen through the translation that a page table stands for: a successful
`mappages` changes the translation of the pages of its range and of no others, `uvmunmap` of the range
undoes it, and `freewalk` gives back each page-table page once. All this holds for any table whose
page-table pages form a tree: the entries that are not valid may hold anything.
-/

namespace Xv6.Mem

open Lib (Bytes Code)

/-- Whether a virtual address lies in a page of the range from `va` on. -/
def InRange (va size w : ℕ) : Prop :=
  PGROUNDDOWN va ≤ PGROUNDDOWN w ∧ PGROUNDDOWN w ≤ PGROUNDDOWN (va + size - 1)

/-- The number of pages of a range. -/
def rangePages (va size : ℕ) : ℕ := (PGROUNDDOWN (va + size - 1) - PGROUNDDOWN va) / PGSIZE + 1

/-- The range was not mapped in `s`; in `s'` it is mapped to the consecutive physical pages from `pa`
on, and every other translation is as in `s`. -/
structure RangeMapped (s : Phys) (root va size pa perm : ℕ) (s' : Phys) : Prop where
  before : ∀ w, w < 2 ^ 39 → InRange va size w → translate s.mem root w = none
  range : ∀ w, w < 2 ^ 39 → InRange va size w → translate s'.mem root w =
    some ((pa + (PGROUNDDOWN w - PGROUNDDOWN va)) % 2 ^ 64, perm ||| PTE_V)
  others : ∀ w, w < 2 ^ 39 → ¬ InRange va size w →
    translate s'.mem root w = translate s.mem root w

section range

variable {s s' : Phys} {l l' : List ℕ} {A A' : PTab} {va size pa perm w : ℕ}

theorem inRange_iff : InRange va size w ↔
    va / 4096 ≤ w / 4096 ∧ w / 4096 ≤ (va + size - 1) / 4096 := by
  unfold InRange
  rw [PGROUNDDOWN_eq, PGROUNDDOWN_eq, PGROUNDDOWN_eq]
  omega

theorem rangePages_eq : rangePages va size = (va + size - 1) / 4096 - va / 4096 + 1 := by
  unfold rangePages
  rw [PGROUNDDOWN_eq, PGROUNDDOWN_eq, PGSIZE_eq]
  omega

/-- An entry that `mappages` makes. -/
theorem mapped_entry (hpa : pa % 4096 = 0) (hlt : pa < 2 ^ 64) (hperm : perm < 1024) :
    (PA2PTE pa ||| perm ||| PTE_V) &&& PTE_V ≠ 0 ∧
      PTE2PA (PA2PTE pa ||| perm ||| PTE_V) = pa ∧
      PTE_FLAGS (PA2PTE pa ||| perm ||| PTE_V) = perm ||| PTE_V := by
  have hflags : perm ||| PTE_V < 1024 := flags_or_lt hperm (by decide)
  rw [Nat.or_assoc]
  refine ⟨?_, PTE2PA_or hpa hlt hflags, PTE_FLAGS_or hflags⟩
  rw [or_and_flags (by decide), Nat.and_or_distrib_right]
  have hbit : (perm &&& PTE_V ||| PTE_V &&& PTE_V).testBit 0 = true := by
    rw [Nat.testBit_or]
    simp [PTE_V]
  intro h0
  rw [h0] at hbit
  exact absurd hbit (by decide)

theorem isLeaf_mapped (hpa : pa % 4096 = 0) (hlt : pa < 2 ^ 64) (hperm : perm < 1024)
    (hrwx : perm &&& (PTE_R ||| PTE_W ||| PTE_X) ≠ 0) : IsLeaf (PA2PTE pa ||| perm ||| PTE_V) := by
  refine ⟨(mapped_entry hpa hlt hperm).1, ?_⟩
  rw [Nat.or_assoc, or_and_flags (by decide), Nat.and_or_distrib_right]
  intro h0
  exact hrwx (Nat.or_eq_zero_iff.mp h0).1

theorem inRange_iff_lt (hsize : 1 ≤ size) : InRange va size w ↔
    va / 4096 ≤ w / 4096 ∧ w / 4096 < va / 4096 + rangePages va size := by
  rw [inRange_iff, rangePages_eq]
  omega

/-- What the entries after `mappages` say. -/
theorem rangeMapped_of_leaf (hr : Rep s.mem A) (hr' : Rep s'.mem A') (hroot : A'.root = A.root)
    (hsize : 1 ≤ size) (hpa : pa % 4096 = 0) (hperm : perm < 1024)
    (hleaf : A'.leaf = mapped A.leaf (va / 4096) pa perm (rangePages va size))
    (hnew : ∀ v, va / 4096 ≤ v → v < va / 4096 + rangePages va size → A.leaf v &&& PTE_V = 0) :
    RangeMapped s A.root va size pa perm s' where
  before w hw hin := by
    rw [inRange_iff_lt hsize] at hin
    exact (translate_eq_none hr hw).mpr (hnew _ hin.1 hin.2)
  range w hw hin := by
    have hoff : PGROUNDDOWN w - PGROUNDDOWN va = (w / 4096 - va / 4096) * 4096 := by
      rw [PGROUNDDOWN_eq, PGROUNDDOWN_eq]
      omega
    rw [inRange_iff_lt hsize] at hin
    obtain ⟨hvalid, haddr, hflags⟩ := mapped_entry
      (show (pa + (w / 4096 - va / 4096) * 4096) % 2 ^ 64 % 4096 = 0 by omega)
      (Nat.mod_lt _ (by decide)) hperm
    rw [← hroot, translate_rep hr' hw, hleaf, mapped, if_pos hin, if_neg hvalid, haddr, hflags, hoff]
  others w hw hout := by
    rw [inRange_iff_lt hsize] at hout
    rw [← hroot, translate_rep hr' hw, hroot, translate_rep hr hw, hleaf, mapped, if_neg hout]

/-- Once the entries of the range are cleared, the translation is the one before `mappages`. -/
theorem translate_unmap {s'' : Phys} (hr : Rep s.mem A)
    (hr'' : Rep s''.mem (A'.unmap (va / 4096) (rangePages va size))) (hroot : A'.root = A.root)
    (hleaf : A'.leaf = mapped A.leaf (va / 4096) pa perm (rangePages va size))
    (hnew : ∀ v, va / 4096 ≤ v → v < va / 4096 + rangePages va size → A.leaf v &&& PTE_V = 0)
    (hw : w < 2 ^ 39) : translate s''.mem A.root w = translate s.mem A.root w := by
  have hroot'' : (A'.unmap (va / 4096) (rangePages va size)).root = A.root := hroot
  rw [← hroot'', translate_rep hr'' hw, hroot'', translate_rep hr hw]
  by_cases hin : va / 4096 ≤ w / 4096 ∧ w / 4096 < va / 4096 + rangePages va size
  · have hclear : (A'.unmap (va / 4096) (rangePages va size)).leaf (w / 4096) = 0 := if_pos hin
    rw [hclear, if_pos (Nat.zero_and _), if_pos (hnew _ hin.1 hin.2)]
  · have hsame : (A'.unmap (va / 4096) (rangePages va size)).leaf (w / 4096) = A.leaf (w / 4096) := by
      refine (if_neg hin).trans ?_
      rw [hleaf, mapped, if_neg hin]
    rw [hsame]

/-- The physical pages from `pa` on are pages of RAM that are neither page-table pages nor free. -/
def PagesOwned (s : Phys) (l : List ℕ) (A : PTab) (pa n : ℕ) : Prop :=
  ∀ i, i < n → RamPage s.kend ((pa + i * 4096) % 2 ^ 64) ∧ (pa + i * 4096) % 2 ^ 64 ∉ A.tables ∧
    (pa + i * 4096) % 2 ^ 64 ∉ l

/-- `uvmunmap` of the range undoes `mappages`; if it is to free the pages, they must be pages that can
be freed. -/
theorem uvmunmap_restores (hr : Rep s.mem A) (hc : Changed s l A s' l' A')
    (hsize : 1 ≤ size) (hmax : va + size ≤ MAXVA) (hpa : pa % 4096 = 0) (hperm : perm < 1024)
    (hrwx : perm &&& (PTE_R ||| PTE_W ||| PTE_X) ≠ 0)
    (hleaf : A'.leaf = mapped A.leaf (va / 4096) pa perm (rangePages va size))
    (hnew : ∀ v, va / 4096 ≤ v → v < va / 4096 + rangePages va size → A.leaf v &&& PTE_V = 0)
    (do_free : Bool) (hfree : do_free = true → PagesOwned s l A pa (rangePages va size)) :
    Code.wp (uvmunmap A.root (PGROUNDDOWN va) (rangePages va size) do_free) (fun _ s'' =>
      ∀ w, w < 2 ^ 39 → translate s''.mem A.root w = translate s.mem A.root w) s' := by
  have hrange : va / 4096 + rangePages va size ≤ 67108864 := by
    rw [rangePages_eq]
    rw [MAXVA_eq] at hmax
    omega
  have hnow : ∀ v, va / 4096 ≤ v → v < va / 4096 + rangePages va size →
      A'.leaf v = PA2PTE ((pa + (v - va / 4096) * 4096) % 2 ^ 64) ||| perm ||| PTE_V := by
    intro v h1 h2
    rw [hleaf, mapped, if_pos ⟨h1, h2⟩]
  have hal : ∀ i, (pa + i * 4096) % 2 ^ 64 % 4096 = 0 := fun i => by omega
  have hleaves : ∀ v, va / 4096 ≤ v → v < va / 4096 + rangePages va size → IsLeaf (A'.leaf v) := by
    intro v h1 h2
    rw [hnow v h1 h2]
    exact isLeaf_mapped (hal _) (Nat.mod_lt _ (by decide)) hperm hrwx
  rw [PGROUNDDOWN_eq, uvmunmap_eq hrange, ← hc.root_eq]
  cases do_free with
  | false =>
    apply Code.wp_mono (unmapLoop_keep_spec hc.rep hc.heap hrange hleaves)
    rintro - s'' ⟨hr'', -⟩ w hw
    rw [hc.root_eq]
    exact translate_unmap hr hr'' hc.root_eq hleaf hnew hw
  | true =>
    have hown := hfree rfl
    have hpage : ∀ v, va / 4096 ≤ v → v < va / 4096 + rangePages va size →
        PTE2PA (A'.leaf v) = (pa + (v - va / 4096) * 4096) % 2 ^ 64 := by
      intro v h1 h2
      rw [hnow v h1 h2]
      exact (mapped_entry (hal _) (Nat.mod_lt _ (by decide)) hperm).2.1
    have hpages : ∀ q ∈ A'.pages (va / 4096) (rangePages va size), ∃ i, i < rangePages va size ∧
        q = (pa + i * 4096) % 2 ^ 64 := by
      rintro q ⟨v, h1, h2, rfl⟩
      exact ⟨v - va / 4096, by omega, hpage v h1 h2⟩
    have hoff : ∀ q ∈ A'.pages (va / 4096) (rangePages va size), q ∉ A.tables ∧ q ∉ l := by
      intro q hq
      obtain ⟨i, hi, rfl⟩ := hpages q hq
      exact (hown i hi).2
    have hheap : Heap s' l' (A'.tables ∪ A'.pages (va / 4096) (rangePages va size)) :=
      { hc.heap with
        owned := by
          rintro q (hq | hq)
          · exact hc.heap.owned q hq
          · obtain ⟨i, hi, rfl⟩ := hpages q hq
            rw [hc.eff.kend_eq]
            exact (hown i hi).1
        disjoint := by
          rintro q (hq | hq)
          · exact hc.heap.disjoint q hq
          · exact (hc.eff.foreign (hoff q hq).1 (hoff q hq).2).2 }
    have hmapped : Mapped A' (va / 4096) (rangePages va size) := by
      refine ⟨hleaves, fun v v' h1 h2 h3 h4 he => ?_, fun q hq => ?_⟩
      · rw [hpage v h1 h2, hpage v' h3 h4] at he
        omega
      · exact (hc.eff.foreign (hoff q hq).1 (hoff q hq).2).1
    apply Code.wp_mono (unmapLoop_spec hc.rep hheap hrange hmapped)
    rintro - s'' ⟨l'', hr'', -⟩ w hw
    rw [hc.root_eq]
    exact translate_unmap hr hr'' hc.root_eq hleaf hnew hw

/-- `freewalk` on a table without valid leaves puts each of its pages on the free list, once. -/
theorem freewalk_once (hr : Rep s.mem A) (hh : Heap s l A.tables)
    (hnone : ∀ w, w < 2 ^ 39 → translate s.mem A.root w = none) :
    Code.wp (freewalk 3 A.root) (fun _ s' => ∃ l', Chain s'.mem s'.freelist l' ∧
      (∀ q ∈ A.tables, l.count q = 0 ∧ l'.count q = 1) ∧
      ∀ q, q ∉ A.tables → l'.count q = l.count q) s := by
  have hleaf : ∀ v, A.leaf v &&& PTE_V = 0 := by
    intro v
    by_cases hv : v < 134217728
    · have hw := (translate_eq_none hr (show v * 4096 < 2 ^ 39 by omega)).mp (hnone _ (by omega))
      rwa [Nat.mul_div_cancel _ (by omega)] at hw
    · rw [hr.high v (by omega), Nat.zero_and]
  generalize hd : 3 = d
  have hfree := freewalkOk hr hleaf d [] s l (by rw [← hd]; rfl) hr.root_ne
    (by rwa [PTab.below_nil]) fun _ _ => rfl
  rw [PTab.below_nil] at hfree
  apply Code.wp_mono hfree
  rintro - s' ⟨l', heff⟩
  refine ⟨l', heff.heap.chain, fun q hq => ?_, fun q hq => ?_⟩
  · have hin : q ∈ l' := ((heff.pages q).mpr (.inl hq)).resolve_left (Set.notMem_empty q)
    exact ⟨List.count_eq_zero.mpr (hh.disjoint q hq), List.count_eq_one_of_mem heff.heap.nodup hin⟩
  · by_cases hl : q ∈ l
    · have hin : q ∈ l' := ((heff.pages q).mpr (.inr hl)).resolve_left (Set.notMem_empty q)
      rw [List.count_eq_one_of_mem heff.heap.nodup hin, List.count_eq_one_of_mem hh.nodup hl]
    · have hout : q ∉ l' := fun hin => ((heff.pages q).mp (.inr hin)).elim hq hl
      rw [List.count_eq_zero.mpr hout, List.count_eq_zero.mpr hl]

/-- `mappages` and the translation. -/
theorem mappages_translate (do_free : Bool) (hr : Rep s.mem A) (hh : Heap s l A.tables)
    (hsize : 1 ≤ size) (hmax : va + size ≤ MAXVA) (hpa : pa % 4096 = 0) (hlt : pa < 2 ^ 64)
    (hperm : perm < 1024) (hrwx : perm &&& (PTE_R ||| PTE_W ||| PTE_X) ≠ 0) :
    Code.wpe (mappages A.root va size pa perm) (fun r s' => ∃ l' A', Rep s'.mem A' ∧
        A'.root = A.root ∧ Heap s' l' A'.tables ∧
        (r = -1 ∧ ¬ Plenty s l (2 * rangePages va size) ∨
          r = 0 ∧ RangeMapped s A.root va size pa perm s' ∧
          ((do_free = true → PagesOwned s l A pa (rangePages va size)) →
            Code.wp (uvmunmap A.root (PGROUNDDOWN va) (rangePages va size) do_free) (fun _ s'' =>
              ∀ w, w < 2 ^ 39 → translate s''.mem A.root w = translate s.mem A.root w) s')))
      (fun msg => msg = "remap" ∧
        ∃ w, w < 2 ^ 39 ∧ InRange va size w ∧ translate s.mem A.root w ≠ none) s := by
  have hpages : rangePages va size = _ := rangePages_eq
  rw [mappages_eq hsize hmax]
  rw [MAXVA_eq] at hmax
  apply Code.wpe_mono (mapLoop_spec hperm _ hr hh (by omega) hlt)
  · rintro r s' ⟨l', A', k, hc, hleaf, hnew, hres⟩
    refine ⟨l', A', hc.rep, hc.root_eq, hc.heap, ?_⟩
    rcases hres with ⟨rfl, rfl⟩ | ⟨rfl, -, hst⟩
    · rw [← hpages] at hleaf hnew
      exact .inr ⟨rfl, rangeMapped_of_leaf hr hc.rep hc.root_eq hsize hpa hperm hleaf hnew,
        uvmunmap_restores hr hc hsize (by rw [MAXVA_eq]; exact hmax) hpa hperm hrwx hleaf hnew do_free⟩
    · rw [← hpages] at hst
      exact .inl ⟨rfl, hst⟩
  · rintro msg ⟨rfl, v, h1, h2, hv⟩
    have hdiv : v * 4096 / 4096 = v := Nat.mul_div_cancel _ (by omega)
    refine ⟨rfl, v * 4096, by omega, ?_, ?_⟩
    · rw [inRange_iff, hdiv]
      omega
    · rw [Ne, translate_eq_none hr (by omega), hdiv]
      exact hv

/-- A page-table update is an update of the map that the table stands for. -/
theorem page_table_map (do_free : Bool) (hr : Rep s.mem A) (hh : Heap s l A.tables) (hsize : 1 ≤ size)
    (hmax : va + size ≤ MAXVA) (hpa : pa % 4096 = 0) (hlt : pa < 2 ^ 64) (hperm : perm < 1024)
    (hrwx : perm &&& (PTE_R ||| PTE_W ||| PTE_X) ≠ 0) :
    Code.wpe (mappages A.root va size pa perm) (fun r s' => ∃ l' A', Rep s'.mem A' ∧
        A'.root = A.root ∧ Heap s' l' A'.tables ∧
        (r = -1 ∧ ¬ Plenty s l (2 * rangePages va size) ∨
          r = 0 ∧ RangeMapped s A.root va size pa perm s' ∧
          ((do_free = true → PagesOwned s l A pa (rangePages va size)) →
            Code.wp (uvmunmap A.root (PGROUNDDOWN va) (rangePages va size) do_free) (fun _ s'' =>
              ∀ w, w < 2 ^ 39 → translate s''.mem A.root w = translate s.mem A.root w) s')))
      (fun msg => msg = "remap") s ∧
    ((∀ s', mappages A.root va size pa perm s ≠ .ok (-1) s') →
      (mappages A.root va size pa perm s = .panic "remap" ↔
        ∃ w, w < 2 ^ 39 ∧ InRange va size w ∧ translate s.mem A.root w ≠ none)) ∧
    ((∀ w, w < 2 ^ 39 → translate s.mem A.root w = none) →
      Code.wp (freewalk 3 A.root) (fun _ s' => ∃ l', Chain s'.mem s'.freelist l' ∧
        (∀ q ∈ A.tables, l.count q = 0 ∧ l'.count q = 1) ∧
        ∀ q, q ∉ A.tables → l'.count q = l.count q) s) := by
  have hspec := mappages_translate do_free hr hh hsize hmax hpa hlt hperm hrwx
  refine ⟨Code.wpe_mono hspec (fun _ _ h => h) fun _ h => h.1, fun hmem => ?_, freewalk_once hr hh⟩
  constructor
  · intro hpanic
    exact (Code.wpe_panics hspec hpanic).2
  · rintro ⟨w, hw, hin, hne⟩
    cases hrun : mappages A.root va size pa perm s with
    | ok r s' =>
      obtain ⟨l', A', -, -, -, ⟨rfl, -⟩ | ⟨-, hmap, -⟩⟩ := Code.wpe_ok hspec hrun
      · exact absurd hrun (hmem s')
      · exact absurd (hmap.before w hw hin) hne
    | panic msg => rw [(Code.wpe_panics hspec hrun).1]

/-- Mapping a third page with the small table. -/
theorem page_table_map_pair :
    ∃ s', mappages KERNBASE 8192 4096 40960 PTE_R (pairPhys KERNBASE 16384 20480) = .ok 0 s' ∧
      RangeMapped (pairPhys KERNBASE 16384 20480) KERNBASE 8192 4096 40960 PTE_R s' := by
  have hrep : Rep (pairPhys KERNBASE 16384 20480).mem (pairTable KERNBASE 16384 20480) :=
    rep_pair (by decide) (by decide) (by decide) (by decide) (by decide)
  have hheap : Heap (pairPhys KERNBASE 16384 20480) [] (pairTable KERNBASE 16384 20480).tables := by
    refine ⟨rfl, List.nodup_nil, fun q hq => absurd hq List.not_mem_nil, ?_, fun q _ => List.not_mem_nil,
      le_rfl⟩
    rw [pairTable_tables (by decide)]
    rintro q (rfl | rfl | rfl) <;> exact ⟨by decide, by decide, by decide⟩
  have h := page_table_map false hrep hheap (by decide : 1 ≤ 4096) (by decide : 8192 + 4096 ≤ MAXVA)
    (by decide : 40960 % 4096 = 0) (by decide) (by decide : PTE_R < 1024) (by decide)
  have hrun : (match mappages KERNBASE 8192 4096 40960 PTE_R (pairPhys KERNBASE 16384 20480) with
      | .ok r _ => decide (r = 0)
      | .panic _ => false) = true := by decide +kernel
  cases hres : mappages KERNBASE 8192 4096 40960 PTE_R (pairPhys KERNBASE 16384 20480) with
  | ok r s' =>
    rw [hres] at hrun
    obtain rfl := of_decide_eq_true hrun
    obtain ⟨l', A', -, -, -, ⟨hr, -⟩ | ⟨-, hmap, -⟩⟩ := Code.wpe_ok h.1 hres
    · exact absurd hr (by decide)
    · exact ⟨s', rfl, hmap⟩
  | panic msg =>
    rw [hres] at hrun
    exact absurd hrun Bool.false_ne_true

end range

end Xv6.Mem
