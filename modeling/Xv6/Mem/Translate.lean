import Xv6.Mem.Table

/-!
# Reading page tables

What a page table in memory says, whatever its words are. `follow` and `leafEntry` read a table the
way the hardware does: three levels, each entry on the way valid. `translate` is the physical page and
the flags of a virtual address. `walk` and `walkaddr` only read the table unless they allocate, and
what they find is stated in these terms (`walk_read`, `walkaddr_read`). Nothing here supposes that the
table is well formed; for a table that represents a tree, `pteOf_rep` gives the entry of the tree.
-/

namespace Xv6.Mem

open Lib (Bytes Code)

/-- The page-table page reached from `page` along a path, if all entries on the way are valid. -/
def follow (m : Bytes) : ℕ → List Idx → Option ℕ
  | page, [] => some page
  | page, i :: path =>
    if m.load (page + 8 * i) 8 &&& PTE_V = 0 then none
    else follow m (PTE2PA (m.load (page + 8 * i) 8)) path

/-- The last-level entry at the indices `i`, `j`, `n` of a page table, or 0 if there is none. -/
def leafEntry (m : Bytes) (root : ℕ) (i j n : Idx) : ℕ :=
  match follow m root [i, j] with
  | none => 0
  | some page => m.load (page + 8 * n) 8

section follow

variable {m : Bytes} {A : PTab}

theorem follow_eq (h : Rep m A) (path pre : List Idx) (hpre : A.node pre ≠ 0)
    (hlen : pre.length + path.length ≤ 2) :
    follow m (A.node pre) path =
      if A.node (pre ++ path) = 0 then none else some (A.node (pre ++ path)) := by
  induction path generalizing pre with
  | nil => rw [List.append_nil, if_neg hpre, follow]
  | cons i path ih =>
    rw [List.length_cons] at hlen
    have hsplit : pre ++ i :: path = (pre ++ [i]) ++ path := by simp
    have hentry := h.inner pre i (by omega) hpre
    rw [follow, hsplit]
    by_cases hnode : A.node (pre ++ [i]) = 0
    · rw [h.none_below hnode, if_pos rfl, if_pos (hentry.none hnode)]
    · rw [if_neg (hentry.valid hnode), hentry.addr hnode]
      apply ih (pre ++ [i]) hnode
      rw [List.length_append, List.length_singleton]
      omega

/-- Following a path leads to the page of the tree. -/
theorem follow_some (h : Rep m A) {path : List Idx} {pa : ℕ} (hlen : path.length ≤ 2) :
    follow m A.root path = some pa ↔ A.node path = pa ∧ pa ≠ 0 := by
  have heq := follow_eq h path [] h.root_ne (by simpa using hlen)
  rw [List.nil_append] at heq
  rw [PTab.root, heq]
  by_cases h0 : A.node path = 0
  · rw [if_pos h0, h0]
    constructor
    · intro hc
      exact absurd hc (by simp)
    · rintro ⟨rfl, hne⟩
      exact absurd rfl hne
  · rw [if_neg h0, Option.some_inj]
    constructor
    · rintro rfl
      exact ⟨rfl, h0⟩
    · exact And.left

/-- The last-level entries are the leaves of the tree. -/
theorem leafEntry_eq (h : Rep m A) (i j n : Idx) :
    leafEntry m A.root i j n = A.leaf (vpn i j n) := by
  have heq := follow_eq h [i, j] [] h.root_ne (by simp)
  rw [List.nil_append] at heq
  rw [leafEntry, PTab.root, heq]
  by_cases h0 : A.node [i, j] = 0
  · rw [if_pos h0, h.last_none i j n h0]
  · rw [if_neg h0]
    exact h.last i j n h0

end follow

/-! ### The entry of a virtual address -/

/-- The address of the entry for a virtual address, or 0. -/
def pteAddr (m : Bytes) (root va : ℕ) : ℕ :=
  match follow m root (leafPath va) with
  | none => 0
  | some page => page + 8 * idx 0 va

/-- The entry for a virtual address, or 0. -/
def pteOf (m : Bytes) (root va : ℕ) : ℕ := leafEntry m root (idx 2 va) (idx 1 va) (idx 0 va)

/-- The translation of a virtual address: its physical page and the flags. -/
def translate (m : Bytes) (root va : ℕ) : Option (ℕ × ℕ) :=
  if pteOf m root va &&& PTE_V = 0 then none
  else some (PTE2PA (pteOf m root va), PTE_FLAGS (pteOf m root va))

section pte

variable {m m' : Bytes} {A : PTab} {root va : ℕ}

theorem pteOf_rep (h : Rep m A) (hva : va < 2 ^ 39) : pteOf m A.root va = A.leaf (va / 4096) := by
  rw [pteOf, leafEntry_eq h, vpn_idx hva]

theorem translate_rep (h : Rep m A) (hva : va < 2 ^ 39) : translate m A.root va =
    if A.leaf (va / 4096) &&& PTE_V = 0 then none
    else some (PTE2PA (A.leaf (va / 4096)), PTE_FLAGS (A.leaf (va / 4096))) := by
  rw [translate, pteOf_rep h hva]

theorem translate_eq_none (h : Rep m A) (hva : va < 2 ^ 39) :
    translate m A.root va = none ↔ A.leaf (va / 4096) &&& PTE_V = 0 := by
  rw [translate_rep h hva]
  split <;> simp_all

theorem load_pteAddr (h : pteAddr m root va ≠ 0) : m.load (pteAddr m root va) 8 = pteOf m root va := by
  unfold pteAddr at h ⊢
  unfold pteOf leafEntry
  rw [leafPath] at h ⊢
  cases hf : follow m root [idx 2 va, idx 1 va] with
  | none =>
    rw [hf] at h
    exact absurd rfl h
  | some page => rfl

/-- Only the page number of a virtual address matters. -/
theorem idx_congr {level va' : ℕ} (h : va' / 4096 = va / 4096) : idx level va' = idx level va := by
  have hdiv : ∀ x, x / 2 ^ (12 + 9 * level) = x / 4096 / 2 ^ (9 * level) := fun x => by
    rw [Nat.div_div_eq_div_mul, pow_add]
    rfl
  apply Fin.ext
  show PX level va' = PX level va
  rw [PX_eq, PX_eq, hdiv, hdiv, h]

theorem pteOf_congr {va' : ℕ} (h : va' / 4096 = va / 4096) : pteOf m root va' = pteOf m root va := by
  rw [pteOf, idx_congr h, idx_congr h, idx_congr h, pteOf]

theorem pteAddr_congr {va' : ℕ} (h : va' / 4096 = va / 4096) :
    pteAddr m root va' = pteAddr m root va := by
  unfold pteAddr leafPath
  rw [idx_congr h, idx_congr h, idx_congr h]

end pte

/-! ### `walk` and `walkaddr` -/

/-- A virtual address below `MAXVA` in a page that the user can access. As the kernel uses 0 for
addresses that do not exist, neither the entry nor the page is at address 0. -/
structure UserMapped (m : Bytes) (root va : ℕ) : Prop where
  low : va < MAXVA
  entry : pteAddr m root va ≠ 0
  valid : pteOf m root va &&& PTE_V ≠ 0
  user : pteOf m root va &&& PTE_U ≠ 0
  page : PTE2PA (pteOf m root va) ≠ 0

instance (m : Bytes) (root va : ℕ) : Decidable (UserMapped m root va) :=
  decidable_of_iff (va < MAXVA ∧ pteAddr m root va ≠ 0 ∧ pteOf m root va &&& PTE_V ≠ 0 ∧
      pteOf m root va &&& PTE_U ≠ 0 ∧ PTE2PA (pteOf m root va) ≠ 0)
    ⟨fun ⟨h1, h2, h3, h4, h5⟩ => ⟨h1, h2, h3, h4, h5⟩, fun ⟨h1, h2, h3, h4, h5⟩ => ⟨h1, h2, h3, h4, h5⟩⟩

/-- The physical address of a virtual address that is mapped. -/
def userAddr (m : Bytes) (root va : ℕ) : ℕ := PTE2PA (pteOf m root va) + va % 4096

section walk

variable {s : Phys} {m : Bytes} {root va : ℕ}

/-- Without `alloc` the loop of `walk` follows the path. -/
theorem walkFrom_read (levels : List ℕ) (page : ℕ) :
    Code.wp (walkFrom va false levels page) (fun r s' => s' = s ∧
      r = match follow s.mem page (levels.map (idx · va)) with
        | none => 0
        | some page => page + 8 * idx 0 va) s := by
  induction levels generalizing page with
  | nil => exact ⟨rfl, rfl⟩
  | cons level levels ih =>
    simp only [walkFrom, load64, Code.wp_bind, Code.wp_gets, Code.wp_ite, Code.wp_pure,
      List.map_cons, follow]
    refine ⟨fun hV => ?_, fun hV => ⟨fun _ => ⟨trivial, ?_⟩, fun h => absurd trivial h⟩⟩
    · rw [show ((idx level va : Idx) : ℕ) = PX level va from rfl, if_neg hV]
      exact ih _
    · rw [show ((idx level va : Idx) : ℕ) = PX level va from rfl, if_pos (not_not.mp hV)]

theorem walk_read (hva : va < MAXVA) :
    Code.wp (walk root va false) (fun r s' => s' = s ∧ r = pteAddr s.mem root va) s := by
  rw [walk, if_neg (Nat.not_le.mpr hva)]
  exact walkFrom_read [2, 1] root

theorem UserMapped.congr {va' : ℕ} (h : UserMapped m root va) (hp : va' / 4096 = va / 4096) :
    UserMapped m root va' where
  low := by
    have := h.low
    rw [MAXVA_eq] at this ⊢
    omega
  entry := by
    rw [pteAddr_congr hp]
    exact h.entry
  valid := by
    rw [pteOf_congr hp]
    exact h.valid
  user := by
    rw [pteOf_congr hp]
    exact h.user
  page := by
    rw [pteOf_congr hp]
    exact h.page

/-- `walkaddr` returns the page of an address that is mapped for the user, and 0 otherwise. -/
theorem walkaddr_read : Code.wp (walkaddr root va) (fun r s' => s' = s ∧
    (UserMapped s.mem root va ∧ r = PTE2PA (pteOf s.mem root va) ∨
      ¬ UserMapped s.mem root va ∧ r = 0)) s := by
  rw [walkaddr, Code.wp_ite]
  refine ⟨fun hva => ⟨rfl, .inr ⟨fun h => absurd h.low (Nat.not_lt.mpr hva), rfl⟩⟩, fun hva => ?_⟩
  rw [Code.wp_bind]
  apply Code.wp_mono (walk_read (Nat.lt_of_not_le hva))
  rintro pte s' ⟨rfl, rfl⟩
  simp only [load64, Code.wp_bind, Code.wp_gets, Code.wp_ite, Code.wp_pure]
  refine ⟨fun h0 => ⟨trivial, .inr ⟨fun h => h.entry h0, trivial⟩⟩, fun h0 => ?_⟩
  rw [load_pteAddr h0]
  refine ⟨fun hV => ⟨trivial, .inr ⟨fun h => h.valid hV, trivial⟩⟩, fun hV =>
    ⟨fun hU => ⟨trivial, .inr ⟨fun h => h.user hU, trivial⟩⟩, fun hU => ⟨trivial, ?_⟩⟩⟩
  by_cases hpage : PTE2PA (pteOf s'.mem root va) = 0
  · exact .inr ⟨fun h => h.page hpage, hpage⟩
  · exact .inl ⟨⟨Nat.lt_of_not_le hva, h0, hV, hU, hpage⟩, rfl⟩

end walk

/-! ### Writes to other pages -/

section same

variable {m m' : Bytes} {root va : ℕ} {T : Set ℕ}

/-- The page-table pages of `root` are not among `T`. -/
def TablesOff (m : Bytes) (root : ℕ) (T : Set ℕ) : Prop :=
  ∀ path page, path.length ≤ 2 → follow m root path = some page → page ∉ T

theorem follow_aligned (hroot : root % 4096 = 0) {path : List Idx} {page : ℕ}
    (h : follow m root path = some page) : page % 4096 = 0 := by
  induction path generalizing root with
  | nil =>
    obtain rfl := Option.some.inj h
    exact hroot
  | cons i path ih =>
    rw [follow] at h
    split at h
    · exact absurd h (by simp)
    · exact ih (PTE2PA_aligned _) h

theorem follow_sameOff (hroot : root % 4096 = 0) (hm : SameOff T m m') (path : List Idx)
    (hoff : ∀ p q page, path = p ++ q → q ≠ [] → follow m root p = some page → page ∉ T) :
    follow m' root path = follow m root path := by
  induction path generalizing root with
  | nil => rfl
  | cons i path ih =>
    have hi := i.isLt
    have hload : m'.load (root + 8 * (i : ℕ)) 8 = m.load (root + 8 * (i : ℕ)) 8 :=
      hm.load_eq hroot (by omega) (hoff [] (i :: path) root rfl (by simp) rfl)
    rw [follow, follow, hload]
    split
    · rfl
    · rename_i hV
      refine ih (PTE2PA_aligned _) fun p q page hsplit hq hp => ?_
      refine hoff (i :: p) q page (by rw [hsplit]; rfl) hq ?_
      rw [follow, if_neg hV]
      exact hp

theorem TablesOff.follow_eq (hroot : root % 4096 = 0) (hoff : TablesOff m root T)
    (hm : SameOff T m m') {path : List Idx} (hlen : path.length ≤ 2) :
    follow m' root path = follow m root path :=
  follow_sameOff hroot hm path fun p q page hsplit _ hp => hoff p page (by
    rw [hsplit, List.length_append] at hlen
    omega) hp

theorem TablesOff.pteAddr_eq (hroot : root % 4096 = 0) (hoff : TablesOff m root T)
    (hm : SameOff T m m') : pteAddr m' root va = pteAddr m root va := by
  rw [pteAddr, hoff.follow_eq hroot hm (by simp [leafPath]), pteAddr]

theorem TablesOff.pteOf_eq (hroot : root % 4096 = 0) (hoff : TablesOff m root T)
    (hm : SameOff T m m') : pteOf m' root va = pteOf m root va := by
  rw [pteOf, leafEntry, hoff.follow_eq hroot hm (by simp), pteOf, leafEntry]
  cases hf : follow m root [idx 2 va, idx 1 va] with
  | none => rfl
  | some page =>
    have hi := (idx 0 va).isLt
    exact hm.load_eq (follow_aligned hroot hf) (by omega) (hoff _ page (by simp) hf)

end same

end Xv6.Mem
