import Xv6.Mem.Pte

/-!
# Page ownership and the allocator

What the code that runs may touch is a set `T` of physical pages that it owns; the free list holds
the pages of `l`. `Heap s l T` says that the two fit together in `s`: the list threaded through the
free pages is `l`, has no page twice, and no owned page is on it. `Effect` relates two such
situations: pages only move between the owner and the free list, and no byte outside of both
changes. Effects compose, and they extend to pages of other owners (`Effect.frame_union`).
-/

namespace Xv6.Mem

open Lib (Bytes Code)

/-- A page that the allocator hands out. -/
structure RamPage (kend pa : ℕ) : Prop where
  aligned : pa % 4096 = 0
  low : kend ≤ pa
  high : pa < PHYSTOP

variable {pa off h : ℕ} {m m' : Bytes}

theorem RamPage.lt {kend : ℕ} (h : RamPage kend pa) : pa < 2 ^ 64 :=
  lt_trans h.high (by decide)

/-- `m` and `m'` agree outside the pages of `T`. -/
def SameOff (T : Set ℕ) (m m' : Bytes) : Prop := ∀ x, PGROUNDDOWN x ∉ T → m' x = m x

/-- The list threaded through the free pages from `h` on is `l`. -/
def Chain (m : Bytes) : ℕ → List ℕ → Prop
  | h, [] => h = 0
  | h, pa :: l => h = pa ∧ pa ≠ 0 ∧ Chain m (m.load pa 8) l

/-- The allocator holds exactly the pages of `l`, and the pages of `T` are owned by somebody else. -/
structure Heap (s : Phys) (l : List ℕ) (T : Set ℕ) : Prop where
  chain : Chain s.mem s.freelist l
  nodup : l.Nodup
  ram : ∀ pa ∈ l, RamPage s.kend pa
  owned : ∀ pa ∈ T, RamPage s.kend pa
  disjoint : ∀ pa ∈ T, pa ∉ l
  kend_ge : KERNBASE ≤ s.kend

/-- Code that owned `T` in `s` ended in `s'` owning `T'`. -/
structure Effect (s : Phys) (l : List ℕ) (T : Set ℕ) (s' : Phys) (l' : List ℕ) (T' : Set ℕ) :
    Prop where
  heap : Heap s' l' T'
  kend_eq : s'.kend = s.kend
  fail_eq : s'.fail = s.fail
  pages : ∀ pa, pa ∈ T' ∨ pa ∈ l' ↔ pa ∈ T ∨ pa ∈ l
  frame : ∀ x, PGROUNDDOWN x ∉ T → PGROUNDDOWN x ∉ l → s'.mem x = s.mem x

/-! ### Pages -/

theorem PGROUNDDOWN_eq (x : ℕ) : PGROUNDDOWN x = x / 4096 * 4096 := rfl

theorem PGROUNDDOWN_of_mem {x : ℕ} (hpa : pa % 4096 = 0) (h1 : pa ≤ x) (h2 : x < pa + 4096) :
    PGROUNDDOWN x = pa := by
  rw [PGROUNDDOWN_eq]
  omega

theorem SameOff.mono {T T' : Set ℕ} (h : SameOff T m m') (hT : T ⊆ T') :
    SameOff T' m m' := fun x hx => h x fun hm => hx (hT hm)

theorem SameOff.load_eq {T : Set ℕ} (h : SameOff T m m') {n : ℕ} (hpa : pa % 4096 = 0)
    (hoff : off + n ≤ 4096) (hT : pa ∉ T) : m'.load (pa + off) n = m.load (pa + off) n :=
  Bytes.load_congr fun x h1 h2 =>
    h x (by rw [PGROUNDDOWN_of_mem hpa (by omega) (by omega)]; exact hT)

theorem sameOff_store {v : ℕ} (hpa : pa % 4096 = 0) (hoff : off + 8 ≤ 4096) :
    SameOff {pa} m (m.store (pa + off) 8 v) := fun x hx =>
  Bytes.store_of_not_mem fun h => hx (PGROUNDDOWN_of_mem hpa (by omega) (by omega))

theorem sameOff_fill {c : UInt8} (hpa : pa % 4096 = 0) :
    SameOff {pa} m (m.fill pa 4096 c) := fun x hx =>
  Bytes.fill_of_not_mem fun h => hx (PGROUNDDOWN_of_mem hpa (by omega) (by omega))

theorem sameOff_copy (source : Bytes) (src : ℕ) {n : ℕ} (hpa : pa % 4096 = 0)
    (hoff : off + n ≤ 4096) : SameOff {pa} m (m.copy (pa + off) n source src) := fun x hx =>
  Bytes.copy_of_not_mem fun h => hx (PGROUNDDOWN_of_mem hpa (by omega) (by omega))

theorem SameOff.trans {T : Set ℕ} {m'' : Bytes} (h : SameOff T m m') (h' : SameOff T m' m'') :
    SameOff T m m'' := fun x hx => (h' x hx).trans (h x hx)

/-! ### The free list -/

theorem Chain.congr {l : List ℕ} (hc : Chain m h l) (hm : ∀ pa ∈ l, m'.load pa 8 = m.load pa 8) :
    Chain m' h l := by
  induction l generalizing h with
  | nil => exact hc
  | cons pa l ih =>
    refine ⟨hc.1, hc.2.1, ?_⟩
    rw [hm pa List.mem_cons_self]
    exact ih hc.2.2 fun q hq => hm q (List.mem_cons_of_mem _ hq)

/-- The threaded list is determined by memory. -/
theorem Chain.unique {l l' : List ℕ} (hc : Chain m h l) (hc' : Chain m h l') : l = l' := by
  induction l generalizing h l' with
  | nil =>
    cases l' with
    | nil => rfl
    | cons pa' l' => exact absurd (hc'.1.symm.trans hc) hc'.2.1
  | cons pa l ih =>
    cases l' with
    | nil => exact absurd (hc.1.symm.trans hc') hc.2.1
    | cons pa' l' =>
      obtain rfl : pa = pa' := hc.1.symm.trans hc'.1
      rw [ih hc.2.2 hc'.2.2]

theorem Chain.sameOff {T : Set ℕ} {l : List ℕ} (hc : Chain m h l) (hm : SameOff T m m')
    (hT : ∀ pa ∈ l, pa % 4096 = 0 ∧ pa ∉ T) : Chain m' h l :=
  hc.congr fun pa hpa => by
    have := hm.load_eq (hT pa hpa).1 (by omega : 0 + 8 ≤ 4096) (hT pa hpa).2
    simpa using this

section heap

variable {s s' s'' : Phys} {l l' l'' : List ℕ} {T T' T'' U : Set ℕ} {pa : ℕ}

theorem Heap.pos (h : Heap s l T) (hpa : RamPage s.kend pa) : pa ≠ 0 := by
  have h1 := hpa.low
  have h2 := h.kend_ge
  rw [KERNBASE_eq] at h2
  omega

theorem Heap.subset (h : Heap s l T) (hT : T' ⊆ T) : Heap s l T' :=
  { h with owned := fun pa hpa => h.owned pa (hT hpa)
           disjoint := fun pa hpa => h.disjoint pa (hT hpa) }

theorem Effect.refl (h : Heap s l T) : Effect s l T s l T :=
  ⟨h, rfl, rfl, fun _ => Iff.rfl, fun _ _ _ => rfl⟩

theorem Effect.trans (h : Effect s l T s' l' T') (h' : Effect s' l' T' s'' l'' T'') :
    Effect s l T s'' l'' T'' where
  heap := h'.heap
  kend_eq := h'.kend_eq.trans h.kend_eq
  fail_eq := h'.fail_eq.trans h.fail_eq
  pages pa := (h'.pages pa).trans (h.pages pa)
  frame x hT hl := by
    have hno : ¬ (PGROUNDDOWN x ∈ T' ∨ PGROUNDDOWN x ∈ l') := fun hx =>
      ((h.pages _).mp hx).elim hT hl
    exact (h'.frame x (fun hx => hno (.inl hx)) fun hx => hno (.inr hx)).trans (h.frame x hT hl)

theorem Effect.foreign (h : Effect s l T s' l' T') (hT : pa ∉ T) (hl : pa ∉ l) :
    pa ∉ T' ∧ pa ∉ l' :=
  ⟨fun hx => ((h.pages pa).mp (.inl hx)).elim hT hl,
    fun hx => ((h.pages pa).mp (.inr hx)).elim hT hl⟩

theorem Effect.load_eq (h : Effect s l T s' l' T') {off n : ℕ} (hpa : pa % 4096 = 0)
    (hoff : off + n ≤ 4096) (hT : pa ∉ T) (hl : pa ∉ l) :
    s'.mem.load (pa + off) n = s.mem.load (pa + off) n :=
  Bytes.load_congr fun x h1 h2 => by
    have hx := PGROUNDDOWN_of_mem hpa (by omega : pa ≤ x) (by omega)
    exact h.frame x (by rwa [hx]) (by rwa [hx])

/-- Frame rule: pages `U` of another owner stay with that owner. -/
theorem Effect.frame_union (h : Effect s l T s' l' T') (hU : Heap s l U)
    (hd : ∀ pa ∈ U, pa ∉ T) : Effect s l (T ∪ U) s' l' (T' ∪ U) where
  heap :=
    { h.heap with
      owned := by
        rintro pa (hpa | hpa)
        · exact h.heap.owned pa hpa
        · rw [h.kend_eq]
          exact hU.owned pa hpa
      disjoint := by
        rintro pa (hpa | hpa)
        · exact h.heap.disjoint pa hpa
        · exact (h.foreign (hd pa hpa) (hU.disjoint pa hpa)).2 }
  kend_eq := h.kend_eq
  fail_eq := h.fail_eq
  pages pa := by
    have := h.pages pa
    simp only [Set.mem_union]
    tauto
  frame x hT hl := h.frame x (fun hx => hT (.inl hx)) hl

theorem Heap.write (h : Heap s l T) {m : Bytes} (hm : SameOff T s.mem m) :
    Effect s l T { s with mem := m } l T where
  heap :=
    { h with
      chain := h.chain.sameOff hm fun pa hpa => ⟨(h.ram pa hpa).aligned, fun hT =>
        h.disjoint pa hT hpa⟩ }
  kend_eq := rfl
  fail_eq := rfl
  pages _ := Iff.rfl
  frame x hT _ := hm x hT

/-! ### `kalloc` and `kfree` -/

theorem Chain.head_eq {m : Bytes} {h : ℕ} {l : List ℕ} (hc : Chain m h l) : h = l.headD 0 := by
  cases l with
  | nil => exact hc
  | cons pa l => exact hc.1

theorem Heap.freelist_lt (h : Heap s l T) : s.freelist < 256 ^ 8 := by
  rw [h.chain.head_eq]
  cases l with
  | nil => simp
  | cons pa l =>
    have := (h.ram pa List.mem_cons_self).high
    rw [PHYSTOP_eq] at this
    exact lt_trans this (by norm_num)

theorem Heap.eq_nil (h : Heap s l T) (h0 : s.freelist = 0) : l = [] := by
  cases l with
  | nil => rfl
  | cons pa l => exact absurd (h.chain.1.symm.trans h0) (h.pos (h.ram pa List.mem_cons_self))

/-- Taking the first page of the free list and filling it. -/
theorem Heap.take {c : UInt8} {calls : ℕ} (h : Heap s (pa :: l) T) :
    Effect s (pa :: l) T
      { s with freelist := s.mem.load pa 8, mem := s.mem.fill pa 4096 c, calls := calls }
      l (insert pa T) where
  heap :=
    { chain := h.chain.2.2.sameOff (sameOff_fill (h.ram pa List.mem_cons_self).aligned) fun q hq =>
        ⟨(h.ram q (List.mem_cons_of_mem _ hq)).aligned, fun hqp =>
          (List.nodup_cons.mp h.nodup).1 (Set.mem_singleton_iff.mp hqp ▸ hq)⟩
      nodup := (List.nodup_cons.mp h.nodup).2
      ram := fun q hq => h.ram q (List.mem_cons_of_mem _ hq)
      owned := by
        rintro q (rfl | hq)
        · exact h.ram q List.mem_cons_self
        · exact h.owned q hq
      disjoint := by
        rintro q (rfl | hq) hl
        · exact (List.nodup_cons.mp h.nodup).1 hl
        · exact h.disjoint q hq (List.mem_cons_of_mem _ hl)
      kend_ge := h.kend_ge }
  kend_eq := rfl
  fail_eq := rfl
  pages q := by
    simp only [Set.mem_insert_iff, List.mem_cons]
    tauto
  frame x _ hl := sameOff_fill (h.ram pa List.mem_cons_self).aligned x fun hx =>
    hl (Set.mem_singleton_iff.mp hx ▸ List.mem_cons_self)

/-- The next `m` calls of `kalloc` succeed. -/
def Plenty (s : Phys) (l : List ℕ) (m : ℕ) : Prop :=
  m ≤ l.length ∧ ∀ n, n < m → s.fail (s.calls + n) = false

theorem Plenty.mono {m n : ℕ} (h : Plenty s l n) (hm : m ≤ n) : Plenty s l m :=
  ⟨hm.trans h.1, fun i hi => h.2 i (hi.trans_le hm)⟩

theorem Plenty.of_same {m : ℕ} (h : Plenty s l m) (hcalls : s'.calls = s.calls)
    (hfail : s'.fail = s.fail) : Plenty s' l m :=
  ⟨h.1, fun i hi => by rw [hcalls, hfail]; exact h.2 i hi⟩

/-- `kalloc` returns 0 and changes nothing, or hands out the first free page. -/
theorem kalloc_spec (h : Heap s l T) :
    Code.wp kalloc (fun r s' =>
      (r = 0 ∧ Effect s l T s' l T ∧ s'.mem = s.mem ∧ ¬ Plenty s l 1) ∨
      (∃ l', l = r :: l' ∧ Effect s l T s' l' (insert r T) ∧ r ∉ T ∧ r ≠ 0 ∧
        SameOff {r} s.mem s'.mem ∧ ∀ m, Plenty s l (m + 1) → Plenty s' l' m)) s := by
  have hsame : Effect s l T { s with calls := s.calls + 1 } l T :=
    ⟨⟨h.chain, h.nodup, h.ram, h.owned, h.disjoint, h.kend_ge⟩, rfl, rfl,
      fun _ => Iff.rfl, fun _ _ _ => rfl⟩
  simp only [kalloc, load64, memset, Code.wp_bind, Code.wp_get, Code.wp_modify, Code.wp_ite,
    Code.wp_pure, Code.wp_gets]
  refine ⟨fun hf => .inl ⟨trivial, hsame, trivial, fun hpl => ?_⟩, fun _ =>
    ⟨fun h0 => .inl ⟨trivial, hsame, trivial, fun hpl => ?_⟩, fun hr => ?_⟩⟩
  · exact absurd ((hpl.2 0 Nat.one_pos).symm.trans hf) (by decide)
  · rw [h.eq_nil h0] at hpl
    exact absurd hpl.1 (by decide)
  right
  cases l with
  | nil => exact absurd h.chain hr
  | cons pa l =>
    have hhead : s.freelist = pa := h.chain.1
    rw [hhead]
    refine ⟨l, rfl, h.take, fun hT => h.disjoint pa hT List.mem_cons_self,
      h.pos (h.ram pa List.mem_cons_self), sameOff_fill (h.ram pa List.mem_cons_self).aligned, ?_⟩
    intro m hpl
    refine ⟨Nat.le_of_succ_le_succ hpl.1, fun n hn => ?_⟩
    have hnext := hpl.2 (n + 1) (Nat.succ_lt_succ hn)
    rwa [← Nat.add_assoc, Nat.add_right_comm] at hnext

theorem kfree_spec (h : Heap s l T) (hpa : pa ∈ T) :
    Code.wp (kfree pa) (fun _ s' =>
      Effect s l T s' (pa :: l) (T \ {pa}) ∧ SameOff {pa} s.mem s'.mem) s := by
  have hp := h.owned pa hpa
  have hpl := h.disjoint pa hpa
  have hoff : SameOff {pa} s.mem ((s.mem.fill pa 4096 1).store pa 8 s.freelist) :=
    (sameOff_fill hp.aligned).trans (sameOff_store hp.aligned (show 0 + 8 ≤ 4096 by omega))
  simp only [kfree, memset, store64, Code.wp_bind, Code.wp_get, Code.wp_modify, Code.wp_ite,
    Code.wp_panic]
  refine ⟨?_, fun _ => ⟨⟨⟨⟨rfl, h.pos hp, ?_⟩, ?_, ?_, ?_, ?_, h.kend_ge⟩, rfl, rfl, ?_, ?_⟩, hoff⟩⟩
  · have := hp.aligned
    have := hp.low
    have := hp.high
    rw [PGSIZE_eq]
    omega
  · rw [Bytes.load_store_of_lt h.freelist_lt]
    exact h.chain.sameOff hoff fun q hq => ⟨(h.ram q hq).aligned, fun hqp =>
      hpl (Set.mem_singleton_iff.mp hqp ▸ hq)⟩
  · exact List.nodup_cons.mpr ⟨hpl, h.nodup⟩
  · intro q hq
    rcases List.mem_cons.mp hq with rfl | hq
    · exact hp
    · exact h.ram q hq
  · exact fun q hq => h.owned q hq.1
  · rintro q ⟨hqT, hqp⟩ hql
    rcases List.mem_cons.mp hql with rfl | hql
    · exact hqp rfl
    · exact h.disjoint q hqT hql
  · intro q
    by_cases hq : q = pa
    · subst hq
      simp [hpa]
    · simp [hq]
  · exact fun x hT _ => hoff x fun hx => hT (Set.mem_singleton_iff.mp hx ▸ hpa)

end heap

end Xv6.Mem
