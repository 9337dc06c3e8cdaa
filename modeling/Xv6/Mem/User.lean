import Mathlib.Data.Fintype.Card
import Xv6.Mem.Mapping

/-!
# User address spaces

The table of a process maps the page numbers below some `n` to pages of its own and nothing else
except a few entries near the top of the address space. `Resized` says how the memory functions of
`vm.c` move from one such space to another: pages go to and come from the free list, and nobody
else's memory changes; `Kept` says which pages stay as they are. Every function is shown not to panic
and, when it fails, to leave the space as it was.
-/

namespace Xv6.Mem

open Lib (Bytes Code)

/-- Page number of the trapframe; user memory lies below it. -/
def topPage : ℕ := 67108862

/-- What an address space may contain: the entries above user memory, which the user cannot
access, and the flags that pages of user memory have. -/
structure Layout where
  /-- The entries above user memory. -/
  special : ℕ → ℕ
  /-- The flags of pages of user memory. -/
  flags : ℕ → Prop
  special_low : ∀ v, v < topPage → special v = 0
  special_kernel : ∀ v, special v &&& PTE_U = 0
  flags_leaf : ∀ f, flags f → IsLeaf f

/-- The table maps exactly `n` pages of user memory, and the special entries above. -/
structure Space (L : Layout) (A : PTab) (n : ℕ) : Prop where
  mapped : Mapped A 0 n
  flags : ∀ v, v < n → L.flags (PTE_FLAGS (A.leaf v))
  rest : ∀ v, n ≤ v → A.leaf v = L.special v

/-- The pages of an address space: its page-table pages and its `n` pages of user memory. -/
def PTab.footprint (A : PTab) (n : ℕ) : Set ℕ := A.tables ∪ A.pages 0 n

/-- An address space of `n` pages, stored in memory and owned by its process. -/
structure User (L : Layout) (s : Phys) (l : List ℕ) (A : PTab) (n : ℕ) : Prop where
  rep : Rep s.mem A
  heap : Heap s l (A.footprint n)
  space : Space L A n

/-- An address space of `n` pages became one of `n'` pages. -/
structure Resized (L : Layout) (s : Phys) (l : List ℕ) (A : PTab) (n : ℕ) (s' : Phys)
    (l' : List ℕ) (A' : PTab) (n' : ℕ) : Prop where
  user : User L s' l' A' n'
  eff : Effect s l (A.footprint n) s' l' (A'.footprint n')
  root_eq : A'.root = A.root

/-- The byte at `off` of page `w` of user memory. -/
def PTab.byte (A : PTab) (m : Bytes) (w off : ℕ) : UInt8 := m (PTE2PA (A.leaf w) + off)

/-- The first `n` pages of an address space are mapped as before and have the same bytes. -/
structure Kept (m : Bytes) (A : PTab) (m' : Bytes) (A' : PTab) (n : ℕ) : Prop where
  leaf : ∀ w, w < n → A'.leaf w = A.leaf w
  byte : ∀ w off, w < n → off < 4096 → A'.byte m' w off = A.byte m w off

/-- Page `w` of an address space is new: full of zeros and open to the user. -/
structure Fresh (m : Bytes) (A : PTab) (w : ℕ) : Prop where
  flags : PTE_FLAGS (A.leaf w) = PTE_W ||| PTE_X ||| PTE_R ||| PTE_U ||| PTE_V
  byte : ∀ off, off < 4096 → A.byte m w off = 0

section kept

variable {s s' : Phys} {l l' : List ℕ} {A A' A'' : PTab} {m m' m'' : Bytes} {n n' w : ℕ}
  {T T' : Set ℕ}

theorem Kept.refl : Kept m A m A n := ⟨fun _ _ => rfl, fun _ _ _ _ => rfl⟩

theorem Kept.trans (h : Kept m A m' A' n) (h' : Kept m' A' m'' A'' n) : Kept m A m'' A'' n :=
  ⟨fun w hw => (h'.leaf w hw).trans (h.leaf w hw),
    fun w off hw hoff => (h'.byte w off hw hoff).trans (h.byte w off hw hoff)⟩

theorem Kept.mono (h : Kept m A m' A' n) (hn : n' ≤ n) : Kept m A m' A' n' :=
  ⟨fun w hw => h.leaf w (by omega), fun w off hw => h.byte w off (by omega)⟩

theorem Fresh.kept (h : Fresh m A w) (hk : Kept m A m' A' n) (hw : w < n) : Fresh m' A' w :=
  ⟨by rw [hk.leaf w hw, h.flags], fun off hoff => (hk.byte w off hw hoff).trans (h.byte off hoff)⟩

/-- Pages whose entries and bytes were not written to are kept. -/
theorem Kept.of_bytes (hleaf : ∀ w, w < n → A'.leaf w = A.leaf w)
    (hm : ∀ x, PGROUNDDOWN x ∈ A.pages 0 n → m' x = m x) : Kept m A m' A' n := by
  refine ⟨hleaf, fun w off hw hoff => ?_⟩
  unfold PTab.byte
  rw [hleaf w hw]
  apply hm
  rw [PGROUNDDOWN_of_mem (PTE2PA_aligned _) (Nat.le_add_right ..) (by omega)]
  exact ⟨w, Nat.zero_le w, by omega, rfl⟩

theorem Kept.of_effect (hleaf : ∀ w, w < n → A'.leaf w = A.leaf w) (he : Effect s l T s' l' T')
    (hT : ∀ pa ∈ A.pages 0 n, pa ∉ T) (hl : ∀ pa ∈ A.pages 0 n, pa ∉ l) :
    Kept s.mem A s'.mem A' n :=
  .of_bytes hleaf fun x hx => he.frame x (hT _ hx) (hl _ hx)

theorem Kept.of_sameOff (hm : SameOff T m m') (hT : ∀ pa ∈ A.pages 0 n, pa ∉ T) :
    Kept m A m' A n := .of_bytes (fun _ _ => rfl) fun x hx => hm x (hT _ hx)

end kept

section user

variable {L : Layout} {s s' s'' : Phys} {l l' l'' : List ℕ} {A A' A'' : PTab} {n n' n'' : ℕ}

theorem Resized.refl (h : User L s l A n) : Resized L s l A n s l A n := ⟨h, .refl h.heap, rfl⟩

theorem Resized.trans (h : Resized L s l A n s' l' A' n') (h' : Resized L s' l' A' n' s'' l'' A'' n'') :
    Resized L s l A n s'' l'' A'' n'' :=
  ⟨h'.user, h.eff.trans h'.eff, h'.root_eq.trans h.root_eq⟩

theorem User.le_ram (h : User L s l A n) : n ≤ 32768 := by
  have hpage : ∀ w : Fin n, RamPage s.kend (PTE2PA (A.leaf w)) := fun w =>
    h.heap.owned _ (.inr ⟨w, by omega, by omega, rfl⟩)
  have hge := h.heap.kend_ge
  have hlt : ∀ w : Fin n, (PTE2PA (A.leaf w) - KERNBASE) / 4096 < 32768 := fun w => by
    have h2 := (hpage w).high
    rw [PHYSTOP_eq] at h2
    rw [KERNBASE_eq]
    omega
  have hinj : Function.Injective fun w : Fin n =>
      (⟨(PTE2PA (A.leaf w) - KERNBASE) / 4096, hlt w⟩ : Fin 32768) := by
    intro w w' he
    have h1 := (hpage w).low
    have h2 := (hpage w').low
    have h3 := (hpage w).aligned
    have h4 := (hpage w').aligned
    have he' : (PTE2PA (A.leaf w) - KERNBASE) / 4096 = (PTE2PA (A.leaf w') - KERNBASE) / 4096 :=
      Fin.mk.inj he
    rw [KERNBASE_eq] at he' hge
    exact Fin.ext (h.space.mapped.inj w w' (by omega) (by omega) (by omega) (by omega) (by omega))
  have hcard := Fintype.card_le_of_injective _ hinj
  rwa [Fintype.card_fin, Fintype.card_fin] at hcard

variable {m mem oldsz v v0 : ℕ}

theorem Mapped.drop (h : Mapped A 0 n) (hm : m ≤ n) : Mapped A m (n - m) :=
  ⟨fun w _ h2 => h.leaf w (by omega) (by omega),
    fun w w' _ h2 _ h4 => h.inj w w' (by omega) (by omega) (by omega) (by omega),
    fun pa ⟨w, h1, h2, h3⟩ => h.sep pa ⟨w, by omega, by omega, h3⟩⟩

theorem Mapped.take (h : Mapped A 0 n) (hm : m ≤ n) : Mapped A 0 m :=
  ⟨fun w _ h2 => h.leaf w (by omega) (by omega),
    fun w w' _ h2 _ h4 => h.inj w w' (by omega) (by omega) (by omega) (by omega),
    fun pa ⟨w, h1, h2, h3⟩ => h.sep pa ⟨w, by omega, by omega, h3⟩⟩

theorem PTab.pages_split (hm : m ≤ n) : A.pages 0 n = A.pages m (n - m) ∪ A.pages 0 m := by
  ext pa
  constructor
  · rintro ⟨w, h1, h2, h3⟩
    by_cases hw : w < m
    · exact .inr ⟨w, by omega, by omega, h3⟩
    · exact .inl ⟨w, by omega, by omega, h3⟩
  · rintro (⟨w, h1, h2, h3⟩ | ⟨w, h1, h2, h3⟩) <;> exact ⟨w, by omega, by omega, h3⟩

/-- A tree with the same mapped pages has them mapped too. -/
theorem Mapped.congr (h : Mapped A 0 n) (hl : ∀ w, w < n → A'.leaf w = A.leaf w)
    (hsep : ∀ pa ∈ A.pages 0 n, pa ∉ A'.tables) : Mapped A' 0 n := by
  have hpg : A'.pages 0 n = A.pages 0 n := PTab.pages_congr fun w _ h2 => hl w (by omega)
  refine ⟨fun w h1 h2 => ?_, fun w w' h1 h2 h3 h4 he => ?_, fun pa hpa => hsep pa (hpg ▸ hpa)⟩
  · rw [hl w (by omega)]
    exact h.leaf w h1 h2
  · rw [hl w (by omega), hl w' (by omega)] at he
    exact h.inj w w' h1 h2 h3 h4 he

theorem uvmunmap_spec (h : User L s l A n) (hm : m ≤ n) (hn : n ≤ 67108862) :
    Code.wp (uvmunmap A.root (m * 4096) (n - m) true) (fun _ s' => ∃ l' A',
      Resized L s l A n s' l' A' m ∧ Kept s.mem A s'.mem A' m ∧
      ∀ w, m ≤ w → w < n → PTE2PA (A.leaf w) ∈ l') s := by
  have hfp : A.footprint n = (A.tables ∪ A.pages m (n - m)) ∪ A.pages 0 m := by
    rw [PTab.footprint, PTab.pages_split hm, Set.union_assoc]
  have hh := h.heap
  rw [hfp] at hh
  rw [uvmunmap_eq (by omega)]
  refine Code.wp_mono (unmapLoop_spec h.rep (hh.subset Set.subset_union_left) (by omega)
    (h.space.mapped.drop hm)) ?_
  rintro - s' ⟨l', hr', heff⟩
  have hkeep : ∀ w, w < m → (A.unmap m (n - m)).leaf w = A.leaf w := fun w hw => if_neg (by omega)
  have hfp' : (A.unmap m (n - m)).footprint m = A.tables ∪ A.pages 0 m := by
    rw [PTab.footprint, PTab.pages_congr (A := A) fun w _ h2 => hkeep w (by omega)]
    rfl
  have hstay : ∀ pa ∈ A.pages 0 m, pa ∉ A.tables ∪ A.pages m (n - m) := by
    rintro pa ⟨w, h1, h2, rfl⟩ (hT | ⟨w', h3, h4, h5⟩)
    · exact h.space.mapped.sep _ ⟨w, h1, by omega, rfl⟩ hT
    · have := h.space.mapped.inj w w' (by omega) (by omega) (by omega) (by omega) h5.symm
      omega
  have heff' := heff.frame_union (hh.subset Set.subset_union_right) hstay
  rw [← hfp, ← hfp'] at heff'
  refine ⟨l', A.unmap m (n - m), ⟨⟨hr', heff'.heap, ?_, ?_, ?_⟩, heff', rfl⟩,
    .of_effect hkeep heff hstay fun pa hpa => hh.disjoint pa (.inr hpa), fun w h1 h2 => ?_⟩
  · exact (h.space.mapped.take hm).congr hkeep fun pa ⟨w, h1, h2, h3⟩ =>
      h.space.mapped.sep pa ⟨w, h1, by omega, h3⟩
  · intro v hv
    rw [hkeep v hv]
    exact h.space.flags v (by omega)
  · intro v hv
    by_cases hvn : v < n
    · exact (if_pos (by omega)).trans (L.special_low v (by unfold topPage; omega)).symm
    · exact (if_neg (by omega)).trans (h.space.rest v (by omega))
  · have hin : PTE2PA (A.leaf w) ∈ A.pages m (n - m) := ⟨w, h1, by omega, rfl⟩
    rcases (heff.pages _).mpr (.inl (.inr hin)) with hT | hl'
    · exact absurd hT (h.space.mapped.sep _ ⟨w, Nat.zero_le w, by omega, rfl⟩)
    · exact hl'

/-! ### One more page -/

/-- A page fresh for an address space, owned together with it. -/
structure Spare (s : Phys) (l : List ℕ) (A : PTab) (n mem : ℕ) : Prop where
  heap : Heap s l (insert mem (A.footprint n))
  fresh : mem ∉ A.footprint n

theorem mappages_user_spec {perm : ℕ} (h : User L s l A n) (hs : Spare s l A n mem)
    (hn : n < topPage) (hperm : perm < 1024) (hflags : L.flags (perm ||| PTE_V)) :
    Code.wp (mappages A.root (n * 4096) PGSIZE mem perm) (fun r s' => ∃ l' A', A'.root = A.root ∧
      Kept s.mem A s'.mem A' n ∧
      (r = 0 ∧ User L s' l' A' (n + 1) ∧
          Effect s l (insert mem (A.footprint n)) s' l' (A'.footprint (n + 1)) ∧
          PTE2PA (A'.leaf n) = mem ∧ PTE_FLAGS (A'.leaf n) = perm ||| PTE_V ∧
          (∀ off, off < 4096 → A'.byte s'.mem n off = s.mem (mem + off)) ∧
          (∀ m, Plenty s l (m + 2) → Plenty s' l' m) ∨
        r = -1 ∧ User L s' l' A' n ∧ Spare s' l' A' n mem ∧
          Effect s l (insert mem (A.footprint n)) s' l' (insert mem (A'.footprint n)) ∧
          ¬ Plenty s l 2)) s := by
  have hram := hs.heap.owned mem (.inl rfl)
  have hleaf : A.leaf n = 0 := (h.space.rest n le_rfl).trans (L.special_low n hn)
  refine Code.wp_mono (mappage_spec hperm h.rep (h.heap.subset Set.subset_union_left)
    (by unfold topPage at hn; omega) hram.lt hleaf) ?_
  rintro r s' ⟨l', A', hc, hres⟩
  -- the user pages and `mem` are foreign to the table's own pages
  have hforeign : ∀ pa ∈ insert mem (A.pages 0 n), pa ∉ A.tables := by
    rintro pa (rfl | hpa) hT
    · exact hs.fresh (.inl hT)
    · exact h.space.mapped.sep pa hpa hT
  have hfp : insert mem (A.footprint n) = A.tables ∪ insert mem (A.pages 0 n) := by
    rw [PTab.footprint, Set.union_insert]
  have hU : Heap s l (insert mem (A.pages 0 n)) :=
    hs.heap.subset (by rw [hfp]; exact Set.subset_union_right)
  have heff := hc.eff.frame_union hU hforeign
  rw [← hfp] at heff
  have hsep : ∀ pa ∈ insert mem (A.pages 0 n), pa ∉ A'.tables := fun pa hpa =>
    (hc.eff.foreign (hforeign pa hpa) (hU.disjoint pa hpa)).1
  have hkept : (∀ w, w < n → A'.leaf w = A.leaf w) → Kept s.mem A s'.mem A' n := fun hleaf =>
    .of_effect hleaf hc.eff (fun pa hpa => hforeign pa (.inr hpa))
      fun pa hpa => hU.disjoint pa (.inr hpa)
  have hspare : ∀ off, off < 4096 → s'.mem (mem + off) = s.mem (mem + off) := by
    intro off hoff
    have hpg : PGROUNDDOWN (mem + off) = mem :=
      PGROUNDDOWN_of_mem hram.aligned (Nat.le_add_right ..) (by omega)
    apply hc.eff.frame
    · rw [hpg]
      exact hforeign mem (.inl rfl)
    · rw [hpg]
      exact hU.disjoint mem (.inl rfl)
  rcases hres with ⟨hr0, hl, hst⟩ | ⟨hr0, hl, hst⟩
  · have hfl : PTE_FLAGS (A'.leaf n) = perm ||| PTE_V := by
      rw [hl, Function.update_self, Nat.or_assoc]
      exact PTE_FLAGS_or (flags_or_lt hperm (by decide))
    have hlow : ∀ w, w < n → A'.leaf w = A.leaf w := fun w hw => by
      rw [hl, Function.update_of_ne (by omega)]
    have htop : PTE2PA (A'.leaf n) = mem := by
      rw [hl, Function.update_self, Nat.or_assoc]
      exact PTE2PA_or hram.aligned hram.lt (flags_or_lt hperm (by decide))
    have hpg : A'.pages 0 (n + 1) = insert mem (A.pages 0 n) := by
      ext pa
      constructor
      · rintro ⟨w, h1, h2, h3⟩
        by_cases hw : w = n
        · exact .inl (by rw [← h3, hw, htop])
        · exact .inr ⟨w, h1, by omega, by rw [← hlow w (by omega)]; exact h3⟩
      · rintro (rfl | ⟨w, h1, h2, h3⟩)
        · exact ⟨n, by omega, by omega, htop⟩
        · exact ⟨w, h1, by omega, by rw [hlow w (by omega)]; exact h3⟩
    have hfp' : A'.footprint (n + 1) = A'.tables ∪ insert mem (A.pages 0 n) := by
      rw [PTab.footprint, hpg]
    rw [← hfp'] at heff
    refine ⟨l', A', hc.root_eq, hkept hlow, .inl ⟨hr0, ⟨hc.rep, heff.heap, ⟨?_, ?_, ?_⟩, ?_, ?_⟩, heff,
      htop, hfl, fun off hoff => by rw [PTab.byte, htop]; exact hspare off hoff,
      fun m hpl => hst m (hpl.mono (Nat.add_le_add_left (mapCost_le A n) m))⟩⟩
    · intro w h1 h2
      by_cases hw : w = n
      · rw [hw, ← isLeaf_flags, hfl]
        exact L.flags_leaf _ hflags
      · rw [hlow w (by omega)]
        exact h.space.mapped.leaf w h1 (by omega)
    · have hmem : ∀ w, w < n → PTE2PA (A.leaf w) ≠ mem := fun w hw he =>
        hs.fresh (.inr ⟨w, by omega, by omega, he⟩)
      intro w w' h1 h2 h3 h4 he
      by_cases hw : w = n <;> by_cases hw' : w' = n
      · omega
      · rw [hw, htop, hlow w' (by omega)] at he
        exact absurd he.symm (hmem w' (by omega))
      · rw [hw', htop, hlow w (by omega)] at he
        exact absurd he (hmem w (by omega))
      · rw [hlow w (by omega), hlow w' (by omega)] at he
        exact h.space.mapped.inj w w' h1 (by omega) h3 (by omega) he
    · rw [hpg]
      exact hsep
    · intro v hv
      by_cases hvn : v = n
      · rw [hvn, hfl]
        exact hflags
      · rw [hlow v (by omega)]
        exact h.space.flags v (by omega)
    · intro v hv
      rw [hl, Function.update_of_ne (by omega)]
      exact h.space.rest v (by omega)
  · have hpg : A'.pages 0 n = A.pages 0 n := PTab.pages_congr fun w _ _ => by rw [hl]
    have hfp' : insert mem (A'.footprint n) = A'.tables ∪ insert mem (A.pages 0 n) := by
      rw [PTab.footprint, hpg, Set.union_insert]
    rw [← hfp'] at heff
    refine ⟨l', A', hc.root_eq, hkept fun w _ => by rw [hl], .inr ⟨hr0,
      ⟨hc.rep, heff.heap.subset (Set.subset_insert ..), ?_, ?_, ?_⟩, ⟨heff.heap, ?_⟩, heff,
      fun hpl => hst (hpl.mono (walkCost_le ..))⟩⟩
    · exact h.space.mapped.congr (fun w _ => by rw [hl]) fun pa hpa => hsep pa (.inr hpa)
    · intro v hv
      rw [hl]
      exact h.space.flags v hv
    · intro v hv
      rw [hl]
      exact h.space.rest v hv
    · rintro (hT | hT)
      · exact hsep mem (.inl rfl) hT
      · exact hs.fresh (.inr (hpg ▸ hT))

theorem Spare.kept {m : Bytes} (hs : Spare s l A n mem) (hm : SameOff {mem} s.mem m) :
    Kept s.mem A m A n := by
  apply Kept.of_sameOff hm
  intro pa hpa he
  exact hs.fresh (.inr (Set.mem_singleton_iff.mp he ▸ hpa))

theorem Spare.write {m : Bytes} (h : User L s l A n) (hs : Spare s l A n mem)
    (hm : SameOff {mem} s.mem m) :
    User L { s with mem := m } l A n ∧ Spare { s with mem := m } l A n mem ∧
      Effect s l (insert mem (A.footprint n)) { s with mem := m } l (insert mem (A.footprint n)) := by
  have heff := hs.heap.write (hm.mono (by simp))
  refine ⟨⟨?_, heff.heap.subset (Set.subset_insert ..), h.space⟩, ⟨heff.heap, hs.fresh⟩, heff⟩
  exact h.rep.sameOff hm fun pa hpa he => hs.fresh (.inl (Set.mem_singleton_iff.mp he ▸ hpa))

theorem kalloc_user_spec {α : Type} {K : ℕ → PCode α} {R : α → Phys → Prop} (h : User L s l A n)
    (hfail : ∀ s', Resized L s l A n s' l A n → s'.mem = s.mem → ¬ Plenty s l 1 →
      Code.wp (K 0) R s')
    (hok : ∀ mem s' l', mem ≠ 0 → User L s' l' A n → Spare s' l' A n mem →
      Effect s l (A.footprint n) s' l' (insert mem (A.footprint n)) → SameOff {mem} s.mem s'.mem →
      (∀ m, Plenty s l (m + 1) → Plenty s' l' m) → Code.wp (K mem) R s') :
    Code.wp (kalloc >>= K) R s := by
  rw [Code.wp_bind]
  refine Code.wp_mono (kalloc_spec h.heap) ?_
  rintro mem s' (⟨rfl, heff, hm, hst⟩ | ⟨l', rfl, heff, hnew, hpos, hm, hst⟩)
  · exact hfail s' ⟨⟨hm ▸ h.rep, heff.heap, h.space⟩, heff, rfl⟩ hm hst
  · refine hok mem s' l' hpos ⟨?_, heff.heap.subset (Set.subset_insert ..), h.space⟩
      ⟨heff.heap, hnew⟩ heff hm hst
    exact h.rep.sameOff hm fun pa hpa he => hnew (.inl (Set.mem_singleton_iff.mp he ▸ hpa))

theorem kfree_spare_spec (h : User L s l A n) (hs : Spare s l A n mem) :
    Code.wp (kfree mem) (fun _ s' => User L s' (mem :: l) A n ∧
      Effect s l (insert mem (A.footprint n)) s' (mem :: l) (A.footprint n) ∧
      Kept s.mem A s'.mem A n) s := by
  refine Code.wp_mono (kfree_spec hs.heap (Set.mem_insert ..)) ?_
  rintro - s' ⟨heff, hm⟩
  rw [Set.insert_sdiff_self_of_notMem hs.fresh] at heff
  exact ⟨⟨h.rep.sameOff hm fun pa hpa he => hs.fresh (.inl (Set.mem_singleton_iff.mp he ▸ hpa)),
    heff.heap, h.space⟩, heff, hs.kept hm⟩

/-! ### Growing and shrinking -/

/-- The number of pages of `sz` bytes. -/
def npages (sz : ℕ) : ℕ := (sz + 4095) / 4096

theorem PGROUNDUP_eq {sz : ℕ} (h : sz + 4095 < 2 ^ 64) : PGROUNDUP sz = npages sz * 4096 := by
  unfold PGROUNDUP npages
  rw [PGSIZE_eq]
  omega

theorem npages_mul (v : ℕ) : npages (v * 4096) = v := by
  unfold npages
  omega

theorem uvmdealloc_spec (newsz : ℕ) (h : User L s l A (npages oldsz)) :
    Code.wp (uvmdealloc A.root oldsz newsz) (fun r s' => r = min oldsz newsz ∧ ∃ l' A',
      Resized L s l A (npages oldsz) s' l' A' (npages r) ∧ Kept s.mem A s'.mem A' (npages r) ∧
      ∀ w, npages r ≤ w → w < npages oldsz → PTE2PA (A.leaf w) ∈ l') s := by
  have hram := h.le_ram
  rw [uvmdealloc, Code.wp_ite]
  refine ⟨fun hle => ⟨by omega, l, A, .refl h, .refl, fun w h1 h2 => absurd h2 (by omega)⟩,
    fun hlt => ?_⟩
  have hold : PGROUNDUP oldsz = npages oldsz * 4096 := PGROUNDUP_eq (by unfold npages at hram; omega)
  have hnew : PGROUNDUP newsz = npages newsz * 4096 := PGROUNDUP_eq (by unfold npages at hram; omega)
  have hcount : sext32 ((npages oldsz * 4096 - npages newsz * 4096) / PGSIZE) =
      npages oldsz - npages newsz := by
    have hdiv : (npages oldsz * 4096 - npages newsz * 4096) / PGSIZE =
        npages oldsz - npages newsz := by
      rw [PGSIZE_eq]
      omega
    rw [hdiv, sext32, if_pos (by omega), Nat.mod_eq_of_lt (by omega)]
  have hmin : newsz = min oldsz newsz := by omega
  simp only [hold, hnew, hcount, Code.wp_bind, Code.wp_ite, Code.wp_pure]
  refine ⟨fun hpg => ?_, fun hpg => ⟨hmin, l, A, ?_⟩⟩
  · refine Code.wp_mono (uvmunmap_spec h (by omega) (by omega)) ?_
    rintro - s' ⟨l', A', hres⟩
    exact ⟨hmin, l', A', hres⟩
  · rw [show npages newsz = npages oldsz by unfold npages at hpg ⊢; omega]
    exact ⟨.refl h, .refl, fun w h1 h2 => absurd h2 (by omega)⟩

theorem uvmdealloc_undo (h : User L s l A v) (hle : v0 ≤ v) :
    Code.wp (uvmdealloc A.root (v * 4096) (v0 * 4096)) (fun _ s' => ∃ l' A',
      Resized L s l A v s' l' A' v0 ∧ Kept s.mem A s'.mem A' v0) s := by
  have hd : Code.wp (uvmdealloc A.root (v * 4096) (v0 * 4096)) _ s :=
    uvmdealloc_spec _ (by rwa [npages_mul])
  refine Code.wp_mono hd ?_
  rintro r s' ⟨rfl, l', A', hres, hkept, -⟩
  rw [Nat.min_eq_right (by omega), npages_mul] at hres hkept
  rw [npages_mul] at hres
  exact ⟨l', A', hres, hkept⟩

theorem allocLoop_spec {newsz : ℕ} (k : ℕ) (h : User L s l A v) (hle : v0 ≤ v)
    (hflags : L.flags (PTE_W ||| PTE_X ||| PTE_R ||| PTE_U ||| PTE_V)) :
    Code.wp (allocLoop A.root (v0 * 4096) newsz k (v * 4096)) (fun r s' => ∃ l' A',
      r = 0 ∧ Resized L s l A v s' l' A' v0 ∧ Kept s.mem A s'.mem A' v0 ∧ ¬ Plenty s l (3 * k) ∨
      r = newsz ∧ Resized L s l A v s' l' A' (v + k) ∧ Kept s.mem A s'.mem A' v ∧
        (∀ w, v ≤ w → w < v + k → Fresh s'.mem A' w) ∧
        ∀ m, Plenty s l (m + 3 * k) → Plenty s' l' m) s := by
  induction k generalizing s l A v with
  | zero =>
    exact ⟨l, A, .inr ⟨rfl, .refl h, .refl, fun w h1 h2 => absurd h2 (by omega), fun _ hpl => hpl⟩⟩
  | succ k ih =>
    have hram := h.le_ram
    refine kalloc_user_spec h (fun s1 hres hm1 hst => ?_)
      fun mem s1 l1 hpos h1 hs1 heff1 hm1 hst1 => ?_
    · rw [if_pos rfl, Code.wp_bind]
      refine Code.wp_mono (uvmdealloc_undo hres.user hle) ?_
      rintro - s2 ⟨l2, A2, hres2, hkept⟩
      exact ⟨l2, A2, .inl ⟨rfl, hres.trans hres2, hm1 ▸ hkept, fun hpl => hst (hpl.mono (by omega))⟩⟩
    · rw [if_neg hpos, memset, Code.wp_bind, Code.wp_modify, Code.wp_bind]
      have hram := hs1.heap.owned mem (.inl rfl)
      have hfill := sameOff_fill (m := s1.mem) (c := 0) hram.aligned
      obtain ⟨h2, hs2, heff2⟩ := hs1.write h1 hfill
      have hkept2 : Kept s.mem A (s1.mem.fill mem PGSIZE 0) A v :=
        (Kept.of_sameOff hm1 fun pa hpa he =>
          hs1.fresh (.inr (Set.mem_singleton_iff.mp he ▸ hpa))).trans (hs1.kept hfill)
      refine Code.wp_mono (mappages_user_spec h2 hs2 (by unfold topPage; omega) (by decide)
        hflags) ?_
      rintro r s3 ⟨l3, A3, hroot, hkept3,
        ⟨rfl, h3, heff3, -, hfl3, hbytes3, hst3⟩ | ⟨rfl, h3, hs3, heff3, hst3⟩⟩
      · have hgrow : Resized L s l A v s3 l3 A3 (v + 1) :=
          ⟨h3, (heff1.trans heff2).trans heff3, hroot⟩
        have hfresh : Fresh s3.mem A3 v := by
          refine ⟨hfl3, fun off hoff => (hbytes3 off hoff).trans ?_⟩
          exact Bytes.fill_of_mem ⟨Nat.le_add_right .., by rw [PGSIZE_eq]; omega⟩
        rw [if_neg (by decide), ← hroot,
          show v * 4096 + PGSIZE = (v + 1) * 4096 by rw [PGSIZE_eq]; omega]
        refine Code.wp_mono (ih h3 (by omega)) ?_
        rintro r s4 ⟨l4, A4, ⟨hr0, hres, hkept4, hst4⟩ | ⟨hr0, hres, hkept4, hnew4, hst4⟩⟩
        · refine ⟨l4, A4, .inl ⟨hr0, hgrow.trans hres,
            ((hkept2.trans hkept3).mono hle).trans hkept4, fun hpl => hst4 ?_⟩⟩
          exact hst3 _ (hst1 _ (hpl.mono (by omega)))
        · rw [show v + 1 + k = v + (k + 1) by omega] at hres hnew4
          refine ⟨l4, A4, .inr ⟨hr0, hgrow.trans hres,
            (hkept2.trans hkept3).trans (hkept4.mono (by omega)), fun w h1 h2 => ?_,
            fun m hpl => hst4 m (hst3 _ (hst1 _ (hpl.mono (by omega))))⟩⟩
          by_cases hw : w = v
          · exact hw ▸ hfresh.kept hkept4 (by omega)
          · exact hnew4 w (by omega) h2
      · rw [if_pos (by decide), Code.wp_bind]
        refine Code.wp_mono (kfree_spare_spec h3 hs3) ?_
        rintro - s4 ⟨h4, heff4, hkept4⟩
        have hback : Resized L s l A v s4 (mem :: l3) A3 v :=
          ⟨h4, ((heff1.trans heff2).trans heff3).trans heff4, hroot⟩
        rw [Code.wp_bind, ← hroot]
        refine Code.wp_mono (uvmdealloc_undo h4 hle) ?_
        rintro - s5 ⟨l5, A5, hres, hkept5⟩
        exact ⟨l5, A5, .inl ⟨rfl, hback.trans hres,
          (((hkept2.trans hkept3).trans hkept4).mono hle).trans hkept5,
          fun hpl => hst3 (hst1 2 (hpl.mono (by omega)))⟩⟩

/-- `uvmalloc` grows to the larger of the sizes, or returns 0 and leaves the space as it was. -/
theorem uvmalloc_spec (newsz : ℕ) (h : User L s l A (npages oldsz))
    (hflags : L.flags (PTE_W ||| PTE_X ||| PTE_R ||| PTE_U ||| PTE_V)) :
    Code.wp (uvmalloc A.root oldsz newsz) (fun r s' => ∃ l' A',
      Kept s.mem A s'.mem A' (npages oldsz) ∧
      (r = 0 ∧ Resized L s l A (npages oldsz) s' l' A' (npages oldsz) ∧
        (max oldsz newsz ≠ 0 → ¬ Plenty s l (3 * (npages newsz - npages oldsz))) ∨
      r ≠ 0 ∧ r = max oldsz newsz ∧ Resized L s l A (npages oldsz) s' l' A' (npages r) ∧
        (∀ w, npages oldsz ≤ w → w < npages r → Fresh s'.mem A' w) ∧
        ∀ m, Plenty s l (m + 3 * (npages newsz - npages oldsz)) → Plenty s' l' m)) s := by
  have hram := h.le_ram
  have hold : PGROUNDUP oldsz = npages oldsz * 4096 := PGROUNDUP_eq (by unfold npages at hram; omega)
  rw [uvmalloc, Code.wp_ite]
  refine ⟨fun hlt => ⟨l, A, .refl, .inr ⟨by omega, by omega, .refl h,
    fun w h1 h2 => absurd h2 (by omega), fun m hpl => hpl.mono (by omega)⟩⟩, fun hle => ?_⟩
  simp only [hold]
  refine Code.wp_mono (allocLoop_spec _ h le_rfl hflags) ?_
  have hk : (newsz - npages oldsz * 4096 + PGSIZE - 1) / PGSIZE = npages newsz - npages oldsz := by
    rw [PGSIZE_eq]
    unfold npages
    omega
  rw [hk]
  rintro r s' ⟨l', A', ⟨rfl, hres, hkept, hst⟩ | ⟨rfl, hres, hkept, hnew, hst⟩⟩
  · exact ⟨l', A', hkept, .inl ⟨rfl, hres, fun _ => hst⟩⟩
  · have hn : npages oldsz + (npages r - npages oldsz) = npages r := by
      unfold npages
      omega
    rw [hn] at hres hnew
    by_cases hr : r = 0
    · obtain rfl : oldsz = r := by omega
      exact ⟨l', A', hkept, .inl ⟨hr, hres, fun hc => absurd (by omega) hc⟩⟩
    · exact ⟨l', A', hkept, .inr ⟨hr, by omega, hres, hnew, hst⟩⟩

end user

end Xv6.Mem
