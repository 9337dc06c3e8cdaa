import Xv6.User.Malloc

/-!
# The allocator over whole runs

A program calls `malloc`, `free` and `sbrk` and writes into its blocks, in any order. `Tidy` holds after
every such run, however `sbrk` turns out as long as it is `Honest` (`Tidy.of_reach`); the bounds on the
loops do not matter, since a call that ends with one bound ends in the same way with every larger one.
-/

namespace Xv6.User

open Lib

variable {lim lo base : ℕ}

/-! ### The bounds on the loops -/

variable {s : Heap} {sbrks : ℕ → Sbrk} {hdr : ℕ → Header} {fuel fuel' : ℕ} {r : ℕ × Heap}
  {l : List ℕ}

theorem findPlace_mono {bp p q : ℕ} (h : findPlace hdr bp fuel p = some q) (hle : fuel ≤ fuel') :
    findPlace hdr bp fuel' p = some q := by
  induction fuel generalizing p fuel' with
  | zero => cases h
  | succ k ih =>
    obtain ⟨m, rfl⟩ : ∃ m, fuel' = m + 1 := ⟨fuel' - 1, by omega⟩
    rw [findPlace] at h ⊢
    split_ifs at h ⊢ with h₁ h₂
    · exact h
    · exact h
    · exact ih h (by omega)

theorem free_mono {s' : Heap} {ap : ℕ} (h : free fuel ap s = some s') (hle : fuel ≤ fuel') :
    free fuel' ap s = some s' := by
  unfold free at h ⊢
  cases hf : s.freep with
  | none => rw [hf] at h; cases h
  | some p₀ =>
    simp only [hf] at h ⊢
    cases hp : findPlace s.hdr (ap - HDR) fuel p₀ with
    | none => rw [hp] at h; cases h
    | some p =>
      rw [hp] at h
      rw [findPlace_mono hp hle]
      exact h

theorem morecore_mono {sbrk : Sbrk} {nu : ℕ} {r : Option ℕ × Heap}
    (h : morecore fuel sbrk nu s = some r) (hle : fuel ≤ fuel') :
    morecore fuel' sbrk nu s = some r := by
  unfold morecore at h ⊢
  dsimp only at h ⊢
  generalize (if nu < 4096 then 4096 else nu) = m at h ⊢
  generalize sbrk (m * HDR) s.brk = a at h ⊢
  split_ifs at h ⊢
  · exact h
  · cases hf : free fuel (a.1 + HDR) (s.grow a.1 m a.2) with
    | none => rw [hf] at h; cases h
    | some s' =>
      rw [hf] at h
      rw [free_mono hf hle]
      exact h

theorem search_mono {nunits k k' i prevp p : ℕ} (h : search fuel sbrks nunits k i prevp p s = some r)
    (hle : fuel ≤ fuel') (hk : k ≤ k') : search fuel' sbrks nunits k' i prevp p s = some r := by
  induction k generalizing k' i prevp p s with
  | zero => cases h
  | succ k ih =>
    obtain ⟨m, rfl⟩ : ∃ m, k' = m + 1 := ⟨k' - 1, by omega⟩
    rw [search] at h ⊢
    split_ifs at h ⊢ with h₁ h₂
    · exact h
    · cases hm : morecore fuel (sbrks i) nunits s with
      | none => rw [hm] at h; cases h
      | some x =>
        rw [hm] at h
        rw [morecore_mono hm hle]
        obtain ⟨_ | p', s'⟩ := x
        · exact h
        · exact ih h (by omega)
    · exact ih h (by omega)

theorem malloc_mono {nbytes : UInt32} (h : malloc base fuel sbrks nbytes s = some r)
    (hle : fuel ≤ fuel') : malloc base fuel' sbrks nbytes s = some r := by
  unfold malloc at h ⊢
  cases hf : s.freep with
  | none =>
    simp only [hf] at h ⊢
    exact search_mono h hle hle
  | some p =>
    simp only [hf] at h ⊢
    exact search_mono h hle hle

/-! ### Runs -/

/-- The heap of a program: before its first call of `malloc`, or ready for the next call. -/
def Tidy (lim lo base : ℕ) (s : State) : Prop :=
  (s.heap.freep = none ∧ s.live = [] ∧ s.heap.units = 0 ∧ base + HDR ≤ lo ∧ lo ≤ s.heap.brk ∧
    s.heap.brk ≤ lim ∧ lim ≤ MAXBRK) ∨ ∃ l, Ready lim lo base s.heap l s.live

/-- What the program writes into its blocks touches no header. -/
theorem Ready.write {s : State} (h : Ready lim lo base s.heap l s.live)
    (hw : ∀ a, (∀ d < HDR, ¬ s.Payload (a + d)) → hdr a = s.heap.hdr a) :
    Ready lim lo base { s.heap with hdr := hdr } l s.live := by
  refine ⟨h.list.congr fun a ha => hw a fun d hd => ?_, h.brk, h.above, h.freep⟩
  rintro ⟨x, hx, hlo, hhi⟩
  have hxb := h.list.live_block hx
  have hblock := h.list.blocks.block a ha
  have hlow := h.list.blocks.low
  rcases List.mem_append.mp ha with ha | ha
  · have hap := h.list.apart_live ha hx
    unfold Apart HDR at *
    rcases hblock with rfl | hblock <;> omega
  · by_cases hax : a = x
    · subst hax
      omega
    · have hap := h.list.apart_of_ne ha hx hax
      have hab := h.list.live_block ha
      unfold Apart HDR at *
      omega

namespace Tidy

variable {s : State}

/-- A call of `malloc` ends. -/
theorem malloc (h : Tidy lim lo base s) (sbrks : ℕ → Sbrk) (hsb : Honest lim (sbrks 0)) {nbytes : UInt32}
    (hsize : unitsFor nbytes * HDR < 2 ^ 31) :
    ∃ F r, Allocates lim lo base s.heap s.live (unitsFor nbytes) r ∧
      ∀ fuel ≥ F, malloc base fuel sbrks nbytes s.heap = some r := by
  have hpos : 1 ≤ unitsFor nbytes := Nat.le_add_left 1 _
  rcases h with ⟨hnone, hlive, hunits, hlo, hab, hmax⟩ | ⟨l, hready⟩
  · have hstart := ready_start hlo hab hmax hunits
    obtain ⟨F, r, hr, hF⟩ := hstart.search_ends hsb rfl hpos hsize
    refine ⟨F, r, ?_, fun fuel hfuel => ?_⟩
    · rw [hlive]
      exact ⟨fun y hy => (nomatch hy), hr.2⟩
    · simp only [User.malloc, hnone]
      exact hF fuel hfuel
  · obtain ⟨q, -, hfreep⟩ := hready.freep
    obtain ⟨F, r, hr, hF⟩ := hready.search_ends hsb hfreep hpos hsize
    refine ⟨F, r, hr, fun fuel hfuel => ?_⟩
    simp only [User.malloc, hfreep]
    exact hF fuel hfuel

theorem after_malloc {n : ℕ} {r : ℕ × Heap} (h : Allocates lim lo base s.heap s.live n r) :
    Tidy lim lo base (s.after r.1 r.2) := by
  unfold State.after
  rcases h.2.2 with ⟨hzero, l', hready⟩ | ⟨x, l', hx, hready, -⟩
  · refine .inr ⟨l', ?_⟩
    rwa [if_pos hzero]
  · have hpos : x + HDR ≠ 0 := by simp [HDR]
    refine .inr ⟨l', ?_⟩
    rwa [hx, if_neg hpos, Nat.add_sub_cancel]

theorem free {x : ℕ} (h : Tidy lim lo base s) (hx : x ∈ s.live) :
    ∃ F s', (∀ fuel ≥ F, free fuel (x + HDR) s.heap = some s') ∧
      Tidy lim lo base ⟨s', s.live.erase x⟩ := by
  rcases h with ⟨-, hlive, -⟩ | ⟨l, hready⟩
  · rw [hlive] at hx
    cases hx
  · have hready' : Ready lim lo base s.heap l (x :: s.live.erase x) :=
      ⟨hready.list.perm (List.perm_cons_erase hx), hready.brk, hready.above, hready.freep⟩
    obtain ⟨F, s', l', hF, hr, -⟩ := hready'.after_free
    exact ⟨F, s', hF, .inr ⟨l', hr⟩⟩

theorem after_free {x fuel : ℕ} {heap : Heap} (h : Tidy lim lo base s) (hx : x ∈ s.live)
    (hcall : User.free fuel (x + HDR) s.heap = some heap) :
    Tidy lim lo base ⟨heap, s.live.erase x⟩ := by
  obtain ⟨F, s', hF, htidy⟩ := h.free hx
  have heq := (free_mono hcall (Nat.le_max_left _ F)).symm.trans (hF _ (Nat.le_max_right _ F))
  rwa [Option.some.inj heq]

theorem write (h : Tidy lim lo base s) {hdr : ℕ → Header}
    (hw : ∀ a, (∀ d < HDR, ¬ s.Payload (a + d)) → hdr a = s.heap.hdr a) :
    Tidy lim lo base ⟨{ s.heap with hdr := hdr }, s.live⟩ := by
  rcases h with hnone | ⟨l, hready⟩
  · exact .inl hnone
  · exact .inr ⟨l, hready.write hw⟩

/-- The process grows otherwise than by `malloc`. -/
theorem raise {brk : ℕ} (h : Tidy lim lo base s) (hle : s.heap.brk ≤ brk) (hmax : brk ≤ lim) :
    Tidy lim lo base ⟨{ s.heap with brk := brk }, s.live⟩ := by
  rcases h with ⟨hnone, hlive, hunits, hlo, hab, -, hlim⟩ | ⟨l, hready⟩
  · exact .inl ⟨hnone, hlive, hunits, hlo, hab.trans hle, hmax, hlim⟩
  · have hb := hready.list.blocks
    have hblocks : Blocks lo base s.heap.hdr ((base :: l) ++ s.live) brk s.heap.units :=
      ⟨hb.low, hb.empty, hb.apart, fun x hx => (hb.block x hx).imp id
        fun hx => ⟨hx.1, hx.2.1, hx.2.2.trans hle⟩, hb.total⟩
    exact .inr ⟨l, ⟨hready.list.linked, hready.list.ascending, hblocks, hready.list.real⟩,
      ⟨hmax, hready.brk.2⟩, hready.above.trans hle, hready.freep⟩

theorem brk_le (h : Tidy lim lo base s) : s.heap.brk ≤ lim := by
  rcases h with ⟨-, -, -, -, -, hmax, -⟩ | ⟨l, hready⟩
  · exact hmax
  · exact hready.brk.1

variable {ι : Type} {how : ι → Sbrk}

theorem step {s' : State} {l : Label} (h : Tidy lim lo base s) (hhow : ∀ x, Honest lim (how x))
    (hl : Modest s l) (hs : Step base how s l s') : Tidy lim lo base s' := by
  cases hs with
  | malloc turns nbytes hcall =>
    obtain ⟨F, r, hr, hF⟩ := h.malloc (how ∘ turns) (hhow _) hl
    have heq := (malloc_mono hcall (Nat.le_max_left _ F)).symm.trans (hF _ (Nat.le_max_right _ F))
    obtain rfl := Option.some.inj heq
    exact after_malloc hr
  | free hx hcall => exact h.after_free hx hcall
  | write hdr hw => exact h.write hw
  | sbrk turn n hn =>
    rcases hhow turn n _ hn h.brk_le with hfail | ⟨p, hcall, hle, hmax⟩
    · rw [hfail]
      exact h.raise le_rfl h.brk_le
    · rw [hcall]
      exact h.raise (hle.trans (Nat.le_add_right _ _)) hmax

theorem of_reach (hlim : lim ≤ MAXBRK) (hhow : ∀ x, Honest lim (how x))
    (h : ((system base lo lim how).restrict Modest).Reach s) : Tidy lim lo base s := by
  refine Lts.Reach.induct ?_ (fun s l s' _ hi hs => hi.step hhow hs.1 hs.2) h
  rintro s ⟨hdr, hab, hmax, rfl⟩
  exact .inl ⟨rfl, rfl, rfl, hab, le_rfl, hmax, hlim⟩

end Tidy

/-- The free list with the blocks `l`, and the blocks in use: one circle in ascending address order, which
wraps once, from the last block to `base`; the blocks of the list end strictly below the next one, so they
neither overlap nor touch; the blocks in use overlap neither each other nor a free block; all blocks
together are what came from `sbrk`. -/
structure Sound (base : ℕ) (s : State) (l : List ℕ) : Prop where
  freep : ∃ p ∈ base :: l, s.heap.freep = some p
  circular : Linked (fun a => (s.heap.hdr a).ptr) (base :: l) base
  ascending : (base :: l).Pairwise (· < ·)
  coalesced : (base :: l).Pairwise fun x y => x + HDR * (s.heap.hdr x).size < y
  blocks : ∀ x ∈ l ++ s.live, base + HDR ≤ x ∧ 1 ≤ (s.heap.hdr x).size
  live : s.live.Pairwise (Apart s.heap.hdr)
  apart : ∀ x ∈ s.live, ∀ y ∈ l, Apart s.heap.hdr x y
  units : ((l ++ s.live).map fun x => (s.heap.hdr x).size).sum = s.heap.units

theorem Ready.sound {s : State} (h : Ready lim lo base s.heap l s.live) : Sound base s l where
  freep := h.freep
  circular := h.list.linked
  ascending := h.list.ascending.imp Below.lt
  coalesced := h.list.ascending
  blocks x hx := by
    rcases List.mem_append.mp hx with hx | hx
    · exact ⟨h.list.blocks.low.trans (h.list.free_block hx).1, (h.list.free_block hx).2.1⟩
    · exact ⟨h.list.blocks.low.trans (h.list.live_block hx).1, (h.list.live_block hx).2.1⟩
  live := (List.pairwise_append.mp h.list.blocks.apart).2.1
  apart x hx y hy := (h.list.apart_live (List.mem_cons_of_mem base hy) hx).symm
  units := by
    have htotal := h.list.blocks.total
    rwa [List.cons_append, List.map_cons, List.sum_cons, h.list.blocks.empty, Nat.zero_add] at htotal

theorem gapped_honest (gap : Option ℕ) : Honest MAXBRK (gapped gap) := by
  intro n brk _ _
  unfold gapped
  cases gap with
  | none => exact .inl rfl
  | some g =>
    dsimp only
    split_ifs with hle
    · exact .inr ⟨_, rfl, Nat.le_add_right _ _, hle⟩
    · exact .inl rfl

/-- **The heap allocator.** After any run of `malloc`, `free`, `sbrk` and writes into the blocks in use,
with requests that an `int` can hold, and with `sbrk` failing or returning regions at increasing addresses,
the list is sound (or there is none yet). The next call of `malloc` ends, with 0 or with a block of at least the bytes asked for that overlaps no block
in use, and leaves the headers of these alone; and the next call of `free` ends. -/
theorem heap_allocator {s : State} (h : ((system base lo MAXBRK gapped).restrict Modest).Reach s) :
    (s.heap.freep = none ∧ s.live = [] ∧ s.heap.units = 0 ∨ ∃ l, Sound base s l) ∧
    (∀ (gaps : ℕ → Option ℕ) nbytes, unitsFor nbytes * HDR < 2 ^ 31 → ∃ F r heap,
      (∀ fuel ≥ F, malloc base fuel (gapped ∘ gaps) nbytes s.heap = some (r, heap)) ∧
      (∀ y ∈ s.live, heap.hdr y = s.heap.hdr y) ∧
      (r = 0 ∨ ∃ x, r = x + HDR ∧ nbytes.toNat ≤ HDR * ((heap.hdr x).size - 1) ∧
        ∀ y ∈ s.live, Apart heap.hdr x y)) ∧
    ∀ x ∈ s.live, ∃ F heap, ∀ fuel ≥ F, free fuel (x + HDR) s.heap = some heap := by
  have htidy := Tidy.of_reach le_rfl gapped_honest h
  refine ⟨?_, fun gaps nbytes hsize => ?_, fun x hx => ?_⟩
  · rcases htidy with ⟨hnone, hlive, hunits, -⟩ | ⟨l, hready⟩
    · exact .inl ⟨hnone, hlive, hunits⟩
    · exact .inr ⟨l, hready.sound⟩
  · obtain ⟨F, ⟨r, heap⟩, ⟨hkeep, -, hr⟩, hF⟩ := htidy.malloc (gapped ∘ gaps) (gapped_honest _) hsize
    refine ⟨F, r, heap, hF, hkeep, ?_⟩
    rcases hr with ⟨hzero, -⟩ | ⟨x, l', hx, hready, hsize⟩
    · exact .inl hzero
    · refine .inr ⟨x, hx, ?_, ?_⟩
      · have hsize' : (heap.hdr x).size = unitsFor nbytes := hsize
        rw [hsize']
        unfold unitsFor HDR
        omega
      · exact (List.pairwise_cons.mp (List.pairwise_append.mp hready.list.blocks.apart).2.1).1
  · obtain ⟨F, heap, hF, -⟩ := htidy.free hx
    exact ⟨F, heap, hF⟩

/-- The heap of a program whose memory ends at 4096. -/
def firstHeap : Heap := ⟨fun _ => ⟨0, 0⟩, none, 4096, 0⟩

/-- A program asks for 100 bytes and gets the last eight units of the first region; freeing them
ends. -/
theorem heap_allocator_first :
    ∃ s, ((system 16 4096 MAXBRK gapped).restrict Modest).Reach s ∧ s.live = [4096 + HDR * 4088] ∧
      (∃ l, Sound 16 s l) ∧
      ∃ F heap, ∀ fuel ≥ F, free fuel (4096 + HDR * 4088 + HDR) s.heap = some heap := by
  obtain ⟨heap, hcall, hfreep⟩ : ∃ heap,
      malloc 16 4 (gapped ∘ fun _ => some 0) 100 firstHeap =
        some (4096 + HDR * 4088 + HDR, heap) ∧ heap.freep ≠ none := ⟨_, rfl, by decide⟩
  have h0 : ((system 16 4096 MAXBRK gapped).restrict Modest).Reach ⟨firstHeap, []⟩ :=
    .init ⟨_, by decide, by decide, rfl⟩
  have hstep : Step 16 gapped ⟨firstHeap, []⟩ (.malloc 100) ⟨heap, [4096 + HDR * 4088]⟩ :=
    Step.malloc (s := ⟨firstHeap, []⟩) (fun _ => some 0) 100 hcall
  have hsize : Modest ⟨firstHeap, []⟩ (.malloc 100) := show unitsFor 100 * HDR < 2 ^ 31 by decide
  have hs := h0.step ⟨hsize, hstep⟩
  obtain ⟨hsound, -, hfree⟩ := heap_allocator hs
  exact ⟨_, hs, rfl, hsound.resolve_left fun hn => hfreep hn.1, hfree _ (by simp)⟩

end Xv6.User
