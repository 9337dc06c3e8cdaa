import Xv6.Lib.Circle
import Xv6.User.Umalloc

/-!
# The blocks of the heap

`Blocks` says that the blocks of a heap, free or not, lie apart from each other and add up to what was
obtained from the system. Joining two blocks that touch, splitting one, and adding a new one above all
others keep it. `FreeList` is the free list: one circle through `base`, in ascending order, without two
blocks that touch.
-/

namespace Xv6.User

open Lib

variable {lo base hi n p bp x y : ℕ} {hdr hdr' : ℕ → Header} {M M' l₁ l₂ live : List ℕ}

/-- The block `x` ends strictly below `y`. -/
def Below (hdr : ℕ → Header) (x y : ℕ) : Prop := x + HDR * (hdr x).size < y

/-- The blocks `x` and `y` do not overlap. -/
def Apart (hdr : ℕ → Header) (x y : ℕ) : Prop :=
  x + HDR * (hdr x).size ≤ y ∨ y + HDR * (hdr y).size ≤ x

theorem Apart.symm (h : Apart hdr x y) : Apart hdr y x := Or.symm h

theorem Apart.congr (h : Apart hdr x y) (hx : (hdr' x).size = (hdr x).size)
    (hy : (hdr' y).size = (hdr y).size) : Apart hdr' x y := by
  unfold Apart at h ⊢
  rwa [hx, hy]

theorem Below.congr (h : Below hdr x y) (hx : (hdr' x).size = (hdr x).size) : Below hdr' x y := by
  unfold Below at h ⊢
  rwa [hx]

theorem Below.join {z : ℕ} (h : Below hdr y z) (htouch : x + HDR * (hdr x).size = y)
    (hx : (hdr' x).size = (hdr x).size + (hdr y).size) : Below hdr' x z := by
  unfold Below at h ⊢
  rw [hx, Nat.mul_add]
  omega

theorem header_update {v : Header} (h : hdr' = Function.update hdr x v) :
    hdr' x = v ∧ ∀ y, y ≠ x → hdr' y = hdr y := by
  subst h
  exact ⟨Function.update_self .., fun y hy => Function.update_of_ne hy ..⟩

/-- Only a pointer is written. -/
theorem size_of_relinked {q : ℕ} (hx : hdr' x = ⟨q, (hdr x).size⟩)
    (hsame : ∀ y, y ≠ x → hdr' y = hdr y) (y : ℕ) : (hdr' y).size = (hdr y).size := by
  by_cases hy : y = x
  · rw [hy, hx]
  · rw [hsame y hy]

/-- The blocks `M` lie apart, between `lo` and `hi`, and have `n` units in all. Only `base`, which is a
header with nothing behind it and below `lo`, is empty. -/
structure Blocks (lo base : ℕ) (hdr : ℕ → Header) (M : List ℕ) (hi n : ℕ) : Prop where
  low : base + HDR ≤ lo
  empty : (hdr base).size = 0
  apart : M.Pairwise (Apart hdr)
  block : ∀ x ∈ M, x = base ∨ lo ≤ x ∧ 1 ≤ (hdr x).size ∧ x + HDR * (hdr x).size ≤ hi
  total : (M.map fun x => (hdr x).size).sum = n

namespace Blocks

theorem perm (h : Blocks lo base hdr M hi n) (hM : M.Perm M') : Blocks lo base hdr M' hi n :=
  ⟨h.low, h.empty, (hM.pairwise_iff Apart.symm).mp h.apart, fun x hx => h.block x (hM.mem_iff.mpr hx),
    by rw [← h.total, (hM.map _).sum_eq]⟩

theorem le (h : Blocks lo base hdr M hi n) (hx : x ∈ M) : base ≤ x := by
  rcases h.block x hx with rfl | hb
  · exact le_refl _
  · have := h.low
    omega

/-- Only the sizes matter. -/
theorem congr (h : Blocks lo base hdr M hi n) (hsize : ∀ x ∈ M, (hdr' x).size = (hdr x).size)
    (hbase : (hdr' base).size = 0) : Blocks lo base hdr' M hi n := by
  refine ⟨h.low, hbase, ?_, fun x hx => ?_, ?_⟩
  · exact h.apart.imp_of_mem fun hx hy hxy => hxy.congr (hsize _ hx) (hsize _ hy)
  · rw [hsize x hx]
    exact h.block x hx
  · rw [← h.total]
    exact congrArg List.sum (List.map_congr_left hsize)

theorem join (h : Blocks lo base hdr (x :: y :: M) hi n) (hy : y ≠ base)
    (htouch : x + HDR * (hdr x).size = y) (hx : (hdr' x).size = (hdr x).size + (hdr y).size)
    (hother : ∀ z ∈ M, (hdr' z).size = (hdr z).size) (hbase : (hdr' base).size = 0) :
    Blocks lo base hdr' (x :: M) hi n := by
  obtain ⟨hxM, hyM, hM⟩ : (∀ z ∈ y :: M, Apart hdr x z) ∧ (∀ z ∈ M, Apart hdr y z) ∧
      M.Pairwise (Apart hdr) := by simpa only [List.pairwise_cons] using h.apart
  have hxb := h.block x (by simp)
  have hyb := (h.block y (by simp)).resolve_left hy
  have hmul : HDR * (hdr' x).size = HDR * (hdr x).size + HDR * (hdr y).size := by
    rw [hx, Nat.mul_add]
  refine ⟨h.low, hbase, List.pairwise_cons.mpr ⟨fun z hz => ?_, ?_⟩, fun z hz => ?_, ?_⟩
  · -- no block has room between the two
    have h₁ := hxM z (List.mem_cons_of_mem y hz)
    have h₂ := hyM z hz
    have hzb := h.block z (by simp [hz])
    unfold Apart at h₁ h₂ ⊢
    rw [hother z hz, hmul]
    have hpos : HDR = 16 := rfl
    rcases hzb with rfl | hzb
    · right
      have := h.le (x := x) (by simp)
      rw [h.empty]
      omega
    · have hz1 : HDR * 1 ≤ HDR * (hdr z).size := Nat.mul_le_mul_left _ hzb.2.1
      omega
  · exact hM.imp_of_mem fun ha hb hab => hab.congr (hother _ ha) (hother _ hb)
  · rcases List.mem_cons.mp hz with rfl | hz
    · rcases hxb with hxb | hxb
      · subst hxb
        rw [h.empty] at htouch
        exact absurd (by omega) hy
      · right
        refine ⟨hxb.1, by omega, by omega⟩
    · rw [hother z hz]
      exact h.block z (by simp [hz])
  · have htotal := h.total
    simp only [List.map_cons, List.sum_cons] at htotal ⊢
    rw [List.map_congr_left hother, hx]
    omega

theorem cut {m : ℕ} (h : Blocks lo base hdr (x :: M) hi n) (hm : 1 ≤ m) (hlt : m < (hdr x).size)
    (hy : y = x + HDR * ((hdr x).size - m)) (hx : (hdr' x).size = (hdr x).size - m)
    (hym : (hdr' y).size = m) (hother : ∀ z ∈ M, (hdr' z).size = (hdr z).size)
    (hbase : (hdr' base).size = 0) : Blocks lo base hdr' (y :: x :: M) hi n := by
  obtain ⟨hxM, hM⟩ := List.pairwise_cons.mp h.apart
  have hxb : lo ≤ x ∧ 1 ≤ (hdr x).size ∧ x + HDR * (hdr x).size ≤ hi := by
    refine (h.block x (by simp)).resolve_left fun he => ?_
    rw [he, h.empty] at hlt
    omega
  have hmul : HDR * (hdr x).size = HDR * ((hdr x).size - m) + HDR * m := by
    rw [← Nat.mul_add]
    congr 1
    omega
  refine ⟨h.low, hbase, ?_, fun z hz => ?_, ?_⟩
  · refine List.pairwise_cons.mpr ⟨fun z hz => ?_, List.pairwise_cons.mpr ⟨fun z hz => ?_, ?_⟩⟩
    · unfold Apart
      rw [hym]
      rcases List.mem_cons.mp hz with rfl | hz
      · right
        rw [hx]
        omega
      · have h₁ := hxM z hz
        unfold Apart at h₁
        rw [hother z hz]
        omega
    · have h₁ := hxM z hz
      unfold Apart at h₁ ⊢
      rw [hother z hz, hx]
      omega
    · exact hM.imp_of_mem fun ha hb hab => hab.congr (hother _ ha) (hother _ hb)
  · rcases List.mem_cons.mp hz with rfl | hz
    · right
      rw [hym]
      omega
    · rcases List.mem_cons.mp hz with rfl | hz
      · right
        rw [hx]
        omega
      · rw [hother z hz]
        exact h.block z (by simp [hz])
  · have htotal := h.total
    simp only [List.map_cons, List.sum_cons] at htotal ⊢
    rw [List.map_congr_left hother, hx, hym]
    omega

theorem extend (h : Blocks lo base hdr M hi n) (hhi : lo ≤ hi) (hx : hi ≤ x) {m : ℕ}
    (hm : 1 ≤ m) (hxm : (hdr' x).size = m) (hother : ∀ z ∈ M, (hdr' z).size = (hdr z).size)
    (hbase : (hdr' base).size = 0) : Blocks lo base hdr' (x :: M) (x + HDR * m) (n + m) := by
  have hall := h.congr hother hbase
  have hlow := h.low
  refine ⟨h.low, hbase, List.pairwise_cons.mpr ⟨fun z hz => ?_, hall.apart⟩, fun z hz => ?_, ?_⟩
  · right
    rcases hall.block z hz with rfl | hb
    · rw [hbase]
      omega
    · omega
  · rcases List.mem_cons.mp hz with rfl | hz
    · right
      rw [hxm]
      omega
    · exact (hall.block z hz).imp id fun hb => ⟨hb.1, hb.2.1, by omega⟩
  · simp only [List.map_cons, List.sum_cons]
    rw [hxm, hall.total, Nat.add_comm]

end Blocks

/-! ### The free list -/

/-- The free list: `base` and the blocks `l`, in a circle and in ascending order, no two of them
touching; apart from each other and from the blocks `live`. -/
structure FreeList (lo base : ℕ) (hdr : ℕ → Header) (l live : List ℕ) (hi n : ℕ) : Prop where
  linked : Linked (fun a => (hdr a).ptr) (base :: l) base
  ascending : (base :: l).Pairwise (Below hdr)
  blocks : Blocks lo base hdr ((base :: l) ++ live) hi n
  real : base ∉ live

theorem Below.lt (h : Below hdr x y) : x < y := Nat.lt_of_le_of_lt (Nat.le_add_right _ _) h

theorem exists_place {l : List ℕ} (h : (x :: l).Pairwise (· < ·)) (hx : x < bp) (hnot : bp ∉ l) :
    ∃ l₁ p l₂, x :: l = l₁ ++ p :: l₂ ∧ p < bp ∧ (∀ y ∈ l₁, y < p) ∧ ∀ y ∈ l₂, bp < y := by
  induction l generalizing x with
  | nil => exact ⟨[], x, [], rfl, hx, by simp, by simp⟩
  | cons y l ih =>
    obtain ⟨hxl, hl⟩ := List.pairwise_cons.mp h
    have hy : y ≠ bp := fun he => hnot (by simp [he])
    by_cases hlt : y < bp
    · obtain ⟨l₁, p, l₂, heq, hp, hlow, hup⟩ := ih hl hlt fun hm => hnot (by simp [hm])
      have hpm : p ∈ y :: l := by rw [heq]; simp
      refine ⟨x :: l₁, p, l₂, by rw [heq]; rfl, hp, fun z hz => ?_, hup⟩
      rcases List.mem_cons.mp hz with rfl | hz
      · exact hxl p hpm
      · exact hlow z hz
    · refine ⟨[], x, y :: l, rfl, hx, by simp, fun z hz => ?_⟩
      rcases List.mem_cons.mp hz with rfl | hz
      · omega
      · have := (List.pairwise_cons.mp hl).1 z hz
        omega

namespace FreeList

variable {l : List ℕ}

/-- A block in use is not `base`. -/
theorem live_block (h : FreeList lo base hdr l live hi n) (hx : x ∈ live) :
    lo ≤ x ∧ 1 ≤ (hdr x).size ∧ x + HDR * (hdr x).size ≤ hi :=
  (h.blocks.block x (List.mem_append_right _ hx)).resolve_left fun he => h.real (he ▸ hx)

/-- A block on the list is not `base`. -/
theorem free_block (h : FreeList lo base hdr l live hi n) (hx : x ∈ l) :
    lo ≤ x ∧ 1 ≤ (hdr x).size ∧ x + HDR * (hdr x).size ≤ hi := by
  have hlt := ((List.pairwise_cons.mp h.ascending).1 x hx).lt
  exact (h.blocks.block x (by simp [hx])).resolve_left (by omega)

theorem apart_live (h : FreeList lo base hdr l live hi n) (hx : x ∈ base :: l) (hy : y ∈ live) :
    Apart hdr x y :=
  (List.pairwise_append.mp h.blocks.apart).2.2 x hx y hy

theorem apart_of_ne (h : FreeList lo base hdr l live hi n) (hx : x ∈ live) (hy : y ∈ live)
    (hne : x ≠ y) : Apart hdr x y :=
  have : Std.Symm (Apart hdr) := ⟨fun _ _ => Apart.symm⟩
  (List.pairwise_append.mp h.blocks.apart).2.1.forall hx hy hne

/-- A block in use is none of the nodes. -/
theorem live_not_mem (h : FreeList lo base hdr l live hi n) (hy : y ∈ live) : y ∉ base :: l := by
  intro hm
  have hb := h.live_block hy
  have hap := h.apart_live hm hy
  unfold Apart HDR at *
  omega

theorem head_not_mem (h : FreeList lo base hdr l (x :: live) hi n) : x ∉ live := by
  intro hm
  have hb := h.live_block (x := x) (by simp)
  have hap := (List.pairwise_cons.mp (List.pairwise_append.mp h.blocks.apart).2.1).1 x hm
  unfold Apart HDR at *
  omega

end FreeList

/-- The element behind `p` moves to the front. -/
theorem perm_second (l₁ : List ℕ) (p x : ℕ) (l₂ : List ℕ) :
    (l₁ ++ p :: x :: l₂).Perm (x :: (l₁ ++ p :: l₂)) := by
  have h : ((l₁ ++ [p]) ++ x :: l₂).Perm (x :: ((l₁ ++ [p]) ++ l₂)) := List.perm_middle
  simpa using h

/-- The moment in `free` at which the block `bp`, with the nodes `l₁` and `p` below and `l₂` above it, has
been joined to what it touches above. -/
structure Joined (lo base : ℕ) (hdr : ℕ → Header) (l₁ : List ℕ) (p bp : ℕ) (l₂ live : List ℕ)
    (hi n : ℕ) : Prop where
  lower : Linked (fun a => (hdr a).ptr) l₁ p
  upper : Linked (fun a => (hdr a).ptr) l₂ base
  next : (hdr bp).ptr = l₂.headD base
  ascending : (l₁ ++ p :: l₂).Pairwise (Below hdr)
  lt : p < bp
  above : ∀ y ∈ l₂, Below hdr bp y
  blocks : Blocks lo base hdr (bp :: (l₁ ++ p :: l₂) ++ live) hi n

/-- `free` joins the block to the one above it. -/
theorem FreeList.join_upper {l : List ℕ} (h : FreeList lo base hdr l (bp :: live) hi n)
    (hhi : hi ≤ MAXBRK) (hl : base :: l = l₁ ++ p :: l₂) (hp : p < bp) (hup : ∀ y ∈ l₂, bp < y) :
    ∃ l₂', l₂' ⊆ l₂ ∧ Joined lo base (joinUpper hdr p bp) l₁ p bp l₂' live hi n ∧
      (hdr bp).size ≤ (joinUpper hdr p bp bp).size ∧
      ∀ x, x ≠ bp → joinUpper hdr p bp x = hdr x := by
  have hlink := h.linked
  have hasc := h.ascending
  have hblk := h.blocks
  rw [hl] at hlink hasc hblk
  obtain ⟨hlow, hpn, hupl⟩ : Linked (fun a => (hdr a).ptr) l₁ p ∧ (hdr p).ptr = l₂.headD base ∧
      Linked (fun a => (hdr a).ptr) l₂ base := linked_append.mp hlink
  have hnot : bp ∉ l₁ ++ p :: l₂ := hl ▸ h.live_not_mem (by simp)
  have hne : ∀ x ∈ l₁ ++ p :: l₂, x ≠ bp := fun x hx he => hnot (he ▸ hx)
  have hbase : base ≠ bp := hne base (hl ▸ List.mem_cons_self)
  have hperm : Blocks lo base hdr (bp :: (l₁ ++ p :: l₂) ++ live) hi n :=
    hblk.perm List.perm_middle
  have hlo := hblk.low
  by_cases htouch : bp + HDR * (hdr bp).size = (hdr p).ptr
  · -- the block above is the first of `l₂`
    cases l₂ with
    | nil =>
      have hb := h.live_block (x := bp) (by simp)
      simp only [List.headD_nil] at hpn
      omega
    | cons y l₂ =>
      have hpy : (hdr p).ptr = y := hpn
      have hy : base < y := by
        have hb := h.live_block (x := bp) (by simp)
        have := hup y (by simp)
        omega
      have hsize : ((hdr bp).size + (hdr y).size) % 2 ^ 32 = (hdr bp).size + (hdr y).size := by
        have hyb := hperm.block y (by simp)
        unfold MAXBRK HDR at *
        exact Nat.mod_eq_of_lt (by omega)
      have hupd : joinUpper hdr p bp =
          Function.update hdr bp ⟨(hdr y).ptr, (hdr bp).size + (hdr y).size⟩ := by
        rw [User.joinUpper, if_pos htouch, hpy, hsize]
      obtain ⟨hself, hsame⟩ := header_update hupd
      have hlist : l₁ ++ p :: y :: l₂ = (l₁ ++ [p]) ++ y :: l₂ := by simp
      have hmem : ∀ x ∈ l₁ ++ p :: l₂, x ∈ l₁ ++ p :: y :: l₂ := fun x hx => by
        simp only [List.mem_append, List.mem_cons] at hx ⊢
        tauto
      have hsub : (l₁ ++ p :: l₂).Pairwise (Below hdr) := hasc.sublist (by simp)
      have hyl := (List.pairwise_append.mp (hlist ▸ hasc)).2.1
      refine ⟨l₂, List.subset_cons_self y l₂, ⟨?_, ?_, ?_, ?_, hp, ?_, ?_⟩, ?_, hsame⟩
      · exact hlow.congr fun x hx => by rw [hsame x (hne x (by simp [hx]))]
      · exact hupl.2.congr fun x hx => by rw [hsame x (hne x (by simp [hx]))]
      · rw [hself]
        exact hupl.1
      · exact hsub.imp_of_mem fun hx _ hxy => hxy.congr (by rw [hsame _ (hne _ (hmem _ hx))])
      · intro z hz
        exact ((List.pairwise_cons.mp hyl).1 z hz).join (htouch.trans hpy) (by rw [hself])
      · refine Blocks.join (y := y) ?_ (by omega) (htouch.trans hpy) (by rw [hself]) ?_ ?_
        · exact hperm.perm (((perm_second l₁ p y l₂).cons bp).append_right live)
        · intro z hz
          have hz' : z ≠ bp := by
            rcases List.mem_append.mp hz with hz | hz
            · exact hne z (hmem z hz)
            · exact fun he => h.head_not_mem (he ▸ hz)
          rw [hsame z hz']
        · rw [hsame base hbase]
          exact hperm.empty
      · rw [hself]
        exact Nat.le_add_right _ _
  · have hupd : joinUpper hdr p bp = Function.update hdr bp ⟨(hdr p).ptr, (hdr bp).size⟩ := by
      rw [User.joinUpper, if_neg htouch]
    obtain ⟨hself, hsame⟩ := header_update hupd
    have hsize := size_of_relinked hself hsame
    refine ⟨l₂, List.Subset.refl l₂, ⟨?_, ?_, ?_, ?_, hp, ?_, ?_⟩, (hsize bp).ge, hsame⟩
    · exact hlow.congr fun x hx => by rw [hsame x (hne x (by simp [hx]))]
    · exact hupl.congr fun x hx => by rw [hsame x (hne x (by simp [hx]))]
    · rw [hself]
      exact hpn
    · exact hasc.imp fun hxy => hxy.congr (hsize _)
    · -- the first node above does not touch, the others are further up
      cases l₂ with
      | nil => simp
      | cons y l₂ =>
        have hap : Apart hdr y bp := h.apart_live (hl ▸ by simp) (by simp)
        have hpy : (hdr p).ptr = y := hpn
        have hby := hup y (by simp)
        have hlist : l₁ ++ p :: y :: l₂ = (l₁ ++ [p]) ++ y :: l₂ := by simp
        have hyl := (List.pairwise_append.mp (hlist ▸ hasc)).2.1
        have hfirst : bp + HDR * (hdr bp).size < y := by
          unfold Apart at hap
          omega
        intro z hz
        unfold Below
        rw [hsize]
        rcases List.mem_cons.mp hz with rfl | hz
        · exact hfirst
        · exact hfirst.trans ((List.pairwise_cons.mp hyl).1 z hz).lt
    · exact hperm.congr (fun x _ => hsize x) (by rw [hsize, hperm.empty])

/-- What follows a node may change, the first node stays. -/
theorem exists_cons_append {l : List ℕ} (h : base :: l = l₁ ++ p :: l₂) (l₃ : List ℕ) :
    ∃ l', base :: l' = l₁ ++ p :: l₃ := by
  cases l₁ with
  | nil => exact ⟨l₃, by rw [List.nil_append, (List.cons.inj h).1]⟩
  | cons y l₁ => exact ⟨l₁ ++ p :: l₃, by rw [(List.cons.inj h).1]; rfl⟩

/-- `free` joins the block to the one below it, or links it in. -/
theorem Joined.join_lower (h : Joined lo base hdr l₁ p bp l₂ live hi n) (hhi : hi ≤ MAXBRK)
    (hl : ∃ l, base :: l = l₁ ++ p :: l₂) (hbp : base < bp) (hreal : base ∉ live)
    (hdisj : ∀ x ∈ live, x ∉ l₁ ++ p :: l₂) :
    ∃ l', FreeList lo base (joinLower hdr p bp) l' live hi n ∧ p ∈ base :: l' ∧
      (∃ x ∈ l', (hdr bp).size ≤ (joinLower hdr p bp x).size) ∧
      ∀ x ∈ live, joinLower hdr p bp x = hdr x := by
  obtain ⟨l, hl⟩ := hl
  have hne : ∀ x ∈ l₁, x ≠ p := fun x hx he => by
    have := ((List.pairwise_append.mp h.ascending).2.2 x hx p (by simp)).lt
    omega
  have hne₂ : ∀ x ∈ l₂, x ≠ p := fun x hx he => by
    have := ((List.pairwise_cons.mp (List.pairwise_append.mp h.ascending).2.1).1 x hx).lt
    omega
  have hne₃ : ∀ x ∈ live, x ≠ p := fun x hx he => hdisj x hx (by simp [he])
  have hpb : base ≤ p := h.blocks.le (by simp)
  have hbase : base ∈ l₁ ++ p :: l₂ := hl ▸ List.mem_cons_self
  by_cases htouch : p + HDR * (hdr p).size = bp
  · have hp : p ≠ base := fun he => by
      rw [he, h.blocks.empty] at htouch
      omega
    have hsize : ((hdr p).size + (hdr bp).size) % 2 ^ 32 = (hdr p).size + (hdr bp).size := by
      have hb := h.blocks.block bp (by simp)
      unfold MAXBRK HDR at *
      exact Nat.mod_eq_of_lt (by omega)
    have hupd : joinLower hdr p bp =
        Function.update hdr p ⟨l₂.headD base, (hdr p).size + (hdr bp).size⟩ := by
      rw [joinLower, if_pos htouch, hsize, h.next]
    obtain ⟨hself, hsame⟩ := header_update hupd
    obtain ⟨hasc₁, hasc₂, hcross⟩ := List.pairwise_append.mp h.ascending
    obtain ⟨hpl₂, hasc₂⟩ := List.pairwise_cons.mp hasc₂
    refine ⟨l, ⟨?_, ?_, ?_, hreal⟩, ?_, ⟨p, ?_, ?_⟩, fun x hx => hsame x (hne₃ x hx)⟩
    · rw [hl]
      refine linked_append.mpr ⟨?_, ?_, ?_⟩
      · exact h.lower.congr fun x hx => by rw [hsame x (hne x hx)]
      · show (joinLower hdr p bp p).ptr = _
        rw [hself]
      · exact h.upper.congr fun x hx => by rw [hsame x (hne₂ x hx)]
    · rw [hl]
      refine List.pairwise_append.mpr ⟨?_, List.pairwise_cons.mpr ⟨?_, ?_⟩, ?_⟩
      · exact hasc₁.imp_of_mem fun hx _ hxy => hxy.congr (by rw [hsame _ (hne _ hx)])
      · exact fun y hy => (h.above y hy).join htouch (by rw [hself])
      · exact hasc₂.imp_of_mem fun hx _ hxy => hxy.congr (by rw [hsame _ (hne₂ _ hx)])
      · exact fun x hx y hy => (hcross x hx y hy).congr (by rw [hsame x (hne x hx)])
    · rw [hl]
      have hmid : ((l₁ ++ p :: l₂) ++ live).Perm (p :: (l₁ ++ (l₂ ++ live))) := by
        rw [List.append_assoc]
        exact List.perm_middle
      have hperm : (bp :: (l₁ ++ p :: l₂) ++ live).Perm (p :: bp :: (l₁ ++ (l₂ ++ live))) := by
        exact (hmid.cons bp).trans (List.Perm.swap p bp _)
      have hjoin : Blocks lo base (joinLower hdr p bp) (p :: (l₁ ++ (l₂ ++ live))) hi n := by
        refine (h.blocks.perm hperm).join (by omega) htouch (by rw [hself]) ?_ ?_
        · intro z hz
          have hz' : z ≠ p := by
            simp only [List.mem_append] at hz
            rcases hz with hz | hz | hz
            · exact hne z hz
            · exact hne₂ z hz
            · exact hne₃ z hz
          rw [hsame z hz']
        · rw [hsame base hp.symm, h.blocks.empty]
      exact hjoin.perm hmid.symm
    · rw [hl]
      simp
    · have hm : p ∈ base :: l := by rw [hl]; simp
      exact (List.mem_cons.mp hm).resolve_left hp
    · rw [hself]
      exact Nat.le_add_left _ _
  · have hupd : joinLower hdr p bp = Function.update hdr p ⟨bp, (hdr p).size⟩ := by
      rw [joinLower, if_neg htouch]
    obtain ⟨hself, hsame⟩ := header_update hupd
    have hsize := size_of_relinked hself hsame
    have hpbp : bp ≠ p := h.lt.ne'
    obtain ⟨l', hl'⟩ := exists_cons_append hl (bp :: l₂)
    have hbelow : ∀ x ∈ l₁ ++ [p], Below hdr x bp := by
      intro x hx
      have hxp : x ≤ p := by
        rcases List.mem_append.mp hx with hx | hx
        · exact ((List.pairwise_append.mp h.ascending).2.2 x hx p (by simp)).lt.le
        · exact (List.mem_singleton.mp hx).le
      have hap : Apart hdr bp x := by
        refine (List.pairwise_cons.mp h.blocks.apart).1 x ?_
        show x ∈ (l₁ ++ p :: l₂) ++ live
        simp only [List.mem_append, List.mem_cons, List.not_mem_nil, or_false] at hx ⊢
        tauto
      have hblk := h.blocks.block bp (by simp)
      have hlt := h.lt
      unfold Below
      rcases List.mem_append.mp hx with hx | hx
      · have := (List.pairwise_append.mp h.ascending).2.2 x hx p (by simp)
        unfold Below at this
        omega
      · rw [List.mem_singleton.mp hx] at hap ⊢
        unfold Apart at hap
        omega
    obtain ⟨hasc₁, hasc₂, hcross⟩ := List.pairwise_append.mp h.ascending
    obtain ⟨hpl₂, hasc₂⟩ := List.pairwise_cons.mp hasc₂
    have hall : (l₁ ++ p :: bp :: l₂).Pairwise (Below hdr) := by
      refine List.pairwise_append.mpr ⟨hasc₁, List.pairwise_cons.mpr ⟨?_, ?_⟩, ?_⟩
      · intro y hy
        rcases List.mem_cons.mp hy with rfl | hy
        · exact hbelow p (by simp)
        · exact hpl₂ y hy
      · exact List.pairwise_cons.mpr ⟨h.above, hasc₂⟩
      · intro x hx y hy
        rcases List.mem_cons.mp hy with rfl | hy
        · exact hcross x hx _ (by simp)
        · rcases List.mem_cons.mp hy with rfl | hy
          · exact hbelow x (by simp [hx])
          · exact hcross x hx y (by simp [hy])
    have hbpl : bp ∈ l' := by
      have hm : bp ∈ base :: l' := by rw [hl']; simp
      exact (List.mem_cons.mp hm).resolve_left hbp.ne'
    refine ⟨l', ⟨?_, ?_, ?_, hreal⟩, ?_, ⟨bp, hbpl, (hsize bp).ge⟩,
      fun x hx => hsame x (hne₃ x hx)⟩
    · rw [hl']
      refine linked_append.mpr ⟨?_, ?_, ?_, ?_⟩
      · exact h.lower.congr fun x hx => by rw [hsame x (hne x hx)]
      · show (joinLower hdr p bp p).ptr = _
        rw [hself]
        rfl
      · show (joinLower hdr p bp bp).ptr = _
        rw [hsame bp hpbp]
        exact h.next
      · exact h.upper.congr fun x hx => by rw [hsame x (hne₂ x hx)]
    · rw [hl']
      exact hall.imp fun hxy => hxy.congr (hsize _)
    · rw [hl']
      have hperm : (bp :: (l₁ ++ p :: l₂) ++ live).Perm ((l₁ ++ p :: bp :: l₂) ++ live) := by
        exact (perm_second l₁ p bp l₂).symm.append_right live
      exact (h.blocks.perm hperm).congr (fun x _ => hsize x) (by rw [hsize, h.blocks.empty])
    · rw [hl']
      simp

namespace FreeList

variable {l : List ℕ}

theorem remove (h : FreeList lo base hdr l live hi n) (hl : base :: l = l₁ ++ p :: x :: l₂)
    (hx : x ≠ base) (hp : hdr' p = ⟨(hdr x).ptr, (hdr p).size⟩) (hsame : ∀ y, y ≠ p → hdr' y = hdr y) :
    ∃ l', base :: l' = l₁ ++ p :: l₂ ∧ FreeList lo base hdr' l' (x :: live) hi n := by
  obtain ⟨l', hl'⟩ := exists_cons_append hl l₂
  have hlink := h.linked
  have hasc := h.ascending
  have hblk := h.blocks
  rw [hl] at hlink hasc hblk
  obtain ⟨hlow, -, hxn, hup⟩ := linked_append.mp hlink
  obtain ⟨-, hascp, hcross⟩ := List.pairwise_append.mp hasc
  have hne₁ : ∀ y ∈ l₁, y ≠ p := fun y hy => (hcross y hy p (by simp)).lt.ne
  have hne₂ : ∀ y ∈ l₂, y ≠ p := fun y hy =>
    ((List.pairwise_cons.mp hascp).1 y (by simp [hy])).lt.ne'
  have hsize := size_of_relinked hp hsame
  refine ⟨l', hl', ?_, ?_, ?_, ?_⟩
  · rw [hl']
    refine linked_append.mpr ⟨?_, ?_, ?_⟩
    · exact hlow.congr fun y hy => by rw [hsame y (hne₁ y hy)]
    · show (hdr' p).ptr = _
      rw [hp]
      exact hxn
    · exact hup.congr fun y hy => by rw [hsame y (hne₂ y hy)]
  · rw [hl']
    have hsub : (l₁ ++ p :: l₂).Pairwise (Below hdr) := hasc.sublist (by simp)
    exact hsub.imp fun hyz => hyz.congr (hsize _)
  · rw [hl']
    have hperm : ((l₁ ++ p :: x :: l₂) ++ live).Perm ((l₁ ++ p :: l₂) ++ x :: live) := by
      exact ((perm_second l₁ p x l₂).append_right live).trans List.perm_middle.symm
    exact (hblk.perm hperm).congr (fun y _ => hsize y) (by rw [hsize, hblk.empty])
  · intro hm
    rcases List.mem_cons.mp hm with he | hm
    · exact hx he.symm
    · exact h.real hm

/-- The end of a block is cut off and goes off the list. -/
theorem cut {m q : ℕ} (h : FreeList lo base hdr l live hi n) (hp : p ∈ l) (hlt : m < (hdr p).size)
    (hm : 1 ≤ m) (hq : q = p + HDR * ((hdr p).size - m))
    (hp' : hdr' p = ⟨(hdr p).ptr, (hdr p).size - m⟩) (hq' : (hdr' q).size = m)
    (hsame : ∀ y, y ≠ p → y ≠ q → hdr' y = hdr y) :
    FreeList lo base hdr' l (q :: live) hi n ∧ ∀ y ∈ live, y ≠ q ∧ y ≠ p := by
  obtain ⟨a, c, hl⟩ := List.append_of_mem (List.mem_cons_of_mem base hp)
  have hperm : ((base :: l) ++ live).Perm (p :: (a ++ c ++ live)) := by
    rw [hl, List.append_assoc, List.append_assoc]
    exact List.perm_middle
  have hblk := h.blocks.perm hperm
  have hpb := h.free_block hp
  have hlo := hblk.low
  -- the new header lies inside the old block, so it is none of the others
  have hne : ∀ y ∈ a ++ c ++ live, y ≠ q ∧ y ≠ p := by
    intro y hy
    have hap := (List.pairwise_cons.mp hblk.apart).1 y hy
    have hyb := hblk.block y (List.mem_cons_of_mem p hy)
    have hemp := hblk.empty
    unfold Apart HDR at *
    rcases hyb with rfl | hyb
    · omega
    · omega
  have hqb : base < q ∧ p < q := by
    unfold HDR at *
    omega
  have hbase : (hdr' base).size = 0 := by
    have hbp : base ≠ p := by
      unfold HDR at hlo
      omega
    rw [hsame base hbp (by omega), h.blocks.empty]
  have hcut := hblk.cut hm hlt hq (by rw [hp']) hq' (fun z hz => by
    rw [hsame z (hne z hz).2 (hne z hz).1]) hbase
  have hnode : ∀ y ∈ base :: l, y ≠ p → hdr' y = hdr y := by
    intro y hy hyp
    refine hsame y hyp fun he => ?_
    rw [hl] at hy
    have hy' : y ∈ a ++ c ++ live := by
      simp only [List.mem_append, List.mem_cons] at hy ⊢
      tauto
    exact (hne y hy').1 he
  refine ⟨⟨?_, ?_, ?_, ?_⟩, fun y hy => hne y (List.mem_append_right _ hy)⟩
  · refine h.linked.congr fun y hy => ?_
    by_cases hyp : y = p
    · rw [hyp, hp']
    · rw [hnode y hy hyp]
  · refine h.ascending.imp_of_mem fun {y z} hy _ hyz => ?_
    unfold Below at hyz ⊢
    by_cases hyp : y = p
    · rw [hyp] at hyz ⊢
      rw [hp']
      show p + HDR * ((hdr p).size - m) < z
      unfold HDR at *
      omega
    · rwa [hnode y hy hyp]
  · refine hcut.perm ?_
    exact ((hperm.symm).cons q).trans List.perm_middle.symm
  · intro hm'
    rcases List.mem_cons.mp hm' with he | hm'
    · omega
    · exact h.real hm'

/-- Only the headers of the blocks matter. -/
theorem congr (h : FreeList lo base hdr l live hi n)
    (hsame : ∀ x ∈ (base :: l) ++ live, hdr' x = hdr x) : FreeList lo base hdr' l live hi n := by
  have hnode : ∀ x ∈ base :: l, hdr' x = hdr x := fun x hx => hsame x (List.mem_append_left _ hx)
  refine ⟨?_, ?_, ?_, h.real⟩
  · exact h.linked.congr fun x hx => by rw [hnode x hx]
  · exact h.ascending.imp_of_mem fun hx _ hxy => hxy.congr (by rw [hnode _ hx])
  · refine h.blocks.congr (fun x hx => by rw [hsame x hx]) ?_
    rw [hnode base (by simp), h.blocks.empty]

theorem perm {live' : List ℕ} (h : FreeList lo base hdr l live hi n) (hp : live.Perm live') :
    FreeList lo base hdr l live' hi n :=
  ⟨h.linked, h.ascending, h.blocks.perm (hp.append_left _), fun hm => h.real (hp.mem_iff.mpr hm)⟩

end FreeList

end Xv6.User
