import Xv6.Fs.Files
import Xv6.Fs.Room

/-!
# `balloc` and `bfree` on any free map

What the two functions do to the bits of the free map and to the blocks, for every size and every content
of the map, whether or not the blocks belong to a file system: `runs_balloc_least` for `balloc`, and
`runs_bfree_bit` for `bfree`.

The counters of `balloc` are of type `int`: the model is that of the source for sizes up to 2^31. And
`balloc` zeroes the block it returns, so what it says about the bits supposes that the blocks of the free
map are themselves marked.
-/

namespace Xv6.Fs

open Lib Block

variable {sb : Superblock} {μ : Mode} {c : Caller} {v : View} {b : ℕ}

/-! ### Bits -/

/-- The mark of block `b` is removed. -/
def View.give (sb : Superblock) (v : View) (b : ℕ) : View :=
  v.log (BBLOCK b sb) (clearBit (v.content (BBLOCK b sb)) (b % BPB))

theorem bit_take {y : ℕ} (hy : BBLOCK y sb ≠ b) :
    (v.take sb b).Bit sb y ↔ y = b ∨ v.Bit sb y := by
  rw [eq_comm]
  refine Iff.trans ?_ (Image.marked_setBit (I := ⟨v.content, fun _ => .zero⟩))
  unfold View.Bit View.take Image.Marked
  rw [View.log_content, Function.update_of_ne hy]
  rfl

theorem bit_give {y : ℕ} : (v.give sb b).Bit sb y ↔ y ≠ b ∧ v.Bit sb y := by
  rw [ne_comm]
  exact Image.marked_clearBit (I := ⟨v.content, fun _ => .zero⟩)

theorem and_not_of_or {x m : UInt8} (h : x &&& m = 0) : (x ||| m) &&& ~~~ m = x := by
  apply UInt8.toBitVec_inj.mp
  have hb := congrArg UInt8.toBitVec h
  ext k hk
  have hbk := congrArg (fun y => BitVec.getLsbD y k) hb
  simp only [UInt8.toBitVec_and, UInt8.toBitVec_zero, UInt8.toBitVec_or, UInt8.toBitVec_not,
    BitVec.getElem_and, BitVec.getElem_or, BitVec.getElem_not, BitVec.getLsbD_eq_getElem hk]
    at hbk ⊢
  grind

/-- Clearing a bit that was clear before it was set. -/
theorem clearBit_setBit {d : Data} {bi : ℕ} (h : isSet d bi = false) :
    clearBit (setBit d bi) bi = d := by
  funext i
  unfold clearBit setBit
  by_cases hi : (i : ℕ) = bi / 8
  · have hbyte : d.bytes (bi / 8) = d i := by
      rw [← hi, bytes_of_lt i.isLt]
    have hand : d i &&& bitMask bi = 0 := by simpa [isSet, hbyte] using h
    rw [if_pos hi, if_pos hi, and_not_of_or hand]
  · rw [if_neg hi, if_neg hi]

theorem runs_bfree_bit (hop : v.op ≠ none) (hclear : v.Clear (BBLOCK b sb)) {Q : Unit → View → Prop}
    (hset : v.Bit sb b → Q () (v.give sb b))
    (hno : ¬ v.Bit sb b → ∀ w, μ.panics "freeing free block" w) : Runs μ (bfree sb b) Q v := by
  refine runs_read hclear fun i hi => Prog.ensures_ite (fun hfree => ?_) fun hfree => ?_
  · refine runs_panic (hno (fun hbit => ?_) _)
    rw [View.Bit, hfree] at hbit
    exact Bool.false_ne_true hbit
  · exact runs_write_last hi hop (hset (eq_true_of_ne_false hfree))

/-! ### The free map -/

/-- The caller is in a transaction and holds no buffer that `balloc` asks for, and the blocks of the free
map are marked. -/
structure MapReady (sb : Superblock) (v : View) : Prop where
  op : v.op ≠ none
  map : ∀ a, a < sb.size → v.Clear (BBLOCK a sb)
  clear : ∀ b, b < sb.size → ¬ v.Bit sb b → v.Clear b
  own : ∀ a, a < sb.size → BBLOCK a sb < sb.size → v.Bit sb (BBLOCK a sb)

theorem MapReady.bblock_ne (h : MapReady sb v) (hb : b < sb.size) (hfree : ¬ v.Bit sb b) {a : ℕ}
    (ha : a < sb.size) : BBLOCK a sb ≠ b := by
  rintro rfl
  exact hfree (h.own a ha hb)

theorem MapReady.take (h : MapReady sb v) (hb : b < sb.size) (hfree : ¬ v.Bit sb b) :
    MapReady sb (v.take sb b) where
  op := by simpa [View.take] using h.op
  map a ha := (h.map a ha).log.log
  clear x hx hxfree := by
    rw [bit_take (h.bblock_ne hb hfree hx), not_or] at hxfree
    exact (h.clear x hx hxfree.2).log.log
  own a ha hlt := (bit_take (h.bblock_ne hb hfree hlt)).mpr (.inr (h.own a ha hlt))

/-- Exactly the bit of block `b` has been set, and exactly block `b` zeroed. -/
structure View.Took (sb : Superblock) (v v' : View) (b : ℕ) : Prop where
  bits : ∀ y, y < sb.size → (v'.Bit sb y ↔ y = b ∨ v.Bit sb y)
  block : ∀ j, j < BPB → isSet (v'.content (BBLOCK b sb)) j =
    (decide (b % BPB = j) || isSet (v.content (BBLOCK b sb)) j)
  zero : v'.content b = fun _ => 0
  rest : ∀ x, x ≠ b → x ≠ BBLOCK b sb → v'.content x = v.content x

/-- Exactly the bit of block `b` has been cleared. -/
structure View.Gave (sb : Superblock) (v v' : View) (b : ℕ) : Prop where
  bits : ∀ y, v'.Bit sb y ↔ y ≠ b ∧ v.Bit sb y
  block : ∀ j, j < BPB → isSet (v'.content (BBLOCK b sb)) j =
    (!decide (b % BPB = j) && isSet (v.content (BBLOCK b sb)) j)
  rest : ∀ x, x ≠ BBLOCK b sb → v'.content x = v.content x

theorem MapReady.took (h : MapReady sb v) (hb : b < sb.size) (hfree : ¬ v.Bit sb b) :
    v.Took sb (v.take sb b) b where
  bits y hy := bit_take (h.bblock_ne hb hfree hy)
  block j hj := by
    rw [View.take, View.log_content, Function.update_of_ne (h.bblock_ne hb hfree hb),
      View.log_content, Function.update_self, isSet_setBit hj]
  zero := Function.update_self ..
  rest x hx hx' := by
    rw [View.take, View.log_content, Function.update_of_ne hx, View.log_content,
      Function.update_of_ne hx']

theorem View.gave : v.Gave sb (v.give sb b) b where
  bits y := bit_give
  block j hj := by rw [View.give, View.log_content, Function.update_self, isSet_clearBit hj]
  rest x hx := Function.update_of_ne hx _ _

theorem MapReady.give_take (h : MapReady sb v) (hb : b < sb.size) (hfree : ¬ v.Bit sb b) {a : ℕ}
    (ha : a < sb.size) :
    ((v.take sb b).give sb b).content (BBLOCK a sb) = v.content (BBLOCK a sb) := by
  have hne {a : ℕ} (ha : a < sb.size) : BBLOCK a sb ≠ b := h.bblock_ne hb hfree ha
  have hback : (v.take sb b).content (BBLOCK b sb) =
      setBit (v.content (BBLOCK b sb)) (b % BPB) := by
    rw [View.take, View.log_content, Function.update_of_ne (hne hb), View.log_content,
      Function.update_self]
  rw [View.give, View.log_content, hback]
  by_cases hab : BBLOCK a sb = BBLOCK b sb
  · rw [hab, Function.update_self, clearBit_setBit (Bool.eq_false_iff.mpr hfree)]
  · rw [Function.update_of_ne hab]
    exact (h.took hb hfree).rest _ (hne ha) hab

/-- A number of calls of `balloc`. -/
def ballocs (sb : Superblock) : ℕ → Code (List ℕ)
  | 0 => pure []
  | n + 1 => do
    let b ← balloc sb
    let bs ← ballocs sb n
    return b :: bs

/-- The blocks that several calls return are different, and were all free. -/
theorem runs_ballocs (n : ℕ) (h : MapReady sb v) :
    Runs (c.allocating sb) (ballocs sb n)
      (fun bs _ => bs.Nodup ∧ ∀ b ∈ bs, b < sb.size ∧ ¬ v.Bit sb b) v := by
  induction n generalizing v with
  | zero => exact runs_pure ⟨List.nodup_nil, by simp⟩
  | succ n ih =>
    refine runs_bind (runs_balloc_least h.op h.map h.clear (fun b hb hfree _ => ?_)
      (c.allocating_fills sb v))
    refine runs_bind (Prog.Ensures.mono (ih (h.take hb hfree)) ?_)
    rintro bs v' ⟨hnd, hbs⟩
    refine runs_pure ⟨List.nodup_cons.mpr ⟨fun hmem => ?_, hnd⟩, ?_⟩
    · exact (hbs b hmem).2 ((bit_take (h.bblock_ne hb hfree hb)).mpr (.inl rfl))
    · refine List.forall_mem_cons.mpr ⟨⟨hb, hfree⟩, fun x hx => ?_⟩
      obtain ⟨hxs, hxfree⟩ := hbs x hx
      rw [bit_take (h.bblock_ne hb hfree hxs), not_or] at hxfree
      exact ⟨hxs, hxfree.2⟩

/-- **`balloc` and `bfree` on the free map**, for every size and every content in which the blocks of the
map are marked, in a transaction with room for the blocks they log. If there is a clear bit below the size,
`balloc` returns the smallest block with a clear bit, sets exactly that bit and zeroes exactly that block; if
there is none it panics. `bfree` clears exactly the bit of its block, and panics if it is clear. So `bfree`
after `balloc` restores the blocks of the map, and the blocks that several calls of `balloc` return are
different, however many they are. -/
theorem balloc_bfree_bitmap (sb : Superblock) (c : Caller) (v : View) (h : MapReady sb v)
    (hroom : v.Room 3 1) :
    (∀ b, IsLeast { b | b < sb.size ∧ ¬ v.Bit sb b } b →
      Fits c.total (balloc sb) (fun r v' => r = b ∧ v.Took sb v' b) v) ∧
    ((∀ b, b < sb.size → v.Bit sb b) → Fits (c.allocating sb) (balloc sb) (fun _ _ => False) v) ∧
    (∀ b, v.Clear (BBLOCK b sb) → v.Bit sb b →
      Fits c.total (bfree sb b) (fun _ v' => v.Gave sb v' b) v) ∧
    (∀ b, v.Clear (BBLOCK b sb) → ¬ v.Bit sb b →
      Fits ⟨c, True, fun msg _ => msg = "freeing free block"⟩ (bfree sb b) (fun _ _ => False) v) ∧
    Fits (c.allocating sb) (do
        let b ← balloc sb
        bfree sb b)
      (fun _ v' => ∀ a, a < sb.size → v'.content (BBLOCK a sb) = v.content (BBLOCK a sb)) v ∧
    ∀ n, Runs (c.allocating sb) (ballocs sb n) (fun bs _ => bs.Nodup) v := by
  have hballoc {μ : Mode} {Q : ℕ → View → Prop} (hruns : Runs μ (balloc sb) Q v) : Fits μ (balloc sb) Q v :=
    (hruns.fits hroom (costs_balloc sb)).mono fun _ _ => And.left
  have hbfree {μ : Mode} {Q : Unit → View → Prop} {b : ℕ} (hruns : Runs μ (bfree sb b) Q v) :
      Fits μ (bfree sb b) Q v :=
    (hruns.fits hroom (costs_bfree sb b)).mono fun _ _ => And.left
  refine ⟨fun b hb => hballoc ?_, fun hall => hballoc ?_, fun b hb hbit => hbfree ?_,
    fun b hb hbit => hbfree ?_, ?_, fun n => ?_⟩
  · refine runs_balloc_least h.op h.map h.clear (fun x hx hfree hbelow => ?_) fun hall => ?_
    · obtain rfl : x = b := by
        refine le_antisymm (Nat.le_of_not_lt fun hlt => hb.1.2 (hbelow b hlt)) (hb.2 ⟨hx, hfree⟩)
      exact ⟨rfl, h.took hx hfree⟩
    · exact hb.1.2 (hall b hb.1.1)
  · exact runs_balloc_least h.op h.map h.clear (fun b hb hfree _ => hfree (hall b hb))
      (c.allocating_fills sb v)
  · exact runs_bfree_bit h.op hb (fun _ => View.gave) fun hno => absurd hbit hno
  · exact runs_bfree_bit h.op hb hbit fun _ _ => rfl
  · have hruns : Runs (c.allocating sb) (do
        let b ← balloc sb
        bfree sb b)
        (fun _ v' => ∀ a, a < sb.size → v'.content (BBLOCK a sb) = v.content (BBLOCK a sb)) v := by
      refine runs_bind (runs_balloc_least h.op h.map h.clear (fun b hb hfree _ => ?_)
        (c.allocating_fills sb v))
      have hbit : (v.take sb b).Bit sb b := (bit_take (h.bblock_ne hb hfree hb)).mpr (.inl rfl)
      exact runs_bfree_bit (h.take hb hfree).op ((h.take hb hfree).map b hb)
        (fun _ a ha => h.give_take hb hfree ha) fun hno => absurd hbit hno
    exact (hruns.fits hroom ((costs_balloc sb).bind fun b => costs_bfree sb b)).mono
      fun _ _ => And.left
  · exact (runs_ballocs n h).mono fun bs _ hbs => hbs.1

/-- A block of the free map with the bits of the first `n` bytes set. -/
def mapBlock (n : ℕ) : Data := fun i => if i.val < n then 255 else 0

theorem isSet_mapBlock {n j : ℕ} (hj : j < BPB) : isSet (mapBlock n) j = decide (j < 8 * n) := by
  have hbyte : j / 8 < BSIZE := by
    simp only [BPB, BSIZE] at *
    omega
  have hlt : j % 8 < 8 := Nat.mod_lt _ (by decide)
  rw [isSet_eq_getLsbD, bytes_of_lt hbyte, mapBlock]
  by_cases h : j / 8 < n
  · have hall : ∀ k, k < 8 → (255 : UInt8).toBitVec.getLsbD k = true := by decide
    rw [if_pos h, hall _ hlt, eq_comm, decide_eq_true_iff]
    omega
  · rw [if_neg h, UInt8.toBitVec_zero, BitVec.getLsbD_zero, eq_comm, decide_eq_false_iff_not]
    omega

/-- The small disk with a map whose first `n` bytes are set. -/
def mapView (n : ℕ) : View := (smallView (some ∅)).setContent 40 (mapBlock n)

theorem smallSb_bblock {b : ℕ} (hb : b < smallSb.size) : BBLOCK b smallSb = 40 := by
  simp only [BBLOCK, smallSb, BPB, BSIZE] at *
  omega

theorem mapView_bit {n b : ℕ} (hb : b < smallSb.size) : (mapView n).Bit smallSb b ↔ b < 8 * n := by
  have hlt : b < BPB := by
    simp only [smallSb, BPB, BSIZE] at *
    omega
  rw [View.Bit, smallSb_bblock hb, mapView, View.setContent_content, Function.update_self,
    Nat.mod_eq_of_lt hlt, isSet_mapBlock hlt, decide_eq_true_iff]

theorem mapView_idle (n : ℕ) : (mapView n).Idle := fun _ => rfl

theorem mapView_room (n : ℕ) : (mapView n).Room 3 1 :=
  ((mapView_idle n).room (show 0 + 3 ≤ maxLogged by decide)
    (show (maxLogged : ℤ) + 2 ≤ 31 by decide)).mono (by decide)

/-- With the first 48 bits set, block 48 is the next one. -/
theorem balloc_bfree_bitmap_small :
    Fits (smallCaller 0 0 (Nat.zero_le _)).total (balloc smallSb)
      (fun r v' => r = 48 ∧ (mapView 6).Took smallSb v' 48) (mapView 6) := by
  have hready : MapReady smallSb (mapView 6) := by
    refine ⟨Option.some_ne_none _, fun a _ => (mapView_idle 6).clear _,
      fun b _ _ => (mapView_idle 6).clear _, fun a ha hlt => ?_⟩
    rw [mapView_bit hlt, smallSb_bblock ha]
    decide
  refine (balloc_bfree_bitmap smallSb _ (mapView 6) hready (mapView_room 6)).1 48 ⟨⟨by decide, ?_⟩, ?_⟩
  · rw [mapView_bit (by decide)]
    decide
  · rintro b ⟨hb, hfree⟩
    rw [mapView_bit hb] at hfree
    omega

/-- If the bit of the block of the map itself is the first one that is clear, `balloc` zeroes the map: the
bit it sets is lost, and with it all the others. -/
theorem balloc_wipes_map :
    IsLeast { b | b < smallSb.size ∧ ¬ (mapView 5).Bit smallSb b } 40 ∧
      Fits (smallCaller 0 0 (Nat.zero_le _)).total (balloc smallSb)
        (fun r v' => r = 40 ∧ ∀ b, b < smallSb.size → ¬ v'.Bit smallSb b) (mapView 5) := by
  have hleast : IsLeast { b | b < smallSb.size ∧ ¬ (mapView 5).Bit smallSb b } 40 := by
    refine ⟨⟨by decide, ?_⟩, ?_⟩
    · rw [mapView_bit (by decide)]
      decide
    · rintro b ⟨hb, hfree⟩
      rw [mapView_bit hb] at hfree
      omega
  have hruns : Runs (smallCaller 0 0 (Nat.zero_le _)).total (balloc smallSb)
      (fun r v' => r = 40 ∧ ∀ b, b < smallSb.size → ¬ v'.Bit smallSb b) (mapView 5) := by
    refine runs_balloc_least (Option.some_ne_none _) (fun a _ => (mapView_idle 5).clear _)
      (fun b _ _ => (mapView_idle 5).clear _) (fun x hx hfree hbelow => ?_) fun hall => ?_
    · obtain rfl : x = 40 :=
        le_antisymm (Nat.le_of_not_lt fun hlt => hleast.1.2 (hbelow 40 hlt)) (hleast.2 ⟨hx, hfree⟩)
      refine ⟨rfl, fun b hb => ?_⟩
      rw [View.Bit, smallSb_bblock hb, View.take, View.log_content, Function.update_self,
        isSet_eq_getLsbD]
      simp [Data.bytes]
    · exact hleast.1.2 (hall 40 (by decide))
  exact ⟨hleast, (hruns.fits (mapView_room 5) (costs_balloc smallSb)).mono fun _ _ => And.left⟩

end Xv6.Fs
