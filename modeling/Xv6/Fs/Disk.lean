import Mathlib.Tactic.IntervalCases
import Xv6.Fs.Model

/-!
# The structures on disk

What is written into a block is read back: bits of the free map, entries of an indirect block, inodes,
bytes of a file. Each write leaves the rest of the block as it was.
-/

namespace Xv6.Fs

open Lib Block

/-! ### Bytes of a block -/

variable {d : Data} {a n k : ℕ} {m : Bytes} {i : Dinode}

theorem bytes_of_lt (h : a < BSIZE) : d.bytes a = d ⟨a, h⟩ := dif_pos h

@[simp] theorem bytes_ofBytes (h : a < BSIZE) : (Data.ofBytes m).bytes a = m a :=
  dif_pos h

theorem load_ofBytes (h : a + n ≤ BSIZE) : (Data.ofBytes m).bytes.load a n = m.load a n :=
  Bytes.load_congr fun x _ hx => bytes_ofBytes (by omega)

/-- A number read from the bytes of it. -/
theorem load_of_digits {v : ℕ} (h : ∀ x, a ≤ x → x < a + n → m x = UInt8.ofNat (v / 256 ^ (x - a)))
    (hv : v < 256 ^ n) : m.load a n = v := by
  have hstore : m.load a n = (m.store a n v).load a n :=
    Bytes.load_congr fun x h1 h2 => by rw [h x h1 h2, Bytes.store, if_pos ⟨h1, h2⟩]
  rw [hstore, Bytes.load_store_of_lt hv]

/-- A number read from bytes that were copied. -/
theorem load_copy_of_mem {src : Bytes} {j : ℕ} (h : j + k ≤ n) :
    (m.copy a n src 0).load (a + j) k = src.load j k := by
  induction k generalizing j with
  | zero => rfl
  | succ k ih =>
    simp only [Bytes.load]
    rw [Bytes.copy_of_mem (by omega), Nat.add_assoc, ih (by omega)]
    congr 3
    omega

/-! ### Bits -/

theorem bitMask_toBitVec (bi : ℕ) : (bitMask bi).toBitVec = BitVec.twoPow 8 (bi % 8) := by
  have hlt : bi % 8 < 8 := Nat.mod_lt _ (by decide)
  unfold bitMask
  generalize bi % 8 = r at hlt
  interval_cases r <;> rfl

theorem isSet_eq_getLsbD (d : Data) (bi : ℕ) :
    isSet d bi = (d.bytes (bi / 8)).toBitVec.getLsbD (bi % 8) := by
  have hlt : bi % 8 < 8 := Nat.mod_lt _ (by decide)
  have hand : (d.bytes (bi / 8) &&& bitMask bi).toBitVec =
      if (d.bytes (bi / 8)).toBitVec.getLsbD (bi % 8) = true then BitVec.twoPow 8 (bi % 8)
      else 0#8 := by
    rw [UInt8.toBitVec_and, bitMask_toBitVec, BitVec.and_twoPow]
  cases hbit : (d.bytes (bi / 8)).toBitVec.getLsbD (bi % 8) with
  | true =>
    have hne : d.bytes (bi / 8) &&& bitMask bi ≠ 0 := by
      intro h0
      rw [h0, hbit, if_pos rfl] at hand
      have h1 := congrArg (fun x => BitVec.getLsbD x (bi % 8)) hand
      simp [hlt] at h1
    simp [isSet, hne]
  | false =>
    have h0 : d.bytes (bi / 8) &&& bitMask bi = 0 := by
      rw [hbit] at hand
      exact UInt8.toBitVec_inj.mp hand
    simp [isSet, h0]

theorem isSet_setBit {bi bj : ℕ} (hj : bj < BPB) :
    isSet (setBit d bi) bj = (decide (bi = bj) || isSet d bj) := by
  have hbyte : bj / 8 < BSIZE := by
    simp only [BPB, BSIZE] at *
    omega
  have hlt : bi % 8 < 8 := Nat.mod_lt _ (by decide)
  rw [isSet_eq_getLsbD, isSet_eq_getLsbD, bytes_of_lt hbyte, bytes_of_lt hbyte]
  unfold setBit
  by_cases hb : bj / 8 = bi / 8
  · rw [if_pos hb, UInt8.toBitVec_or, BitVec.getLsbD_or, bitMask_toBitVec, BitVec.getLsbD_twoPow,
      Bool.or_comm]
    congr 1
    simp only [hlt, decide_true, Bool.true_and, decide_eq_decide]
    omega
  · have hne : bi ≠ bj := fun he => hb (by rw [he])
    rw [if_neg hb, decide_eq_false hne, Bool.false_or]

theorem isSet_clearBit {bi bj : ℕ} (hj : bj < BPB) :
    isSet (clearBit d bi) bj = (!decide (bi = bj) && isSet d bj) := by
  have hbyte : bj / 8 < BSIZE := by
    simp only [BPB, BSIZE] at *
    omega
  have hlt : bi % 8 < 8 := Nat.mod_lt _ (by decide)
  have hltj : bj % 8 < 8 := Nat.mod_lt _ (by decide)
  rw [isSet_eq_getLsbD, isSet_eq_getLsbD, bytes_of_lt hbyte, bytes_of_lt hbyte]
  unfold clearBit
  by_cases hb : bj / 8 = bi / 8
  · rw [if_pos hb, UInt8.toBitVec_and, BitVec.getLsbD_and, UInt8.toBitVec_not, BitVec.getLsbD_not,
      bitMask_toBitVec, BitVec.getLsbD_twoPow, Bool.and_comm]
    congr 1
    simp only [hlt, hltj, decide_true, Bool.true_and]
    congr 1
    rw [decide_eq_decide]
    omega
  · have hne : bi ≠ bj := fun he => hb (by rw [he])
    rw [if_neg hb, decide_eq_false hne, Bool.not_false, Bool.true_and]

/-! ### Entries of an indirect block -/

theorem getEntry_zero (j : ℕ) : getEntry (fun _ => 0) j = 0 :=
  Bytes.load_zero fun x _ _ => by simp [Data.bytes]

theorem getEntry_putEntry {j b : ℕ} (hk : k < NINDIRECT) (hb : b < 2 ^ 32) :
    getEntry (putEntry d j b) k = if j = k then b else getEntry d k := by
  unfold getEntry putEntry
  simp only [NINDIRECT, BSIZE] at hk
  rw [load_ofBytes (by simp only [BSIZE]; omega)]
  split
  · rename_i he
    rw [he]
    exact Bytes.load_store_of_lt hb
  · exact Bytes.load_store_of_disjoint (by omega)

/-! ### Inodes -/

/-- The fields fit into the inode on disk. -/
structure Dinode.Fits (d : Dinode) : Prop where
  type : d.type < 2 ^ 16
  major : d.major < 2 ^ 16
  minor : d.minor < 2 ^ 16
  nlink : d.nlink < 2 ^ 16
  size : d.size < 2 ^ 32
  addrs : ∀ k, d.addrs k < 2 ^ 32

theorem getDinode_fits (d : Data) (k : ℕ) : (getDinode d k).Fits where
  type := Bytes.load_lt
  major := Bytes.load_lt
  minor := Bytes.load_lt
  nlink := Bytes.load_lt
  size := Bytes.load_lt
  addrs _ := Bytes.load_lt

theorem Dinode.bytes_addrs (i : Dinode) (k : Fin (NDIRECT + 1)) {x : ℕ} (h : 12 + 4 * k.val ≤ x)
    (hx : x < 12 + 4 * k.val + 4) :
    i.bytes x = UInt8.ofNat (i.addrs k / 256 ^ (x - (12 + 4 * k.val))) := by
  have hk : (x - 12) / 4 = k.val := by omega
  have hr : (x - 12) % 4 = x - (12 + 4 * k.val) := by omega
  unfold Dinode.bytes
  rw [if_neg (by omega), if_neg (by omega), if_neg (by omega), if_neg (by omega), if_neg (by omega),
    dif_pos (by rw [hk]; exact k.isLt), hr]
  congr 3
  exact Fin.ext hk

/-- The bytes of an inode, read. -/
theorem Dinode.load_bytes (h : i.Fits) :
    i.bytes.load 0 2 = i.type ∧ i.bytes.load 2 2 = i.major ∧ i.bytes.load 4 2 = i.minor ∧
    i.bytes.load 6 2 = i.nlink ∧ i.bytes.load 8 4 = i.size ∧
    ∀ k : Fin (NDIRECT + 1), i.bytes.load (12 + 4 * k) 4 = i.addrs k := by
  refine ⟨?_, ?_, ?_, ?_, ?_, fun k => ?_⟩
  · refine load_of_digits (fun x h1 h2 => ?_) h.type
    unfold Dinode.bytes
    rw [if_pos (by omega), Nat.sub_zero]
  · refine load_of_digits (fun x h1 h2 => ?_) h.major
    unfold Dinode.bytes
    rw [if_neg (by omega), if_pos (by omega)]
  · refine load_of_digits (fun x h1 h2 => ?_) h.minor
    unfold Dinode.bytes
    rw [if_neg (by omega), if_neg (by omega), if_pos (by omega)]
  · refine load_of_digits (fun x h1 h2 => ?_) h.nlink
    unfold Dinode.bytes
    rw [if_neg (by omega), if_neg (by omega), if_neg (by omega), if_pos (by omega)]
  · refine load_of_digits (fun x h1 h2 => ?_) h.size
    unfold Dinode.bytes
    rw [if_neg (by omega), if_neg (by omega), if_neg (by omega), if_neg (by omega),
      if_pos (by omega)]
  · exact load_of_digits (fun x h1 h2 => i.bytes_addrs k h1 h2) (h.addrs k)

theorem Dinode.ext' {j : Dinode} (htype : i.type = j.type) (hmajor : i.major = j.major)
    (hminor : i.minor = j.minor) (hnlink : i.nlink = j.nlink) (hsize : i.size = j.size)
    (haddrs : ∀ k, i.addrs k = j.addrs k) : i = j := by
  cases i
  cases j
  simp only [Dinode.mk.injEq] at *
  exact ⟨htype, hmajor, hminor, hnlink, hsize, funext haddrs⟩

theorem getDinode_putDinode_self (hk : k < IPB) (hi : i.Fits) :
    getDinode (putDinode d k i) k = i := by
  simp only [IPB, BSIZE] at hk
  obtain ⟨htype, hmajor, hminor, hnlink, hsize, haddrs⟩ := Dinode.load_bytes hi
  have hload : ∀ j n, j + n ≤ 64 → (putDinode d k i).bytes.load (64 * k + j) n = i.bytes.load j n := by
    intro j n hjn
    unfold putDinode
    rw [load_ofBytes (by simp only [BSIZE]; omega), load_copy_of_mem hjn]
  refine Dinode.ext' ?_ ?_ ?_ ?_ ?_ fun a => ?_
  · exact (hload 0 2 (by omega)).trans htype
  · exact (hload 2 2 (by omega)).trans hmajor
  · exact (hload 4 2 (by omega)).trans hminor
  · exact (hload 6 2 (by omega)).trans hnlink
  · exact (hload 8 4 (by omega)).trans hsize
  · have ha := a.isLt
    simp only [NDIRECT] at ha
    have := hload (12 + 4 * a) 4 (by omega)
    rw [haddrs, ← Nat.add_assoc] at this
    exact this

theorem getDinode_putDinode_of_ne {k' : ℕ} (hne : k ≠ k') (hk' : k' < IPB) :
    getDinode (putDinode d k i) k' = getDinode d k' := by
  simp only [IPB, BSIZE] at hk'
  have hload : ∀ j n, j + n ≤ 64 →
      (putDinode d k i).bytes.load (64 * k' + j) n = d.bytes.load (64 * k' + j) n := by
    intro j n hjn
    unfold putDinode
    rw [load_ofBytes (by simp only [BSIZE]; omega), Bytes.load_copy_of_disjoint (by omega)]
  refine Dinode.ext' ?_ ?_ ?_ ?_ ?_ fun a => ?_
  · exact hload 0 2 (by omega)
  · exact hload 2 2 (by omega)
  · exact hload 4 2 (by omega)
  · exact hload 6 2 (by omega)
  · exact hload 8 4 (by omega)
  · have ha := a.isLt
    simp only [NDIRECT] at ha
    have := hload (12 + 4 * a) 4 (by omega)
    rw [← Nat.add_assoc] at this
    exact this

/-! ### Bytes of a file -/

theorem bytes_splice {off : ℕ} {l : List UInt8} (ha : a < BSIZE) :
    (splice d off l).bytes a =
      if off ≤ a ∧ a < off + l.length then l.getD (a - off) 0 else d.bytes a := by
  unfold splice
  rw [bytes_ofBytes ha]
  unfold Bytes.copy
  rw [Nat.zero_add]

end Xv6.Fs
