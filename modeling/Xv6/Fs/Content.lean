import Mathlib.Data.List.GetD
import Xv6.Fs.Layout

/-!
# The bytes of a file

A file is the bytes of its blocks, one after the other. `Overwrites` says what a write of some bytes at
an offset does to an image: these bytes are there, the bytes before and after are as they were, blocks
may have been added, and the other files are the same. Writes one after the other are one write.
-/

namespace Xv6.Fs

open Lib Block

variable {sb : Superblock} {I J K : Image} {n m off : ℕ} {l l' : List UInt8}

namespace Image

/-- `len` bytes of the file of inode `n` from `off` on. -/
def bytes (sb : Superblock) (I : Image) (n off len : ℕ) : List UInt8 :=
  (List.range len).map fun j => I.byte sb n (off + j)

@[simp] theorem length_bytes {len : ℕ} : (I.bytes sb n off len).length = len := by simp [bytes]

theorem bytes_append {a b : ℕ} :
    I.bytes sb n off a ++ I.bytes sb n (off + a) b = I.bytes sb n off (a + b) := by
  unfold bytes
  rw [List.range_add, List.map_append, List.map_map]
  congr 1
  refine List.map_congr_left fun j _ => ?_
  rw [Function.comp_apply, Nat.add_assoc]

/-- A byte of a block that is in the same block as `off`. -/
theorem byte_add {j : ℕ} (h : off % BSIZE + j < BSIZE) :
    I.byte sb n (off + j) =
      (I.content (I.place sb n (.data (off / BSIZE)))).bytes (off % BSIZE + j) := by
  have hdiv : (off + j) / BSIZE = off / BSIZE := by
    simp only [BSIZE] at *
    omega
  have hmod : (off + j) % BSIZE = off % BSIZE + j := by
    simp only [BSIZE] at *
    omega
  rw [byte, hdiv, hmod]

/-- A piece of a block, as bytes of the file. -/
theorem slice_eq_bytes {len : ℕ} (h : off % BSIZE + len ≤ BSIZE) :
    slice (I.content (I.place sb n (.data (off / BSIZE)))) (off % BSIZE) len =
      I.bytes sb n off len := by
  refine List.map_congr_left fun j hj => (byte_add ?_).symm
  have := List.mem_range.mp hj
  omega

/-! ### Writes -/

/-- The bytes `l` have been written to the file of inode `n` from `off` on. -/
structure Overwrites (sb : Superblock) (n : ℕ) (I J : Image) (off : ℕ) (l : List UInt8) : Prop where
  wf : J.Wf sb
  others : ∀ m, m ≠ n → I.SameFile sb J m
  inodes : ∀ m, m < sb.ninodes → J.content (IBLOCK m sb) = I.content (IBLOCK m sb)
  din : J.din n = { I.din n with addrs := (J.din n).addrs }
  keeps : ∀ p, I.place sb n p ≠ 0 → J.place sb n p = I.place sb n p
  placed : ∀ j, j < l.length → J.place sb n (.data ((off + j) / BSIZE)) ≠ 0
  new : ∀ j, j < l.length → J.byte sb n (off + j) = l.getD j 0
  old : ∀ k, I.place sb n (.data (k / BSIZE)) ≠ 0 → ¬ (off ≤ k ∧ k < off + l.length) →
    J.byte sb n k = I.byte sb n k

namespace Overwrites

theorem allocated (h : Overwrites sb n I J off l) : J.Allocated sb m ↔ I.Allocated sb m := by
  by_cases hm : m = n
  · subst hm
    rw [Allocated, Allocated, h.din]
  · exact (h.others m hm).allocated

theorem of_grow (hw : J.Wf sb) (h : Grow sb n I J) : Overwrites sb n I J off [] where
  wf := hw
  others := h.others
  inodes := h.inodes
  din := h.din
  keeps := h.keeps
  placed j hj := absurd hj (Nat.not_lt_zero j)
  new j hj := absurd hj (Nat.not_lt_zero j)
  old k hk _ := by rw [byte, byte, h.keeps _ hk, h.data _ hk]

theorem trans {off' : ℕ} (h : Overwrites sb n I J off l) (h' : Overwrites sb n J K off' l')
    (hoff : off' = off + l.length) : Overwrites sb n I K off (l ++ l') where
  wf := h'.wf
  others m hm := (h.others m hm).trans (h'.others m hm)
  inodes m hm := (h'.inodes m hm).trans (h.inodes m hm)
  din := by rw [h'.din, h.din]
  keeps p hp := by
    have hJ := h.keeps p hp
    exact (h'.keeps p (by rwa [hJ])).trans hJ
  placed j hj := by
    rw [List.length_append] at hj
    by_cases hjl : j < l.length
    · have hJ := h.placed j hjl
      rwa [h'.keeps _ hJ]
    · have := h'.placed (j - l.length) (by omega)
      rwa [show off' + (j - l.length) = off + j by omega] at this
  new j hj := by
    rw [List.length_append] at hj
    by_cases hjl : j < l.length
    · rw [h'.old _ (h.placed j hjl) (by omega), h.new j hjl, List.getD_append _ _ _ _ hjl]
    · have := h'.new (j - l.length) (by omega)
      rw [show off' + (j - l.length) = off + j by omega] at this
      rw [this, List.getD_append_right _ _ _ _ (by omega)]
  old k hk hr := by
    rw [List.length_append] at hr
    have hJ := h.keeps _ hk
    rw [h'.old k (by rwa [hJ]) (by omega), h.old k hk (by omega)]

end Overwrites

/-- Bytes are written into one block of the file. -/
theorem Wf.overwrites_splice (hw : I.Wf sb) (hs : Sane sb)
    (h0 : I.place sb n (.data (off / BSIZE)) ≠ 0) (hl : off % BSIZE + l.length ≤ BSIZE) :
    Overwrites sb n I (I.setBlock (I.place sb n (.data (off / BSIZE)))
      (splice (I.content (I.place sb n (.data (off / BSIZE)))) (off % BSIZE) l)) off l := by
  have hplace := hw.place_setData (n := n)
    (d := splice (I.content (I.place sb n (.data (off / BSIZE)))) (off % BSIZE) l) (off / BSIZE)
  have hpos : 0 < BSIZE := by decide
  refine ⟨hw.setData hs h0, fun m hm => hw.sameFile_setData hm,
    fun m hm => Function.update_of_ne (hw.iblock_ne_place hm h0) _ _, rfl, fun p _ => hplace n p,
    fun j hj => ?_, fun j hj => ?_, fun k hk hr => ?_⟩
  · rw [hplace, show (off + j) / BSIZE = off / BSIZE by simp only [BSIZE] at *; omega]
    exact h0
  · rw [byte_add (by omega), hplace, setBlock_content, Function.update_self,
      bytes_splice (by omega), if_pos (by omega)]
    congr 1
    omega
  · rw [byte, byte, hplace]
    by_cases hb : k / BSIZE = off / BSIZE
    · rw [hb, setBlock_content, Function.update_self, bytes_splice (Nat.mod_lt _ hpos), if_neg]
      simp only [BSIZE] at *
      omega
    · have hne : I.place sb n (.data (k / BSIZE)) ≠ I.place sb n (.data (off / BSIZE)) := by
        intro he
        exact hb (Part.data.inj (hw.inj _ _ _ _ hk he).2)
      rw [setBlock_content, Function.update_of_ne hne]

/-! ### Sizes -/

/-- The fields of inode `n` but its type and its blocks. -/
theorem place_setDin {x : Dinode} (htype : x.type = (I.din n).type) (haddrs : x.addrs = (I.din n).addrs)
    (m : ℕ) (p : Part) : (I.setDin n x).place sb m p = I.place sb m p := by
  by_cases hm : m = n
  · subst hm
    unfold place
    rw [if_congr (allocated_setDin htype) rfl rfl]
    congr 1
    rw [setDin_din, Function.update_self, setDin_content]
    cases p <;> simp [Dinode.at, haddrs]
  · exact (sameFile_setDin hm).place p

theorem Wf.setDin (hw : I.Wf sb) {x : Dinode} (hfits : x.Fits) (htype : x.type = (I.din n).type)
    (haddrs : x.addrs = (I.din n).addrs) (hsize : I.Allocated sb n → x.size ≤ MAXFILE * BSIZE)
    (hholes : ∀ bn, I.Allocated sb n → bn * BSIZE < x.size → I.place sb n (.data bn) ≠ 0) :
    (I.setDin n x).Wf sb := by
  have hplace : ∀ m p, (I.setDin n x).place sb m p = I.place sb m p := place_setDin htype haddrs
  refine ⟨fits_setDin hw.fits hfits, hw.reserved, fun m p h0 => ?_, fun m p m' p' h0 he => ?_,
    fun m hm => ?_, fun m bn hm hbn => ?_⟩
  · rw [hplace] at h0 ⊢
    exact hw.used m p h0
  · rw [hplace] at h0 he
    rw [hplace] at he
    exact hw.inj m p m' p' h0 he
  · rw [allocated_setDin htype] at hm
    by_cases hmn : m = n
    · subst hmn
      rw [setDin_din, Function.update_self]
      exact hsize hm
    · rw [setDin_din, Function.update_of_ne hmn]
      exact hw.size m hm
  · rw [allocated_setDin htype] at hm
    rw [hplace]
    by_cases hmn : m = n
    · subst hmn
      rw [setDin_din, Function.update_self] at hbn
      exact hholes bn hm hbn
    · rw [setDin_din, Function.update_of_ne hmn] at hbn
      exact hw.noHoles m bn hm hbn

/-- After a write the blocks up to its end are in place. -/
theorem Overwrites.noHoles (h : Overwrites sb n I J off l) (hw : I.Wf sb) (hn : I.Allocated sb n)
    (hoff : off ≤ (I.din n).size) {bn : ℕ}
    (hbn : bn * BSIZE < max (I.din n).size (off + l.length)) : J.place sb n (.data bn) ≠ 0 := by
  by_cases hlt : bn * BSIZE < (I.din n).size
  · have h0 := hw.noHoles n bn hn hlt
    rwa [h.keeps _ h0]
  · have := h.placed (bn * BSIZE - off) (by omega)
    rwa [show off + (bn * BSIZE - off) = bn * BSIZE by omega,
      Nat.mul_div_cancel _ (show 0 < BSIZE by decide)] at this

/-! ### The inodes on disk -/

end Image

/-- Inode `n` as it is on disk. -/
def dinodeAt (sb : Superblock) (c : ℕ → Data) (n : ℕ) : Dinode :=
  getDinode (c (IBLOCK n sb)) (n % IPB)

/-- The blocks with inode `n` written to disk. -/
def saveAt (sb : Superblock) (c : ℕ → Data) (n : ℕ) (x : Dinode) : ℕ → Data :=
  Function.update c (IBLOCK n sb) (putDinode (c (IBLOCK n sb)) (n % IPB) x)

theorem dinodeAt_saveAt_self {c : ℕ → Data} {x : Dinode} (hx : x.Fits) :
    dinodeAt sb (saveAt sb c n x) n = x := by
  unfold dinodeAt saveAt
  rw [Function.update_self, getDinode_putDinode_self (Nat.mod_lt _ (by decide)) hx]

theorem dinodeAt_saveAt_of_ne {c : ℕ → Data} {x : Dinode} (h : m ≠ n) :
    dinodeAt sb (saveAt sb c n x) m = dinodeAt sb c m := by
  unfold dinodeAt saveAt
  by_cases hb : IBLOCK m sb = IBLOCK n sb
  · rw [hb, Function.update_self, getDinode_putDinode_of_ne]
    · intro hr
      have hdiv : m / IPB = n / IPB := Nat.add_right_cancel hb
      refine h ?_
      rw [← Nat.div_add_mod m IPB, ← Nat.div_add_mod n IPB, hdiv, hr]
    · exact Nat.mod_lt _ (by decide)
  · rw [Function.update_of_ne hb]

namespace Image

/-- Inode `n` is on disk as it is in memory. -/
def OnDisk (sb : Superblock) (I : Image) (n : ℕ) : Prop := I.din n = dinodeAt sb I.content n

/-- Inode `n` is written to disk. -/
def save (sb : Superblock) (I : Image) (n : ℕ) : Image :=
  I.setBlock (IBLOCK n sb) (putDinode (I.content (IBLOCK n sb)) (n % IPB) (I.din n))

@[simp] theorem save_din : (I.save sb n).din = I.din := rfl

theorem dinodeAt_save_of_ne (h : m ≠ n) :
    dinodeAt sb (I.save sb n).content m = dinodeAt sb I.content m :=
  dinodeAt_saveAt_of_ne h

theorem onDisk_save (hfits : (I.din n).Fits) : (I.save sb n).OnDisk sb n :=
  (dinodeAt_saveAt_self hfits).symm

theorem OnDisk.save (h : I.OnDisk sb m) (hfits : (I.din n).Fits) : (I.save sb n).OnDisk sb m := by
  by_cases hm : m = n
  · rw [hm]
    exact onDisk_save hfits
  · rw [OnDisk, dinodeAt_save_of_ne hm]
    exact h

theorem Wf.save (hw : I.Wf sb) (hs : Sane sb) (hn : n < sb.ninodes) : (I.save sb n).Wf sb :=
  hw.setIblock hs hn

theorem Wf.sameFile_save (hw : I.Wf sb) (hn : n < sb.ninodes) (m : ℕ) :
    I.SameFile sb (I.save sb n) m :=
  sameFile_setBlock (hw.unused_of_reserved (reserved_iblock hn)) m

/-! ### A whole write -/

/-- `writei` has written the bytes `w` to the file of inode `n` from `off` on, and the inode is on
disk. The bytes `x` after them were copied before a copy failed, and are seen. -/
structure Written (sb : Superblock) (n : ℕ) (I J : Image) (off : ℕ) (w x : List UInt8) : Prop where
  wf : J.Wf sb
  others : ∀ m, m ≠ n → I.SameFile sb J m
  disk : J.OnDisk sb n
  disks : ∀ m, m ≠ n → m < sb.ninodes → I.OnDisk sb m → J.OnDisk sb m
  din : J.din n =
    { I.din n with size := max (I.din n).size (off + w.length), addrs := (J.din n).addrs }
  keeps : ∀ p, I.place sb n p ≠ 0 → J.place sb n p = I.place sb n p
  new : ∀ j, j < (w ++ x).length → J.byte sb n (off + j) = (w ++ x).getD j 0
  old : ∀ k, k < (I.din n).size → ¬ (off ≤ k ∧ k < off + (w ++ x).length) →
    J.byte sb n k = I.byte sb n k

theorem Overwrites.written {w x : List UInt8} (h : Overwrites sb n I J off (w ++ x)) (hw : I.Wf sb)
    (hs : Sane sb) (hn : I.Allocated sb n) (hoff : off ≤ (I.din n).size)
    (hmax : off + w.length ≤ MAXFILE * BSIZE) :
    Written sb n I ((J.setDin n { J.din n with
      size := max (I.din n).size (off + w.length) }).save sb n) off w x := by
  set d := { J.din n with size := max (I.din n).size (off + w.length) } with hd
  have hsize := hw.size n hn
  have hJ : J.Allocated sb n := h.allocated.mpr hn
  have hlt : max (I.din n).size (off + w.length) < 2 ^ 32 := by
    have : MAXFILE * BSIZE < 2 ^ 32 := by decide
    omega
  have hJf := h.wf.fits n
  have hdfits : d.Fits := ⟨hJf.type, hJf.major, hJf.minor, hJf.nlink, hlt, hJf.addrs⟩
  have hholes : ∀ bn, bn * BSIZE < d.size → J.place sb n (.data bn) ≠ 0 := by
    intro bn hbn
    refine h.noHoles hw hn hoff (lt_of_lt_of_le hbn (max_le_max le_rfl ?_))
    rw [List.length_append]
    omega
  have hwd : (J.setDin n d).Wf sb :=
    h.wf.setDin hdfits rfl rfl (fun _ => max_le hsize hmax) fun bn _ => hholes bn
  have hdn : (J.setDin n d).din n = d := Function.update_self ..
  have hsave := hwd.sameFile_save (n := n) hn.1
  have hplace : ∀ m p, (J.setDin n d).place sb m p = J.place sb m p := place_setDin rfl rfl
  have hbyte : ∀ k, J.place sb n (.data (k / BSIZE)) ≠ 0 →
      ((J.setDin n d).save sb n).byte sb n k = J.byte sb n k := by
    intro k hk
    rw [(hsave n).byte (by rwa [hplace]), byte, byte, hplace]
    rfl
  refine ⟨hwd.save hs hn.1, fun m hm => ?_, onDisk_save (by rwa [hdn]), fun m hm hmn hdisk => ?_, ?_,
    fun p hp => ?_, fun j hj => ?_, fun k hk hr => ?_⟩
  · exact ((h.others m hm).trans (sameFile_setDin hm)).trans (hsave m)
  · refine OnDisk.save ?_ (by rwa [hdn])
    rw [OnDisk, setDin_din, Function.update_of_ne hm, (h.others m hm).din, hdisk]
    unfold dinodeAt
    rw [setDin_content, h.inodes m hmn]
  · rw [save_din, hdn, hd, h.din]
  · rw [(hsave n).place, hplace, h.keeps p hp]
  · rw [hbyte _ (h.placed j hj), h.new j hj]
  · have h0 : I.place sb n (.data (k / BSIZE)) ≠ 0 :=
      hw.noHoles n _ hn (lt_of_le_of_lt (Nat.div_mul_le_self k BSIZE) hk)
    rw [hbyte _ (by rwa [h.keeps _ h0]), h.old k h0 hr]

end Image

/-! ### Files as lists -/

/-- The bytes of a file with those from `off` on replaced; the file may become longer. -/
def overwrite (l : List UInt8) (off : ℕ) (w : List UInt8) : List UInt8 :=
  l.take off ++ w ++ l.drop (off + w.length)

theorem length_overwrite {w : List UInt8} (h : off ≤ l.length) :
    (overwrite l off w).length = max l.length (off + w.length) := by
  simp only [overwrite, List.length_append, List.length_take, List.length_drop]
  omega

theorem getD_overwrite {w : List UInt8} (h : off ≤ l.length) (k : ℕ) :
    (overwrite l off w).getD k 0 =
      if off ≤ k ∧ k < off + w.length then w.getD (k - off) 0 else l.getD k 0 := by
  have htake : (l.take off).length = off := by simp [h]
  have hleft : (l.take off ++ w).length = off + w.length := by rw [List.length_append, htake]
  unfold overwrite
  by_cases hk : k < off
  · rw [if_neg (by omega), List.getD_append _ _ _ _ (by omega), List.getD_append _ _ _ _ (by omega)]
    simp [List.getD_eq_getElem?_getD, hk]
  · by_cases hkw : k < off + w.length
    · rw [if_pos (by omega), List.getD_append _ _ _ _ (by omega),
        List.getD_append_right _ _ _ _ (by omega), htake]
    · rw [if_neg (by omega), List.getD_append_right _ _ _ _ (by omega), hleft]
      simp only [List.getD_eq_getElem?_getD, List.getElem?_drop]
      congr 2
      omega

/-- Lists of bytes with the same length and the same bytes. -/
theorem ext_getD {a b : List UInt8} (hlen : a.length = b.length)
    (h : ∀ k, k < a.length → a.getD k 0 = b.getD k 0) : a = b := by
  refine List.ext_getElem hlen fun k hk hk' => ?_
  have := h k hk
  rwa [List.getD_eq_getElem _ _ hk, List.getD_eq_getElem _ _ hk'] at this

namespace Image

@[simp] theorem length_file : (I.file sb n).length = (I.din n).size := by simp [file]

theorem getD_file {k : ℕ} (hk : k < (I.din n).size) : (I.file sb n).getD k 0 = I.byte sb n k := by
  rw [List.getD_eq_getElem _ _ (by rwa [length_file])]
  simp [file]

/-- Bytes of the file, as part of the list. -/
theorem bytes_eq_file {len : ℕ} (h : off + len ≤ (I.din n).size) :
    I.bytes sb n off len = ((I.file sb n).drop off).take len := by
  refine ext_getD (by simp; omega) fun k hk => ?_
  rw [length_bytes] at hk
  have hb : (I.bytes sb n off len).getD k 0 = I.byte sb n (off + k) := by
    rw [List.getD_eq_getElem _ _ (by rwa [length_bytes])]
    simp [bytes]
  rw [hb, ← getD_file (by omega)]
  simp [List.getD_eq_getElem?_getD, List.getElem?_drop, hk]

/-- The file after a write has the bytes written, exactly if the bytes after them that were copied are
beyond its end or those it had. -/
theorem Written.file_iff {w x : List UInt8} (h : Written sb n I J off w x) (hoff : off ≤ (I.din n).size) :
    J.file sb n = overwrite (I.file sb n) off w ↔ ∀ j, j < x.length →
      off + w.length + j < (I.din n).size →
      x.getD j 0 = (I.file sb n).getD (off + w.length + j) 0 := by
  have hsize : (J.din n).size = max (I.din n).size (off + w.length) := by rw [h.din]
  have hlen := h.new
  rw [List.length_append] at hlen
  have hspill : ∀ j, j < x.length → J.byte sb n (off + w.length + j) = x.getD j 0 := by
    intro j hj
    have := hlen (w.length + j) (by omega)
    rwa [List.getD_append_right _ _ _ _ (by omega), Nat.add_sub_cancel_left, ← Nat.add_assoc] at this
  constructor
  · intro heq j hj hk
    rw [← hspill j hj, ← getD_file (by omega), heq, getD_overwrite (by rwa [length_file]),
      if_neg (by omega)]
  · intro hx
    refine ext_getD ?_ fun k hk => ?_
    · rw [length_file, hsize, length_overwrite (by rwa [length_file]), length_file]
    rw [length_file] at hk
    rw [getD_file hk, getD_overwrite (by rwa [length_file])]
    split
    · rename_i hr
      have := hlen (k - off) (by omega)
      rwa [List.getD_append _ _ _ _ (by omega), show off + (k - off) = k by omega] at this
    · rename_i hr
      have hk' : k < (I.din n).size := by omega
      by_cases hin : off ≤ k ∧ k < off + (w.length + x.length)
      · have hj := hspill (k - (off + w.length)) (by omega)
        have hold := hx (k - (off + w.length)) (by omega)
        rw [show off + w.length + (k - (off + w.length)) = k by omega] at hj hold
        rw [hj, hold hk']
      · rw [h.old k hk' (by rwa [List.length_append]), getD_file hk']

theorem Written.file {w : List UInt8} (h : Written sb n I J off w []) (hoff : off ≤ (I.din n).size) :
    J.file sb n = overwrite (I.file sb n) off w :=
  (h.file_iff hoff).mpr fun j hj => absurd hj (Nat.not_lt_zero j)

end Image

end Xv6.Fs
