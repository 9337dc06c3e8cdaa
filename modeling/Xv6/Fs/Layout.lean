import Xv6.Fs.Disk

/-!
# Which block belongs to which file

An `Image` is the content of all blocks with an inode for every inode number: the one in memory where
there is one that is in use, else the one on disk. A block number stands at a place of an inode: for a
block of the file, or for the indirect block. `Wf` says what holds of every image: a block stands at
one place only, is marked in the free map and is none of the blocks that hold the structure of the file
system; and every block below the size of a file stands at its place.

The lemmas say what the steps of the code do to an image: marking a free block, entering it at a place,
writing into it, taking it away, unmarking it. What a step does not concern it leaves as it was:
`SameFile` is the frame condition for one inode.
-/

namespace Xv6.Fs

open Lib Block

/-- A place where the number of a block stands in an inode. -/
inductive Part
  /-- Block `bn` of the file. -/
  | data (bn : ℕ)
  /-- The indirect block. -/
  | indirect
  deriving DecidableEq

/-- The block at a place of an inode, or 0; `c` is the content of the blocks. -/
def Dinode.at (d : Dinode) (c : ℕ → Data) : Part → ℕ
  | .data bn =>
    if h : bn < NDIRECT then d.addrs ⟨bn, Nat.lt_succ_of_lt h⟩
    else if bn < MAXFILE ∧ d.addrs (Fin.last NDIRECT) ≠ 0 then
      getEntry (c (d.addrs (Fin.last NDIRECT))) (bn - NDIRECT)
    else 0
  | .indirect => d.addrs (Fin.last NDIRECT)

/-- A block that the kernel never gives to a file: the boot block, the log, the inodes, the free
map. -/
def Reserved (sb : Superblock) (b : ℕ) : Prop :=
  b = 0 ∨ sb.InLog b ∨ (∃ n, n < sb.ninodes ∧ b = IBLOCK n sb) ∨ ∃ a, a < sb.size ∧ b = BBLOCK a sb

/-- The inodes and the free map are inside the disk and apart, and block numbers fit into 32 bits. -/
structure Sane (sb : Superblock) : Prop where
  small : sb.size < 2 ^ 32
  inside : ∀ b, Reserved sb b → b < sb.size
  apart : ∀ n a, n < sb.ninodes → a < sb.size → IBLOCK n sb ≠ BBLOCK a sb

theorem smallSb_reserved {b : ℕ} (h : Reserved smallSb b) : b < 48 := by
  unfold Reserved Superblock.InLog IBLOCK BBLOCK smallSb at h
  simp only [IPB, BPB, BSIZE] at h
  rcases h with h | h | ⟨n, hn, h⟩ | ⟨a, ha, h⟩ <;> omega

theorem smallSb_sane : Sane smallSb where
  small := by decide
  inside b hb := lt_trans (smallSb_reserved hb) (by decide)
  apart n a hn ha := by
    unfold IBLOCK BBLOCK smallSb at *
    simp only [IPB, BPB, BSIZE] at *
    omega

/-- The content of all blocks, and the inodes. -/
structure Image where
  content : ℕ → Data
  din : ℕ → Dinode

namespace Image

/-- The block with other content. -/
def setBlock (I : Image) (b : ℕ) (d : Data) : Image :=
  { I with content := Function.update I.content b d }

/-- Inode `n` replaced. -/
def setDin (I : Image) (n : ℕ) (d : Dinode) : Image := { I with din := Function.update I.din n d }

variable (sb : Superblock) (I : Image)

/-- Inode `n` is in use. -/
def Allocated (n : ℕ) : Prop := n < sb.ninodes ∧ (I.din n).type ≠ 0

instance (n : ℕ) : Decidable (I.Allocated sb n) := inferInstanceAs (Decidable (_ ∧ _))

/-- The block at a place of inode `n`, or 0. -/
def place (n : ℕ) (p : Part) : ℕ := if I.Allocated sb n then (I.din n).at I.content p else 0

/-- The block is marked in the free map. -/
def Marked (b : ℕ) : Prop := isSet (I.content (BBLOCK b sb)) (b % BPB) = true

/-- The block belongs to no file. -/
def Unused (b : ℕ) : Prop := ∀ n p, I.place sb n p ≠ 0 → I.place sb n p ≠ b

/-- Byte `k` of the file of inode `n`. -/
def byte (n k : ℕ) : UInt8 := (I.content (I.place sb n (.data (k / BSIZE)))).bytes (k % BSIZE)

/-- The content of the file of inode `n`. -/
def file (n : ℕ) : List UInt8 := (List.range (I.din n).size).map (I.byte sb n)

/-- What holds of the image of a file system. -/
structure Wf : Prop where
  fits : ∀ n, (I.din n).Fits
  reserved : ∀ b, Reserved sb b → I.Marked sb b
  used : ∀ n p, I.place sb n p ≠ 0 →
    I.place sb n p < sb.size ∧ I.Marked sb (I.place sb n p) ∧ ¬ Reserved sb (I.place sb n p)
  /-- A block stands at one place only. -/
  inj : ∀ n p n' p', I.place sb n p ≠ 0 → I.place sb n p = I.place sb n' p' → n = n' ∧ p = p'
  size : ∀ n, I.Allocated sb n → (I.din n).size ≤ MAXFILE * BSIZE
  /-- There are no holes. -/
  noHoles : ∀ n bn, I.Allocated sb n → bn * BSIZE < (I.din n).size → I.place sb n (.data bn) ≠ 0

/-- Inode `n` and the content of its file are as before. -/
structure SameFile (J : Image) (n : ℕ) : Prop where
  din : J.din n = I.din n
  place : ∀ p, J.place sb n p = I.place sb n p
  content : ∀ p, I.place sb n p ≠ 0 → J.content (I.place sb n p) = I.content (I.place sb n p)

variable {sb I} {J K : Image} {n m b : ℕ} {d : Data} {p : Part}

@[simp] theorem setBlock_din : (I.setBlock b d).din = I.din := rfl

@[simp] theorem setBlock_content : (I.setBlock b d).content = Function.update I.content b d := rfl

variable {x : Dinode} {bn y a : ℕ} {k : Fin (NDIRECT + 1)}

@[simp] theorem setDin_content : (I.setDin n x).content = I.content := rfl

@[simp] theorem setDin_din : (I.setDin n x).din = Function.update I.din n x := rfl

theorem place_of_allocated (h : I.Allocated sb n) : I.place sb n p = (I.din n).at I.content p :=
  if_pos h

theorem place_indirect (h : I.Allocated sb n) :
    I.place sb n .indirect = (I.din n).addrs (Fin.last NDIRECT) := place_of_allocated h

theorem place_direct (h : I.Allocated sb n) (hbn : bn < NDIRECT) :
    I.place sb n (.data bn) = (I.din n).addrs ⟨bn, Nat.lt_succ_of_lt hbn⟩ := by
  rw [place_of_allocated h, Dinode.at, dif_pos hbn]

theorem place_entry (h : I.Allocated sb n) (hbn : ¬ bn < NDIRECT) (hmax : bn < MAXFILE)
    (hind : (I.din n).addrs (Fin.last NDIRECT) ≠ 0) :
    I.place sb n (.data bn) =
      getEntry (I.content ((I.din n).addrs (Fin.last NDIRECT))) (bn - NDIRECT) := by
  rw [place_of_allocated h, Dinode.at, dif_neg hbn, if_pos ⟨hmax, hind⟩]

theorem place_entry_none (hbn : ¬ bn < NDIRECT) (hind : I.place sb n .indirect = 0) :
    I.place sb n (.data bn) = 0 := by
  by_cases h : I.Allocated sb n
  · rw [place_indirect h] at hind
    rw [place_of_allocated h, Dinode.at, dif_neg hbn, if_neg (by simp [hind])]
  · exact if_neg h

theorem place_of_ge (hbn : MAXFILE ≤ bn) : I.place sb n (.data bn) = 0 := by
  have hnd : ¬ bn < NDIRECT := by
    simp only [MAXFILE, NDIRECT] at *
    omega
  unfold place
  split
  · rw [Dinode.at, dif_neg hnd, if_neg (by omega)]
  · rfl

theorem place_congr (hdin : J.din n = I.din n)
    (hind : I.place sb n .indirect ≠ 0 →
      J.content (I.place sb n .indirect) = I.content (I.place sb n .indirect)) (p : Part) :
    J.place sb n p = I.place sb n p := by
  have hal : J.Allocated sb n ↔ I.Allocated sb n := by rw [Allocated, Allocated, hdin]
  by_cases h : I.Allocated sb n
  · rw [place_of_allocated h, place_of_allocated (hal.mpr h), hdin]
    cases p with
    | indirect => rfl
    | data bn =>
      simp only [Dinode.at]
      split
      · rfl
      · split
        · rename_i hlast
          rw [place_indirect h] at hind
          rw [hind hlast.2]
        · rfl
  · rw [place, place, if_neg h, if_neg (mt hal.mp h)]

namespace SameFile

theorem refl (I : Image) (n : ℕ) : I.SameFile sb I n := ⟨rfl, fun _ => rfl, fun _ _ => rfl⟩

theorem trans (h : I.SameFile sb J n) (h' : J.SameFile sb K n) : I.SameFile sb K n where
  din := h'.din.trans h.din
  place p := (h'.place p).trans (h.place p)
  content p hp := by
    have hJ := h'.content p (by rwa [h.place p])
    rw [h.place p] at hJ
    exact hJ.trans (h.content p hp)

/-- The inode is the same, and so is the content of its blocks. -/
theorem of_content (hdin : J.din n = I.din n) (h : ∀ p, I.place sb n p ≠ 0 →
    J.content (I.place sb n p) = I.content (I.place sb n p)) : I.SameFile sb J n where
  din := hdin
  place := place_congr hdin (h .indirect)
  content := h

theorem allocated (h : I.SameFile sb J n) : J.Allocated sb n ↔ I.Allocated sb n := by
  rw [Allocated, Allocated, h.din]

theorem byte (h : I.SameFile sb J n) {k : ℕ} (hk : I.place sb n (.data (k / BSIZE)) ≠ 0) :
    J.byte sb n k = I.byte sb n k := by
  rw [Image.byte, Image.byte, h.place, h.content _ hk]

theorem file (h : I.SameFile sb J n) (hw : I.Wf sb) (hn : I.Allocated sb n) :
    J.file sb n = I.file sb n := by
  rw [Image.file, Image.file, h.din]
  refine List.map_congr_left fun k hk => h.byte (hw.noHoles n _ hn ?_)
  have hlt := List.mem_range.mp hk
  have := Nat.div_mul_le_self k BSIZE
  omega

end SameFile

/-- Writing a block that belongs to no file. -/
theorem sameFile_setBlock (hu : I.Unused sb b) (m : ℕ) : I.SameFile sb (I.setBlock b d) m :=
  .of_content rfl fun p hp => Function.update_of_ne (hu m p hp) _ _

namespace Wf

variable (hw : I.Wf sb)

include hw

/-- A block of the structure belongs to no file. -/
theorem unused_of_reserved (h : Reserved sb b) : I.Unused sb b :=
  fun m p h0 hp => (hw.used m p h0).2.2 (hp ▸ h)

/-- A block that is not marked belongs to no file. -/
theorem unused_of_not_marked (h : ¬ I.Marked sb b) : I.Unused sb b :=
  fun m p h0 hp => h (hp ▸ (hw.used m p h0).2.1)

theorem not_reserved (h : ¬ I.Marked sb b) : ¬ Reserved sb b := fun hr => h (hw.reserved b hr)

theorem of_sameFile (hs : ∀ m, I.SameFile sb J m)
    (hmark : ∀ b, Reserved sb b ∨ (b ≠ 0 ∧ ∃ m p, I.place sb m p = b) → J.Marked sb b) :
    J.Wf sb where
  fits m := by
    rw [(hs m).din]
    exact hw.fits m
  reserved b hb := hmark b (.inl hb)
  used m p h0 := by
    rw [(hs m).place] at h0 ⊢
    have h := hw.used m p h0
    exact ⟨h.1, hmark _ (.inr ⟨h0, m, p, rfl⟩), h.2.2⟩
  inj m p m' p' h0 he := by
    rw [(hs m).place] at h0 he
    rw [(hs m').place] at he
    exact hw.inj m p m' p' h0 he
  size m hm := by
    rw [(hs m).din]
    exact hw.size m ((hs m).allocated.mp hm)
  noHoles m bn hm hbn := by
    rw [(hs m).place]
    rw [(hs m).din] at hbn
    exact hw.noHoles m bn ((hs m).allocated.mp hm) hbn

end Wf

/-! ### Marks -/

theorem bblock_inj {x : ℕ} (h : BBLOCK x sb = BBLOCK y sb) (hr : x % BPB = y % BPB) : x = y := by
  have hdiv : x / BPB = y / BPB := Nat.add_right_cancel h
  rw [← Nat.div_add_mod x BPB, ← Nat.div_add_mod y BPB, hdiv, hr]

theorem marked_setBit {x : ℕ} :
    (I.setBlock (BBLOCK x sb) (setBit (I.content (BBLOCK x sb)) (x % BPB))).Marked sb y ↔
      x = y ∨ I.Marked sb y := by
  unfold Marked
  by_cases hb : BBLOCK y sb = BBLOCK x sb
  · rw [setBlock_content, hb, Function.update_self, isSet_setBit (Nat.mod_lt _ (by decide)),
      Bool.or_eq_true, decide_eq_true_iff]
    exact or_congr_left ⟨fun hr => bblock_inj hb.symm hr, fun hxy => by rw [hxy]⟩
  · have hne : x ≠ y := fun hxy => hb (by rw [hxy])
    rw [setBlock_content, Function.update_of_ne hb]
    simp [hne]

theorem marked_clearBit {x : ℕ} :
    (I.setBlock (BBLOCK x sb) (clearBit (I.content (BBLOCK x sb)) (x % BPB))).Marked sb y ↔
      x ≠ y ∧ I.Marked sb y := by
  unfold Marked
  by_cases hb : BBLOCK y sb = BBLOCK x sb
  · rw [setBlock_content, hb, Function.update_self, isSet_clearBit (Nat.mod_lt _ (by decide)),
      Bool.and_eq_true, Bool.not_eq_true', decide_eq_false_iff_not]
    exact and_congr_left' (not_congr ⟨fun hr => bblock_inj hb.symm hr, fun hxy => by rw [hxy]⟩)
  · have hne : x ≠ y := fun hxy => hb (by rw [hxy])
    rw [setBlock_content, Function.update_of_ne hb]
    simp [hne]

/-- The marks are in the free map. -/
theorem marked_congr (h : J.content (BBLOCK y sb) = I.content (BBLOCK y sb)) :
    J.Marked sb y ↔ I.Marked sb y := by
  rw [Marked, Marked, h]

theorem reserved_bblock (ha : a < sb.size) : Reserved sb (BBLOCK a sb) :=
  .inr (.inr (.inr ⟨a, ha, rfl⟩))

theorem reserved_iblock (hn : n < sb.ninodes) : Reserved sb (IBLOCK n sb) :=
  .inr (.inr (.inl ⟨n, hn, rfl⟩))

namespace Wf

variable (hw : I.Wf sb) (hs : Sane sb)

include hw hs

omit hs in
/-- The free map is not in a file. -/
theorem bblock_ne_place {a : ℕ} (ha : a < sb.size) (h0 : I.place sb m p ≠ 0) :
    BBLOCK a sb ≠ I.place sb m p := by
  intro he
  have hr := reserved_bblock ha
  rw [he] at hr
  exact (hw.used m p h0).2.2 hr

omit hs in
/-- The inodes are not in a file. -/
theorem iblock_ne_place {i : ℕ} (hi : i < sb.ninodes) (h0 : I.place sb m p ≠ 0) :
    IBLOCK i sb ≠ I.place sb m p := by
  intro he
  have hr := reserved_iblock hi
  rw [he] at hr
  exact (hw.used m p h0).2.2 hr

omit hs in
theorem mark {x : ℕ} (hx : x < sb.size) :
    (I.setBlock (BBLOCK x sb) (setBit (I.content (BBLOCK x sb)) (x % BPB))).Wf sb := by
  refine hw.of_sameFile (sameFile_setBlock (hw.unused_of_reserved (reserved_bblock hx))) ?_
  rintro b (hb | ⟨h0, m, p, rfl⟩)
  · exact marked_setBit.mpr (.inr (hw.reserved b hb))
  · exact marked_setBit.mpr (.inr (hw.used m p h0).2.1)

theorem setBlock (hu : I.Unused sb b) (hb : ∀ a, a < sb.size → BBLOCK a sb ≠ b) :
    (I.setBlock b d).Wf sb := by
  refine hw.of_sameFile (sameFile_setBlock hu) ?_
  have hsame : ∀ y, y < sb.size → ((I.setBlock b d).Marked sb y ↔ I.Marked sb y) :=
    fun y hy => marked_congr (Function.update_of_ne (hb y hy) _ _)
  rintro y (hy | ⟨h0, m, p, rfl⟩)
  · exact (hsame y (hs.inside y hy)).mpr (hw.reserved y hy)
  · exact (hsame _ (hw.used m p h0).1).mpr (hw.used m p h0).2.1

theorem setUnused (hu : I.Unused sb b) (hr : ¬ Reserved sb b) : (I.setBlock b d).Wf sb :=
  hw.setBlock hs hu fun _ ha he => hr (he ▸ reserved_bblock ha)

/-- Content of a block of inodes. -/
theorem setIblock (hn : n < sb.ninodes) : (I.setBlock (IBLOCK n sb) d).Wf sb :=
  hw.setBlock hs (hw.unused_of_reserved (reserved_iblock hn)) fun a ha he => hs.apart n a hn ha he.symm

omit hs in
/-- The content of block `bn` of a file. -/
theorem sameFile_setData {bn : ℕ} (hm : m ≠ n) :
    I.SameFile sb (I.setBlock (I.place sb n (.data bn)) d) m := by
  refine .of_content rfl fun p hp => Function.update_of_ne (fun he => ?_) _ _
  exact hm (hw.inj m p n _ hp he).1

omit hs in
theorem place_setData (bn m : ℕ) (p : Part) :
    (I.setBlock (I.place sb n (.data bn)) d).place sb m p = I.place sb m p := by
  have hind : I.place sb m .indirect ≠ 0 → (I.setBlock (I.place sb n (.data bn)) d).content
      (I.place sb m .indirect) = I.content (I.place sb m .indirect) := by
    intro hp
    exact Function.update_of_ne (fun he => nomatch (hw.inj m .indirect n (.data bn) hp he).2) _ _
  exact place_congr (by rfl) hind p

theorem setData {bn : ℕ} (h0 : I.place sb n (.data bn) ≠ 0) :
    (I.setBlock (I.place sb n (.data bn)) d).Wf sb := by
  have hmark : ∀ y, y < sb.size →
      ((I.setBlock (I.place sb n (.data bn)) d).Marked sb y ↔ I.Marked sb y) := by
    intro y hy
    exact marked_congr (Function.update_of_ne (hw.bblock_ne_place hy h0) _ _)
  have hplace := hw.place_setData (d := d) (n := n) bn
  exact {
    fits := hw.fits
    reserved := fun y hy => (hmark y (hs.inside y hy)).mpr (hw.reserved y hy)
    used := fun m p hp => by
      rw [hplace] at hp ⊢
      have h := hw.used m p hp
      exact ⟨h.1, (hmark _ h.1).mpr h.2.1, h.2.2⟩
    inj := fun m p m' p' hp he => by
      rw [hplace] at hp he
      rw [hplace] at he
      exact hw.inj m p m' p' hp he
    size := hw.size
    noHoles := fun m bn' hm hbn => by
      rw [hplace]
      exact hw.noHoles m bn' hm hbn }

/-! #### Entering and taking away blocks -/

theorem enter (hfits : ∀ m, (J.din m).Fits) (hal : ∀ m, J.Allocated sb m ↔ I.Allocated sb m)
    (hsize : ∀ m, (J.din m).size = (I.din m).size)
    (hmark : ∀ y, y < sb.size → (J.Marked sb y ↔ I.Marked sb y))
    (hplace : ∀ m q, J.place sb m q = if m = n ∧ q = p then b else I.place sb m q)
    (hb : b < sb.size) (hbm : I.Marked sb b) (hbr : ¬ Reserved sb b) (hu : I.Unused sb b)
    (hold : I.place sb n p = 0) : J.Wf sb := by
  refine ⟨hfits, fun y hy => (hmark y (hs.inside y hy)).mpr (hw.reserved y hy), ?_, ?_, ?_, ?_⟩
  · intro m q h0
    rw [hplace] at h0 ⊢
    split at h0
    · rename_i hmq
      rw [if_pos hmq]
      exact ⟨hb, (hmark b hb).mpr hbm, hbr⟩
    · rename_i hmq
      rw [if_neg hmq]
      have h := hw.used m q h0
      exact ⟨h.1, (hmark _ h.1).mpr h.2.1, h.2.2⟩
  · intro m q m' q' h0 he
    rw [hplace] at h0 he
    rw [hplace] at he
    by_cases hmq : m = n ∧ q = p
    · rw [if_pos hmq] at h0 he
      by_cases hmq' : m' = n ∧ q' = p
      · exact ⟨hmq.1.trans hmq'.1.symm, hmq.2.trans hmq'.2.symm⟩
      · rw [if_neg hmq'] at he
        exact absurd he.symm (hu m' q' (he ▸ h0))
    · rw [if_neg hmq] at h0 he
      by_cases hmq' : m' = n ∧ q' = p
      · rw [if_pos hmq'] at he
        exact absurd he (hu m q h0)
      · rw [if_neg hmq'] at he
        exact hw.inj m q m' q' h0 he
  · intro m hm
    rw [hsize]
    exact hw.size m ((hal m).mp hm)
  · intro m bn hm hbn
    rw [hsize] at hbn
    rw [hplace]
    have h0 := hw.noHoles m bn ((hal m).mp hm) hbn
    split
    · rename_i hmq
      rw [hmq.1, hmq.2, hold] at h0
      exact absurd rfl h0
    · exact h0

end Wf

/-! ### Inodes replaced -/

/-- Replacing inode `n` leaves the other files as they were. -/
theorem sameFile_setDin (hm : m ≠ n) : I.SameFile sb (I.setDin n x) m :=
  .of_content (Function.update_of_ne hm _ _) fun _ _ => rfl

theorem allocated_setDin (hx : x.type = (I.din n).type) :
    (I.setDin n x).Allocated sb m ↔ I.Allocated sb m := by
  unfold Allocated
  by_cases hm : m = n
  · rw [hm, setDin_din, Function.update_self, hx]
  · rw [setDin_din, Function.update_of_ne hm]

theorem setAddr_addrs_of_ne {k' : Fin (NDIRECT + 1)} (h : k' ≠ k) :
    (x.setAddr k a).addrs k' = x.addrs k' := Function.update_of_ne h _ _

theorem setAddr_addrs_self :
    (x.setAddr k a).addrs k = a := Function.update_self ..

theorem fits_setAddr (hx : x.Fits) (ha : a < 2 ^ 32) : (x.setAddr k a).Fits := by
  refine ⟨hx.type, hx.major, hx.minor, hx.nlink, hx.size, fun k' => ?_⟩
  by_cases hk : k' = k
  · rw [hk, setAddr_addrs_self]
    exact ha
  · rw [setAddr_addrs_of_ne hk]
    exact hx.addrs k'

theorem fits_setDin (hI : ∀ m, (I.din m).Fits) (hx : x.Fits) (m : ℕ) :
    ((I.setDin n x).din m).Fits := by
  by_cases hm : m = n
  · rw [hm, setDin_din, Function.update_self]
    exact hx
  · rw [setDin_din, Function.update_of_ne hm]
    exact hI m

theorem place_setDirect (hn : I.Allocated sb n) (hbn : bn < NDIRECT) (m : ℕ) (q : Part) :
    (I.setDin n ((I.din n).setAddr ⟨bn, Nat.lt_succ_of_lt hbn⟩ b)).place sb m q =
      if m = n ∧ q = .data bn then b else I.place sb m q := by
  by_cases hm : m = n
  · subst hm
    have hal : (I.setDin m ((I.din m).setAddr ⟨bn, by omega⟩ b)).Allocated sb m :=
      (allocated_setDin (x := (I.din m).setAddr _ b) rfl).mpr hn
    have hlast : Fin.last NDIRECT ≠ (⟨bn, by omega⟩ : Fin (NDIRECT + 1)) := by
      intro he
      exact absurd (congrArg Fin.val he) (by simp; omega)
    rw [place_of_allocated hal, place_of_allocated hn, setDin_din, Function.update_self,
      setDin_content]
    cases q with
    | indirect => simp [Dinode.at, setAddr_addrs_of_ne hlast]
    | data bn' =>
      by_cases hq : bn' = bn
      · subst hq
        simp [Dinode.at, hbn, setAddr_addrs_self]
      · have hne : ∀ h : bn' < NDIRECT + 1, (⟨bn', h⟩ : Fin (NDIRECT + 1)) ≠ ⟨bn, by omega⟩ :=
          fun h he => hq (congrArg Fin.val he)
        simp [Dinode.at, hq, setAddr_addrs_of_ne hlast, setAddr_addrs_of_ne (hne _)]
  · rw [if_neg (fun h => hm h.1), (sameFile_setDin hm).place]

/-- The indirect block is entered, with no entries. -/
theorem place_setIndirect (hn : I.Allocated sb n) (hold : I.place sb n .indirect = 0)
    (hzero : I.content b = fun _ => 0) (m : ℕ) (q : Part) :
    (I.setDin n ((I.din n).setAddr (Fin.last NDIRECT) b)).place sb m q =
      if m = n ∧ q = .indirect then b else I.place sb m q := by
  by_cases hm : m = n
  · subst hm
    have hal : (I.setDin m ((I.din m).setAddr (Fin.last NDIRECT) b)).Allocated sb m :=
      (allocated_setDin (x := (I.din m).setAddr _ b) rfl).mpr hn
    cases q with
    | indirect =>
      rw [place_indirect hal, setDin_din, Function.update_self, setAddr_addrs_self]
      simp
    | data bn =>
      rw [if_neg (by simp)]
      by_cases hbn : bn < NDIRECT
      · have hne : (⟨bn, by omega⟩ : Fin (NDIRECT + 1)) ≠ Fin.last NDIRECT := by
          intro he
          exact absurd (congrArg Fin.val he) (by simp; omega)
        rw [place_direct hal hbn, place_direct hn hbn, setDin_din, Function.update_self,
          setAddr_addrs_of_ne hne]
      · rw [place_entry_none hbn hold, place_of_allocated hal, Dinode.at, dif_neg hbn,
          setDin_din, Function.update_self, setAddr_addrs_self, setDin_content, hzero]
        split
        · exact getEntry_zero _
        · rfl
  · rw [if_neg (fun h => hm h.1), (sameFile_setDin hm).place]

theorem place_setEntry (hw : I.Wf sb) (hn : I.Allocated sb n) (hind : I.place sb n .indirect ≠ 0)
    (hbn : ¬ bn < NDIRECT) (hmax : bn < MAXFILE) (hb : b < 2 ^ 32) (m : ℕ) (q : Part) :
    (I.setBlock (I.place sb n .indirect)
      (putEntry (I.content (I.place sb n .indirect)) (bn - NDIRECT) b)).place sb m q =
      if m = n ∧ q = .data bn then b else I.place sb m q := by
  set J := I.setBlock (I.place sb n .indirect)
    (putEntry (I.content (I.place sb n .indirect)) (bn - NDIRECT) b) with hJ
  by_cases hm : m = n
  · subst hm
    have hal : J.Allocated sb m := hn
    cases q with
    | indirect =>
      rw [if_neg (by simp), place_indirect hal, place_indirect hn]
      rfl
    | data bn' =>
      by_cases hbn' : bn' < NDIRECT
      · rw [if_neg (by simp; omega), place_direct hal hbn', place_direct hn hbn']
        rfl
      · by_cases hmax' : bn' < MAXFILE
        · have hlast : (I.din m).addrs (Fin.last NDIRECT) ≠ 0 := by rwa [place_indirect hn] at hind
          rw [place_entry hal hbn' hmax' hlast, place_entry hn hbn' hmax' hlast, hJ,
            setBlock_din, setBlock_content, place_indirect hn, Function.update_self,
            getEntry_putEntry (by simp only [MAXFILE] at hmax'; omega) hb]
          by_cases hq : bn' = bn
          · rw [if_pos (by rw [hq]), if_pos ⟨rfl, by rw [hq]⟩]
          · rw [if_neg (by omega), if_neg (by simp [hq])]
        · rw [place_of_ge (by omega), place_of_ge (by omega), if_neg (by simp; omega)]
  · rw [if_neg (fun h => hm h.1)]
    refine place_congr (by rfl) (fun h0 => ?_) q
    exact Function.update_of_ne (fun he => hm (hw.inj m .indirect n .indirect h0 he).1) _ _

/-! ### What a write does to a file -/

/-- Blocks may have been added to inode `n`; nothing else has changed but the free map. -/
structure Grow (sb : Superblock) (n : ℕ) (I J : Image) : Prop where
  others : ∀ m, m ≠ n → I.SameFile sb J m
  inodes : ∀ m, m < sb.ninodes → J.content (IBLOCK m sb) = I.content (IBLOCK m sb)
  din : J.din n = { I.din n with addrs := (J.din n).addrs }
  keeps : ∀ p, I.place sb n p ≠ 0 → J.place sb n p = I.place sb n p
  data : ∀ bn, I.place sb n (.data bn) ≠ 0 →
    J.content (I.place sb n (.data bn)) = I.content (I.place sb n (.data bn))

theorem Grow.refl (I : Image) (n : ℕ) : Grow sb n I I :=
  ⟨fun m _ => .refl I m, fun _ _ => rfl, rfl, fun _ _ => rfl, fun _ _ => rfl⟩

theorem Grow.trans (h : Grow sb n I J) (h' : Grow sb n J K) : Grow sb n I K where
  others m hm := (h.others m hm).trans (h'.others m hm)
  inodes m hm := (h'.inodes m hm).trans (h.inodes m hm)
  din := by
    rw [h'.din, h.din]
  keeps p hp := by
    have hJ := h.keeps p hp
    exact (h'.keeps p (by rwa [hJ])).trans hJ
  data bn hp := by
    have hJ := h.keeps (.data bn) hp
    have hK := h'.data bn (by rwa [hJ])
    rw [hJ] at hK
    exact hK.trans (h.data bn hp)

/-- `b` has been allocated, and all files are as before. -/
structure Gets (sb : Superblock) (I J : Image) (b : ℕ) : Prop where
  wf : J.Wf sb
  same : ∀ m, I.SameFile sb J m
  inodes : ∀ m, m < sb.ninodes → J.content (IBLOCK m sb) = I.content (IBLOCK m sb)
  lt : b < sb.size
  marked : J.Marked sb b
  free : ¬ Reserved sb b
  unused : J.Unused sb b
  zero : J.content b = fun _ => 0

theorem Gets.grow (h : Gets sb I J b) (n : ℕ) : Grow sb n I J where
  others m _ := h.same m
  inodes := h.inodes
  din := by rw [(h.same n).din]
  keeps p _ := (h.same n).place p
  data bn := (h.same n).content (.data bn)

end Image

end Xv6.Fs
