import Xv6.Fs.Layout
import Xv6.Fs.View

/-!
# Allocating blocks

What `balloc`, `bfree`, `iupdate` and `bmap` do to the image of the file system. `balloc` gives a block
that was not marked, so that it belongs to no file; it is marked and zeroed. `runs_balloc_least` says
that it is the smallest such block, for any content of the free map, and that `balloc` panics only if there
is none. `bmap` gives the block at a
place of an inode, and enters a new one if there is none.
-/

namespace Xv6.Fs

open Lib Block

variable {sb : Superblock} {μ : Mode} {v v' w : View} {I J K : Image} {n : ℕ} {ip : InodeRef}

namespace View

/-- The state after code that changed blocks and the inode `ip` in memory, which has number `n`. -/
structure Moves (v v' : View) (ip : InodeRef) (n : ℕ) (J : Image) : Prop where
  content : v'.content = J.content
  held : v'.held = v.held
  kern : v'.kern = v.kern.setInode ip { v.kern.inode ip with din := J.din n }
  op : v.op ≠ none → v'.op ≠ none

theorem setInode_self (k : Kern) (ip : InodeRef) : k.setInode ip (k.inode ip) = k := by
  simp [Kern.setInode]

theorem Moves.refl (hI : v.content = I.content) (hin : (v.kern.inode ip).din = I.din n) :
    v.Moves v ip n I := by
  refine ⟨hI, rfl, ?_, id⟩
  rw [← hin]
  exact (setInode_self v.kern ip).symm

theorem Moves.inode (h : v.Moves v' ip n J) :
    v'.kern.inode ip = { v.kern.inode ip with din := J.din n } := by
  rw [h.kern]
  simp [Kern.setInode]

theorem Moves.trans (h : v.Moves v' ip n J) (h' : v'.Moves w ip n K) : v.Moves w ip n K where
  content := h'.content
  held := h'.held.trans h.held
  kern := by
    rw [h'.kern, h.inode, h.kern]
    simp [Kern.setInode]
  op hop := h'.op (h.op hop)

theorem Moves.idle (h : v.Moves v' ip n J) (hv : v.Idle) : v'.Idle := fun i => by
  rw [h.held]
  exact hv i

theorem eq_hold {i : BufRef} {b : ℕ} {d : Data} (h : v.held i = some (b, d)) :
    v = (v.release i).hold i b d := by
  have hheld : Function.update v.held i (some (b, d)) = v.held := by
    rw [← h, Function.update_eq_self]
  simp [hold, release, hheld]

end View

/-! ### `balloc` -/

theorem runs_bzero {b : ℕ} {Q : Unit → View → Prop} (hc : v.Clear b) (hop : v.op ≠ none)
    (h : Q () (v.log b fun _ => 0)) : Runs μ (bzero b) Q v :=
  runs_bind (runs_bread hc fun _ hi => runs_write_last hi hop h)

variable {Q : ℕ → View → Prop} {d : Data} {lim m bi : ℕ}

theorem freeBit_some {k : ℕ} (h : freeBit d lim m bi = some k) :
    k < bi + m ∧ k < lim ∧ isSet d k = false := by
  induction m generalizing bi with
  | zero => simp [freeBit] at h
  | succ m ih =>
    unfold freeBit at h
    split at h
    · simp at h
    · rename_i hlim
      split at h
      · have hk := ih h
        exact ⟨by omega, hk.2⟩
      · rename_i hset
        obtain rfl : bi = k := Option.some.inj h
        exact ⟨by omega, by omega, by simpa using hset⟩

/-- The bit of block `b` is set. -/
def View.Bit (sb : Superblock) (v : View) (b : ℕ) : Prop :=
  isSet (v.content (BBLOCK b sb)) (b % BPB) = true

/-- No block is free. -/
def View.NoSpace (sb : Superblock) (v : View) : Prop := ∀ b, b < sb.size → v.Bit sb b

/-- Block `b` is marked and zeroed. -/
def View.take (sb : Superblock) (v : View) (b : ℕ) : View :=
  (v.log (BBLOCK b sb) (setBit (v.content (BBLOCK b sb)) (b % BPB))).log b fun _ => 0

theorem freeBit_least {k : ℕ} (h : freeBit d lim m bi = some k) :
    ∀ j, bi ≤ j → j < k → isSet d j = true := by
  induction m generalizing bi with
  | zero => simp [freeBit] at h
  | succ m ih =>
    intro j hj hjk
    unfold freeBit at h
    split_ifs at h with h1 h2
    · obtain rfl | hlt := Nat.eq_or_lt_of_le hj
      · exact h2
      · exact ih h j hlt hjk
    · obtain rfl := Option.some.inj h
      omega

theorem freeBit_eq_none (h : freeBit d lim m bi = none) :
    ∀ j, bi ≤ j → j < bi + m → j < lim → isSet d j = true := by
  induction m generalizing bi with
  | zero => intros; omega
  | succ m ih =>
    intro j hj hjm hlim
    unfold freeBit at h
    split_ifs at h with h1 h2
    · omega
    · obtain rfl | hlt := Nat.eq_or_lt_of_le hj
      · exact h2
      · exact ih h j hlt (by omega) hlim

/-- The bits of the turn of `balloc` at `t`. -/
theorem bit_turn (sb : Superblock) {t j : ℕ} (ht : t % BPB = 0) (hj : j < BPB) :
    (t + j) % BPB = j ∧ BBLOCK (t + j) sb = BBLOCK t sb := by
  simp only [BBLOCK, BPB, BSIZE] at ht hj ⊢
  omega

/-- `balloc` from the bits of block `t` on, if those below are set. -/
theorem runs_ballocFrom_least (hop : v.op ≠ none) (hmap : ∀ a, a < sb.size → v.Clear (BBLOCK a sb))
    (hclear : ∀ b, b < sb.size → ¬ v.Bit sb b → v.Clear b)
    (hfound : ∀ b, b < sb.size → ¬ v.Bit sb b → (∀ x, x < b → v.Bit sb x) → Q b (v.take sb b))
    (hnone : v.NoSpace sb → μ.panics "balloc: out of blocks" v) (m t : ℕ) (ht : t % BPB = 0)
    (hm : t + m * BPB < sb.size + BPB) (hend : sb.size ≤ t + m * BPB)
    (hset : ∀ x, x < t → x < sb.size → v.Bit sb x) : Runs μ (ballocFrom sb m t) Q v := by
  induction m generalizing t with
  | zero => exact runs_panic (hnone fun x hx => hset x (by omega) hx)
  | succ m ih =>
    rw [Nat.succ_mul] at hm hend
    have hts : t < sb.size := by omega
    have hbit {j : ℕ} (hj : j < BPB) :
        v.Bit sb (t + j) ↔ isSet (v.content (BBLOCK t sb)) j = true := by
      rw [View.Bit, (bit_turn sb ht hj).1, (bit_turn sb ht hj).2]
    -- The bits this turn has passed over are set like those of the turns before.
    have hturn {k : ℕ} (hk : k ≤ BPB)
        (hall : ∀ j, j < k → t + j < sb.size → isSet (v.content (BBLOCK t sb)) j = true) :
        ∀ x, x < t + k → x < sb.size → v.Bit sb x := by
      intro x hx hxs
      by_cases hxt : x < t
      · exact hset x hxt hxs
      · obtain ⟨j, rfl⟩ := Nat.exists_eq_add_of_le (Nat.le_of_not_lt hxt)
        exact (hbit (by omega)).mpr (hall j (by omega) hxs)
    refine runs_read (hmap t hts) fun i hi => ?_
    split
    · rename_i bi hbi
      obtain ⟨hlt, hlim, hfree⟩ := freeBit_some hbi
      rw [Nat.zero_add] at hlt
      have hs : t + bi < sb.size := by omega
      have hnot : ¬ v.Bit sb (t + bi) := by
        rw [hbit hlt, hfree]
        exact Bool.false_ne_true
      have hq := hfound (t + bi) hs hnot fun x hx =>
        hturn (Nat.le_of_lt hlt) (fun j hj _ => freeBit_least hbi j (Nat.zero_le j) hj) x hx
          (hx.trans hs)
      rw [View.take, (bit_turn sb ht hlt).1, (bit_turn sb ht hlt).2] at hq
      refine runs_write hi hop (runs_bind (runs_bzero (hclear _ hs hnot).log (by simp [hop]) ?_))
      exact runs_pure hq
    · rename_i hbi
      refine runs_drop hi (ih (t + BPB) (by rw [Nat.add_mod_right, ht]) (by omega) (by omega) ?_)
      exact hturn le_rfl fun j hj hs => freeBit_eq_none hbi j (Nat.zero_le j) (by omega) (by omega)

theorem runs_balloc_least (hop : v.op ≠ none) (hmap : ∀ a, a < sb.size → v.Clear (BBLOCK a sb))
    (hclear : ∀ b, b < sb.size → ¬ v.Bit sb b → v.Clear b)
    (hfound : ∀ b, b < sb.size → ¬ v.Bit sb b → (∀ x, x < b → v.Bit sb x) → Q b (v.take sb b))
    (hnone : v.NoSpace sb → μ.panics "balloc: out of blocks" v) : Runs μ (balloc sb) Q v := by
  have hm : (sb.size + BPB - 1) / BPB * BPB < sb.size + BPB ∧
      sb.size ≤ (sb.size + BPB - 1) / BPB * BPB := by
    simp only [BPB, BSIZE]
    omega
  refine runs_ballocFrom_least hop hmap hclear hfound hnone _ 0 rfl ?_ ?_ fun x hx => ?_
  · rw [Nat.zero_add]
    exact hm.1
  · rw [Nat.zero_add]
    exact hm.2
  · exact absurd hx (Nat.not_lt_zero x)

theorem gets_of_free (hw : I.Wf sb) (hs : Sane sb) {b : ℕ} (hb : b < sb.size)
    (hfree : ¬ I.Marked sb b) :
    Image.Gets sb I ((I.setBlock (BBLOCK b sb)
      (setBit (I.content (BBLOCK b sb)) (b % BPB))).setBlock b fun _ => 0) b := by
  set I₁ := I.setBlock (BBLOCK b sb) (setBit (I.content (BBLOCK b sb)) (b % BPB)) with hI₁
  have hr : ¬ Reserved sb b := hw.not_reserved hfree
  have hsame₁ : ∀ m, I.SameFile sb I₁ m :=
    Image.sameFile_setBlock (hw.unused_of_reserved (Image.reserved_bblock hb))
  have hw₁ : I₁.Wf sb := hw.mark hb
  have hu₁ : I₁.Unused sb b := fun m p h0 he => by
    rw [(hsame₁ m).place] at h0 he
    exact hw.unused_of_not_marked hfree m p h0 he
  have hsame₂ : ∀ m, I₁.SameFile sb (I₁.setBlock b fun _ => 0) m := Image.sameFile_setBlock hu₁
  refine ⟨hw₁.setUnused hs hu₁ hr, fun m => (hsame₁ m).trans (hsame₂ m), fun m hm => ?_, hb, ?_, hr,
    fun m p h0 he => ?_, Function.update_self ..⟩
  · have hne : IBLOCK m sb ≠ b := fun he => hr (he ▸ Image.reserved_iblock hm)
    rw [Image.setBlock_content, Function.update_of_ne hne, hI₁, Image.setBlock_content,
      Function.update_of_ne (hs.apart m b hm hb)]
  · have hne : BBLOCK b sb ≠ b := fun he => hr (he ▸ Image.reserved_bblock hb)
    exact (Image.marked_congr (Function.update_of_ne hne _ _)).mpr
      (Image.marked_setBit.mpr (.inl rfl))
  · rw [(hsame₂ m).place] at h0 he
    exact hu₁ m p h0 he

/-- The run may panic when no block is free. -/
def Mode.Fills (sb : Superblock) (μ : Mode) : Prop :=
  ∀ v : View, v.NoSpace sb → μ.panics "balloc: out of blocks" v

/-- `balloc` gives a block that belongs to no file. -/
theorem runs_balloc (hw : I.Wf sb) (hs : Sane sb) (hI : v.content = I.content) (hop : v.op ≠ none)
    (hmap : ∀ a, a < sb.size → v.Clear (BBLOCK a sb)) (hclear : ∀ b, ¬ I.Marked sb b → v.Clear b)
    (hE : μ.Fills sb)
    (h : ∀ b J v', Image.Gets sb I J b → v'.content = J.content → v'.held = v.held →
      v'.kern = v.kern → v'.op ≠ none → Q b v') : Runs μ (balloc sb) Q v := by
  have hbit {b : ℕ} : v.Bit sb b ↔ I.Marked sb b := by rw [View.Bit, hI, Image.Marked]
  refine runs_balloc_least hop hmap (fun b _ hfree => hclear b (hbit.not.mp hfree))
    (fun b hb hfree _ => ?_) (hE v)
  refine h b _ _ (gets_of_free hw hs hb (hbit.not.mp hfree)) ?_ rfl rfl (by simp [View.take, hop])
  simp [View.take, hI]

/-! ### `bmap` -/

/-- The place of address `k` of an inode. -/
def Part.ofAddr (k : Fin (NDIRECT + 1)) : Part := if k.val < NDIRECT then .data k else .indirect

@[simp] theorem Part.ofAddr_last : Part.ofAddr (Fin.last NDIRECT) = .indirect :=
  if_neg (lt_irrefl _)

theorem Part.ofAddr_of_lt {bn : ℕ} (h : bn < NDIRECT) :
    Part.ofAddr ⟨bn, Nat.lt_succ_of_lt h⟩ = .data bn := if_pos h

namespace Image

/-- Block `b` is at a place of inode `n`; it may be new. -/
structure Mapped (sb : Superblock) (n : ℕ) (I J : Image) (p : Part) (b : ℕ) : Prop where
  wf : J.Wf sb
  grow : Grow sb n I J
  place : J.place sb n p = b
  ne_zero : b ≠ 0

theorem place_ofAddr (hn : I.Allocated sb n) (k : Fin (NDIRECT + 1)) :
    I.place sb n (.ofAddr k) = (I.din n).addrs k := by
  unfold Part.ofAddr
  split
  · rename_i hk
    exact place_direct hn hk
  · rename_i hk
    have hlast : k = Fin.last NDIRECT := Fin.ext (by have := k.isLt; simp; omega)
    rw [hlast]
    exact place_indirect hn

variable {b : ℕ}

theorem place_setAddr (hn : I.Allocated sb n) {k : Fin (NDIRECT + 1)} (hold : (I.din n).addrs k = 0)
    (hzero : I.content b = fun _ => 0) (m : ℕ) (q : Part) :
    (I.setDin n ((I.din n).setAddr k b)).place sb m q =
      if m = n ∧ q = .ofAddr k then b else I.place sb m q := by
  rw [← place_ofAddr hn] at hold
  by_cases hk : k.val < NDIRECT
  · rw [show Part.ofAddr k = .data k from if_pos hk]
    exact place_setDirect hn hk m q
  · obtain rfl : k = Fin.last NDIRECT := Fin.ext (by have := k.isLt; simp; omega)
    rw [Part.ofAddr_last] at hold ⊢
    exact place_setIndirect hn hold hzero m q

theorem Gets.setAddr (h : Gets sb I J b) (hs : Sane sb) (hn : I.Allocated sb n)
    {k : Fin (NDIRECT + 1)} (hold : (I.din n).addrs k = 0) :
    Mapped sb n I (J.setDin n ((J.din n).setAddr k b)) (.ofAddr k) b := by
  have hnJ : J.Allocated sb n := (h.same n).allocated.mpr hn
  have holdJ : (J.din n).addrs k = 0 := by rw [(h.same n).din, hold]
  have hplace := place_setAddr hnJ holdJ h.zero
  have hlt : b < 2 ^ 32 := lt_trans h.lt hs.small
  have hzero : J.place sb n (.ofAddr k) = 0 := by rw [place_ofAddr hnJ, holdJ]
  refine ⟨?_, (h.grow n).trans ⟨fun m hm => sameFile_setDin hm, fun _ _ => rfl, ?_, fun p hp => ?_,
    fun _ _ => rfl⟩, ?_, fun h0 => h.free (.inl h0)⟩
  · refine h.wf.enter hs (fits_setDin h.wf.fits (fits_setAddr (h.wf.fits n) hlt))
      (fun m => allocated_setDin (x := (J.din n).setAddr k b) rfl) (fun m => ?_) (fun _ _ => .rfl)
      hplace h.lt h.marked h.free h.unused hzero
    by_cases hm : m = n
    · rw [hm, setDin_din, Function.update_self]
      rfl
    · rw [setDin_din, Function.update_of_ne hm]
  · rw [setDin_din, Function.update_self]
    rfl
  · rw [hplace, if_neg]
    rintro ⟨-, rfl⟩
    exact hp hzero
  · rw [hplace, if_pos ⟨rfl, rfl⟩]

theorem Gets.setEntry {bn : ℕ} (h : Gets sb I J b) (hs : Sane sb) (hn : I.Allocated sb n)
    (hind : I.place sb n .indirect ≠ 0) (hbn : ¬ bn < NDIRECT) (hmax : bn < MAXFILE)
    (hold : I.place sb n (.data bn) = 0) :
    Mapped sb n I (J.setBlock (I.place sb n .indirect)
      (putEntry (J.content (I.place sb n .indirect)) (bn - NDIRECT) b)) (.data bn) b := by
  have hnJ : J.Allocated sb n := (h.same n).allocated.mpr hn
  have hlt : b < 2 ^ 32 := lt_trans h.lt hs.small
  have hindJ := (h.same n).place .indirect
  rw [← hindJ] at hind ⊢
  have hplace := place_setEntry h.wf hnJ hind hbn hmax hlt
  have hzero : J.place sb n (.data bn) = 0 := by rw [(h.same n).place, hold]
  refine ⟨?_, (h.grow n).trans ⟨fun m hm => ?_, fun m hm => ?_, rfl, fun p hp => ?_, fun bn' hp => ?_⟩,
    ?_, fun h0 => h.free (.inl h0)⟩
  · refine h.wf.enter hs h.wf.fits (fun m => .rfl) (fun m => rfl) (fun y hy => marked_congr ?_) hplace
      h.lt h.marked h.free h.unused hzero
    exact Function.update_of_ne (h.wf.bblock_ne_place hy hind) _ _
  · refine .of_content rfl fun p hp => Function.update_of_ne (fun he => ?_) _ _
    exact hm (h.wf.inj m p n .indirect hp he).1
  · exact Function.update_of_ne (h.wf.iblock_ne_place hm hind) _ _
  · rw [hplace, if_neg]
    rintro ⟨-, rfl⟩
    exact hp hzero
  · refine Function.update_of_ne (fun he => ?_) _ _
    exact nomatch (h.wf.inj n (.data bn') n .indirect hp he).2
  · rw [hplace, if_pos ⟨rfl, rfl⟩]

end Image

section bmap

variable (hw : I.Wf sb) (hs : Sane sb) (hI : v.content = I.content) (hn : I.Allocated sb n)
  (hin : (v.kern.inode ip).din = I.din n) (hidle : v.Idle) (hop : v.op ≠ none)

include hw hs hI hn hin hidle hop

theorem runs_bmapAddr {k : Fin (NDIRECT + 1)} {Q : ℕ → View → Prop}
    (hE : (I.din n).addrs k = 0 → μ.Fills sb)
    (h : ∀ b J v', Image.Mapped sb n I J (.ofAddr k) b → v.Moves v' ip n J → Q b v') :
    Runs μ (bmapAddr sb ip k) Q v := by
  refine runs_bind (runs_inode ?_)
  rw [hin]
  refine Prog.ensures_ite (fun h0 => ?_) fun h0 => ?_
  · refine runs_bind (runs_balloc hw hs hI hop (fun a _ => hidle.clear _) (fun b _ => hidle.clear b)
      (hE h0) fun b J v' hgets hc hheld hkern hop' => ?_)
    have hmap := hgets.setAddr hs hn h0
    refine runs_bind (runs_setDinode (runs_pure (h b _ _ hmap ⟨hc, hheld, ?_, fun _ => hop'⟩)))
    rw [hkern, View.setKern_kern, (hgets.same n).din, Image.setDin_din, Function.update_self]
  · refine runs_pure (h _ I v ⟨hw, .refl I n, Image.place_ofAddr hn k, h0⟩ (.refl hI hin))

/-- `bmap` gives the block at a place of the inode, if it returns. -/
theorem runs_bmap {bn : ℕ} (hbn : bn < MAXFILE) {Q : ℕ → View → Prop}
    (hE : I.place sb n (.data bn) = 0 → μ.Fills sb)
    (h : ∀ b J v', Image.Mapped sb n I J (.data bn) b → v.Moves v' ip n J → Q b v') :
    Runs μ (bmap sb ip bn) Q v := by
  unfold bmap
  split
  · rename_i hlt
    rw [Image.place_direct hn hlt] at hE
    refine runs_bmapAddr hw hs hI hn hin hidle hop hE fun b J v' hmap => h b J v' ?_
    rwa [Part.ofAddr_of_lt hlt] at hmap
  · rename_i hge
    rw [if_pos (by simp only [MAXFILE] at hbn; omega)]
    refine runs_bind (runs_bmapAddr hw hs hI hn hin hidle hop (fun h0 => hE ?_)
      fun ind J₁ v₁ hmap₁ hv₁ => ?_)
    · exact Image.place_entry_none hge (by rwa [Image.place_indirect hn])
    rw [Part.ofAddr_last] at hmap₁
    obtain ⟨hw₁, hgrow₁, hplace₁, hne₁⟩ := hmap₁
    have hn₁ : J₁.Allocated sb n := by
      unfold Image.Allocated
      rw [hgrow₁.din]
      exact hn
    have hidle₁ := hv₁.idle hidle
    have hind₁ : J₁.place sb n .indirect ≠ 0 := by rwa [hplace₁]
    have hentry : getEntry (v₁.content ind) (bn - NDIRECT) = J₁.place sb n (.data bn) := by
      rw [Image.place_entry hn₁ hge hbn (by rwa [← Image.place_indirect hn₁]),
        ← Image.place_indirect hn₁, hplace₁, hv₁.content]
    refine runs_read (hidle₁.clear ind) fun i hi => ?_
    rw [hentry]
    refine Prog.ensures_ite (fun h0 => ?_) fun h0 => ?_
    · have hplaced : I.place sb n (.data bn) = 0 := by
        by_contra hne
        exact hne ((hgrow₁.keeps _ hne).symm.trans h0)
      have hused := hw₁.used n .indirect hind₁
      rw [hplace₁] at hused
      refine runs_bind (runs_balloc hw₁ hs (v := v₁.hold i ind (v₁.content ind)) hv₁.content
        (hv₁.op hop) (fun a ha => hidle₁.clear_hold fun he => hused.2.2 (he ▸ Image.reserved_bblock ha))
        (fun b hb => hidle₁.clear_hold fun he => hb (he ▸ hused.2.1)) (hE hplaced)
        fun b J₂ v₂ hgets hc hheld hkern hop₂ => ?_)
      have hmap := hgets.setEntry hs hn₁ hind₁ hge hbn h0
      rw [hplace₁] at hmap
      have hsame : J₂.content ind = v₁.content ind := by
        have := (hgets.same n).content .indirect hind₁
        rw [hplace₁] at this
        rw [this, hv₁.content]
      have hheldi : v₂.held i = some (ind, v₁.content ind) := by
        rw [hheld]
        exact View.hold_held ..
      rw [View.eq_hold hheldi]
      refine runs_write (by simp [View.release]) (by exact hop₂) (runs_pure (h b _ _
        ⟨hmap.wf, hgrow₁.trans hmap.grow, hmap.place, hmap.ne_zero⟩
        (hv₁.trans ⟨?_, ?_, ?_, fun _ => by simpa using hop₂⟩)))
      · rw [View.log_content, View.release_content, hc, Image.setBlock_content, hsame]
      · have hhold := View.hold_release (b := ind) (d := v₁.content ind) hi
        calc ((v₂.release i).log ind _).held = Function.update v₂.held i none := rfl
          _ = ((v₁.hold i ind (v₁.content ind)).release i).held := by rw [hheld]; rfl
          _ = v₁.held := by rw [hhold]
      · rw [View.log_kern, View.release_kern, hkern, View.hold_kern, Image.setBlock_din,
          (hgets.same n).din]
        exact (View.Moves.refl hv₁.content (by rw [hv₁.inode])).kern
    · refine runs_drop hi (runs_pure (h _ J₁ v₁ ⟨hw₁, hgrow₁, rfl, h0⟩ hv₁))

end bmap

end Xv6.Fs
