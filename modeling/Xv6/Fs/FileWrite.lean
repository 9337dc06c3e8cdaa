import Xv6.Fs.Files
import Xv6.Fs.Room

/-!
# Writing in chunks

`filewrite` writes at most `maxWrite` bytes in one transaction, so that the transaction fits into the log.
With a buffer that does not fault, and while no other process runs, the chunks together are one write: of
all bytes if they fit, else of the chunks that fit.
-/

namespace Xv6.Fs

open Lib Block

variable {sb : Superblock} {v v' : View} {I J : Image} {n off : ℕ} {ip : InodeRef} {f : FileRef}
  {c : Caller}

/-- Two writes, the second where the first ends. -/
theorem overwrite_overwrite {l w w' : List UInt8} (h : off ≤ l.length) :
    overwrite (overwrite l off w) (off + w.length) w' = overwrite l off (w ++ w') := by
  have hlen := length_overwrite (w := w) h
  have hle : off + w.length ≤ (overwrite l off w).length := by omega
  refine ext_getD ?_ fun k _ => ?_
  · rw [length_overwrite hle, hlen, length_overwrite h, List.length_append]
    omega
  · rw [getD_overwrite hle, getD_overwrite h, getD_overwrite h, List.length_append]
    by_cases h1 : off + w.length ≤ k ∧ k < off + w.length + w'.length
    · rw [if_pos h1, if_pos (by omega), List.getD_append_right _ _ _ _ (by omega)]
      congr 1
      omega
    · rw [if_neg h1]
      by_cases h2 : off ≤ k ∧ k < off + w.length
      · rw [if_pos h2, if_pos (by omega), List.getD_append _ _ _ _ (by omega)]
      · rw [if_neg h2, if_neg (by omega)]

variable {user : ℕ → Option UInt8} {Q : ℤ → View → Prop} {fuel n1 : ℕ}

theorem Source.segment_user (addr m k : ℕ) :
    (Source.user ((addr + m) % 2 ^ 64)).segment user 0 k = (Source.user addr).segment user m k := by
  refine List.map_congr_left fun j _ => ?_
  simp only [Source.at, Nat.zero_add]
  congr 2
  omega

variable {addr len : ℕ}

theorem Source.NoFault.rest {m k : ℕ} (h : (Source.user addr).NoFault user (m + k)) :
    (Source.user ((addr + m) % 2 ^ 64)).NoFault user k := by
  intro j hj
  have := h (m + j) (by omega)
  simp only [Source.at] at this ⊢
  rwa [show ((addr + m) % 2 ^ 64 + j) % 2 ^ 64 = (addr + (m + j)) % 2 ^ 64 by omega]

/-! ### One chunk -/

/-- File `f` is open on inode `ip`, with number `n`, at offset `off`, and the inode is not locked. -/
structure OpenAt (sb : Superblock) (v : View) (I : Image) (f : FileRef) (ip : InodeRef)
    (n off : ℕ) : Prop where
  clean : Clean sb v I
  pos : 0 < (v.kern.inode ip).ref
  inum : (v.kern.inode ip).inum = n
  unlocked : (v.kern.inode ip).lock = none
  used : I.Allocated sb n
  offset : (v.kern.file f).off = off
  le : off ≤ (I.din n).size

/-- The end of a chunk: the inode is unlocked and the transaction ends. -/
theorem runs_chunk_end (h : Holds sb v J ip n) (hlock : (v.kern.inode ip).lock = some c.slot)
    (hle : (v.kern.file f).off ≤ (J.din n).size) {r : ℤ}
    (hQ : ∀ v', OpenAt sb v' J f ip n (v.kern.file f).off → Q r v') :
    Runs (c.allocating sb) (do
      iunlock ip
      blk .end_op
      return r) Q v := by
  refine runs_bind (runs_iunlock h.pos hlock fun v₁ hv₁ => runs_bind (runs_end_op (fun _ => .inr)
    (runs_pure (hQ _ ?_))))
  subst hv₁
  refine ⟨(h.clean.setLock h.pos none).setOp none, ?_, ?_, ?_, h.allocated, rfl, hle⟩
  · simpa using h.pos
  · simpa using h.inum
  · simp

theorem runs_writeChunk (hs : Sane sb) (h : OpenAt sb v I f ip n off) (hlen : len < 2 ^ 31)
    (hsrc : (Source.user addr).NoFault c.user len)
    (hbad : MAXFILE * BSIZE < off + len → ∀ v', OpenAt sb v' I f ip n off → Q (-1) v')
    (hgood : off + len ≤ MAXFILE * BSIZE → ∀ J v',
      OpenAt sb v' J f ip n (off + len) →
      J.file sb n = overwrite (I.file sb n) off ((Source.user addr).segment c.user 0 len) →
      (∀ m, m ≠ n → J.din m = I.din m ∧ (I.Allocated sb m → J.file sb m = I.file sb m)) →
      Q len v') : Runs (c.allocating sb) (writeChunk sb f ip addr len) Q v := by
  obtain ⟨hclean, hpos, hinum, hfree, hused, rfl, hle⟩ := h
  obtain ⟨hw, hspill⟩ := Source.written_noFault (v.kern.file f).off hsrc
  have hbig : MAXFILE * BSIZE < 2 ^ 32 := by decide
  refine runs_bind (runs_begin_op (runs_bind (runs_ilock (hclean.setOp (some ∅)) hpos hinum hused
    (fun _ => hfree) fun v₁ hv₁ => ?_)))
  have hip : v₁.kern.inode ip = (v.kern.inode ip).locked c.slot (I.din n) := by
    rw [hv₁]
    exact Kern.setInode_self' ..
  have hfile₁ : v₁.kern.file = v.kern.file := by rw [hv₁]; rfl
  have hop₁ : v₁.op ≠ none := by rw [hv₁]; exact nofun
  have hholds : Holds sb v₁ I ip n := by
    refine ⟨hv₁ ▸ (hclean.setOp (some ∅)).locked hpos hinum hused c.slot, ?_, ?_, ?_⟩ <;> rw [hip]
    · exact hpos
    · rfl
    · exact hinum
  have hlock₁ : (v₁.kern.inode ip).lock = some c.slot := by rw [hip]; rfl
  rw [← hfile₁] at hle hw hspill hbad hgood
  refine runs_bind (runs_file (runs_bind (hholds.runs_writei hs hop₁ c hsrc.full hspill (fun hout => ?_)
    fun _ hmax J v₂ hJ hmoves => ?_)))
  · -- nothing is written
    refine runs_bind (Prog.ensures_when (fun hpos => absurd hpos (by decide)) fun _ => ?_)
    exact runs_chunk_end hholds hlock₁ hle (hbad (hout.resolve_left (by omega)))
  · rw [hw] at hJ
    rw [hw, Source.length_segment]
    have hr : asInt len = len := if_pos hlen
    have hsize : (J.din n).size = max (I.din n).size ((v₁.kern.file f).off + len) := by
      have := congrArg List.length hJ.file
      rwa [Image.length_file, length_overwrite (by rwa [Image.length_file]),
        Image.length_file, Source.length_segment] at this
    have hlock : (v₂.kern.inode ip).lock = some c.slot := by rw [hmoves.inode, hlock₁]
    have hfile : v₂.kern.file f = v₁.kern.file f := by rw [hmoves.kern]; rfl
    simp only [hr]
    refine runs_bind (Prog.ensures_when (fun _ => ?_) fun hzero => ?_)
    · refine runs_setOff ?_
      generalize hv₃ : v₂.setKern _ = v₃
      have hoff₃ : (v₃.kern.file f).off = (v₁.kern.file f).off + len := by
        simp only [← hv₃, View.setKern_kern, Kern.setFile, Function.update_self, hr, Int.toNat_natCast]
        exact Nat.mod_eq_of_lt (by omega)
      have hin₃ : v₃.kern.inode = v₂.kern.inode := by rw [← hv₃]; rfl
      have hholds₃ : Holds sb v₃ J ip n := by
        refine ⟨hv₃ ▸ hJ.holds.clean.congr_inode rfl, ?_, ?_, ?_⟩ <;> rw [hin₃]
        · exact hJ.holds.pos
        · exact hJ.holds.valid
        · exact hJ.holds.inum
      refine runs_chunk_end hholds₃ (by rw [hin₃]; exact hlock) (by rw [hoff₃]; omega) fun v' hv' => ?_
      rw [hoff₃] at hv'
      exact hgood hmax J v' hv' hJ.file hJ.others
    · obtain rfl : len = 0 := by simpa using hzero
      refine runs_chunk_end (f := f) hJ.holds hlock (by rw [hfile]; omega)
        fun v' hv' => hgood hmax J v' ?_ hJ.file hJ.others
      rwa [hfile] at hv'

/-! ### All chunks -/

/-- How many of `len` bytes `filewrite` writes at `off`: all, or the chunks that fit. -/
def fitting (off len : ℕ) : ℕ :=
  if off + len ≤ MAXFILE * BSIZE then len else maxWrite * ((MAXFILE * BSIZE - off) / maxWrite)

theorem maxWrite_pos : 0 < maxWrite := by decide

theorem fitting_add (h : off + min len maxWrite ≤ MAXFILE * BSIZE) :
    fitting off len = min len maxWrite + fitting (off + min len maxWrite) (len - min len maxWrite) := by
  unfold fitting
  by_cases hall : off + len ≤ MAXFILE * BSIZE
  · rw [if_pos hall, if_pos (by omega)]
    omega
  · have hm : min len maxWrite = maxWrite := by omega
    rw [hm] at h ⊢
    have hle : maxWrite ≤ MAXFILE * BSIZE - off := by omega
    rw [if_neg hall, if_neg (by omega), Nat.div_eq_sub_div maxWrite_pos hle, Nat.sub_sub, Nat.mul_add,
      Nat.mul_one, Nat.add_comm]

theorem fitting_eq_zero (h : MAXFILE * BSIZE < off + min len maxWrite) : fitting off len = 0 := by
  have hpos := maxWrite_pos
  have hsmall : MAXFILE * BSIZE - off < maxWrite := by omega
  rw [fitting, if_neg (by omega), Nat.div_eq_of_lt hsmall, Nat.mul_zero]

theorem fitting_spec (hoff : off ≤ MAXFILE * BSIZE) (h : MAXFILE * BSIZE < off + len) :
    maxWrite ∣ fitting off len ∧ off + fitting off len ≤ MAXFILE * BSIZE ∧
      ∀ q, maxWrite ∣ q → off + q ≤ MAXFILE * BSIZE → q ≤ fitting off len := by
  rw [fitting, if_neg (by omega)]
  have hle := Nat.mul_div_le (MAXFILE * BSIZE - off) maxWrite
  refine ⟨Nat.dvd_mul_right .., by omega, ?_⟩
  rintro q ⟨k, rfl⟩ hq
  refine Nat.mul_le_mul_left _ ((Nat.le_div_iff_mul_le maxWrite_pos).mpr ?_)
  rw [Nat.mul_comm]
  omega

theorem fitting_le (hoff : off ≤ MAXFILE * BSIZE) :
    fitting off len ≤ len ∧ off + fitting off len ≤ MAXFILE * BSIZE := by
  by_cases hall : off + len ≤ MAXFILE * BSIZE
  · rw [fitting, if_pos hall]
    exact ⟨le_rfl, hall⟩
  · have := (fitting_spec hoff (Nat.lt_of_not_le hall)).2.1
    omega

theorem overwrite_nil (l : List UInt8) : overwrite l off [] = l := by
  simp [overwrite]

/-- What `filewrite` leaves after it has written `w` at `off`. -/
structure WrittenAt (sb : Superblock) (I : Image) (f : FileRef) (ip : InodeRef) (n off : ℕ)
    (w : List UInt8) (v' : View) (J : Image) : Prop where
  openAt : OpenAt sb v' J f ip n (off + w.length)
  file : J.file sb n = overwrite (I.file sb n) off w
  others : ∀ m, m ≠ n → J.din m = I.din m ∧ (I.Allocated sb m → J.file sb m = I.file sb m)

theorem OpenAt.writtenAt (h : OpenAt sb v I f ip n off) : WrittenAt sb I f ip n off [] v I :=
  ⟨h, (overwrite_nil _).symm, fun _ _ => ⟨rfl, fun _ => rfl⟩⟩

theorem WrittenAt.trans {w w' : List UInt8} {K : Image} {v'' : View} (hoff : off ≤ (I.din n).size)
    (h : WrittenAt sb I f ip n off w v' J) (h' : WrittenAt sb J f ip n (off + w.length) w' v'' K) :
    WrittenAt sb I f ip n off (w ++ w') v'' K where
  openAt := by
    rw [List.length_append, ← Nat.add_assoc]
    exact h'.openAt
  file := by rw [h'.file, h.file, overwrite_overwrite (by rwa [Image.length_file])]
  others m hm := by
    obtain ⟨hdin, hfile⟩ := h.others m hm
    obtain ⟨hdin', hfile'⟩ := h'.others m hm
    refine ⟨hdin'.trans hdin, fun hal => (hfile' ?_).trans (hfile hal)⟩
    exact ⟨hal.1, by rw [hdin]; exact hal.2⟩

theorem runs_writeChunks (hs : Sane sb) (h : OpenAt sb v I f ip n off) (hfuel : len ≤ fuel)
    (hlen : len < 2 ^ 31) (hsrc : (Source.user addr).NoFault c.user len) {Q : Bool → View → Prop}
    (hQ : ∀ J v',
      WrittenAt sb I f ip n off ((Source.user addr).segment c.user 0 (fitting off len)) v' J →
      Q (decide (off + len ≤ MAXFILE * BSIZE)) v') :
    Runs (c.allocating sb) (writeChunks sb f ip fuel addr len) Q v := by
  induction fuel generalizing v I off addr len with
  | zero =>
    obtain rfl : len = 0 := by omega
    have hmax : off + 0 ≤ MAXFILE * BSIZE := h.le.trans (h.clean.wf.size n h.used)
    rw [fitting, if_pos hmax, decide_eq_true hmax] at hQ
    exact runs_pure (hQ I v h.writtenAt)
  | succ fuel ih =>
    refine Prog.ensures_ite (fun h0 => ?_) fun h0 => ?_
    · subst h0
      have hmax : off + 0 ≤ MAXFILE * BSIZE := h.le.trans (h.clean.wf.size n h.used)
      rw [fitting, if_pos hmax, decide_eq_true hmax] at hQ
      exact runs_pure (hQ I v h.writtenAt)
    · have hpos := maxWrite_pos
      refine runs_bind (runs_writeChunk hs h (by omega) (hsrc.mono (by omega)) (fun hout v' hv' => ?_)
        fun hin J v' hv' hfile hothers => ?_)
      · refine Prog.ensures_ite (fun _ => runs_pure ?_) fun heq => absurd heq (by omega)
        rw [fitting_eq_zero hout, decide_eq_false (by omega)] at hQ
        exact hQ I v' hv'.writtenAt
      · refine Prog.ensures_ite (fun hne => absurd rfl hne) fun _ => ?_
        set m := min len maxWrite with hm
        have hfirst : WrittenAt sb I f ip n off ((Source.user addr).segment c.user 0 m) v' J :=
          ⟨by rwa [Source.length_segment], hfile, hothers⟩
        have hrest : (Source.user addr).NoFault c.user (m + (len - m)) := by
          rwa [show m + (len - m) = len by omega]
        refine ih hv' (by omega) (by omega) hrest.rest fun K v'' hK => ?_
        rw [fitting_add hin, ← Source.segment_append, ← hm, Nat.zero_add,
          show off + len = off + m + (len - m) by omega] at hQ
        rw [Source.segment_user] at hK
        refine hQ K v'' (hfirst.trans h.le ?_)
        rwa [Source.length_segment]

/-! ### Room in the log -/

/-- A chunk touches at most four blocks of the file, and they fit into the log with all that goes with
them. -/
theorem costs_writeChunk (hn : n1 ≤ maxWrite) :
    (writeChunk sb f ip addr n1).Affords (pay false) (0, 2) (0, 2) := by
  refine ⟨_, rfl, fun _ => (costs_ilock sb ip).bind fun _ => costs_tab fun x => ?_⟩
  have hfour : x.off % BSIZE + n1 ≤ 4 * BSIZE := by
    have hmod := Nat.mod_lt x.off (show 0 < BSIZE by decide)
    have hmax : maxWrite = 3 * BSIZE := by decide
    omega
  refine (costs_writei (n := 1) sb ip _ hfour).bind fun r => ?_
  refine (Prog.affords_when (costs_tab_last _) le_rfl).bind fun _ => ?_
  exact (costs_iunlock ip).bind fun _ => ⟨_, rfl, fun _ => log_le (Nat.zero_le 1)⟩

theorem costs_writeChunks :
    (writeChunks sb f ip fuel addr len).Affords (pay false) (0, 2) (0, 2) := by
  induction fuel generalizing addr len with
  | zero => exact le_rfl
  | succ fuel ih =>
    refine Prog.affords_ite le_rfl ((costs_writeChunk (Nat.min_le_right ..)).bind fun r => ?_)
    exact Prog.affords_ite le_rfl ih

/-- **Writing in chunks is one write.** `filewrite` to a file that is open for writing returns the
number of bytes if they fit into the largest file, and -1 if not. The content, the size and the offset
are as after one `writei`: of all bytes, or of the longest prefix that fits and is a multiple of the
size of a chunk. A run panics only when there is no free block where one is needed: each transaction fits
into the log and the cache, of at least 28 blocks. -/
theorem chunks_are_one_write (hs : Sane sb) (h : OpenAt sb v I f ip n off)
    (htype : (v.kern.file f).type = .FD_INODE) (hip : (v.kern.file f).ip = some ip)
    (hwritable : (v.kern.file f).writable = true) (houtside : v.op = none)
    (hlog : maxLogged + 2 ≤ v.logsize) (c : Caller) (addr len : ℕ) (hlen : len < 2 ^ 31)
    (hsrc : (Source.user addr).NoFault c.user len) :
    Fits (c.allocating sb) (filewrite sb f addr len) (fun r v' =>
      (r = len ↔ off + len ≤ MAXFILE * BSIZE) ∧ (r ≠ len → r = -1) ∧
      ∃ J, WrittenAt sb I f ip n off ((Source.user addr).segment c.user 0 (fitting off len)) v' J) v ∧
    (∀ w, Holds sb w I ip n → w.op ≠ none →
      Runs (c.allocating sb) (writei sb ip (.user addr) off (fitting off len)) (fun r w' =>
        r = some (fitting off len) ∧
        ∃ J, Stored sb I ip n off ((Source.user addr).segment c.user 0 (fitting off len)) w' J) w) ∧
    (off + len ≤ MAXFILE * BSIZE → fitting off len = len) ∧
    (MAXFILE * BSIZE < off + len →
      maxWrite ∣ fitting off len ∧ off + fitting off len ≤ MAXFILE * BSIZE ∧
      ∀ q, maxWrite ∣ q → off + q ≤ MAXFILE * BSIZE → q ≤ fitting off len) := by
  have hoff : off ≤ MAXFILE * BSIZE := h.le.trans (h.clean.wf.size n h.used)
  obtain ⟨hle, hfits⟩ : fitting off len ≤ len ∧ off + fitting off len ≤ MAXFILE * BSIZE :=
    fitting_le hoff
  refine ⟨?_, fun w hw hop => ?_, fun hall => if_pos hall, fitting_spec hoff⟩
  · refine runs_bind (runs_file ?_)
    rw [htype, hip]
    refine Prog.ensures_ite (fun hno => ?_) fun _ => ?_
    · rw [hwritable] at hno
      cases hno
    · have hroom : v.Room 0 2 :=
        h.clean.idle.room (by rw [View.card_logged_outside houtside]; exact Nat.zero_le _) hlog
      refine runs_bind (((runs_writeChunks hs h le_rfl hlen hsrc (Q := fun all v' =>
        all = decide (off + len ≤ MAXFILE * BSIZE) ∧ ∃ J, WrittenAt sb I f ip n off
          ((Source.user addr).segment c.user 0 (fitting off len)) v' J) fun J v' hJ => ⟨rfl, J, hJ⟩).fits
        hroom costs_writeChunks).mono ?_)
      rintro _ v' ⟨⟨rfl, J, hJ⟩, -⟩
      refine runs_pure ?_
      have hpos : (0 : ℤ) ≤ len := Int.natCast_nonneg len
      by_cases hall : off + len ≤ MAXFILE * BSIZE
      · rw [if_pos ⟨decide_eq_true hall, hpos⟩]
        exact ⟨⟨fun _ => hall, fun _ => rfl⟩, fun hne => absurd rfl hne, J, hJ⟩
      · rw [if_neg fun hc => hall (of_decide_eq_true hc.1)]
        exact ⟨⟨fun heq => by omega, fun hc => absurd hc hall⟩, fun _ => rfl, J, hJ⟩
  · have hsrc' := hsrc.mono hle
    obtain ⟨hwr, hspill⟩ := Source.written_noFault off hsrc'
    refine hw.runs_writei hs hop c hsrc'.full hspill (fun hbad => ?_) fun _ _ J w' hJ _ => ?_
    · exact absurd hbad (not_or.mpr ⟨Nat.not_lt.mpr h.le, Nat.not_lt.mpr hfits⟩)
    · rw [hwr] at hJ ⊢
      exact ⟨by rw [Source.length_segment], J, hJ⟩

theorem smallView_openAt : OpenAt smallSb (smallView none) smallImage ⟨0, by decide⟩ ⟨1, by decide⟩ 2 0 :=
  ⟨smallView_clean none, (smallView_holds none).pos, rfl, rfl, (smallView_holds none).allocated, rfl,
    Nat.zero_le _⟩

/-- A write of two chunks. -/
theorem chunks_are_one_write_small :
    ∃ v' J, (smallCaller 120 5000 (by decide)).exec (filewrite smallSb ⟨0, by decide⟩ 0 4000)
        (smallView none) = .returned 4000 v' ∧
      WrittenAt smallSb smallImage ⟨0, by decide⟩ ⟨1, by decide⟩ 2 0
        (List.replicate 4000 120) v' J := by
  have hat : ∀ j, j < 4000 → (Source.user 0).at (smallCaller 120 5000 (by decide)).user j = some 120 := by
    intro j hj
    have hmod : (0 + j) % 2 ^ 64 = j := by omega
    rw [Source.at, hmod]
    exact if_pos (by omega)
  have hsrc : (Source.user 0).NoFault (smallCaller 120 5000 (by decide)).user 4000 :=
    fun j hj => Option.isSome_iff_exists.mpr ⟨120, hat j hj⟩
  have h := (chunks_are_one_write smallSb_sane smallView_openAt rfl rfl rfl rfl
    (show (maxLogged : ℤ) + 2 ≤ 31 by decide) (smallCaller 120 5000 (by decide)) 0 4000 (by decide) hsrc).1
  obtain ⟨v', hv'⟩ := Returns.eq (o := (smallCaller 120 5000 (by decide)).exec
    (filewrite smallSb ⟨0, by decide⟩ 0 4000) (smallView none)) (a := 4000) (by decide +kernel)
  obtain ⟨-, -, J, hJ⟩ := h.run vexec_sound hv'
  refine ⟨v', J, hv', ?_⟩
  have hsegment : (Source.user 0).segment (smallCaller 120 5000 (by decide)).user 0 4000 =
      List.replicate 4000 120 := by
    refine List.eq_replicate_iff.mpr ⟨Source.length_segment, fun x hx => ?_⟩
    obtain ⟨j, hj, rfl⟩ := List.mem_map.mp hx
    rw [Nat.zero_add, hat j (List.mem_range.mp hj)]
    rfl
  rwa [← hsegment]

/-- **A file that is open for reading only is not written**, though the bytes would fit. -/
theorem read_only_file_is_not_written :
    let v := (smallView none).setKern
      (smallKern.setFile ⟨0, by decide⟩ { smallKern.file ⟨0, by decide⟩ with writable := false })
    OpenAt smallSb v smallImage ⟨0, by decide⟩ ⟨1, by decide⟩ 2 0 ∧
    0 + 5 ≤ MAXFILE * BSIZE ∧
    Runs (smallCaller 120 8 (by decide)).total (filewrite smallSb ⟨0, by decide⟩ 0 5)
      (fun r _ => r = -1) v := by
  refine ⟨?_, by decide, runs_bind (runs_file (Prog.ensures_ite (fun _ => runs_pure rfl) nofun))⟩
  exact ⟨(smallView_clean none).congr_inode rfl, (smallView_holds none).pos, rfl, rfl,
    (smallView_holds none).allocated, rfl, Nat.zero_le _⟩

end Xv6.Fs
