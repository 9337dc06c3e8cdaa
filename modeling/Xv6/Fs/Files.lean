import Xv6.Fs.Alone

/-!
# Files are arrays of bytes

`readi` and `writei` seen from outside: the content of a file is a list of bytes, `readi` delivers a part
of it and `writei` replaces a part of it. A write from user memory that faults replaces what it reports,
unless the fault comes in the middle of a piece: then bytes that are not reported are replaced too.
-/

namespace Xv6.Fs

open Lib Block

variable {sb : Superblock} {v v' : View} {I J : Image} {n : ℕ} {ip : InodeRef}

/-! ### What is copied -/

/-- Byte `j` of the source, if it is valid. -/
def Source.at (user : ℕ → Option UInt8) (j : ℕ) : Source → Option UInt8
  | .user addr => user ((addr + j) % 2 ^ 64)
  | .kernel l => l[j]?

/-- `m` bytes of the source after the first `tot`. -/
def Source.segment (src : Source) (user : ℕ → Option UInt8) (tot m : ℕ) : List UInt8 :=
  (List.range m).map fun j => (src.at user (tot + j)).getD 0

/-- The first `len` bytes of the source are valid. -/
def Source.NoFault (src : Source) (user : ℕ → Option UInt8) (len : ℕ) : Prop :=
  ∀ j, j < len → (src.at user j).isSome

instance (src : Source) (user : ℕ → Option UInt8) (len : ℕ) : Decidable (src.NoFault user len) :=
  inferInstanceAs (Decidable (∀ j, j < len → _))

namespace Source

variable {src : Source} {user : ℕ → Option UInt8} {tot m : ℕ}

@[simp] theorem length_segment : (src.segment user tot m).length = m := by simp [segment]

theorem segment_append {k : ℕ} :
    src.segment user tot m ++ src.segment user (tot + m) k = src.segment user tot (m + k) := by
  unfold segment
  rw [List.range_add, List.map_append, List.map_map]
  congr 1
  refine List.map_congr_left fun j _ => ?_
  rw [Function.comp_apply, Nat.add_assoc]

theorem NoFault.mono {len len' : ℕ} (h : src.NoFault user len) (hle : len' ≤ len) :
    src.NoFault user len' := fun j hj => h j (by omega)

theorem NoFault.full {len : ℕ} (h : src.NoFault user len) : src.Full len := by
  cases src with
  | user addr => trivial
  | kernel l =>
    by_contra hlt
    have hlt : l.length < len := Nat.lt_of_not_le hlt
    have := h l.length hlt
    simp [Source.at] at this

end Source

namespace Source

variable {src : Source} {c : Caller} {tot m : ℕ}

/-- A piece from user memory has the bytes before the first that is not valid. -/
theorem piece_user {addr : ℕ} : (Source.user addr).piece c.user tot m =
    ((Source.user addr).segment c.user tot ((Dest.user addr).reach c.user tot m),
      decide ((Dest.user addr).reach c.user tot m = m)) := by
  rw [piece, length_validBytes_wrapped c.low, validBytes_wrapped c.low]
  rfl

/-- A piece that is copied as a whole. -/
theorem piece_of_ok (hfull : src.Full (tot + m)) (hok : (src.piece c.user tot m).2 = true) :
    (src.piece c.user tot m).1 = src.segment c.user tot m ∧
      ∀ j, j < m → (src.at c.user (tot + j)).isSome := by
  cases src with
  | user addr =>
    rw [piece_user] at hok ⊢
    have hall := of_decide_eq_true hok
    rw [hall]
    exact ⟨rfl, Dest.reach_eq_iff.mp hall⟩
  | kernel l =>
    simp only [Source.Full] at hfull
    refine ⟨ext_getD (by simp [piece]; omega) fun k hk => ?_, fun j hj => ?_⟩
    · have hk : k < m := lt_of_lt_of_le hk length_piece_le
      simp [piece, segment, Source.at, List.getD_eq_getElem?_getD, hk, List.getElem?_drop]
    · rw [Source.at, List.getElem?_eq_getElem (by omega)]
      rfl

theorem piece_noFault (h : src.NoFault c.user (tot + m)) :
    src.piece c.user tot m = (src.segment c.user tot m, true) := by
  have hok : (src.piece c.user tot m).2 = true := by
    cases src with
    | user addr =>
      rw [piece_user]
      exact decide_eq_true (Dest.reach_eq_iff.mpr fun j hj => h (tot + j) (by omega))
    | kernel l => rfl
  exact Prod.ext (piece_of_ok h.full hok).1 hok

theorem pieces_fst (fuel off len tot : ℕ) (hfull : src.Full (tot + len)) :
    (src.pieces c.user fuel off len tot).1 =
        src.segment c.user tot (src.pieces c.user fuel off len tot).1.length ∧
      ∀ j, j < (src.pieces c.user fuel off len tot).1.length → (src.at c.user (tot + j)).isSome := by
  induction fuel generalizing off len tot with
  | zero => exact ⟨rfl, fun j hj => absurd hj (Nat.not_lt_zero j)⟩
  | succ fuel ih =>
    unfold pieces
    split
    · exact ⟨rfl, fun j hj => absurd hj (Nat.not_lt_zero j)⟩
    · dsimp only
      split
      · rename_i hok
        set m := min len (BSIZE - off % BSIZE) with hm
        obtain ⟨hp, hvalid⟩ := piece_of_ok (hfull.mono (by omega)) hok
        obtain ⟨hrest, hvrest⟩ := ih (off + m) (len - m) (tot + m) (hfull.mono (by omega))
        simp only [List.length_append]
        rw [hp, length_segment, ← segment_append, ← hrest]
        refine ⟨rfl, fun j hj => ?_⟩
        by_cases hjm : j < m
        · exact hvalid j hjm
        · have := hvrest (j - m) (by omega)
          rwa [show tot + m + (j - m) = tot + j by omega] at this
      · exact ⟨rfl, fun j hj => absurd hj (Nat.not_lt_zero j)⟩

/-- Without a fault all bytes are written. -/
theorem pieces_noFault (fuel off len tot : ℕ) (h : src.NoFault c.user (tot + len))
    (hfuel : len ≤ fuel) :
    src.pieces c.user fuel off len tot = (src.segment c.user tot len, []) := by
  induction fuel generalizing off len tot with
  | zero =>
    obtain rfl : len = 0 := by omega
    rfl
  | succ fuel ih =>
    unfold pieces
    split
    · rename_i h0
      rw [h0]
      rfl
    · have hpos : 0 < BSIZE := by decide
      have hmod := Nat.mod_lt off hpos
      set m := min len (BSIZE - off % BSIZE) with hm
      dsimp only
      rw [piece_noFault (h.mono (by omega)), if_pos rfl, ih _ _ _ (h.mono (by omega)) (by omega),
        segment_append, show m + (len - m) = len by omega]

theorem written_eq {off len : ℕ} (hfull : src.Full len) :
    src.written c.user off len =
      src.segment c.user 0 (src.written c.user off len).length :=
  (pieces_fst _ _ _ 0 (by rwa [Nat.zero_add])).1

theorem noFault_written {off len : ℕ} (hfull : src.Full len) :
    src.NoFault c.user (src.written c.user off len).length := by
  intro j hj
  have := (pieces_fst _ _ _ 0 (by rwa [Nat.zero_add])).2 j hj
  rwa [Nat.zero_add] at this

theorem written_noFault {len : ℕ} (off : ℕ) (h : src.NoFault c.user len) :
    src.written c.user off len = src.segment c.user 0 len ∧ src.spilled c.user off len = [] := by
  have := pieces_noFault len off len 0 (by rwa [Nat.zero_add]) le_rfl
  exact ⟨congrArg Prod.fst this, congrArg Prod.snd this⟩

end Source

/-! ### Files from outside -/

/-- Every run returns. -/
def Caller.total (c : Caller) : Mode := ⟨c, True, fun _ _ => False⟩

/-- Every run returns, unless there is no free block when one is needed. -/
def Caller.allocating (sb : Superblock) (c : Caller) : Mode :=
  ⟨c, True, fun msg v => msg = "balloc: out of blocks" ∧ v.NoSpace sb⟩

theorem Caller.allocating_fills (sb : Superblock) (c : Caller) : (c.allocating sb).Fills sb :=
  fun _ h => ⟨rfl, h⟩

/-- Inode `ip` in memory, with number `n`, is in use and has been read; the image is `I`. -/
structure Holds (sb : Superblock) (v : View) (I : Image) (ip : InodeRef) (n : ℕ) : Prop where
  clean : Clean sb v I
  pos : 0 < (v.kern.inode ip).ref
  valid : (v.kern.inode ip).valid
  inum : (v.kern.inode ip).inum = n

namespace Holds

theorem allocated (h : Holds sb v I ip n) : I.Allocated sb n :=
  h.inum ▸ h.clean.allocated h.pos h.valid

theorem din (h : Holds sb v I ip n) : (v.kern.inode ip).din = I.din n :=
  h.inum ▸ (h.clean.cached ip h.pos h.valid).1

theorem size_le (h : Holds sb v I ip n) : (I.din n).size ≤ MAXFILE * BSIZE :=
  h.clean.wf.size n h.allocated

/-- The file is what the view says. -/
theorem file_eq (h : Holds sb v I ip n) (h' : Holds sb v J ip n) : I.file sb n = J.file sb n := by
  have hdin : I.din n = J.din n := h.din.symm.trans h'.din
  have hcontent : I.content = J.content := h.clean.content.symm.trans h'.clean.content
  have hplace (p : Part) : I.place sb n p = J.place sb n p := by
    rw [Image.place, Image.place, if_pos h.allocated, if_pos h'.allocated, hdin, hcontent]
  unfold Image.file Image.byte
  simp only [hplace, hdin, hcontent]

end Holds

/-- What reaches the destination of the bytes `l`, and whether that is all. -/
def Dest.got (dst : Dest) (user : ℕ → Option UInt8) (l : List UInt8) : List UInt8 × Bool :=
  (l.take (dst.reach user 0 l.length), decide (dst.reach user 0 l.length = l.length))

/-- `readi` delivers the parts of `l`, as far as the destination can be written, and changes nothing. -/
def Delivers (sb : Superblock) (c : Caller) (v : View) (ip : InodeRef) (l : List UInt8) : Prop :=
  ∀ dst off len, off < 2 ^ 32 → len < 2 ^ 32 →
    Runs c.total (readi sb ip dst off len) (fun r v' => v' = v ∧
      r = dst.got c.user (if off + len < 2 ^ 32 then (l.drop off).take len else [])) v

theorem Holds.delivers (h : Holds sb v I ip n) (c : Caller) :
    Delivers sb c v ip (I.file sb n) := by
  intro dst off len hoff hlen
  have hsize := h.size_le
  have hbig : MAXFILE * BSIZE < 2 ^ 32 := by decide
  generalize hk : readLength (I.din n).size off len = k
  refine runs_readi h.clean.wf h.clean.content h.allocated h.din h.clean.idle hk.symm ⟨rfl, ?_⟩
  have hpart : (if off + len < 2 ^ 32 then ((I.file sb n).drop off).take len else []) =
      I.bytes sb n off k := by
    unfold readLength at hk
    by_cases hwrap : off + len < 2 ^ 32
    · rw [if_pos hwrap]
      rw [Nat.mod_eq_of_lt hwrap] at hk
      split_ifs at hk with hout hlong
      · subst hk
        rw [List.drop_eq_nil_of_le (by rw [Image.length_file]; omega), List.take_nil]
        rfl
      · subst hk
        rw [Image.bytes_eq_file (by omega), List.take_of_length_le (by simp; omega),
          List.take_of_length_le (by simp)]
      · subst hk
        rw [Image.bytes_eq_file (by omega)]
    · rw [if_neg hwrap]
      rw [if_pos (by omega)] at hk
      subst hk
      rfl
  rw [hpart, Dest.got, Image.length_bytes]
  rfl

/-- What a write of `w` at `off` to inode `n` leaves: the file has these bytes, and the other files are
as before. -/
structure Stored (sb : Superblock) (I : Image) (ip : InodeRef) (n off : ℕ) (w : List UInt8)
    (v' : View) (J : Image) : Prop where
  holds : Holds sb v' J ip n
  file : J.file sb n = overwrite (I.file sb n) off w
  others : ∀ m, m ≠ n → J.din m = I.din m ∧ (I.Allocated sb m → J.file sb m = I.file sb m)

theorem Holds.written (h : Holds sb v I ip n) {off : ℕ} {w x : List UInt8}
    (hJ : Image.Written sb n I J off w x) (hv : v.Moves v' ip n J) : Holds sb v' J ip n := by
  refine ⟨h.clean.written h.pos h.inum h.allocated hJ hv, ?_, ?_, ?_⟩ <;> rw [hv.inode]
  · exact h.pos
  · exact h.valid
  · exact h.inum

/-- A write that no copy spoils. -/
theorem Holds.runs_writei (h : Holds sb v I ip n) (hs : Sane sb) (hop : v.op ≠ none) (c : Caller)
    {src : Source} {off len : ℕ} (hfull : src.Full len) (hspill : src.spilled c.user off len = [])
    {Q : Option ℕ → View → Prop}
    (hbad : (I.din n).size < off ∨ MAXFILE * BSIZE < off + len → Q none v)
    (hgood : off ≤ (I.din n).size → off + len ≤ MAXFILE * BSIZE → ∀ J v',
      Stored sb I ip n off (src.written c.user off len) v' J → v.Moves v' ip n J →
      Q (some (src.written c.user off len).length) v') :
    Runs (c.allocating sb) (writei sb ip src off len) Q v := by
  refine Fs.runs_writei h.clean.wf hs h.clean.content h.allocated h.din h.inum h.clean.idle hop hfull
    (fun _ _ _ => c.allocating_fills sb) hbad fun hoff hmax J v' hJ hv => hgood hoff hmax J v' ?_ hv
  change Image.Written sb n I J off (src.written c.user off len) (src.spilled c.user off len) at hJ
  rw [hspill] at hJ
  exact ⟨h.written hJ hv, hJ.file hoff,
    fun m hm => ⟨(hJ.others m hm).din, fun hal => (hJ.others m hm).file h.clean.wf hal⟩⟩

/-- A process with `m` valid bytes of memory, all of them `x`. -/
def smallCaller (x : UInt8) (m : ℕ) (h : m ≤ MAXVA) : Caller where
  slot := ⟨0, NPROC_pos⟩
  user a := if a < m then some x else none
  low a ha := if_neg (by omega)

theorem smallView_holds (o : Option (Finset ℕ)) :
    Holds smallSb (smallView o) smallImage ⟨1, by decide⟩ 2 :=
  ⟨smallView_clean o, show (0 : ℤ) < 1 by decide, rfl, rfl⟩

/-- The result of a call of code that is executed on the view. -/
def Caller.exec {α : Type} (c : Caller) (p : Code α) (v : View) : Prog.Outcome α View :=
  p.run (vexec c) v

/-- What a copy that fails has put into the buffer is not seen in the file `l`: it is beyond the end, or
what was there before. -/
def Source.Unseen (src : Source) (user : ℕ → Option UInt8) (off len : ℕ) (l : List UInt8) : Prop :=
  ∀ j, j < (src.spilled user off len).length →
    off + (src.written user off len).length + j < l.length →
    (src.spilled user off len).getD j 0 = l.getD (off + (src.written user off len).length + j) 0

instance (src : Source) (user : ℕ → Option UInt8) (off len : ℕ) (l : List UInt8) :
    Decidable (src.Unseen user off len l) := inferInstanceAs (Decidable (∀ j, j < _ → _ < _ → _))

/-- The file of inode `n` is `l`, and `readi` delivers it. -/
def Contains (sb : Superblock) (c : Caller) (v : View) (ip : InodeRef) (n : ℕ) (l : List UInt8) : Prop :=
  Delivers sb c v ip l ∧ ∃ J, Holds sb v J ip n ∧ J.file sb n = l

theorem Holds.contains (h : Holds sb v I ip n) (c : Caller) : Contains sb c v ip n (I.file sb n) :=
  ⟨h.delivers c, I, h, rfl⟩

/-- `writei` has reported what it changed: after the result `r`, reading gives the old content with the
first `r` bytes of the source at `off`, and after -1 the old content. -/
def Reported (sb : Superblock) (c : Caller) (ip : InodeRef) (n addr off len : ℕ) (l : List UInt8)
    (r : Option ℕ) (v' : View) : Prop :=
  (r = none → Contains sb c v' ip n l) ∧
  ∀ k, r = some k → k ≤ len ∧ (Source.user addr).NoFault c.user k ∧
    Contains sb c v' ip n (overwrite l off ((Source.user addr).segment c.user 0 k)) ∧
    (overwrite l off ((Source.user addr).segment c.user 0 k)).length = max l.length (off + k)

/-- **A faulting write changes only what it reports**, exactly if what the copy that fails has put into the
buffer is not seen, or the write is refused. This is about calls that return. -/
theorem faulting_write_changes_what_it_reports (hs : Sane sb) (h : Holds sb v I ip n) (c : Caller)
    (hop : v.op ≠ none) (addr off len : ℕ)
    (hret : ¬ Runs (c.allocating sb) (writei sb ip (.user addr) off len) (fun _ _ => False) v) :
    Runs (c.allocating sb) (writei sb ip (.user addr) off len)
      (Reported sb c ip n addr off len (I.file sb n)) v ↔
    ((I.din n).size < off ∨ MAXFILE * BSIZE < off + len ∨
      (Source.user addr).Unseen c.user off len (I.file sb n)) := by
  have hfull : (Source.user addr).Full len := trivial
  have hwritten : (Source.user addr).written c.user off len = (Source.user addr).segment c.user 0
    ((Source.user addr).written c.user off len).length := Source.written_eq hfull
  -- what every run does
  have hruns : Runs (c.allocating sb) (writei sb ip (.user addr) off len) (fun r v' =>
      ((I.din n).size < off ∨ MAXFILE * BSIZE < off + len) ∧ r = none ∧ v' = v ∨
      (off ≤ (I.din n).size ∧ off + len ≤ MAXFILE * BSIZE) ∧ ∃ J,
        Image.Written sb n I J off ((Source.user addr).written c.user off len)
          ((Source.user addr).spilled c.user off len) ∧ Holds sb v' J ip n ∧
        r = some ((Source.user addr).written c.user off len).length) v :=
    runs_writei h.clean.wf hs h.clean.content h.allocated h.din h.inum h.clean.idle hop hfull
      (fun _ _ _ => c.allocating_fills sb) (fun hbad => .inl ⟨hbad, rfl, rfl⟩)
      fun hoff hmax J v' hJ hv => .inr ⟨⟨hoff, hmax⟩, J, hJ, h.written hJ hv, rfl⟩
  constructor
  · intro hrep
    by_contra hno
    rw [not_or, not_or] at hno
    refine hret ((hruns.and hrep).mono ?_)
    rintro r v' ⟨⟨hbad, -, -⟩ | ⟨⟨hoff, -⟩, J, hJ, hholds, rfl⟩, -, hr⟩
    · exact hbad.elim hno.1 hno.2.1
    · obtain ⟨-, -, ⟨-, K, hK, hfile⟩, -⟩ := hr _ rfl
      rw [← hwritten, hK.file_eq hholds] at hfile
      refine hno.2.2 fun j hj hlt => (hJ.file_iff hoff).mp hfile j hj ?_
      rwa [Image.length_file] at hlt
  · intro hcond
    refine hruns.mono ?_
    rintro r v' (⟨-, rfl, rfl⟩ | ⟨⟨hoff, hmax⟩, J, hJ, hholds, rfl⟩)
    · exact ⟨fun _ => h.contains c, nofun⟩
    refine ⟨nofun, fun k hk => ?_⟩
    obtain rfl : _ = k := Option.some.inj hk
    have hunseen := (hcond.resolve_left (by omega)).resolve_left (by omega)
    have hfile := (hJ.file_iff hoff).mpr fun j hj hlt => hunseen j hj (by rwa [Image.length_file])
    refine ⟨Source.length_pieces_le _ _ _ _, Source.noFault_written hfull, ?_, ?_⟩
    · rw [← hwritten, ← hfile]
      exact hholds.contains c
    · rw [length_overwrite (by rwa [Image.length_file]), Source.length_segment]

/-- Of four bytes only the first is valid. It is copied and not reported, but the file is empty, and the
byte is beyond its end. -/
theorem faulting_write_changes_what_it_reports_small :
    Runs ((smallCaller 120 1 (by decide)).allocating smallSb)
        (writei smallSb ⟨1, by decide⟩ (.user 0) 0 4)
        (Reported smallSb (smallCaller 120 1 (by decide)) ⟨1, by decide⟩ 2 0 0 4
          (smallImage.file smallSb 2)) (smallView (some ∅)) ∧
      (Source.user 0).spilled (smallCaller 120 1 (by decide)).user 0 4 = [120] := by
  refine ⟨(faulting_write_changes_what_it_reports smallSb_sane (smallView_holds (some ∅))
    (smallCaller 120 1 (by decide)) nofun 0 0 4 fun hno => ?_).mpr (.inr (.inr fun j _ hlt => ?_)),
    by decide +kernel⟩
  · obtain ⟨v', hv'⟩ := Returns.eq (o := (smallCaller 120 1 (by decide)).exec
      (writei smallSb ⟨1, by decide⟩ (.user 0) 0 4) (smallView (some ∅))) (a := some 0) (by decide +kernel)
    exact hno.run vexec_sound hv'
  · rw [Image.length_file, smallImage_din (by decide)] at hlt
    exact absurd hlt (Nat.not_lt_zero _)

/-- Writes `abcd` to the file, then four bytes from address 0, and reads the file after the
transaction. -/
def writeAndReadBack (ip : InodeRef) : Code (Option ℕ × List UInt8) := do
  blk .begin_op
  ilock smallSb ip
  let _ ← writei smallSb ip (.kernel [97, 98, 99, 100]) 0 4
  let r ← writei smallSb ip (.user 0) 0 4
  iunlock ip
  blk .end_op
  ilock smallSb ip
  let (l, _) ← readi smallSb ip .kernel 0 4
  iunlock ip
  return (r, l)

/-- **A faulting write may change more than it reports.** Of four bytes at address 0 only the first is
valid, an `x`. `writei` reports that it has written none, and the file, which was `abcd`, reads `xbcd`: so
it does on the view, and so it does when the block layer is executed down to the disk. -/
theorem faulting_write_changes_more :
    Holds smallSb (smallView none) smallImage ⟨1, by decide⟩ 2 ∧
    (∃ v', (smallCaller 120 1 (by decide)).exec (writeAndReadBack ⟨1, by decide⟩) (smallView none) =
      .returned (some 0, [120, 98, 99, 100]) v') ∧
    ∃ s, (writeAndReadBack ⟨1, by decide⟩).run (alone smallSb (smallCaller 120 1 (by decide)))
      (freshState smallContent, smallKern) = .returned (some 0, [120, 98, 99, 100]) s :=
  ⟨smallView_holds none, Returns.eq (by decide +kernel), Returns.eq (by decide +kernel)⟩

end Xv6.Fs
