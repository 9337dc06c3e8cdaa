import Xv6.Fs.FileWrite

/-!
# Reading in pieces

Calls of `fileread` one after the other, while no other process runs. Each call delivers the bytes of the
file at the offset as far as its destination can be written; if that is not as far as asked, it returns -1
and the offset stays. Unlike writes, reads are in no transaction, and they never panic.
-/

namespace Xv6.Fs

open Lib Block

variable {sb : Superblock} {v : View} {I : Image} {n off : ℕ} {ip : InodeRef} {f : FileRef}
  {c : Caller}

/-- Calls of `fileread` one after the other, each with an address and a length. -/
def filereads (sb : Superblock) (f : FileRef) : List (ℕ × ℕ) → Code (List (ℤ × List UInt8))
  | [] => return []
  | (addr, len) :: calls => do
    let r ← fileread sb f addr len
    return r :: (← filereads sb f calls)

/-- Calls that read an array of bytes at an offset: the results, the bytes that are delivered, and the
offset afterwards. -/
def arrayReads (user : ℕ → Option UInt8) (l : List UInt8) (off : ℕ) :
    List (ℕ × ℕ) → List (ℤ × List UInt8) × ℕ
  | [] => ([], off)
  | (addr, len) :: calls =>
    let part := (l.drop off).take len
    let got := (Dest.user addr).got user part
    let rest := arrayReads user l (if got.2 then off + part.length else off) calls
    ((if got.2 then (part.length : ℤ) else -1, got.1) :: rest.1, rest.2)

/-- The bytes of the calls that do not fail, put together, are a part of the array. -/
theorem arrayReads_spec (user : ℕ → Option UInt8) (l : List UInt8) (off : ℕ) (calls : List (ℕ × ℕ)) :
    ∃ k, (arrayReads user l off calls).2 = off + k ∧
      (((arrayReads user l off calls).1.filter fun r => r.1 ≠ -1).map Prod.snd).flatten =
        (l.drop off).take k ∧
      ((∀ r ∈ (arrayReads user l off calls).1, r.1 ≠ -1) →
        k = min (calls.map Prod.snd).sum (l.length - off)) := by
  induction calls generalizing off with
  | nil => exact ⟨0, rfl, by simp [arrayReads], by simp⟩
  | cons call calls ih =>
    obtain ⟨addr, len⟩ := call
    simp only [arrayReads]
    generalize hpart : (l.drop off).take len = part
    have hlen : part.length = min len (l.length - off) := by
      rw [← hpart, List.length_take, List.length_drop]
    cases hok : ((Dest.user addr).got user part).2 with
    | false =>
      obtain ⟨k, hoff, hbytes, -⟩ := ih off
      exact ⟨k, by simpa using hoff, by simpa using hbytes, by simp⟩
    | true =>
      obtain ⟨k, hoff, hbytes, hsum⟩ := ih (off + part.length)
      have hall : ((Dest.user addr).got user part).1 = part := by
        rw [Dest.got, of_decide_eq_true hok, List.take_length]
      refine ⟨part.length + k, ?_, ?_, fun hno => ?_⟩
      · rw [if_pos rfl, hoff, Nat.add_assoc]
      · rw [if_pos rfl, if_pos rfl, List.filter_cons_of_pos (by simp), List.map_cons,
          List.flatten_cons, hbytes, hall, List.take_add, List.drop_drop, ← hpart]
        congr 1
        rw [hpart, hlen, ← hpart, List.take_eq_take_iff]
        simp
      · have hrest := hsum fun r hr => hno r (by simpa using .inr hr)
        simp only [List.map_cons, List.sum_cons]
        omega

/-- File `f` is open for reading at `off`. -/
structure ReadAt (sb : Superblock) (v : View) (I : Image) (f : FileRef) (ip : InodeRef) (n off : ℕ) :
    Prop extends OpenAt sb v I f ip n off where
  isOpen : (v.kern.file f).type = .FD_INODE ∧ (v.kern.file f).ip = some ip ∧
    (v.kern.file f).readable = true

theorem ReadAt.setOp (h : ReadAt sb v I f ip n off) (o : Option (Finset ℕ)) :
    ReadAt sb (v.setOp o) I f ip n off :=
  ⟨⟨h.clean.setOp o, h.pos, h.inum, h.unlocked, h.used, h.offset, h.le⟩, h.isOpen⟩

/-- The end of a read: the inode is unlocked. -/
theorem Holds.runs_read_end (h : Holds sb v I ip n) (hlock : (v.kern.inode ip).lock = some c.slot)
    (hle : (v.kern.file f).off ≤ (I.din n).size)
    (hopen : (v.kern.file f).type = .FD_INODE ∧ (v.kern.file f).ip = some ip ∧
      (v.kern.file f).readable = true) {r : ℤ × List UInt8} {Q : ℤ × List UInt8 → View → Prop}
    (hQ : ∀ v', ReadAt sb v' I f ip n (v.kern.file f).off → Q r v') :
    Runs c.total (do iunlock ip; return r) Q v := by
  refine runs_bind (runs_iunlock h.pos hlock fun v₁ hv₁ => runs_pure (hQ _ ?_))
  subst hv₁
  refine ⟨⟨h.clean.setLock h.pos none, ?_, ?_, ?_, h.allocated, rfl, hle⟩, hopen⟩ <;>
    simp [h.pos, h.inum]

theorem ReadAt.runs_fileread (h : ReadAt sb v I f ip n off) (addr : ℕ) {len : ℕ} (hlen : len < 2 ^ 31)
    {part : List UInt8} (hpart : ((I.file sb n).drop off).take len = part)
    {Q : ℤ × List UInt8 → View → Prop}
    (hbad : ((Dest.user addr).got c.user part).2 = false → ∀ v', ReadAt sb v' I f ip n off →
      Q (-1, ((Dest.user addr).got c.user part).1) v')
    (hgood : ((Dest.user addr).got c.user part).2 = true → ∀ v',
      ReadAt sb v' I f ip n (off + part.length) →
      Q (part.length, ((Dest.user addr).got c.user part).1) v') :
    Runs c.total (fileread sb f addr len) Q v := by
  obtain ⟨⟨hclean, hpos, hinum, hfree, hused, rfl, hle⟩, hopen⟩ := h
  have hsize : (I.din n).size < 2 ^ 31 := (hclean.wf.size n hused).trans_lt (by decide)
  refine runs_bind (runs_file ?_)
  rw [hopen.1, hopen.2.1, hopen.2.2]
  refine runs_bind (runs_ilock hclean hpos hinum hused (fun _ => hfree)
    fun v₁ hv₁ => runs_bind (runs_file ?_))
  obtain ⟨hholds, hlock, hfile⟩ : Holds sb v₁ I ip n ∧ (v₁.kern.inode ip).lock = some c.slot ∧
      v₁.kern.file = v.kern.file := by
    subst hv₁
    refine ⟨⟨hclean.locked hpos hinum hused c.slot, ?_, ?_, ?_⟩, ?_, rfl⟩ <;>
      simp [Inode.locked, Caller.total, hpos, hinum]
  rw [← hfile] at hle hopen hbad hgood hpart
  have hmod : ((len : ℤ) % 2 ^ 32).toNat = len := by omega
  rw [hmod]
  refine runs_bind ((hholds.delivers c (.user addr) _ len (by omega) (by omega)).mono ?_)
  rintro _ w ⟨hw, rfl⟩
  rw [hw, if_pos (by omega), hpart]
  have hplen : (v₁.kern.file f).off + part.length ≤ (I.din n).size := by
    rw [← hpart, List.length_take, List.length_drop, Image.length_file]
    omega
  generalize hgot : (Dest.user addr).got c.user part = got at hbad hgood ⊢
  obtain ⟨l, ok⟩ := got
  cases ok with
  | false =>
    -- a copy has failed, and the offset stays
    exact runs_bind (Prog.ensures_when (fun h => absurd h Bool.false_ne_true) fun _ =>
      hholds.runs_read_end hlock hle hopen (hbad rfl))
  | true =>
    obtain rfl : l = part := by
      have hall := of_decide_eq_true (congrArg Prod.snd hgot)
      rw [Dest.got, hall, List.take_length] at hgot
      exact (congrArg Prod.fst hgot).symm
    have hr : asInt l.length = l.length := if_pos (by omega)
    simp only [if_true, hr]
    refine runs_bind (Prog.ensures_when (fun _ => runs_setOff ?_) fun hzero => ?_)
    · generalize hx : ({ v₁.kern.file f with off := _ } : File) = x
      have hoff : x.off = (v₁.kern.file f).off + l.length := by
        simp only [← hx, hr]
        exact Nat.mod_eq_of_lt (by omega)
      have hfx : (v₁.kern.setFile f x).file f = x := Function.update_self ..
      have hholds₂ : Holds sb (v₁.setKern (v₁.kern.setFile f x)) I ip n :=
        ⟨hholds.clean.congr_inode rfl, hholds.pos, hholds.valid, hholds.inum⟩
      refine hholds₂.runs_read_end (f := f) hlock ?_ ?_ fun v' hv' => hgood rfl v' ?_
      all_goals simp only [View.setKern_kern, hfx, hoff] at *
      · exact hplen
      · rwa [← hx]
      · exact hv'
    · -- at the end of the file, or nothing was asked for
      have h0 : l.length = 0 := by simpa using hzero
      refine hholds.runs_read_end hlock hle hopen fun v' hv' => hgood rfl v' ?_
      rwa [h0, Nat.add_zero]

theorem ReadAt.runs_filereads (h : ReadAt sb v I f ip n off) (c : Caller) {calls : List (ℕ × ℕ)}
    (hlens : ∀ call ∈ calls, call.2 < 2 ^ 31) :
    Runs c.total (filereads sb f calls) (fun rs v' =>
      rs = (arrayReads c.user (I.file sb n) off calls).1 ∧
      ReadAt sb v' I f ip n (arrayReads c.user (I.file sb n) off calls).2) v := by
  induction calls generalizing v off with
  | nil => exact runs_pure ⟨rfl, h⟩
  | cons call calls ih =>
    obtain ⟨addr, len⟩ := call
    obtain ⟨hlen, hlens⟩ := List.forall_mem_cons.mp hlens
    refine runs_bind (h.runs_fileread addr hlen rfl (fun hbad v₁ h₁ => ?_)
      fun hgood v₁ h₁ => ?_)
    · refine runs_bind ((ih h₁ hlens).mono fun rs v' hrs => runs_pure ?_)
      simp only [arrayReads, hbad]
      exact ⟨by rw [hrs.1]; rfl, hrs.2⟩
    · refine runs_bind ((ih h₁ hlens).mono fun rs v' hrs => runs_pure ?_)
      simp only [arrayReads, hgood]
      exact ⟨by rw [hrs.1]; rfl, hrs.2⟩

theorem costs_filereads (calls : List (ℕ × ℕ)) :
    (filereads sb f calls).Affords (pay true) (0, 2) (0, 2) := by
  have hread (addr len : ℕ) : (fileread sb f addr len).Affords (pay true) (0, 2) (0, 2) := by
    refine costs_tab fun (x : File) => Prog.affords_ite le_rfl ?_
    split
    · exact costs_tab fun _ => le_rfl
    · exact Prog.affords_ite (costs_tab fun _ => le_rfl) le_rfl
    · rename_i ip _ _
      refine (costs_ilock sb ip).bind fun _ => costs_tab fun (x : File) => ?_
      refine (costs_readi sb ip _ _ _).bind fun r => ?_
      refine (Prog.affords_when (costs_tab_last _) le_rfl).bind fun _ => ?_
      exact (costs_iunlock ip).bind fun _ => le_rfl
    · trivial
  induction calls with
  | nil => exact le_rfl
  | cons call calls ih =>
    exact (hread call.1 call.2).bind fun r => ih.bind fun _ => le_rfl

/-- **Reads deliver the file in order.** Calls of `fileread` read the file as calls that read an array of
bytes: each delivers the bytes at the offset, as many as it asks for or there are, up to the first byte of
its destination that cannot be written. If it gets to the end it returns their number, which the offset
moves by, and if not it returns -1 and the offset stays. So the bytes of the calls that do not fail are,
put together, a part of the file from the offset on. -/
theorem reads_deliver_file (h : ReadAt sb v I f ip n off) (houtside : v.op = none)
    (hlog : maxLogged + 2 ≤ v.logsize) (c : Caller) (calls : List (ℕ × ℕ))
    (hlens : ∀ call ∈ calls, call.2 < 2 ^ 31) :
    Fits c.total (filereads sb f calls) (fun rs v' =>
      rs = (arrayReads c.user (I.file sb n) off calls).1 ∧
      ReadAt sb v' I f ip n (arrayReads c.user (I.file sb n) off calls).2) v ∧
    ∃ k, (arrayReads c.user (I.file sb n) off calls).2 = off + k ∧
      (((arrayReads c.user (I.file sb n) off calls).1.filter fun r => r.1 ≠ -1).map Prod.snd).flatten =
        ((I.file sb n).drop off).take k ∧
      ((∀ r ∈ (arrayReads c.user (I.file sb n) off calls).1, r.1 ≠ -1) →
        k = min (calls.map Prod.snd).sum ((I.file sb n).length - off)) := by
  refine ⟨?_, arrayReads_spec ..⟩
  have hroom : v.Room 0 2 :=
    h.clean.idle.room (by rw [View.card_logged_outside houtside]; exact Nat.zero_le _) hlog
  refine (Runs.fits_inside ⟨fun _ _ => id, fun _ => id⟩ (((h.setOp none).runs_filereads c hlens).mono ?_)
    hroom (costs_filereads calls)).mono fun _ _ => And.left
  rintro rs v' ⟨hrs, hv'⟩
  exact ⟨hrs, hv'.setOp v.op⟩

/-- A caller that can write eight bytes reads a file of five. The second call gets no further than the end
of its memory. -/
theorem reads_deliver_file_small :
    ∃ v J, J.file smallSb 2 = [120, 120, 120, 120, 120] ∧
      Fits (smallCaller 120 8 (by decide)).total
        (filereads smallSb ⟨0, by decide⟩ [(0, 2), (7, 2), (4, 9)])
        (fun rs v' => rs = [(2, [120, 120]), (-1, [120]), (3, [120, 120, 120])] ∧
          ReadAt smallSb v' J ⟨0, by decide⟩ ⟨1, by decide⟩ 2 5) v := by
  have hruns : Runs ((smallCaller 120 8 (by decide)).allocating smallSb)
      (writei smallSb ⟨1, by decide⟩ (.user 0) 0 5) (fun _ v' =>
        ∃ J, J.file smallSb 2 = [120, 120, 120, 120, 120] ∧
          ReadAt smallSb (v'.setOp none) J ⟨0, by decide⟩ ⟨1, by decide⟩ 2 0) (smallView (some ∅)) := by
    have hfull : (Source.user 0).Full 5 := trivial
    refine (smallView_holds (some ∅)).runs_writei smallSb_sane nofun _ hfull (by decide)
      (fun hbad => absurd hbad (by decide)) fun _ _ J v' hJ hmoves => ⟨J, hJ.file.trans ?_, ?_⟩
    · have hempty : smallImage.file smallSb 2 = [] := by
        refine List.eq_nil_of_length_eq_zero ?_
        rw [Image.length_file, smallImage_din (by decide)]
        rfl
      rw [hempty]
      decide
    · have hfile : v'.kern.file = smallKern.file := by rw [hmoves.kern]; rfl
      refine ⟨⟨hJ.holds.clean.setOp none, hJ.holds.pos, hJ.holds.inum, ?_, hJ.holds.allocated, ?_,
        Nat.zero_le _⟩, ?_⟩
      · change (v'.kern.inode _).lock = none
        rw [hmoves.inode]
        rfl
      · change (v'.kern.file _).off = 0
        rw [hfile]
        rfl
      · change (v'.kern.file _).type = _ ∧ (v'.kern.file _).ip = _ ∧ (v'.kern.file _).readable = _
        rw [hfile]
        exact ⟨rfl, rfl, rfl⟩
  obtain ⟨r, v', hv', hsize⟩ := Returns.exists (P := fun _ (v' : View) => v'.logsize = 31)
    (o := (smallCaller 120 8 (by decide)).exec (writei smallSb ⟨1, by decide⟩ (.user 0) 0 5)
      (smallView (some ∅))) (by decide +kernel)
  obtain ⟨J, hfile, hread⟩ := hruns.run vexec_sound hv'
  refine ⟨v'.setOp none, J, hfile, ?_⟩
  have h := (reads_deliver_file hread rfl (show (maxLogged : ℤ) + 2 ≤ v'.logsize by rw [hsize]; decide)
    (smallCaller 120 8 (by decide)) [(0, 2), (7, 2), (4, 9)] (by decide)).1
  rw [hfile] at h
  exact h

end Xv6.Fs
