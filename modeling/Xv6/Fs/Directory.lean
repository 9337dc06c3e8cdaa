import Xv6.Fs.Files
import Xv6.Fs.InodeTable
import Xv6.Fs.Room
import Xv6.Lib.Slots

/-!
# Directories

A directory is a file of entries of 16 bytes. An entry with inode number 0 is free; the others hold a
name, which is cut at the first zero or after `DIRSIZ` bytes, and an inode number. So a directory is an
array of slots that represents a finite map from names to inode numbers.
-/

namespace Xv6.Fs

open Lib Block

variable {sb : Superblock} {μ : Mode} {v v' : View} {I J : Image} {n : ℕ} {dp : InodeRef}
  {name : List UInt8} {inum : ℕ}

/-! ### Entries -/

theorem length_encode (inum : ℕ) (name : List UInt8) : (Dirent.encode inum name).length = 16 := by
  simp only [Dirent.encode, List.length_cons, List.length_append, List.length_take,
    List.length_replicate, DIRSIZ]
  omega

/-- The name in an entry is found again. -/
theorem cname_encoded (name : List UInt8) :
    cname (name.take DIRSIZ ++ List.replicate (DIRSIZ - name.length) 0) = cname name := by
  have hlen : (name.take DIRSIZ ++ List.replicate (DIRSIZ - name.length) (0 : UInt8)).length = DIRSIZ := by
    simp only [List.length_append, List.length_take, List.length_replicate]
    omega
  have hzeros : ∀ m, (List.replicate m (0 : UInt8)).takeWhile (· ≠ 0) = [] := by
    intro m
    cases m with
    | zero => rfl
    | succ m => simp [List.replicate_succ]
  unfold cname
  rw [List.take_of_length_le (le_of_eq hlen), List.takeWhile_append, hzeros, List.append_nil]
  split
  · rename_i hall
    exact ((List.takeWhile_prefix _).eq_of_length hall).symm
  · rfl

theorem decode_encode (h : inum < 2 ^ 16) (name : List UInt8) :
    (Dirent.decode (Dirent.encode inum name)).inum = inum ∧
      cname (Dirent.decode (Dirent.encode inum name)).name = cname name := by
  constructor
  · simp only [Dirent.decode, Dirent.encode, List.getD_cons_zero, List.getD_cons_succ,
      UInt8.toNat_ofNat']
    omega
  · have hname : (Dirent.decode (Dirent.encode inum name)).name =
        (name.take DIRSIZ ++ List.replicate (DIRSIZ - name.length) 0).take DIRSIZ := rfl
    rw [hname, List.take_of_length_le, cname_encoded]
    simp only [List.length_append, List.length_take, List.length_replicate]
    omega

theorem decode_zeros : (Dirent.decode (List.replicate 16 0)).inum = 0 := rfl

namespace Image

variable (sb) (I) (n)

/-- The entry at `off` of directory `n`. -/
def entry (off : ℕ) : Dirent := Dirent.decode (I.bytes sb n off 16)

/-- Slot `j` of directory `n`: the name and the inode number. -/
def slot (j : ℕ) : Option (List UInt8 × ℕ) :=
  if (I.entry sb n (16 * j)).inum = 0 then none
  else some (cname (I.entry sb n (16 * j)).name, (I.entry sb n (16 * j)).inum)

/-- The number of slots. -/
def slots : ℕ := (I.din n).size / 16

/-- The inode number of a name in directory `n`. -/
def lookup (name : List UInt8) : Option ℕ := Slots.lookup (I.slot sb n) (I.slots n) (cname name)

/-- Inode `n` is a directory, and consists of entries. -/
structure IsDir : Prop where
  allocated : I.Allocated sb n
  type : (I.din n).type = T_DIR
  aligned : 16 ∣ (I.din n).size

variable {sb I n}

theorem IsDir.size_eq (h : I.IsDir sb n) : (I.din n).size = 16 * I.slots n :=
  (Nat.mul_div_cancel' h.aligned).symm

theorem IsDir.entryOffsets (h : I.IsDir sb n) :
    entryOffsets 0 (I.din n).size = (List.range (I.slots n)).map (16 * ·) := by
  have hlen : ((I.din n).size - 0 + 15) / 16 = I.slots n := by
    rw [h.size_eq]
    omega
  rw [Fs.entryOffsets, hlen]
  exact List.map_congr_left fun j _ => Nat.zero_add _

theorem slot_eq_none {j : ℕ} : I.slot sb n j = none ↔ (I.entry sb n (16 * j)).inum = 0 := by
  unfold slot
  split <;> simp_all

/-- A slot is a match for a name as `dirlookup` tests it. -/
theorem hit_slot (name : List UInt8) (j : ℕ) :
    Slots.hit (I.slot sb n) (cname name) j =
      if (I.entry sb n (16 * j)).inum ≠ 0 ∧ namecmp name (I.entry sb n (16 * j)).name then
        some (j, (I.entry sb n (16 * j)).inum)
      else none := by
  unfold Slots.hit slot namecmp
  by_cases h0 : (I.entry sb n (16 * j)).inum = 0
  · simp [h0]
  · by_cases hk : cname (I.entry sb n (16 * j)).name = cname name
    · simp [h0, hk]
    · simp [h0, hk, Ne.symm hk]

end Image

/-- The process may read and write directory `n` by its entry `dp` of the table. -/
structure HoldsDir (sb : Superblock) (v : View) (I : Image) (dp : InodeRef) (n : ℕ) : Prop
    extends Holds sb v I dp n where
  dir : I.IsDir sb n

/-! ### Reading entries -/

variable {j m : ℕ} {Q : Option (InodeRef × ℕ) → View → Prop} {w : List UInt8}

theorem HoldsDir.runs_readDirent (h : HoldsDir sb v I dp n) (hj : j < I.slots n) {msg : String}
    {Q : Dirent → View → Prop} (hQ : Q (I.entry sb n (16 * j)) v) :
    Runs μ (readDirent sb dp (16 * j) msg) Q v := by
  have hsize := h.size_le
  have hbig : MAXFILE * BSIZE + 16 < 2 ^ 32 := by decide
  have hin : 16 * j + 16 ≤ (I.din n).size := by
    rw [h.dir.size_eq]
    omega
  have hlen : 16 = readLength (I.din n).size (16 * j) 16 := by
    unfold readLength
    rw [if_neg, if_neg (by omega)]
    rw [Nat.mod_eq_of_lt (by omega)]
    omega
  refine runs_bind (runs_readi h.clean.wf h.clean.content h.allocated h.din h.clean.idle hlen ?_)
  rw [Dest.reach_kernel, List.take_of_length_le (le_of_eq Image.length_bytes)]
  exact Prog.ensures_ite (fun _ => runs_pure hQ) fun hne =>
    absurd ⟨decide_eq_true rfl, Image.length_bytes⟩ hne

theorem HoldsDir.runs_dirlookupFrom (h : HoldsDir sb v I dp n) (js : List ℕ)
    (hjs : ∀ j ∈ js, j < I.slots n) (hE : v.kern.NoInode → μ.panics "iget: no inodes" v)
    (hnone : js.findSome? (Slots.hit (I.slot sb n) (cname name)) = none → Q none v)
    (hsome : ∀ j m, js.findSome? (Slots.hit (I.slot sb n) (cname name)) = some (j, m) → ∀ ip k',
      v.kern.Igets m ip k' → Q (some (ip, 16 * j)) (v.setKern k')) :
    Runs μ (dirlookupFrom sb dp ROOTDEV name (js.map (16 * ·))) Q v := by
  induction js with
  | nil => exact runs_pure (hnone rfl)
  | cons j js ih =>
    rw [List.findSome?_cons, Image.hit_slot] at hnone hsome
    refine runs_bind (h.runs_readDirent (hjs j List.mem_cons_self) (Prog.ensures_ite (fun hhit => ?_)
      fun hmiss => ?_))
    · rw [if_pos hhit] at hsome
      exact runs_bind (runs_iget_igets hE fun ip k' hk' => runs_pure (hsome j _ rfl ip k' hk'))
    · rw [if_neg hmiss] at hnone hsome
      exact ih (fun i hi => hjs i (List.mem_cons_of_mem j hi)) hnone hsome

/-- **`dirlookup` finds the first entry with the name**, and takes a reference to its inode. -/
theorem HoldsDir.runs_dirlookup (h : HoldsDir sb v I dp n)
    (hE : v.kern.NoInode → μ.panics "iget: no inodes" v)
    (hnone : Slots.find (I.slot sb n) (I.slots n) (cname name) = none → Q none v)
    (hsome : ∀ j m, Slots.find (I.slot sb n) (I.slots n) (cname name) = some (j, m) → ∀ ip k',
      v.kern.Igets m ip k' → Q (some (ip, 16 * j)) (v.setKern k')) :
    Runs μ (dirlookup sb dp name) Q v := by
  refine runs_bind (runs_inode ?_)
  rw [h.din, h.clean.dev dp h.pos, h.dir.entryOffsets]
  refine Prog.ensures_ite (fun hno => absurd h.dir.type hno) fun _ => ?_
  exact h.runs_dirlookupFrom _ (fun j hj => List.mem_range.mp hj) hE hnone hsome

theorem HoldsDir.runs_emptySlotFrom (h : HoldsDir sb v I dp n) (js : List ℕ)
    (hjs : ∀ j ∈ js, j < I.slots n) (last : ℕ) {Q : ℕ → View → Prop}
    (hQ : Q (16 * (js.find? fun j => (I.slot sb n j).isNone).getD last) v) :
    Runs μ (emptySlotFrom sb dp (js.map (16 * ·)) (16 * last)) Q v := by
  induction js with
  | nil => exact runs_pure hQ
  | cons j js ih =>
    rw [List.find?_cons] at hQ
    refine runs_bind (h.runs_readDirent (hjs j List.mem_cons_self) (Prog.ensures_ite (fun hfree => ?_)
      fun hused => ?_))
    · rw [Image.slot_eq_none.mpr hfree] at hQ
      exact runs_pure hQ
    · have hsome : (I.slot sb n j).isNone = false := by
        rw [Option.isNone_eq_false_iff, Option.isSome_iff_ne_none]
        exact fun hn => hused (Image.slot_eq_none.mp hn)
      rw [hsome] at hQ
      exact ih (fun i hi => hjs i (List.mem_cons_of_mem j hi)) hQ

/-! ### Writing entries -/

namespace Image

variable {j : ℕ} {w : List UInt8}

theorem Written.entry {j' : ℕ} (h : Written sb n I J (16 * j) w []) (hw : w.length = 16)
    (hj : j' ≠ j → 16 * j' + 16 ≤ (I.din n).size) :
    J.entry sb n (16 * j') = if j' = j then Dirent.decode w else I.entry sb n (16 * j') := by
  have hnew := h.new
  have hold := h.old
  rw [List.append_nil] at hnew hold
  unfold Image.entry
  split
  · rename_i heq
    congr 1
    refine ext_getD (by rw [length_bytes, hw]) fun k hk => ?_
    rw [length_bytes] at hk
    rw [heq, ← hnew k (by omega)]
    simp [Image.bytes, List.getD_eq_getElem?_getD, hk]
  · rename_i hne
    have hsize := hj hne
    congr 1
    refine List.map_congr_left fun k hk => hold _ ?_ ?_
    · have := List.mem_range.mp hk
      omega
    · have := List.mem_range.mp hk
      omega

theorem Written.slot_of_ne {i : ℕ} (h : Written sb n I J (16 * j) w []) (hw : w.length = 16)
    (hi : i < I.slots n) (hij : i ≠ j) : J.slot sb n i = I.slot sb n i := by
  have hin : 16 * i + 16 ≤ (I.din n).size := by
    have := Nat.div_mul_le_self (I.din n).size 16
    unfold slots at hi
    omega
  unfold slot
  rw [h.entry hw (fun _ => hin), if_neg hij]

theorem Written.slot_self (h : Written sb n I J (16 * j) (Dirent.encode inum name) [])
    (h0 : inum ≠ 0) (hlt : inum < 2 ^ 16) : J.slot sb n j = some (cname name, inum) := by
  obtain ⟨hinum, hname⟩ := decode_encode hlt name
  unfold slot
  rw [h.entry (length_encode _ _) (fun hne => absurd rfl hne), if_pos rfl, hinum, hname, if_neg h0]

theorem Written.slot_zero (h : Written sb n I J (16 * j) (List.replicate 16 0) []) :
    J.slot sb n j = none := by
  rw [slot_eq_none, h.entry (List.length_replicate ..) (fun hne => absurd rfl hne), if_pos rfl,
    decode_zeros]

theorem Written.isDir (h : Written sb n I J (16 * j) w []) (hw : w.length = 16)
    (hd : I.IsDir sb n) : J.IsDir sb n ∧ J.slots n = max (I.slots n) (j + 1) := by
  have hsize : (J.din n).size = 16 * max (I.slots n) (j + 1) := by
    rw [h.din, hw, hd.size_eq]
    change max (16 * I.slots n) (16 * j + 16) = _
    omega
  refine ⟨⟨⟨hd.allocated.1, ?_⟩, ?_, ⟨_, hsize⟩⟩, ?_⟩
  · rw [h.din]
    exact hd.allocated.2
  · rw [h.din]
    exact hd.type
  · rw [slots, hsize, Nat.mul_div_cancel_left _ (by decide)]

end Image

/-- Bytes of the kernel are written as a whole. -/
theorem Source.written_kernel (c : Caller) {len : ℕ} (hlen : w.length = len) (off : ℕ) :
    (Source.kernel w).written c.user off len = w ∧ (Source.kernel w).spilled c.user off len = [] := by
  have hno : (Source.kernel w).NoFault c.user len := fun j hj => by
    rw [Source.at, List.getElem?_eq_getElem (by omega)]
    rfl
  obtain ⟨hw, hspill⟩ := Source.written_noFault off hno
  refine ⟨hw.trans (List.ext_getElem (by simp [hlen]) fun k hk hk' => ?_), hspill⟩
  simp [Source.segment, Source.at, hk']

/-- An entry is written, if there is room for it. -/
theorem HoldsDir.runs_writeEntry (h : HoldsDir sb v I dp n) (hs : Sane sb) (hop : v.op ≠ none)
    (hw : w.length = 16) (hj : j ≤ I.slots n)
    (hE : I.place sb n (.data (16 * j / BSIZE)) = 0 → μ.Fills sb) {Q : Option ℕ → View → Prop}
    (hbad : MAXFILE * BSIZE < 16 * j + 16 → Q none v)
    (hgood : 16 * j + 16 ≤ MAXFILE * BSIZE → ∀ J v', Image.Written sb n I J (16 * j) w [] →
      v.Moves v' dp n J → Q (some 16) v') : Runs μ (writei sb dp (.kernel w) (16 * j) 16) Q v := by
  have hsize := h.dir.size_eq
  obtain ⟨hwr, hspill⟩ := Source.written_kernel μ.toCaller hw (16 * j)
  have hfull : (Source.kernel w).Full 16 := le_of_eq hw.symm
  refine runs_writei h.clean.wf hs h.clean.content h.allocated h.din h.inum h.clean.idle hop hfull
    (fun i hi h0 => hE ?_) (fun hbad' => hbad ?_) fun _ hmax J v' hJ hv' => ?_
  · -- an entry is in one block
    have hdiv : (16 * j + i) / BSIZE = 16 * j / BSIZE := by
      simp only [BSIZE]
      omega
    rwa [hdiv] at h0
  · exact hbad'.resolve_left (by omega)
  · rw [hwr, hspill] at hJ
    rw [hwr, hw]
    exact hgood hmax J v' hJ hv'

/-! ### Entries in a transaction -/

theorem HoldsDir.setOp (h : HoldsDir sb v I dp n) (o : Option (Finset ℕ)) :
    HoldsDir sb (v.setOp o) I dp n :=
  ⟨⟨h.clean.setOp o, h.pos, h.valid, h.inum⟩, h.dir⟩

theorem HoldsDir.fits_dirlookup (h : HoldsDir sb v I dp n) (hv : v.Room m 2) (hμ : μ.Reads)
    (hE : v.kern.NoInode → μ.panics "iget: no inodes" (v.setOp none))
    (hnone : Slots.find (I.slot sb n) (I.slots n) (cname name) = none → Q none v)
    (hsome : ∀ j m, Slots.find (I.slot sb n) (I.slots n) (cname name) = some (j, m) → ∀ ip k',
      v.kern.Igets m ip k' → Q (some (ip, 16 * j)) (v.setKern k')) :
    Fits μ (dirlookup sb dp name) Q v :=
  (Runs.fits_inside hμ ((h.setOp none).runs_dirlookup hE hnone hsome) hv
    (costs_dirlookup sb dp name)).mono fun _ _ hQ => hQ.1

theorem fits_iput_igets {i : InodeRef} {k' : Kern} (h : v.kern.Igets n i k') (hv : v.Room m 2)
    (hμ : μ.Reads) {Q : Unit → View → Prop} (hQ : ∀ k'', v.kern.Alike k'' → Q () (v.setKern k'')) :
    Fits μ (iput sb i) Q (v.setKern k') := by
  have houtside : Runs μ (iput sb i) (fun a w => Q a (w.setOp v.op)) ((v.setKern k').setOp none) :=
    runs_iput_igets (v := v.setOp none) h hQ
  have hv' : (v.setKern k').Room m 2 := hv.congr rfl rfl rfl
  exact (Runs.fits_inside hμ houtside hv' (costs_iput sb i)).mono fun _ _ hQ => hQ.1

theorem HoldsDir.fits_writeEntry (h : HoldsDir sb v I dp n) (hs : Sane sb) (hop : v.op ≠ none)
    (hv : v.Room (m + 7) 2) (hw : w.length = 16) (hj : j ≤ I.slots n)
    (hE : I.place sb n (.data (16 * j / BSIZE)) = 0 → μ.Fills sb) {Q : Option ℕ → View → Prop}
    (hbad : MAXFILE * BSIZE < 16 * j + 16 → Q none v)
    (hgood : 16 * j + 16 ≤ MAXFILE * BSIZE → ∀ J v', Image.Written sb n I J (16 * j) w [] →
      v.Moves v' dp n J → v'.Room m 2 → Q (some 16) v') :
    Fits μ (writei sb dp (.kernel w) (16 * j) 16) Q v := by
  have hone : 16 * j % BSIZE + 16 ≤ 1 * BSIZE := by
    simp only [BSIZE]
    omega
  refine (Runs.fits (Q := fun r v' => v'.Room m 2 → Q r v') (h.runs_writeEntry hs hop hw hj hE
    (fun hfull _ => hbad hfull) hgood) hv (costs_writei sb dp _ hone)).mono ?_
  rintro r v' ⟨hQ, hroom⟩
  exact hQ hroom

/-- The slot that `dirlink` fills. -/
def Image.freeSlot (sb : Superblock) (I : Image) (n : ℕ) : ℕ :=
  Slots.firstFree (I.slot sb n) (I.slots n)

/-- **`dirlink` writes an entry into the first free slot**, unless the name is there. -/
theorem HoldsDir.fits_dirlink (h : HoldsDir sb v I dp n) (hs : Sane sb) (hop : v.op ≠ none)
    (hv : v.Room (m + 7) 2) (hμ : μ.Reads) (hEtab : μ.Gets) (hEblk : μ.Fills sb)
    (hbelow : 16 * I.freeSlot sb n + 16 ≤ MAXFILE * BSIZE) {Q : Bool → View → Prop}
    (hpresent : I.lookup sb n name ≠ none → ∀ k', v.kern.Alike k' → Q false (v.setKern k'))
    (habsent : I.lookup sb n name = none → ∀ J v',
      Image.Written sb n I J (16 * I.freeSlot sb n) (Dirent.encode inum name) [] →
      v.Moves v' dp n J → v'.Room m 2 → Q true v') : Fits μ (dirlink sb dp name inum) Q v := by
  refine runs_bind (h.fits_dirlookup hv hμ (hEtab (v.setOp none)) (fun hnone => ?_) fun j m hsome ip k' hk' => ?_)
  · refine runs_bind (runs_inode ?_)
    rw [h.din, h.dir.entryOffsets]
    dsimp only
    rw [List.length_map, List.length_range]
    refine runs_bind ((Runs.fits_inside (Q := fun off v' => off = 16 * I.freeSlot sb n ∧ v' = v) hμ
      ((h.setOp none).runs_emptySlotFrom _ (fun j hj => List.mem_range.mp hj) _ ⟨rfl, rfl⟩) hv
      (costs_emptySlotFrom sb dp _ _)).mono ?_)
    rintro _ _ ⟨⟨rfl, rfl⟩, -⟩
    refine runs_bind (h.fits_writeEntry hs hop hv (length_encode _ _) Slots.firstFree_le
      (fun _ => hEblk) (fun hfull => absurd hfull (Nat.not_lt_of_le hbelow)) fun _ J v' hJ hv' hroom => ?_)
    refine Prog.ensures_ite (fun hne => absurd rfl hne) fun _ => runs_pure ?_
    refine habsent ?_ J v' hJ hv' hroom
    rw [Image.lookup, Slots.lookup, hnone]
    rfl
  · refine runs_bind (fits_iput_igets hk' hv hμ fun k'' hk'' => runs_pure (hpresent ?_ k'' hk''))
    rw [Image.lookup, Slots.lookup, hsome]
    exact Option.some_ne_none _

/-! ### Directories as maps -/

/-- The map that directory `n` represents. -/
def Image.dirMap (sb : Superblock) (I : Image) (n : ℕ) : List UInt8 → Option ℕ :=
  Slots.lookup (I.slot sb n) (I.slots n)

/-- A directory in which no two entries have the same name. -/
structure DirState (sb : Superblock) (v : View) (I : Image) (dp : InodeRef) (n : ℕ) : Prop
    extends HoldsDir sb v I dp n where
  distinct : Slots.Distinct (I.slot sb n) (I.slots n)

/-- The same, between two transactions. -/
structure DirReady (sb : Superblock) (v : View) (I : Image) (dp : InodeRef) (n : ℕ) : Prop
    extends DirState sb v I dp n where
  outside : v.op = none
  logsize : maxLogged + 2 ≤ v.logsize

/-- What is done to a directory. -/
inductive DirOp
  /-- `dirlink`. -/
  | link (name : List UInt8) (inum : ℕ)
  /-- The removal of an entry in `sys_unlink`. -/
  | remove (name : List UInt8)
  /-- `dirlookup`. -/
  | lookup (name : List UInt8)

/-- `iput` of an inode, after its number has been read. -/
def putNumber (sb : Superblock) (ip : InodeRef) : Code (Option ℕ) := do
  let i : Inode ← tab (.inode ip)
  iput sb ip
  return some i.inum

namespace DirOp

/-- The code in the transaction; the result is the number of the inode that was linked, removed or found,
or none. Source: `fs.c` `dirlink`, `dirlookup`, `sysfile.c` `sys_unlink`. -/
def body (sb : Superblock) (dp : InodeRef) : DirOp → Code (Option ℕ)
  | link name inum => do
    let ok ← dirlink sb dp name inum
    return if ok then some inum else none
  | remove name => do
    match ← dirlookup sb dp name with
    | none => return none
    | some (ip, off) => do
      let w ← writei sb dp (.kernel (List.replicate 16 0)) off 16
      if w ≠ some 16 then .panic "unlink: writei" else putNumber sb ip
  | lookup name => do
    match ← dirlookup sb dp name with
    | none => return none
    | some (ip, _) => putNumber sb ip

/-- Each operation is a transaction of its own, as in the system calls. -/
def code (sb : Superblock) (dp : InodeRef) (op : DirOp) : Code (Option ℕ) := do
  blk .begin_op
  let r ← op.body sb dp
  blk .end_op
  return r

/-- Inode numbers are not zero, and fit into an entry. -/
def Valid : DirOp → Prop
  | link _ inum => 0 < inum ∧ inum < 2 ^ 16
  | _ => True

/-- What the operation does to a map: its result and the new map. -/
def effect (m : List UInt8 → Option ℕ) : DirOp → Option ℕ × (List UInt8 → Option ℕ)
  | link name inum =>
    if m (cname name) = none then (some inum, Function.update m (cname name) (some inum))
    else (none, m)
  | remove name => (m (cname name), Function.update m (cname name) none)
  | lookup name => (m (cname name), m)

end DirOp

/-- What an operation does to a directory. -/
structure DirStep (sb : Superblock) (n : ℕ) (op : DirOp) (I J : Image) (r : Option ℕ) : Prop where
  result : r = (op.effect (I.dirMap sb n)).1
  map : J.dirMap sb n = (op.effect (I.dirMap sb n)).2
  /-- All entries but one are unchanged. -/
  others : ∃ j, ∀ i, i < I.slots n → i ≠ j → J.entry sb n (16 * i) = I.entry sb n (16 * i)
  /-- The directory grows only if there is no free entry. -/
  grows : (J.din n).size = (I.din n).size ∨
    (J.din n).size = (I.din n).size + 16 ∧ ∀ i, i < I.slots n → I.slot sb n i ≠ none
  /-- If nothing is linked, removed or found, then nothing changes. -/
  fails : r = none → J = I

/-- `dirlink` fails if and only if the name is there. -/
theorem DirStep.link_fails {r : Option ℕ} (h : DirStep sb n (.link name inum) I J r) :
    r = none ↔ I.lookup sb n name ≠ none := by
  change r = none ↔ I.dirMap sb n (cname name) ≠ none
  rw [h.result, DirOp.effect]
  split
  · rename_i habsent
    simp [habsent]
  · rename_i hpresent
    exact iff_of_true rfl hpresent

section steps

variable {c : Caller}

/-- Every run returns, unless there is no free block, or no free entry in the table of inodes, when one is
needed. -/
def Caller.resources (sb : Superblock) (c : Caller) : Mode :=
  ⟨c, True, fun msg v => msg = "balloc: out of blocks" ∧ v.NoSpace sb ∨
    msg = "iget: no inodes" ∧ v.kern.NoInode⟩

theorem Caller.resources_reads (sb : Superblock) (c : Caller) : (c.resources sb).Reads :=
  ⟨fun _ _ h => h, fun _ h => h.elim (fun h => absurd h.1 (by decide)) fun h => absurd h.1 (by decide)⟩

theorem Caller.resources_fills (sb : Superblock) (c : Caller) : (c.resources sb).Fills sb :=
  fun _ h => .inl ⟨rfl, h⟩

theorem Caller.resources_gets (sb : Superblock) (c : Caller) : (c.resources sb).Gets :=
  fun _ h => .inr ⟨rfl, h⟩

variable {k' : Kern}

theorem DirState.alike (h : DirState sb v I dp n) (hk : v.kern.Alike k') :
    DirState sb (v.setKern k') I dp n := by
  have hdp : k'.inode dp = v.kern.inode dp := hk.inode dp h.pos
  refine ⟨⟨⟨h.clean.alike hk, ?_, ?_, ?_⟩, h.dir⟩, h.distinct⟩ <;>
    rw [View.setKern_kern, hdp]
  · exact h.pos
  · exact h.valid
  · exact h.inum

theorem DirState.setOp (h : DirState sb v I dp n) (o : Option (Finset ℕ)) :
    DirState sb (v.setOp o) I dp n := ⟨h.toHoldsDir.setOp o, h.distinct⟩

theorem DirState.written (h : DirState sb v I dp n) {j : ℕ} {w : List UInt8} (hw : w.length = 16)
    (hJ : Image.Written sb n I J (16 * j) w []) (hv : v.Moves v' dp n J)
    (hd : Slots.Distinct (J.slot sb n) (J.slots n)) : DirState sb v' J dp n :=
  ⟨⟨h.toHolds.written hJ hv, (hJ.isDir hw h.dir).1⟩, hd⟩

theorem DirState.others (h : DirState sb v I dp n) {j : ℕ} {w : List UInt8} (hw : w.length = 16)
    (hJ : Image.Written sb n I J (16 * j) w []) (i : ℕ) (hi : i < I.slots n) (hij : i ≠ j) :
    J.entry sb n (16 * i) = I.entry sb n (16 * i) := by
  have hsize := h.dir.size_eq
  rw [hJ.entry hw (fun _ => by omega), if_neg hij]

theorem HoldsDir.igets (h : HoldsDir sb v I dp n) {m : ℕ} {ip : InodeRef}
    (hk : v.kern.Igets m ip k') : HoldsDir sb (v.setKern k') I dp n := by
  obtain ⟨hinum, hvalid⟩ := hk.keeps h.pos
  refine ⟨⟨h.clean.igets hk, lt_of_lt_of_le h.pos (hk.ref_le dp), ?_, hinum.trans h.inum⟩, h.dir⟩
  rw [View.setKern_kern, hvalid]
  exact h.valid

theorem fits_putNumber {m : ℕ} {ip : InodeRef} (h : v.kern.Igets m ip k') {l : ℕ} (hv : v.Room l 2)
    {Q : Option ℕ → View → Prop} (hQ : ∀ k'', v.kern.Alike k'' → Q (some m) (v.setKern k'')) :
    Fits (c.resources sb) (putNumber sb ip) Q (v.setKern k') := by
  refine runs_bind (runs_inode (runs_bind (fits_iput_igets h hv (c.resources_reads sb)
    fun k'' hk'' => runs_pure ?_)))
  rw [View.setKern_kern, h.inum]
  exact hQ k'' hk''

/-- What an operation on a directory leaves, when it was called with the tables `k`. -/
def DirDone (sb : Superblock) (dp : InodeRef) (n : ℕ) (op : DirOp) (I : Image) (k : Kern)
    (r : Option ℕ) (v' : View) : Prop :=
  ∃ J, DirState sb v' J dp n ∧ DirStep sb n op I J r ∧ (r = none → k.Alike v'.kern)

theorem DirState.fits_lookup (h : DirState sb v I dp n) {l : ℕ} (hv : v.Room l 2) :
    Fits (c.resources sb) ((DirOp.lookup name).body sb dp)
      (fun r v' => DirDone sb dp n (.lookup name) I v.kern r v' ∧ v'.Room 0 2) v := by
  have hstep : ∀ r, r = I.dirMap sb n (cname name) → DirStep sb n (.lookup name) I I r :=
    fun r hr => ⟨hr, rfl, ⟨0, fun _ _ _ => rfl⟩, .inl rfl, fun _ => rfl⟩
  have hv := hv.mono (log_le (Nat.zero_le l))
  refine runs_bind (h.fits_dirlookup hv (c.resources_reads sb) (c.resources_gets sb (v.setOp none))
    (fun hnone => ?_) fun j m hsome ip k' hk' => ?_)
  · refine runs_pure ⟨⟨I, h, hstep _ ?_, fun _ => .refl _⟩, hv⟩
    rw [Image.dirMap, Slots.lookup, hnone]
    rfl
  · refine fits_putNumber hk' hv fun k'' hk'' => ⟨⟨I, h.alike hk'', hstep _ ?_,
      fun hr => absurd hr (Option.some_ne_none _)⟩, hv.congr rfl rfl rfl⟩
    rw [Image.dirMap, Slots.lookup, hsome]
    rfl

theorem DirState.fits_link (h : DirState sb v I dp n) (hs : Sane sb) (hop : v.op ≠ none)
    (hv : v.Room 7 2) (hbelow : (I.din n).size < MAXFILE * BSIZE) (h0 : 0 < inum)
    (hlt : inum < 2 ^ 16) :
    Fits (c.resources sb) ((DirOp.link name inum).body sb dp)
      (fun r v' => DirDone sb dp n (.link name inum) I v.kern r v' ∧ v'.Room 0 2) v := by
  have hmax : MAXFILE * BSIZE = 16 * 17152 := by decide
  have hsize := h.dir.size_eq
  have hle : I.freeSlot sb n ≤ I.slots n := Slots.firstFree_le
  have hmap : I.lookup sb n name = I.dirMap sb n (cname name) := rfl
  refine runs_bind (h.fits_dirlink (m := 0) hs hop hv (c.resources_reads sb) (c.resources_gets sb)
    (c.resources_fills sb) (by omega) (fun hpresent k' hk' => runs_pure ⟨?_, ?_⟩)
    fun habsent J v' hJ hv' hroom => runs_pure ⟨?_, hroom⟩)
  · have heff : (DirOp.link name inum).effect (I.dirMap sb n) = (none, I.dirMap sb n) := if_neg hpresent
    exact ⟨I, h.alike hk', ⟨by rw [heff]; rfl, by rw [heff], ⟨0, fun _ _ _ => rfl⟩, .inl rfl,
      fun _ => rfl⟩, fun _ => hk'⟩
  · exact (hv.mono (log_le (Nat.zero_le 7))).congr rfl rfl rfl
  · have heff : (DirOp.link name inum).effect (I.dirMap sb n) =
        (some inum, Function.update (I.dirMap sb n) (cname name) (some inum)) := if_pos habsent
    have hsame := fun i hi hij => hJ.slot_of_ne (length_encode inum name) (i := i) hi hij
    have hnew := hJ.slot_self (by omega) hlt
    have hlen := (hJ.isDir (length_encode inum name) h.dir).2
    refine ⟨J, h.written (length_encode inum name) hJ hv' (h.distinct.insert hsame hle hlen hnew habsent),
      ⟨by rw [heff]; rfl, ?_, ⟨_, h.others (length_encode inum name) hJ⟩, ?_,
        fun hr => absurd hr (Option.some_ne_none _)⟩, fun hr => absurd hr (Option.some_ne_none _)⟩
    · rw [heff]
      exact funext (h.distinct.lookup_insert hsame hle hlen Slots.firstFree_free hnew habsent)
    · have hJsize : (J.din n).size = max (I.din n).size (16 * I.freeSlot sb n + 16) := by
        rw [hJ.din, length_encode]
      by_cases hfree : I.freeSlot sb n = I.slots n
      · exact .inr ⟨by omega, fun i hi => Slots.firstFree_eq_len hfree hi⟩
      · exact .inl (by omega)

theorem DirState.fits_remove (h : DirState sb v I dp n) (hs : Sane sb) (hop : v.op ≠ none)
    (hv : v.Room 7 2) :
    Fits (c.resources sb) ((DirOp.remove name).body sb dp)
      (fun r v' => DirDone sb dp n (.remove name) I v.kern r v' ∧ v'.Room 0 2) v := by
  have hsize := h.dir.size_eq
  have hle := h.size_le
  refine runs_bind (h.fits_dirlookup hv (c.resources_reads sb) (c.resources_gets sb (v.setOp none))
    (fun hnone => ?_) fun j m hsome ip k' hk' => ?_)
  · have hmap : I.dirMap sb n (cname name) = none := by
      rw [Image.dirMap, Slots.lookup, hnone]
      rfl
    refine runs_pure ⟨⟨I, h, ⟨hmap.symm, ?_, ⟨0, fun _ _ _ => rfl⟩, .inl rfl, fun _ => rfl⟩,
      fun _ => .refl _⟩, hv.mono (log_le (Nat.zero_le 7))⟩
    change I.dirMap sb n = Function.update (I.dirMap sb n) (cname name) none
    rw [← hmap, Function.update_eq_self]
  · obtain ⟨hj, hslot⟩ := Slots.find_eq_some hsome
    have hin : 16 * j + 16 ≤ (I.din n).size := by omega
    have hmap : I.dirMap sb n (cname name) = some m := by
      rw [Image.dirMap, Slots.lookup, hsome]
      rfl
    have hw : (List.replicate 16 (0 : UInt8)).length = 16 := List.length_replicate
    refine runs_bind ((h.igets hk').fits_writeEntry (m := 0) hs hop (hv.congr rfl rfl rfl) hw
      (le_of_lt hj) (fun _ => c.resources_fills sb) (fun hout => absurd hout (by omega))
      fun _ J v₂ hJ hv₂ hroom => ?_)
    refine Prog.ensures_ite (fun hne => absurd rfl hne) fun _ => ?_
    -- the tables as they would be without the reference
    set k₀ := v.kern.setInode dp { v.kern.inode dp with din := J.din n } with hk₀
    have hv₀ : v.Moves (v₂.setKern k₀) dp n J := ⟨hv₂.content, hv₂.held, rfl, hv₂.op⟩
    have higets : (v₂.setKern k₀).kern.Igets m ip v₂.kern := by
      rw [hv₂.kern]
      exact hk'.setDin h.pos (J.din n)
    have hsame := fun i hi hij => hJ.slot_of_ne hw (i := i) hi hij
    have hlen : J.slots n = I.slots n := by
      rw [(hJ.isDir hw h.dir).2]
      omega
    have hstate : DirState sb (v₂.setKern k₀) J dp n := by
      refine h.written hw hJ hv₀ ?_
      rw [hlen]
      exact h.distinct.erase hsame hJ.slot_zero
    refine fits_putNumber (v := v₂.setKern k₀) higets (hroom.congr rfl rfl rfl) fun k'' hk'' =>
      ⟨⟨J, hstate.alike hk'', ⟨hmap.symm, ?_, ⟨j, h.others hw hJ⟩, .inl ?_,
        fun hr => absurd hr (Option.some_ne_none _)⟩, fun hr => absurd hr (Option.some_ne_none _)⟩,
        hroom.congr rfl rfl rfl⟩
    · rw [Image.dirMap, hlen]
      exact funext (h.distinct.lookup_erase hsame hj hslot hJ.slot_zero)
    · rw [hJ.din, hw]
      change max (I.din n).size (16 * j + 16) = _
      omega

/-- Every operation on a directory below its maximal size does what it does to a map. -/
theorem DirReady.fits_op (h : DirReady sb v I dp n) (hs : Sane sb)
    (hbelow : (I.din n).size < MAXFILE * BSIZE) {op : DirOp} (hop : op.Valid) :
    Fits (c.resources sb) (op.code sb dp) (fun r v' => ∃ J, DirReady sb v' J dp n ∧
      DirStep sb n op I J r ∧ (r = none → v.kern.Alike v'.kern)) v := by
  refine fits_transaction h.clean.idle h.logsize fun hroom => ?_
  have hstate := h.toDirState.setOp (some ∅)
  have hbody : Fits (c.resources sb) (op.body sb dp)
      (fun r v' => DirDone sb dp n op I v.kern r v' ∧ v'.Room 0 2) (v.setOp (some ∅)) := by
    cases op with
    | link name inum =>
      exact hstate.fits_link hs (Option.some_ne_none _) (hroom.mono (log_le (by decide))) hbelow hop.1 hop.2
    | remove name =>
      exact hstate.fits_remove hs (Option.some_ne_none _) (hroom.mono (log_le (by decide)))
    | lookup name => exact hstate.fits_lookup hroom
  refine hbody.mono ?_
  rintro r v' ⟨⟨J, hJ, hstep, halike⟩, hv'⟩
  exact ⟨⟨J, ⟨hJ.setOp none, rfl, hv'.size⟩, hstep, halike⟩, hv'⟩

end steps

/-! ### Runs of operations -/

/-- Operations on directory `dp` one after the other, each on a directory below its maximal size, with
their results. -/
inductive DirRun (sb : Superblock) (c : Caller) (dp : InodeRef) (v₀ : View) :
    List (DirOp × Option ℕ) → View → Prop
  | start : DirRun sb c dp v₀ [] v₀
  | step {es : List (DirOp × Option ℕ)} {v v' : View} {op : DirOp} {r : Option ℕ}
      (h : DirRun sb c dp v₀ es v) (hbelow : (v.kern.inode dp).din.size < MAXFILE * BSIZE)
      (hop : op.Valid) (hr : Prog.Reaches (vsem c) (op.code sb dp) v (.ret r) v') :
      DirRun sb c dp v₀ (es ++ [(op, r)]) v'

/-- What a key was last linked to, if it has not been removed since; `x` is what it was before. -/
def lastLink (key : List UInt8) (x : Option ℕ) (es : List (DirOp × Option ℕ)) : Option ℕ :=
  es.foldl (fun cur e => match e with
    | (.link name _, some inum) => if cname name = key then some inum else cur
    | (.remove name, some _) => if cname name = key then none else cur
    | _ => cur) x

theorem lastLink_append (key : List UInt8) (x : Option ℕ) (es : List (DirOp × Option ℕ))
    (e : DirOp × Option ℕ) : lastLink key x (es ++ [e]) = lastLink key (lastLink key x es) [e] := by
  simp only [lastLink, List.foldl_append]

/-- One operation, seen from a key. -/
theorem DirStep.lastLink {op : DirOp} {r : Option ℕ} (h : DirStep sb n op I J r) (key : List UInt8) :
    J.dirMap sb n key = lastLink key (I.dirMap sb n key) [(op, r)] := by
  rw [h.map, h.result]
  cases op with
  | link name inum =>
    simp only [DirOp.effect]
    by_cases habsent : I.dirMap sb n (cname name) = none
    · rw [if_pos habsent]
      by_cases hkey : cname name = key
      · simp [Fs.lastLink, hkey]
      · simp [Fs.lastLink, hkey, Function.update_of_ne (Ne.symm hkey)]
    · rw [if_neg habsent]
      rfl
  | remove name =>
    simp only [DirOp.effect]
    by_cases hkey : cname name = key
    · subst hkey
      cases hm : I.dirMap sb n (cname name) <;> simp [Fs.lastLink]
    · rw [Function.update_of_ne (Ne.symm hkey)]
      cases I.dirMap sb n (cname name) <;> simp [Fs.lastLink, hkey]
  | lookup name => rfl

/-- **Directories refine finite maps.** After any operations a name has the inode number it was last
linked to, and none if it has been removed since; no two entries have the same name, and the size is a
multiple of 16. The next operation returns, unless there is no free block or no free entry in the table of
inodes when it needs one, and does what it does to the map; it changes one entry at most, and the directory
grows only if there is no free entry. `dirlink` fails if and only if the name is there, and if an
operation fails nothing changes. -/
theorem directories_refine_maps (hs : Sane sb) (c : Caller) {v₀ : View} {I₀ : Image}
    (h : DirReady sb v₀ I₀ dp n) {es : List (DirOp × Option ℕ)} (hrun : DirRun sb c dp v₀ es v) :
    ∃ I, DirReady sb v I dp n ∧
      (∀ name, I.lookup sb n name = lastLink (cname name) (I₀.lookup sb n name) es) ∧
      ∀ op : DirOp, op.Valid → (I.din n).size < MAXFILE * BSIZE →
        Fits (c.resources sb) (op.code sb dp) (fun r v' => ∃ J, DirReady sb v' J dp n ∧
          DirStep sb n op I J r ∧ (r = none → v.kern.Alike v'.kern) ∧
          ∀ name inum, op = .link name inum → (r = none ↔ I.lookup sb n name ≠ none)) v := by
  suffices hall : ∃ I, DirReady sb v I dp n ∧
      ∀ key, I.dirMap sb n key = lastLink key (I₀.dirMap sb n key) es by
    obtain ⟨I, hI, hmap⟩ := hall
    refine ⟨I, hI, fun name => hmap _, fun op hop hbelow => (hI.fits_op hs hbelow hop).mono ?_⟩
    rintro r v' ⟨J, hJ, hstep, halike⟩
    refine ⟨J, hJ, hstep, halike, ?_⟩
    rintro name inum rfl
    exact hstep.link_fails
  induction hrun with
  | start => exact ⟨I₀, h, fun _ => rfl⟩
  | step _ hbelow hop hr ih =>
    obtain ⟨I, hI, hmap⟩ := ih
    rw [hI.din] at hbelow
    have hstep : Fits (c.resources sb) (.ret _) _ _ :=
      Prog.Ensures.reaches (hI.fits_op (c := c) hs hbelow hop) hr
    obtain ⟨J, hJ, hstep, -⟩ := hstep
    refine ⟨J, hJ, fun key => ?_⟩
    rw [lastLink_append, ← hmap, hstep.lastLink]

theorem smallView_dirReady : DirReady smallSb (smallView none) smallImage ⟨0, by decide⟩ 1 where
  clean := smallView_clean _
  pos := show (0 : ℤ) < 1 by decide
  valid := rfl
  inum := rfl
  dir := by
    have hdin : smallImage.din 1 = blankDinode T_DIR := smallImage_din (by decide)
    refine ⟨⟨show 1 < 64 by decide, ?_⟩, ?_, ?_⟩ <;> rw [hdin]
    · exact show T_DIR ≠ 0 by decide
    · rfl
    · exact Nat.dvd_zero 16
  outside := rfl
  logsize := show (maxLogged : ℤ) + 2 ≤ 31 by decide
  distinct i j k x y hi := by
    have hdin : smallImage.din 1 = blankDinode T_DIR := smallImage_din (by decide)
    rw [Image.slots, hdin] at hi
    exact absurd hi (Nat.not_lt_zero i)

/-- In the empty directory a name is linked. Then it is found, and cannot be linked again. -/
theorem directories_refine_maps_small :
    ∃ v J, (smallCaller 120 8 (by decide)).exec ((DirOp.link [97] 2).code smallSb ⟨0, by decide⟩)
        (smallView none) = .returned (some 2) v ∧
      DirReady smallSb v J ⟨0, by decide⟩ 1 ∧ J.lookup smallSb 1 [97] = some 2 ∧
      Fits ((smallCaller 120 8 (by decide)).resources smallSb)
        ((DirOp.lookup [97]).code smallSb ⟨0, by decide⟩) (fun r _ => r = some 2) v ∧
      Fits ((smallCaller 120 8 (by decide)).resources smallSb)
        ((DirOp.link [97] 3).code smallSb ⟨0, by decide⟩) (fun r _ => r = none) v := by
  obtain ⟨_, v, hv, rfl, hdin⟩ := Returns.exists (o := (smallCaller 120 8 (by decide)).exec
    ((DirOp.link [97] 2).code smallSb ⟨0, by decide⟩) (smallView none))
    (P := fun r (v : View) => r = some 2 ∧ (v.kern.inode ⟨0, by decide⟩).din.size < MAXFILE * BSIZE)
    (by decide +kernel)
  have hrun : DirRun smallSb (smallCaller 120 8 (by decide)) ⟨0, by decide⟩ (smallView none)
      [(.link [97] 2, some 2)] v :=
    DirRun.start.step (by decide) ⟨by decide, by decide⟩ (Prog.Reaches.of_run vexec_sound .refl hv)
  obtain ⟨J, hJ, hlookup, hnext⟩ := directories_refine_maps smallSb_sane
    (smallCaller 120 8 (by decide)) smallView_dirReady hrun
  have hfound : J.lookup smallSb 1 [97] = some 2 := hlookup [97]
  have hsize : (J.din 1).size < MAXFILE * BSIZE := hJ.din ▸ hdin
  refine ⟨v, J, hv, hJ, hfound, (hnext (.lookup [97]) trivial hsize).mono ?_,
    (hnext (.link [97] 3) ⟨by decide, by decide⟩ hsize).mono ?_⟩
  · rintro r v' ⟨K, -, hstep, -⟩
    exact hstep.result.trans hfound
  · rintro r v' ⟨K, -, -, -, hfails⟩
    rw [hfails [97] 3 rfl, hfound]
    exact Option.some_ne_none _

end Xv6.Fs
