import Xv6.Fs.ReadWrite

/-!
# The tables and the disk agree

`Clean` is what holds between the steps of a system call: the image is that of the disk, the inodes in
use in memory are those of the image, and no inode is in the table twice. `ilock` reads the inode if it
is not valid; a write by the holder of the lock ends clean again.
-/

namespace Xv6.Fs

open Lib Block

variable {sb : Superblock} {μ : Mode} {v v' : View} {I J : Image} {n : ℕ} {ip : InodeRef}

/-- The view is that of the image, no buffer is held, and the inodes in memory are those on disk. -/
structure Clean (sb : Superblock) (v : View) (I : Image) : Prop where
  wf : I.Wf sb
  content : v.content = I.content
  idle : v.Idle
  disk : ∀ n, n < sb.ninodes → I.OnDisk sb n
  ref : ∀ i, 0 ≤ (v.kern.inode i).ref
  dev : ∀ i, 0 < (v.kern.inode i).ref → (v.kern.inode i).dev = ROOTDEV
  cached : ∀ i, 0 < (v.kern.inode i).ref → (v.kern.inode i).valid →
    (v.kern.inode i).din = I.din (v.kern.inode i).inum ∧ I.Allocated sb (v.kern.inode i).inum
  uniq : ∀ i j, 0 < (v.kern.inode i).ref → 0 < (v.kern.inode j).ref →
    (v.kern.inode i).inum = (v.kern.inode j).inum → i = j

@[simp] theorem Kern.setInode_self' (k : Kern) (ip : InodeRef) (x : Inode) :
    (k.setInode ip x).inode ip = x := by simp [Kern.setInode]

theorem Kern.setInode_of_ne (k : Kern) {ip j : InodeRef} (x : Inode) (h : j ≠ ip) :
    (k.setInode ip x).inode j = k.inode j := by simp [Kern.setInode, h]

@[simp] theorem Kern.setInode_setInode (k : Kern) (ip : InodeRef) (x y : Inode) :
    (k.setInode ip x).setInode ip y = k.setInode ip y := by simp [Kern.setInode]

namespace Clean

theorem setInode (h : Clean sb v I) {x : Inode} (href : 0 ≤ x.ref)
    (hdev : 0 < x.ref → x.dev = ROOTDEV)
    (hcached : 0 < x.ref → x.valid → x.din = I.din x.inum ∧ I.Allocated sb x.inum)
    (huniq : 0 < x.ref → ∀ j, j ≠ ip → 0 < (v.kern.inode j).ref → (v.kern.inode j).inum ≠ x.inum) :
    Clean sb (v.setKern (v.kern.setInode ip x)) I := by
  have hother : ∀ j, j ≠ ip → (v.kern.setInode ip x).inode j = v.kern.inode j :=
    fun j hj => v.kern.setInode_of_ne x hj
  refine ⟨h.wf, h.content, h.idle, h.disk, fun i => ?_, fun i => ?_, fun i => ?_, fun i j => ?_⟩
  · rw [View.setKern_kern]
    by_cases hi : i = ip
    · rwa [hi, Kern.setInode_self']
    · rw [hother i hi]
      exact h.ref i
  · rw [View.setKern_kern]
    by_cases hi : i = ip
    · rwa [hi, Kern.setInode_self']
    · rw [hother i hi]
      exact h.dev i
  · rw [View.setKern_kern]
    by_cases hi : i = ip
    · rwa [hi, Kern.setInode_self']
    · rw [hother i hi]
      exact h.cached i
  · rw [View.setKern_kern]
    intro hri hrj he
    by_cases hi : i = ip
    · by_cases hj : j = ip
      · rw [hi, hj]
      · rw [hi, Kern.setInode_self', hother j hj] at he
        rw [hi, Kern.setInode_self'] at hri
        rw [hother j hj] at hrj
        exact absurd he.symm (huniq hri j hj hrj)
    · by_cases hj : j = ip
      · rw [hj, Kern.setInode_self', hother i hi] at he
        rw [hj, Kern.setInode_self'] at hrj
        rw [hother i hi] at hri
        exact absurd he (huniq hrj i hi hri)
      · rw [hother i hi] at hri he
        rw [hother j hj] at hrj he
        exact h.uniq i j hri hrj he

/-- An inode in memory that keeps its number: its lock, its count, or what has been read of it. -/
theorem update (h : Clean sb v I) (hpos : 0 < (v.kern.inode ip).ref) {x : Inode} (href : 0 ≤ x.ref)
    (hdev : x.dev = (v.kern.inode ip).dev) (hinum : x.inum = (v.kern.inode ip).inum)
    (hcached : x.valid → x.din = I.din x.inum ∧ I.Allocated sb x.inum) :
    Clean sb (v.setKern (v.kern.setInode ip x)) I := by
  refine h.setInode href (fun _ => ?_) (fun _ => hcached) fun _ j hj hjpos he => ?_
  · rw [hdev]
    exact h.dev ip hpos
  · exact hj (h.uniq j ip hjpos hpos (he.trans hinum))

theorem allocated (h : Clean sb v I) (hpos : 0 < (v.kern.inode ip).ref)
    (hvalid : (v.kern.inode ip).valid) : I.Allocated sb (v.kern.inode ip).inum :=
  (h.cached ip hpos hvalid).2

/-- The operation on the log is not part of it. -/
theorem setOp (h : Clean sb v I) (o : Option (Finset ℕ)) : Clean sb (v.setOp o) I :=
  ⟨h.wf, h.content, h.idle, h.disk, h.ref, h.dev, h.cached, h.uniq⟩

/-- The files and processes are not part of it. -/
theorem congr_inode (h : Clean sb v I) {k : Kern} (hk : k.inode = v.kern.inode) :
    Clean sb (v.setKern k) I := by
  refine ⟨h.wf, h.content, h.idle, h.disk, ?_, ?_, ?_, ?_⟩ <;> simp only [View.setKern_kern, hk]
  · exact h.ref
  · exact h.dev
  · exact h.cached
  · exact h.uniq

/-- The image changes, and with it the inode `ip` in memory. -/
theorem moves (h : Clean sb v I) (hpos : 0 < (v.kern.inode ip).ref)
    (hnum : (v.kern.inode ip).inum = n) (hw : J.Wf sb) (hdin : ∀ m, m ≠ n → J.din m = I.din m)
    (hn : J.Allocated sb n) (hdisk : ∀ m, m < sb.ninodes → J.OnDisk sb m)
    (hv : v.Moves v' ip n J) : Clean sb v' J := by
  have hip : v'.kern.inode ip = { v.kern.inode ip with din := J.din n } := hv.inode
  have hother : ∀ j, j ≠ ip → v'.kern.inode j = v.kern.inode j := by
    intro j hj
    rw [hv.kern, Kern.setInode_of_ne _ _ hj]
  have hsame : ∀ j, (v'.kern.inode j).ref = (v.kern.inode j).ref ∧
      (v'.kern.inode j).inum = (v.kern.inode j).inum ∧ (v'.kern.inode j).dev = (v.kern.inode j).dev ∧
      (v'.kern.inode j).valid = (v.kern.inode j).valid := by
    intro j
    by_cases hj : j = ip
    · rw [hj, hip]
      exact ⟨rfl, rfl, rfl, rfl⟩
    · rw [hother j hj]
      exact ⟨rfl, rfl, rfl, rfl⟩
  refine ⟨hw, hv.content, hv.idle h.idle, hdisk, fun i => ?_, fun i hi => ?_, fun i hi hval => ?_,
    fun i j hi hj he => ?_⟩
  · rw [(hsame i).1]
    exact h.ref i
  · rw [(hsame i).1] at hi
    rw [(hsame i).2.2.1]
    exact h.dev i hi
  · rw [(hsame i).1] at hi
    rw [(hsame i).2.2.2] at hval
    by_cases hiip : i = ip
    · rw [hiip, hip]
      rw [hnum]
      exact ⟨rfl, hn⟩
    · have hne : (v.kern.inode i).inum ≠ n := fun he => hiip (h.uniq i ip hi hpos (he.trans hnum.symm))
      rw [hother i hiip, hdin _ hne]
      obtain ⟨hcached, hal⟩ := h.cached i hi hval
      exact ⟨hcached, hal.1, by rw [hdin _ hne]; exact hal.2⟩
  · rw [(hsame i).1] at hi
    rw [(hsame j).1] at hj
    rw [(hsame i).2.1, (hsame j).2.1] at he
    exact h.uniq i j hi hj he

theorem written (h : Clean sb v I) (hpos : 0 < (v.kern.inode ip).ref)
    (hnum : (v.kern.inode ip).inum = n) (hn : I.Allocated sb n) {off : ℕ} {w x : List UInt8}
    (hJ : Image.Written sb n I J off w x) (hv : v.Moves v' ip n J) : Clean sb v' J := by
  refine h.moves hpos hnum hJ.wf (fun m hm => (hJ.others m hm).din) ?_ (fun m hm => ?_) hv
  · exact ⟨hn.1, by rw [hJ.din]; exact hn.2⟩
  · by_cases hmn : m = n
    · rw [hmn]
      exact hJ.disk
    · exact hJ.disks m hmn hm (h.disk m hm)

end Clean

/-! ### Locks -/

/-- An inode in memory that process `t` has locked, and that has been read. -/
def Inode.locked (x : Inode) (t : Slot) (d : Dinode) : Inode :=
  { x with lock := some t, valid := true, din := d }

variable {Q : Unit → View → Prop}

theorem runs_iread (hidle : v.Idle) (htype : (dinodeAt sb v.content n).type ≠ 0)
    (h : Q () (v.setKern (v.kern.setInode ip
      { v.kern.inode ip with din := dinodeAt sb v.content n, valid := true }))) :
    Runs μ (iread sb ip n) Q v := by
  refine runs_read (hidle.clear _) fun i hi => runs_bind (runs_setDinode ?_)
  rw [View.setKern_hold]
  refine runs_drop (v := v.setKern _) hi (runs_bind (runs_setValid ?_))
  simp only [View.setKern_kern, View.setKern_setKern, View.hold_kern, Kern.setInode_self',
    Kern.setInode_setInode]
  exact Prog.ensures_ite (fun h0 => absurd h0 htype) fun _ => runs_pure h

/-- `ilock` of an inode that is in use. -/
theorem runs_ilock (hc : Clean sb v I) (hpos : 0 < (v.kern.inode ip).ref)
    (hnum : (v.kern.inode ip).inum = n) (hn : I.Allocated sb n)
    (hfree : μ.live → (v.kern.inode ip).lock = none)
    (h : ∀ v', v' = v.setKern (v.kern.setInode ip ((v.kern.inode ip).locked μ.slot (I.din n))) →
      Q () v') : Runs μ (ilock sb ip) Q v := by
  refine runs_bind (runs_ref ?_)
  rw [if_neg (by omega)]
  refine runs_bind (runs_acquiresleep hfree fun _ => runs_bind (runs_inode ?_))
  rw [View.setKern_kern, Kern.setInode_self']
  refine Prog.ensures_when (fun hinv => ?_) fun hval => ?_
  · -- the inode is read from disk
    have hdin : dinodeAt sb v.content n = I.din n := by
      rw [hc.content]
      exact (hc.disk n hn.1).symm
    refine runs_iread (n := (v.kern.inode ip).inum) (v := v.setKern (v.kern.setInode ip
      { v.kern.inode ip with lock := some μ.slot })) hc.idle ?_ ?_
    · rw [hnum, View.setKern_content, hdin]
      exact hn.2
    · rw [hnum, View.setKern_content, hdin, View.setKern_kern, Kern.setInode_self',
        View.setKern_setKern, Kern.setInode_setInode]
      exact h _ rfl
  · have hval : (v.kern.inode ip).valid := by simpa using hval
    have hdin := (hc.cached ip hpos hval).1
    rw [hnum] at hdin
    have hx : { v.kern.inode ip with lock := some μ.slot } =
        (v.kern.inode ip).locked μ.slot (I.din n) := by
      unfold Inode.locked
      rw [← hdin, ← hval]
    rw [hx]
    exact h _ rfl

theorem Clean.locked (hc : Clean sb v I) (hpos : 0 < (v.kern.inode ip).ref)
    (hnum : (v.kern.inode ip).inum = n) (hn : I.Allocated sb n) (t : Slot) :
    Clean sb (v.setKern (v.kern.setInode ip ((v.kern.inode ip).locked t (I.din n)))) I := by
  refine hc.update hpos (le_of_lt hpos) rfl rfl fun _ => ⟨?_, ?_⟩
  · change I.din n = I.din (v.kern.inode ip).inum
    rw [hnum]
  · change I.Allocated sb (v.kern.inode ip).inum
    rwa [hnum]

theorem runs_iunlock (hpos : 0 < (v.kern.inode ip).ref)
    (hlock : (v.kern.inode ip).lock = some μ.slot)
    (h : ∀ v', v' = v.setKern (v.kern.setInode ip { v.kern.inode ip with lock := none }) →
      Q () v') : Runs μ (iunlock ip) Q v := by
  refine runs_bind (runs_holdingsleep (runs_bind (runs_ref ?_)))
  refine Prog.ensures_ite (fun hbad => ?_) fun _ => runs_releasesleep (h _ rfl)
  simp only [hlock, decide_true, Bool.true_eq_false, false_or] at hbad
  omega

theorem Clean.setLock (hc : Clean sb v I) (hpos : 0 < (v.kern.inode ip).ref) (o : Option Slot) :
    Clean sb (v.setKern (v.kern.setInode ip { v.kern.inode ip with lock := o })) I :=
  hc.update hpos (le_of_lt hpos) rfl rfl fun hval => hc.cached ip hpos hval

/-! ### A small file system -/

/-- An inode without blocks. -/
def blankDinode (type : ℕ) : Dinode := ⟨type, 0, 0, 1, 0, fun _ => 0⟩

theorem blankDinode_fits {type : ℕ} (h : type < 2 ^ 16) : (blankDinode type).Fits :=
  ⟨h, Nat.two_pow_pos 16, Nat.two_pow_pos 16, Nat.one_lt_two_pow (by decide), Nat.two_pow_pos 32,
    fun _ => Nat.two_pow_pos 32⟩

/-- A disk with the inode of the root directory and that of a file, both empty. The first 48 blocks are
marked. -/
def smallContent : ℕ → Data := fun b =>
  if b = 33 then putDinode (putDinode (fun _ => 0) 1 (blankDinode T_DIR)) 2 (blankDinode T_FILE)
  else if b = 40 then fun i => if i.val < 6 then 255 else 0
  else fun _ => 0

/-- The image of that disk. -/
def smallImage : Image := ⟨smallContent, dinodeAt smallSb smallContent⟩

theorem smallImage_din {n : ℕ} (hn : n < 64) :
    smallImage.din n = if n = 1 then blankDinode T_DIR else if n = 2 then blankDinode T_FILE
      else Dinode.zero := by
  have hzero : getDinode (fun _ => 0) (n % IPB) = Dinode.zero := by
    have hload : ∀ a k, Bytes.load (Data.bytes fun _ => 0) a k = 0 :=
      fun a k => Bytes.load_zero fun x _ _ => by simp [Data.bytes]
    exact Dinode.ext' (hload _ _) (hload _ _) (hload _ _) (hload _ _) (hload _ _) fun _ => hload _ _
  have hblock : IBLOCK n smallSb = n / 16 + 33 := rfl
  change getDinode (smallContent (IBLOCK n smallSb)) (n % IPB) = _
  by_cases hlt : n < 16
  · have hcontent : smallContent (IBLOCK n smallSb) =
        putDinode (putDinode (fun _ => 0) 1 (blankDinode T_DIR)) 2 (blankDinode T_FILE) :=
      if_pos (by rw [hblock, Nat.div_eq_of_lt hlt])
    have hself : n % IPB = n := Nat.mod_eq_of_lt hlt
    rw [hself] at hzero
    rw [hcontent, hself]
    by_cases h1 : n = 1
    · rw [if_pos h1, h1, getDinode_putDinode_of_ne (by decide) (by decide)]
      exact getDinode_putDinode_self (by decide) (blankDinode_fits (by decide))
    · by_cases h2 : n = 2
      · rw [if_neg h1, if_pos h2, h2]
        exact getDinode_putDinode_self (by decide) (blankDinode_fits (by decide))
      · rw [if_neg h1, if_neg h2, getDinode_putDinode_of_ne (fun h => h2 h.symm) hlt,
          getDinode_putDinode_of_ne (fun h => h1 h.symm) hlt, hzero]
  · have hcontent : smallContent (IBLOCK n smallSb) = fun _ => 0 := by
      unfold smallContent
      rw [if_neg (by omega), if_neg (by omega)]
    rw [hcontent, hzero, if_neg (by omega), if_neg (by omega)]

theorem smallImage_place (n : ℕ) (p : Part) : smallImage.place smallSb n p = 0 := by
  unfold Image.place
  split
  · rename_i hal
    have haddrs : (smallImage.din n).addrs = fun _ => 0 := by
      rw [smallImage_din hal.1]
      split
      · rfl
      · split <;> rfl
    cases p <;> simp [Dinode.at, haddrs]
  · rfl

theorem smallImage_wf : smallImage.Wf smallSb where
  fits n := getDinode_fits _ _
  reserved b hb := by
    have hlt := smallSb_reserved hb
    have hall : ∀ b, b < 48 → isSet (fun i => if i.val < 6 then 255 else 0) b = true := by decide +kernel
    have hblock : BBLOCK b smallSb = 40 := by
      unfold BBLOCK smallSb
      simp only [BPB, BSIZE]
      omega
    unfold Image.Marked
    rw [hblock, Nat.mod_eq_of_lt (by simp only [BPB, BSIZE]; omega)]
    exact hall b hlt
  used n p h := absurd (smallImage_place n p) h
  inj n p _ _ h _ := absurd (smallImage_place n p) h
  size n hal := by
    rw [smallImage_din hal.1]
    split
    · exact Nat.zero_le _
    · split <;> exact Nat.zero_le _
  noHoles n bn hal hbn := by
    have hsize : (smallImage.din n).size = 0 := by
      rw [smallImage_din hal.1]
      split
      · rfl
      · split <;> rfl
    rw [hsize] at hbn
    exact absurd hbn (Nat.not_lt_zero _)

/-- The tables of a process that has opened the file; its current directory is the root directory. -/
def smallKern : Kern where
  inode i :=
    if i = ⟨0, NINODE_pos⟩ then ⟨ROOTDEV, ROOTINO, 1, none, true, blankDinode T_DIR⟩
    else if i = ⟨1, by decide⟩ then ⟨ROOTDEV, 2, 1, none, true, blankDinode T_FILE⟩
    else ⟨0, 0, 0, none, false, Dinode.zero⟩
  file f :=
    if f = ⟨0, by decide⟩ then ⟨.FD_INODE, 1, true, true, 0, some ⟨1, by decide⟩, 0, 0⟩
    else ⟨.FD_NONE, 0, false, false, 0, none, 0, 0⟩
  proc t :=
    if t = ⟨0, NPROC_pos⟩ then ⟨.runnable, none, fun fd =>
      if fd = ⟨0, by decide⟩ then some ⟨0, by decide⟩ else none, some ⟨0, NINODE_pos⟩⟩
    else ⟨.unused, none, fun _ => none, none⟩
  initproc := ⟨0, NPROC_pos⟩

/-- What that process sees, in a transaction or not. -/
def smallView (o : Option (Finset ℕ)) : View := ⟨⟨smallContent, fun _ => none, o, smallSb.logSize⟩, smallKern⟩

theorem smallKern_ref {i : InodeRef} (h : 0 < (smallKern.inode i).ref) :
    i = ⟨0, by decide⟩ ∨ i = ⟨1, by decide⟩ := by
  by_contra hne
  rw [not_or] at hne
  simp [smallKern, hne.1, hne.2] at h

theorem smallView_clean (o : Option (Finset ℕ)) : Clean smallSb (smallView o) smallImage where
  wf := smallImage_wf
  content := rfl
  idle _ := rfl
  disk _ _ := rfl
  ref i := by
    change 0 ≤ (smallKern.inode i).ref
    unfold smallKern
    dsimp only
    split
    · decide
    · split <;> decide
  dev i h := by rcases smallKern_ref h with rfl | rfl <;> rfl
  cached i h _ := by
    have htypes : T_DIR ≠ 0 ∧ T_FILE ≠ 0 := by decide
    rcases smallKern_ref h with rfl | rfl
    · have hdin : smallImage.din 1 = blankDinode T_DIR := smallImage_din (by decide)
      exact ⟨hdin.symm, show 1 < 64 by decide,
        fun h0 => htypes.1 ((congrArg Dinode.type hdin).symm.trans h0)⟩
    · have hdin : smallImage.din 2 = blankDinode T_FILE := smallImage_din (by decide)
      exact ⟨hdin.symm, show 2 < 64 by decide,
        fun h0 => htypes.2 ((congrArg Dinode.type hdin).symm.trans h0)⟩
  uniq i j hi hj he := by
    rcases smallKern_ref hi with rfl | rfl <;> rcases smallKern_ref hj with rfl | rfl
    · rfl
    · exact absurd he (show (1 : ℕ) ≠ 2 by decide)
    · exact absurd he (show (2 : ℕ) ≠ 1 by decide)
    · rfl

end Xv6.Fs
