import Xv6.Fs.Clean

/-!
# The table of inodes

`iget` finds the entry of an inode that is in the table, or takes a free entry; `iput` drops a reference,
and frees the inode if nothing refers to it any more. The entries that are in use keep their inodes.
-/

namespace Xv6.Fs

open Lib Block

variable {sb : Superblock} {μ : Mode} {v v' : View} {I J : Image} {n : ℕ} {i j ip : InodeRef}
  {k k' : Kern}

/-! ### `iget` -/

/-- `iget` of inode `n` gives entry `i`, and the tables `k'`. -/
inductive Kern.Igets (k : Kern) (n : ℕ) : InodeRef → Kern → Prop
  /-- It is in the table. -/
  | found {i : InodeRef} (hpos : 0 < (k.inode i).ref) (hdev : (k.inode i).dev = ROOTDEV)
      (hinum : (k.inode i).inum = n) : k.Igets n i (k.addRef i 1)
  /-- It is not, and there is a free entry. -/
  | new {i : InodeRef} (hnone : ∀ j, 0 < (k.inode j).ref → (k.inode j).dev = ROOTDEV →
      (k.inode j).inum ≠ n) (hfree : (k.inode i).ref = 0) :
      k.Igets n i (k.setInode i { k.inode i with dev := ROOTDEV, inum := n, ref := 1, valid := false })

theorem Kern.igets_of_iget (h : k.iget ROOTDEV n = (some i, k')) : k.Igets n i k' := by
  unfold Kern.iget at h
  split at h
  · rename_i j hj
    obtain ⟨hi, rfl⟩ := Prod.mk.inj h
    obtain rfl : j = i := Option.some.inj hi
    have := List.find?_some hj
    simp only [decide_eq_true_eq] at this
    exact .found this.1 this.2.1 this.2.2
  · rename_i hnone
    split at h
    · rename_i j hj
      obtain ⟨hi, rfl⟩ := Prod.mk.inj h
      obtain rfl : j = i := Option.some.inj hi
      have hfree := List.find?_some hj
      refine .new (fun l hpos hdev hinum => ?_) (by simpa using hfree)
      have := List.find?_eq_none.mp hnone l (List.mem_finRange l)
      simp only [decide_eq_true_eq] at this
      exact this ⟨hpos, hdev, hinum⟩
    · cases h

/-- No entry of the table of inodes is free. -/
def Kern.NoInode (k : Kern) : Prop := ∀ j, (k.inode j).ref ≠ 0

/-- Code may panic when it needs an entry of the table of inodes and none is free. -/
def Mode.Gets (μ : Mode) : Prop := ∀ v : View, v.kern.NoInode → μ.panics "iget: no inodes" v

/-- `iget` finds no entry only if none is free, and changes nothing then. -/
theorem Kern.iget_eq_none (h : k.iget ROOTDEV n = (none, k')) : k' = k ∧ k.NoInode := by
  unfold Kern.iget at h
  split at h
  · cases h
  · split at h
    · cases h
    · rename_i hnone
      cases h
      refine ⟨rfl, fun j => ?_⟩
      have := List.find?_eq_none.mp hnone j (List.mem_finRange j)
      simpa using this

theorem Kern.addRef_self (k : Kern) (i : InodeRef) (m : ℤ) :
    (k.addRef i m).inode i = { k.inode i with ref := (k.inode i).ref + m } := Kern.setInode_self' ..

theorem Kern.addRef_of_ne (k : Kern) (m : ℤ) (h : j ≠ i) : (k.addRef i m).inode j = k.inode j :=
  Kern.setInode_of_ne _ _ h

namespace Kern.Igets

theorem file (h : k.Igets n i k') : k'.file = k.file := by cases h <;> rfl

theorem proc (h : k.Igets n i k') : k'.proc = k.proc := by cases h <;> rfl

theorem initproc (h : k.Igets n i k') : k'.initproc = k.initproc := by cases h <;> rfl

theorem inum (h : k.Igets n i k') : (k'.inode i).inum = n := by
  cases h with
  | found hpos hdev hinum =>
    rw [Kern.addRef_self]
    exact hinum
  | new hnone hfree => rw [Kern.setInode_self']

/-- The other entries are as before. -/
theorem of_ne (h : k.Igets n i k') (hj : j ≠ i) : k'.inode j = k.inode j := by
  cases h with
  | found => exact Kern.addRef_of_ne k 1 hj
  | new => exact Kern.setInode_of_ne _ _ hj

theorem lock (h : k.Igets n i k') (j : InodeRef) : (k'.inode j).lock = (k.inode j).lock := by
  by_cases hj : j = i
  · subst hj
    cases h with
    | found => rw [Kern.addRef_self]
    | new => rw [Kern.setInode_self']
  · rw [h.of_ne hj]

theorem ref_self (h : k.Igets n i k') : (k'.inode i).ref = (k.inode i).ref + 1 := by
  cases h with
  | found => rw [Kern.addRef_self]
  | new hnone hfree =>
    rw [Kern.setInode_self', hfree]
    rfl

theorem keeps (h : k.Igets n i k') (hpos : 0 < (k.inode j).ref) :
    (k'.inode j).inum = (k.inode j).inum ∧ (k'.inode j).valid = (k.inode j).valid := by
  by_cases hj : j = i
  · subst hj
    cases h with
    | found =>
      rw [Kern.addRef_self]
      exact ⟨rfl, rfl⟩
    | new hnone hfree =>
      rw [hfree] at hpos
      exact absurd hpos (lt_irrefl 0)
  · rw [h.of_ne hj]
    exact ⟨rfl, rfl⟩

theorem ref_le (h : k.Igets n i k') (j : InodeRef) : (k.inode j).ref ≤ (k'.inode j).ref := by
  by_cases hj : j = i
  · rw [hj, h.ref_self]
    omega
  · rw [h.of_ne hj]

theorem setDin (h : k.Igets n i k') (hpos : 0 < (k.inode j).ref) (d : Dinode) :
    (k.setInode j { k.inode j with din := d }).Igets n i
      (k'.setInode j { k'.inode j with din := d }) := by
  have hcomm : ∀ x y : Inode, i ≠ j → (k.setInode i x).setInode j y = (k.setInode j y).setInode i x := by
    intro x y hij
    simp only [Kern.setInode]
    rw [Function.update_comm hij.symm]
  cases h with
  | found hposi hdev hinum =>
    have htab : (k.addRef i 1).setInode j { (k.addRef i 1).inode j with din := d } =
        (k.setInode j { k.inode j with din := d }).addRef i 1 := by
      by_cases hij : i = j
      · subst hij
        simp only [Kern.addRef, Kern.setInode_self', Kern.setInode_setInode]
      · rw [Kern.addRef_of_ne _ _ (Ne.symm hij), Kern.addRef, Kern.addRef, hcomm _ _ hij,
          Kern.setInode_of_ne _ _ hij]
    rw [htab]
    by_cases hij : i = j
    · subst hij
      exact .found (by rwa [Kern.setInode_self']) (by rwa [Kern.setInode_self'])
        (by rwa [Kern.setInode_self'])
    · refine .found ?_ ?_ ?_ <;> rwa [Kern.setInode_of_ne _ _ hij]
  | new hnone hfree =>
    have hij : i ≠ j := by
      rintro rfl
      omega
    rw [Kern.setInode_of_ne _ _ (Ne.symm hij), hcomm _ _ hij]
    have hi : (k.setInode j { k.inode j with din := d }).inode i = k.inode i :=
      Kern.setInode_of_ne _ _ hij
    rw [← hi]
    refine .new (fun l hl => ?_) (by rw [hi]; exact hfree)
    by_cases hlj : l = j
    · subst hlj
      rw [Kern.setInode_self'] at hl ⊢
      exact hnone l hl
    · rw [Kern.setInode_of_ne _ _ hlj] at hl ⊢
      exact hnone l hl

end Kern.Igets

theorem Clean.igets (hc : Clean sb v I) (h : v.kern.Igets n i k') : Clean sb (v.setKern k') I := by
  cases h with
  | found hpos hdev hinum =>
    exact hc.update hpos (by change 0 ≤ (v.kern.inode i).ref + 1; omega) rfl rfl
      fun hval => hc.cached i hpos hval
  | new hnone hfree =>
    refine hc.setInode Int.one_nonneg (fun _ => rfl) (fun _ hval => absurd hval (by simp))
      fun _ j hj hpos => ?_
    exact hnone j hpos (hc.dev j hpos)

theorem runs_iget_igets {Q : InodeRef → View → Prop}
    (hE : v.kern.NoInode → μ.panics "iget: no inodes" v)
    (h : ∀ i k', v.kern.Igets n i k' → Q i (v.setKern k')) : Runs μ (iget ROOTDEV n) Q v := by
  refine runs_bind (runs_iget ?_)
  cases hr : v.kern.iget ROOTDEV n with
  | mk r k' =>
    cases r with
    | none =>
      obtain ⟨rfl, hno⟩ := Kern.iget_eq_none hr
      exact runs_panic (hE hno)
    | some i => exact runs_pure (h i k' (Kern.igets_of_iget hr))

/-! ### A reference taken and dropped -/

/-- The same tables, but for entries that are not in use. -/
structure Kern.Alike (k k' : Kern) : Prop where
  file : k'.file = k.file
  proc : k'.proc = k.proc
  initproc : k'.initproc = k.initproc
  ref : ∀ j, (k'.inode j).ref = (k.inode j).ref
  lock : ∀ j, (k'.inode j).lock = (k.inode j).lock
  inode : ∀ j, 0 < (k.inode j).ref → k'.inode j = k.inode j

theorem Kern.Alike.refl (k : Kern) : k.Alike k :=
  ⟨rfl, rfl, rfl, fun _ => rfl, fun _ => rfl, fun _ _ => rfl⟩

theorem Clean.alike (hc : Clean sb v I) (h : v.kern.Alike k') : Clean sb (v.setKern k') I := by
  refine ⟨hc.wf, hc.content, hc.idle, hc.disk, fun i => ?_, fun i hi => ?_, fun i hi => ?_,
    fun i j hi hj => ?_⟩ <;> simp only [View.setKern_kern] at *
  · rw [h.ref]
    exact hc.ref i
  · rw [h.ref] at hi
    rw [h.inode i hi]
    exact hc.dev i hi
  · rw [h.ref] at hi
    rw [h.inode i hi]
    exact hc.cached i hi
  · rw [h.ref] at hi hj
    rw [h.inode i hi, h.inode j hj]
    exact hc.uniq i j hi hj

/-- A reference that was just taken is dropped: the inode is not freed, for it was in use before or has
not been read. -/
theorem Kern.Igets.iputFirst (h : k.Igets n i k') (t : Slot) :
    k'.iputFirst t i = (.dropped, k'.addRef i (-1)) := by
  refine if_neg fun hcond => ?_
  cases h with
  | found hpos hdev hinum =>
    rw [Kern.addRef_self] at hcond
    have : (k.inode i).ref + 1 = 1 := hcond.1
    omega
  | new hnone hfree =>
    rw [Kern.setInode_self'] at hcond
    exact absurd hcond.2.1 (by simp)

theorem Kern.Igets.alike (h : k.Igets n i k') : k.Alike (k'.addRef i (-1)) := by
  have hother : ∀ j, j ≠ i → (k'.addRef i (-1)).inode j = k.inode j := by
    intro j hj
    rw [Kern.addRef_of_ne _ _ hj, h.of_ne hj]
  refine ⟨h.file, h.proc, h.initproc, fun j => ?_, fun j => ?_, fun j hpos => ?_⟩
  · by_cases hj : j = i
    · subst hj
      rw [Kern.addRef_self]
      change (k'.inode j).ref + -1 = _
      rw [h.ref_self]
      omega
    · rw [hother j hj]
  · by_cases hj : j = i
    · subst hj
      rw [Kern.addRef_self]
      exact h.lock j
    · rw [hother j hj]
  · by_cases hj : j = i
    · subst hj
      cases h with
      | found =>
        rw [Kern.addRef_self, Kern.addRef_self]
        simp only [add_neg_cancel_right]
      | new hnone hfree =>
        rw [hfree] at hpos
        exact absurd hpos (lt_irrefl 0)
    · exact hother j hj

/-- `iput` of a reference that was just taken. -/
theorem runs_iput_igets (h : v.kern.Igets n i k') {Q : Unit → View → Prop}
    (hQ : ∀ k'', v.kern.Alike k'' → Q () (v.setKern k'')) :
    Runs μ (iput sb i) Q (v.setKern k') := by
  refine runs_bind (runs_iputFirst ?_)
  rw [View.setKern_kern, h.iputFirst]
  exact runs_pure (hQ _ h.alike)

end Xv6.Fs
