import Xv6.Fs.Directory

/-!
# Paths

A path is cut at its slashes into elements of at most `DIRSIZ` bytes. `namei` looks them up one after
the other, from the root directory or the current directory on; `nameiparent` stops before the last one.
Each turn of the loop takes a reference to the next inode and drops the one it came from.
-/

namespace Xv6.Fs

open Lib Block

variable {sb : Superblock} {μ : Mode} {t : Slot} {v v' v₀ : View} {I : Image} {n m : ℕ}
  {ip : InodeRef} {l rest : List UInt8} {names : List (List UInt8)}

/-! ### Elements -/

/-- The parts of a path between slashes that are not empty, each cut to `DIRSIZ` bytes. -/
def segments (l : List UInt8) : List (List UInt8) :=
  ((l.splitOn slash).filter (· ≠ [])).map (·.take DIRSIZ)

theorem segments_nil : segments [] = [] := rfl

theorem segments_slash (l : List UInt8) : segments (slash :: l) = segments l := by
  have hsplit : (slash :: l).splitOn slash = [] :: l.splitOn slash :=
    List.splitOnP_append_cons_of_forall_mem (fun _ h => absurd h (List.not_mem_nil)) slash (by simp) l
  simp [segments, hsplit]

theorem segments_skip (l : List UInt8) : segments (l.dropWhile (· = slash)) = segments l := by
  induction l with
  | nil => rfl
  | cons a l ih =>
    rw [List.dropWhile_cons]
    split
    · rename_i ha
      rw [of_decide_eq_true ha, segments_slash, ih]
    · rfl

/-- An element and what follows it. -/
theorem segments_append (hl : slash ∉ l) (hne : l ≠ []) (hrest : ∀ a, rest.head? = some a → a = slash) :
    segments (l ++ rest) = l.take DIRSIZ :: segments rest := by
  cases rest with
  | nil =>
    have hsplit : l.splitOn slash = [l] := List.splitOn_eq_singleton hl
    rw [List.append_nil, segments_nil, segments, hsplit]
    simp [hne]
  | cons a rest =>
    obtain rfl := hrest a rfl
    have hsplit : (l ++ slash :: rest).splitOn slash = l :: rest.splitOn slash := by
      refine List.splitOnP_append_cons_of_forall_mem (fun x hx => ?_) slash (by simp) rest
      rw [beq_eq_false_iff_ne]
      rintro rfl
      exact hl hx
    rw [segments_slash, segments, hsplit]
    simp [hne, segments]

theorem skipelem_eq_none (h : skipelem l = none) : segments l = [] := by
  unfold skipelem at h
  dsimp only at h
  split at h
  · rename_i hnil
    rw [← segments_skip, hnil, segments_nil]
  · cases h

variable {Q : Option (InodeRef × List UInt8) → View → Prop} {name : List UInt8}

theorem skipelem_eq_some (h : skipelem l = some (name, rest)) :
    segments l = name :: segments rest ∧ rest.length < l.length := by
  unfold skipelem at h
  dsimp only at h
  split at h
  · cases h
  · rename_i hne
    obtain ⟨hname, hrest⟩ := Prod.mk.inj (Option.some.inj h)
    have hseg := segments_skip l
    have hlen : (l.dropWhile (· = slash)).length ≤ l.length := (List.dropWhile_suffix _).length_le
    have hhead : (l.dropWhile (· = slash)).head hne ≠ slash := by
      simpa using List.head_dropWhile_not (· = slash) hne
    generalize l.dropWhile (· = slash) = s at hne hname hrest hseg hlen hhead
    have hword : s.takeWhile (· ≠ slash) ≠ [] := by
      cases s with
      | nil => exact absurd rfl hne
      | cons a s =>
        have ha : a ≠ slash := hhead
        simp [ha]
    have hfree : slash ∉ s.takeWhile (· ≠ slash) := by
      intro hmem
      simpa using List.all_eq_true.mp List.all_takeWhile slash hmem
    have hstop : ∀ a, (s.dropWhile (· ≠ slash)).head? = some a → a = slash := by
      intro a ha
      have := List.head?_dropWhile_not (· ≠ slash) s
      rw [ha] at this
      simpa using this
    have happ : s.takeWhile (· ≠ slash) ++ s.dropWhile (· ≠ slash) = s := List.takeWhile_append_dropWhile
    have hcut : (s.takeWhile (· ≠ slash)).length + (s.dropWhile (· ≠ slash)).length = s.length := by
      rw [← List.length_append, happ]
    have hpos : 0 < (s.takeWhile (· ≠ slash)).length := List.length_pos_iff.mpr hword
    have hshort : rest.length ≤ (s.dropWhile (· ≠ slash)).length := by
      rw [← hrest]
      exact (List.dropWhile_suffix _).length_le
    refine ⟨?_, by omega⟩
    rw [← hseg, ← happ, segments_append hfree hword hstop, hname, ← hrest, segments_skip]

/-- **The elements that `skipelem` produces** are the parts between the slashes. -/
theorem elemsFrom_eq_segments (fuel : ℕ) (l : List UInt8) (h : l.length ≤ fuel) :
    elemsFrom fuel l = segments l := by
  induction fuel generalizing l with
  | zero =>
    rw [List.eq_nil_of_length_eq_zero (Nat.le_zero.mp h)]
    rfl
  | succ fuel ih =>
    unfold elemsFrom
    cases helem : skipelem l with
    | none => exact (skipelem_eq_none helem).symm
    | some x =>
      obtain ⟨hseg, hlen⟩ := skipelem_eq_some helem
      rw [hseg]
      exact congrArg _ (ih x.2 (by omega))

theorem Path.elems_eq_segments (path : Path) : path.elems = segments path.bytes :=
  elemsFrom_eq_segments _ _ le_rfl

/-! ### Lookups in the image -/

namespace Image

variable (sb I)

/-- The inode that a name stands for in directory `n`, if `n` is one. -/
def enter (n : ℕ) (name : List UInt8) : Option ℕ :=
  if (I.din n).type = T_DIR then I.lookup sb n name else none

/-- The inode that names lead to from inode `n` on. -/
def walk (n : ℕ) (names : List (List UInt8)) : Option ℕ := names.foldlM (I.enter sb) n

/-- The directory that all names but the last one lead to, and the last one. -/
def parent (n : ℕ) (names : List (List UInt8)) : Option (ℕ × List UInt8) := do
  let name ← names.getLast?
  let d ← I.walk sb n names.dropLast
  if (I.din d).type = T_DIR then some (d, name) else none

/-- What the turns of `namex` compute. -/
def namex (nameiparent : Bool) : ℕ → List (List UInt8) → Option (ℕ × List UInt8)
  | n, [] => if nameiparent then none else some (n, [])
  | n, name :: rest =>
    if (I.din n).type ≠ T_DIR then none
    else if nameiparent ∧ rest = [] then some (n, name)
    else (I.lookup sb n name).bind fun m => namex nameiparent m rest

variable {sb I}

theorem walk_cons (name : List UInt8) :
    I.walk sb n (name :: names) = (I.enter sb n name).bind fun m => I.walk sb m names :=
  List.foldlM_cons

theorem walk_append (names' : List (List UInt8)) :
    I.walk sb n (names ++ names') = (I.walk sb n names).bind fun m => I.walk sb m names' :=
  List.foldlM_append

theorem namex_false (n : ℕ) (names : List (List UInt8)) :
    I.namex sb false n names = (I.walk sb n names).map fun m => (m, []) := by
  induction names generalizing n with
  | nil => rfl
  | cons name rest ih =>
    rw [walk_cons, enter, namex]
    by_cases htype : (I.din n).type = T_DIR
    · rw [if_neg (not_not.mpr htype), if_neg (by simp), if_pos htype, Option.map_bind]
      congr 1
      funext m
      exact ih m
    · rw [if_pos htype, if_neg htype]
      rfl

theorem namex_true_append (n : ℕ) (init : List (List UInt8)) (last : List UInt8) :
    I.namex sb true n (init ++ [last]) = (I.walk sb n init).bind fun d =>
      if (I.din d).type = T_DIR then some (d, last) else none := by
  induction init generalizing n with
  | nil =>
    have hlast : (true : Bool) = true ∧ ([] : List (List UInt8)) = [] := ⟨rfl, rfl⟩
    rw [List.nil_append, namex, if_pos hlast, ite_not]
    rfl
  | cons name rest ih =>
    rw [List.cons_append, namex, walk_cons, enter]
    by_cases htype : (I.din n).type = T_DIR
    · rw [if_neg (not_not.mpr htype), if_neg (by simp), if_pos htype, Option.bind_assoc]
      congr 1
      funext m
      exact ih m
    · rw [if_pos htype, if_neg htype]
      rfl

theorem parent_append (n : ℕ) (init : List (List UInt8)) (last : List UInt8) :
    I.parent sb n (init ++ [last]) = (I.walk sb n init).bind fun d =>
      if (I.din d).type = T_DIR then some (d, last) else none := by
  simp [parent]

theorem namex_true (n : ℕ) (names : List (List UInt8)) :
    I.namex sb true n names = I.parent sb n names := by
  rcases List.eq_nil_or_concat names with rfl | ⟨init, last, rfl⟩
  · rfl
  · rw [List.concat_eq_append, namex_true_append, parent_append]

/-- With at least one element, the path leads where its last element does in its parent. -/
theorem walk_eq_parent (h : names ≠ []) :
    I.walk sb n names = (I.parent sb n names).bind fun d => I.lookup sb d.1 d.2 := by
  rcases List.eq_nil_or_concat names with rfl | ⟨init, last, rfl⟩
  · exact absurd rfl h
  · rw [List.concat_eq_append, walk_append, parent_append, Option.bind_assoc]
    congr 1
    funext d
    rw [walk_cons, enter]
    split
    · exact Option.bind_fun_some _
    · rfl

/-- A path leads nowhere if and only if some prefix leads to no directory, or to one in which the next
name does not exist. -/
theorem walk_eq_none :
    I.walk sb n names = none ↔ ∃ before name after d, names = before ++ name :: after ∧
      I.walk sb n before = some d ∧ ((I.din d).type ≠ T_DIR ∨ I.lookup sb d name = none) := by
  have henter : ∀ d name, I.enter sb d name = none ↔
      ((I.din d).type ≠ T_DIR ∨ I.lookup sb d name = none) := by
    intro d name
    rw [enter]
    split <;> simp_all
  constructor
  · intro h
    induction names generalizing n with
    | nil => cases h
    | cons name rest ih =>
      rw [walk_cons] at h
      cases hm : I.enter sb n name with
      | none => exact ⟨[], name, rest, n, rfl, rfl, (henter n name).mp hm⟩
      | some m =>
        rw [hm, Option.bind_some] at h
        obtain ⟨before, name', after, d, rfl, hd, hfail⟩ := ih h
        refine ⟨name :: before, name', after, d, rfl, ?_, hfail⟩
        rw [walk_cons, hm, Option.bind_some, hd]
  · rintro ⟨before, name, after, d, rfl, hd, hfail⟩
    rw [walk_append, hd, Option.bind_some, walk_cons, (henter d name).mpr hfail]
    rfl

end Image

/-! ### References that a lookup takes -/

/-- Entry `j` of directory `d` names inode `m`. -/
structure Image.Entry (sb : Superblock) (I : Image) (d j m : ℕ) : Prop where
  allocated : I.Allocated sb d
  dir : (I.din d).type = T_DIR
  slot : j < I.slots d
  inum : (I.entry sb d (16 * j)).inum = m
  used : m ≠ 0

/-- Inode `m` has a name. -/
def Image.Names (sb : Superblock) (I : Image) (m : ℕ) : Prop := m = ROOTINO ∨ ∃ d j, I.Entry sb d j m

theorem Image.Entry.of_find {d j : ℕ} (hd : I.IsDir sb d)
    (h : Slots.find (I.slot sb d) (I.slots d) name = some (j, m)) : I.Entry sb d j m := by
  obtain ⟨hj, hslot⟩ := Slots.find_eq_some h
  unfold Image.slot at hslot
  split at hslot
  · cases hslot
  · rename_i h0
    obtain rfl := congrArg Prod.snd (Option.some.inj hslot)
    exact ⟨hd.allocated, hd.type, hj, rfl, h0⟩

/-- What a lookup by process `t` relies on. -/
structure Lookable (sb : Superblock) (t : Slot) (v : View) (I : Image) : Prop where
  clean : Clean sb v I
  unlocked : ∀ i, (v.kern.inode i).lock = none
  aligned : ∀ d, I.Allocated sb d → (I.din d).type = T_DIR → 16 ∣ (I.din d).size
  named : ∀ m, I.Names sb m → I.Allocated sb m
  /-- An inode that has a name has links, or is in use. -/
  linked : ∀ m, I.Names sb m → (I.din m).nlink ≠ 0 ∨
    ∃ i, 0 < (v.kern.inode i).ref ∧ (v.kern.inode i).inum = m
  cwd : ∃ i, (v.kern.proc t).cwd = some i ∧ 0 < (v.kern.inode i).ref ∧
    I.Allocated sb (v.kern.inode i).inum

/-- The state of a lookup that started in `v₀`: it has taken the references `hand`, and the locks are
`locks`. -/
structure Visits (sb : Superblock) (v₀ : View) (I : Image) (hand : List InodeRef)
    (locks : InodeRef → Option Slot) (v : View) : Prop where
  clean : Clean sb v I
  file : v.kern.file = v₀.kern.file
  proc : v.kern.proc = v₀.kern.proc
  initproc : v.kern.initproc = v₀.kern.initproc
  ref : ∀ i, (v.kern.inode i).ref = (v₀.kern.inode i).ref + hand.count i
  lock : ∀ i, (v.kern.inode i).lock = locks i
  inode : ∀ i, 0 < (v₀.kern.inode i).ref → (v.kern.inode i).inum = (v₀.kern.inode i).inum ∧
    ((v₀.kern.inode i).valid = true → (v.kern.inode i).valid = true)

/-- No inode is locked. -/
def noLocks : InodeRef → Option Slot := fun _ => none

theorem unlock_noLocks (ip : InodeRef) (t : Slot) :
    Function.update (Function.update noLocks ip (some t)) ip none = noLocks := by
  rw [Function.update_idem]
  exact Function.update_eq_self ip noLocks

theorem Lookable.visits (h : Lookable sb t v I) : Visits sb v I [] noLocks v :=
  ⟨h.clean, rfl, rfl, rfl, fun i => by simp, h.unlocked, fun _ _ => ⟨rfl, id⟩⟩

namespace Visits

variable {hand hand' : List InodeRef} {locks : InodeRef → Option Slot} {i : InodeRef} {k' : Kern}

theorem pos (h : Visits sb v₀ I hand locks v) (h₀ : Clean sb v₀ I) (hi : i ∈ hand) :
    0 < (v.kern.inode i).ref := by
  have href := h.ref i
  have hcount := List.count_pos_iff.mpr hi
  have hnonneg := h₀.ref i
  omega

theorem pos_of_pos (h : Visits sb v₀ I hand locks v) (hi : 0 < (v₀.kern.inode i).ref) :
    0 < (v.kern.inode i).ref := by
  have href := h.ref i
  omega

theorem igets (h : Visits sb v₀ I hand locks v) (hk : v.kern.Igets n i k') :
    Visits sb v₀ I (i :: hand) locks (v.setKern k') where
  clean := h.clean.igets hk
  file := hk.file.trans h.file
  proc := hk.proc.trans h.proc
  initproc := hk.initproc.trans h.initproc
  ref j := by
    rw [View.setKern_kern]
    by_cases hj : j = i
    · subst hj
      rw [hk.ref_self, h.ref, List.count_cons_self]
      omega
    · rw [hk.of_ne hj, h.ref, List.count_cons_of_ne (Ne.symm hj)]
  lock j := (hk.lock j).trans (h.lock j)
  inode j hj := by
    obtain ⟨hinum, hvalid⟩ := h.inode j hj
    obtain ⟨hinum', hvalid'⟩ := hk.keeps (h.pos_of_pos hj)
    exact ⟨hinum'.trans hinum, fun hval => hvalid'.trans (hvalid hval)⟩

/-- An entry of the table that is in use is locked or unlocked, and read. -/
theorem update (h : Visits sb v₀ I hand locks v) (hpos : 0 < (v.kern.inode ip).ref) {x : Inode}
    (href : x.ref = (v.kern.inode ip).ref) (hdev : x.dev = (v.kern.inode ip).dev)
    (hinum : x.inum = (v.kern.inode ip).inum) (hvalid : (v.kern.inode ip).valid = true → x.valid = true)
    (hcached : x.valid → x.din = I.din x.inum ∧ I.Allocated sb x.inum) :
    Visits sb v₀ I hand (Function.update locks ip x.lock) (v.setKern (v.kern.setInode ip x)) := by
  have hother : ∀ j, j ≠ ip → (v.kern.setInode ip x).inode j = v.kern.inode j :=
    fun j hj => v.kern.setInode_of_ne x hj
  refine ⟨h.clean.update hpos (by omega) hdev hinum hcached, h.file, h.proc, h.initproc,
    fun j => ?_, fun j => ?_, fun j hj => ?_⟩ <;> rw [View.setKern_kern] <;> by_cases hjp : j = ip
  · rw [hjp, Kern.setInode_self', href, h.ref]
  · rw [hother j hjp, h.ref]
  · rw [hjp, Kern.setInode_self', Function.update_self]
  · rw [hother j hjp, Function.update_of_ne hjp, h.lock]
  · subst hjp
    obtain ⟨hinum', hvalid'⟩ := h.inode j hj
    rw [Kern.setInode_self']
    exact ⟨hinum.trans hinum', fun hval => hvalid (hvalid' hval)⟩
  · rw [hother j hjp]
    exact h.inode j hj

/-- One more reference to an inode that is in use, or one less. -/
theorem addRef (h : Visits sb v₀ I hand locks v) (hpos : 0 < (v.kern.inode ip).ref) {m : ℤ}
    (hcount : ∀ i, (hand'.count i : ℤ) = hand.count i + if i = ip then m else 0)
    (hnonneg : 0 ≤ (v.kern.inode ip).ref + m) :
    Visits sb v₀ I hand' locks (v.setKern (v.kern.addRef ip m)) := by
  have hother : ∀ j, j ≠ ip → (v.kern.addRef ip m).inode j = v.kern.inode j :=
    fun j hj => v.kern.addRef_of_ne m hj
  refine ⟨h.clean.update hpos hnonneg rfl rfl (h.clean.cached ip hpos), h.file, h.proc, h.initproc,
    fun j => ?_, fun j => ?_, fun j hj => ?_⟩ <;> rw [View.setKern_kern] <;> by_cases hjp : j = ip
  · subst hjp
    have hself := hcount j
    rw [if_pos rfl] at hself
    rw [Kern.addRef_self]
    change (v.kern.inode j).ref + m = _
    rw [h.ref, hself]
    omega
  · have hsame := hcount j
    rw [if_neg hjp] at hsame
    rw [hother j hjp, h.ref, hsame, add_zero]
  · subst hjp
    rw [Kern.addRef_self]
    exact h.lock j
  · rw [hother j hjp, h.lock]
  · subst hjp
    rw [Kern.addRef_self]
    exact h.inode j hj
  · rw [hother j hjp]
    exact h.inode j hj

/-- An inode in hand that has a name, or was in use before, has links if this is the only reference. -/
theorem nlink_ne (h : Visits sb v₀ I hand locks v) (h₀ : Lookable sb t v₀ I) (hi : i ∈ hand)
    (hn : I.Names sb (v.kern.inode i).inum ∨ 0 < (v₀.kern.inode i).ref)
    (hone : (v.kern.inode i).ref = 1) (hvalid : (v.kern.inode i).valid = true) :
    (v.kern.inode i).din.nlink ≠ 0 := by
  have href := h.ref i
  have hcount := List.count_pos_iff.mpr hi
  have hpos := h.pos h₀.clean hi
  have hold : ¬ 0 < (v₀.kern.inode i).ref := by omega
  rw [(h.clean.cached i hpos hvalid).1]
  refine (h₀.linked _ (hn.resolve_right hold)).resolve_right ?_
  rintro ⟨j, hj, hinum⟩
  have : j = i := h.clean.uniq j i (h.pos_of_pos hj) hpos ((h.inode j hj).1.trans hinum)
  exact hold (this ▸ hj)

/-! ### Rules -/

variable (h : Visits sb v₀ I hand locks v) (h₀ : Lookable sb t v₀ I)

include h h₀

variable {Q : Unit → View → Prop}

theorem runs_iput (hp : hand.Perm (ip :: hand'))
    (hn : I.Names sb (v.kern.inode ip).inum ∨ 0 < (v₀.kern.inode ip).ref)
    (hQ : Visits sb v₀ I hand' locks (v.setKern (v.kern.addRef ip (-1))) →
      Q () (v.setKern (v.kern.addRef ip (-1)))) : Runs μ (iput sb ip) Q v := by
  have hmem : ip ∈ hand := hp.mem_iff.mpr List.mem_cons_self
  have hpos := h.pos h₀.clean hmem
  have hfirst : v.kern.iputFirst μ.slot ip = (.dropped, v.kern.addRef ip (-1)) :=
    if_neg fun hc => h.nlink_ne h₀ hmem hn hc.1 hc.2.1 hc.2.2
  refine runs_bind (runs_iputFirst ?_)
  rw [hfirst]
  refine runs_pure (hQ (h.addRef hpos (fun i => ?_) (by omega)))
  rw [hp.count_eq]
  by_cases hi : i = ip
  · rw [hi, List.count_cons_self, if_pos rfl]
    omega
  · rw [List.count_cons_of_ne (Ne.symm hi), if_neg hi, add_zero]

omit h₀ in
theorem runs_iunlock (hpos : 0 < (v.kern.inode ip).ref) (hlock : locks ip = some μ.slot)
    {Q : Unit → View → Prop}
    (hQ : ∀ v', Visits sb v₀ I hand (Function.update locks ip none) v' →
      (∀ j, (v'.kern.inode j).inum = (v.kern.inode j).inum) → Q () v') : Runs μ (iunlock ip) Q v := by
  refine Fs.runs_iunlock hpos ((h.lock ip).trans hlock) fun v' hv' => ?_
  subst hv'
  refine hQ _ (h.update (x := { v.kern.inode ip with lock := none }) hpos rfl rfl rfl id
    fun hval => h.clean.cached ip hpos hval) fun j => ?_
  rw [View.setKern_kern]
  by_cases hj : j = ip
  · rw [hj, Kern.setInode_self']
  · rw [Kern.setInode_of_ne _ _ hj]

theorem runs_iunlockput (hp : hand.Perm (ip :: hand')) (hlock : locks ip = some μ.slot)
    (hn : I.Names sb (v.kern.inode ip).inum ∨ 0 < (v₀.kern.inode ip).ref)
    (hQ : ∀ v', Visits sb v₀ I hand' (Function.update locks ip none) v' →
      (∀ j, (v'.kern.inode j).inum = (v.kern.inode j).inum) → Q () v') :
    Runs μ (iunlockput sb ip) Q v := by
  have hpos := h.pos h₀.clean (hp.mem_iff.mpr List.mem_cons_self)
  refine runs_bind (h.runs_iunlock hpos hlock fun v₁ h₁ hnum => ?_)
  rw [← hnum] at hn
  refine h₁.runs_iput h₀ hp hn fun h₂ => hQ _ h₂ fun j => ?_
  rw [View.setKern_kern, ← hnum j]
  by_cases hj : j = ip
  · rw [hj, Kern.addRef_self]
  · rw [Kern.addRef_of_ne _ _ hj]

end Visits

/-! ### `namex` -/

/-- The numbers of the inodes that a lookup returns. -/
def View.numbers (v : View) {α : Type} (r : Option (InodeRef × α)) : Option (ℕ × α) :=
  r.map fun x => ((v.kern.inode x.1).inum, x.2)

/-- Only one entry of the table of inodes may be free. -/
def Kern.Crowded (k : Kern) : Prop := ∃ ip, ∀ j, j ≠ ip → (k.inode j).ref ≠ 0

/-- From a directory in hand to the inode that the path names. -/
theorem Visits.runs_namexFrom (h₀ : Lookable sb μ.slot v₀ I) {parent : Bool}
    (hE : ∀ w : View, w.kern.NoInode → v₀.kern.Crowded → μ.panics "iget: no inodes" w)
    (names : List (List UInt8)) (h : Visits sb v₀ I [ip] noLocks v)
    (hnum : (v.kern.inode ip).inum = n) (hn : I.Names sb n ∨ 0 < (v₀.kern.inode ip).ref)
    (hal : I.Allocated sb n)
    (hQ : ∀ r v', v'.numbers r = I.namex sb parent n names →
      Visits sb v₀ I (r.map (·.1)).toList noLocks v' → Q r v') :
    Runs μ (namexFrom sb parent ip names) Q v := by
  induction names generalizing ip v n with
  | nil =>
    unfold namexFrom
    cases parent with
    | true =>
      exact runs_bind (h.runs_iput h₀ (.refl _) (by rwa [hnum]) fun h' => runs_pure (hQ none _ rfl h'))
    | false =>
      refine runs_pure (hQ _ v ?_ h)
      rw [View.numbers, Option.map_some, hnum]
      rfl
  | cons name rest ih =>
    have hpos := h.pos h₀.clean List.mem_cons_self
    unfold namexFrom
    refine runs_bind (runs_ilock h.clean hpos hnum hal (fun _ => h.lock ip) fun v₁ hv₁ => ?_)
    obtain ⟨h₁, hnum₁, hdin₁, hvalid₁⟩ : Visits sb v₀ I [ip] (Function.update noLocks ip (some μ.slot)) v₁ ∧
        (v₁.kern.inode ip).inum = n ∧ (v₁.kern.inode ip).din = I.din n ∧
        (v₁.kern.inode ip).valid = true := by
      subst hv₁
      refine ⟨h.update (x := (v.kern.inode ip).locked μ.slot (I.din n)) hpos rfl rfl rfl (fun _ => rfl)
        fun _ => ⟨?_, ?_⟩, ?_, ?_, ?_⟩
      · exact congrArg I.din hnum.symm
      · exact hnum ▸ hal
      all_goals rw [View.setKern_kern, Kern.setInode_self']
      · exact hnum
      · rfl
      · rfl
    have hpos₁ := h₁.pos h₀.clean List.mem_cons_self
    have hlock : Function.update noLocks ip (some μ.slot) ip = some μ.slot := Function.update_self ..
    refine runs_bind (runs_inode ?_)
    rw [hdin₁]
    -- the lookup fails: the directory is unlocked and dropped
    have hfail : I.namex sb parent n (name :: rest) = none →
        Runs μ (do
          iunlockput sb ip
          return none) Q v₁ := by
      intro hnone
      refine runs_bind (h₁.runs_iunlockput h₀ (.refl _) hlock (by rwa [hnum₁]) fun v₂ h₂ _ =>
        runs_pure (hQ none v₂ hnone.symm ?_))
      rwa [unlock_noLocks] at h₂
    refine Prog.ensures_ite (fun htype => hfail ?_) fun htype => ?_
    · rw [Image.namex, if_pos htype]
    have htype : (I.din n).type = T_DIR := not_not.mp htype
    refine Prog.ensures_ite (fun hstop => ?_) fun hgo => ?_
    · refine runs_bind (h₁.runs_iunlock hpos₁ hlock fun v₂ h₂ hnum₂ => runs_pure (hQ _ v₂ ?_ ?_))
      · rw [View.numbers, Option.map_some, hnum₂, hnum₁, Image.namex, if_neg (not_not.mpr htype),
          if_pos hstop]
      · rwa [unlock_noLocks] at h₂
    have hnext : I.namex sb parent n (name :: rest) =
        (I.lookup sb n name).bind fun m => I.namex sb parent m rest := by
      rw [Image.namex, if_neg (not_not.mpr htype), if_neg hgo]
    have hdir : HoldsDir sb v₁ I ip n :=
      ⟨⟨h₁.clean, hpos₁, hvalid₁, hnum₁⟩, hal, htype, h₀.aligned n hal htype⟩
    refine runs_bind (hdir.runs_dirlookup (fun hfull => hE v₁ hfull ⟨ip, fun j hj => ?_⟩)
      (fun hnone => hfail ?_) fun j m hfind next k' hk' => ?_)
    · have href := h₁.ref j
      rw [List.count_cons_of_ne (Ne.symm hj), List.count_nil] at href
      have := hfull j
      omega
    · rw [hnext, Image.lookup, Slots.lookup, hnone]
      rfl
    · have hlookup : I.lookup sb n name = some m := by
        rw [Image.lookup, Slots.lookup, hfind]
        rfl
      have hnames : I.Names sb m := .inr ⟨n, j, .of_find hdir.dir hfind⟩
      have hnum₂ : ((v₁.setKern k').kern.inode ip).inum = n := (hk'.keeps hpos₁).1.trans hnum₁
      refine runs_bind ((h₁.igets hk').runs_iunlockput h₀ (.swap ..) hlock (by rwa [hnum₂])
        fun v₃ h₃ hnum₃ => ?_)
      rw [unlock_noLocks] at h₃
      rw [hnext, hlookup, Option.bind_some] at hQ
      exact ih h₃ ((hnum₃ next).trans hk'.inum) (.inl hnames) (h₀.named m hnames) hQ

/-- The inode where the lookup of a path starts. -/
def Kern.start (k : Kern) (t : Slot) (path : Path) : ℕ :=
  if path.bytes.head? = some slash then ROOTINO
  else (k.proc t).cwd.elim 0 fun cwd => (k.inode cwd).inum

/-- The lookup of a path: the inode that it names, with a reference to it. -/
theorem Lookable.runs_namex (h : Lookable sb μ.slot v I) (path : Path) {parent : Bool}
    (hE : ∀ w : View, w.kern.NoInode → v.kern.Crowded → μ.panics "iget: no inodes" w)
    (hQ : ∀ r v', v'.numbers r = I.namex sb parent (v.kern.start μ.slot path) path.elems →
      Visits sb v I (r.map (·.1)).toList noLocks v' → Q r v') :
    Runs μ (namex sb path parent) Q v := by
  refine Prog.ensures_ite (fun hroot => ?_) fun hrel => ?_
  · have hstart : v.kern.start μ.slot path = ROOTINO := if_pos hroot
    rw [hstart] at hQ
    have hname : I.Names sb ROOTINO := .inl rfl
    refine runs_bind (runs_iget_igets (fun hfull => hE v hfull ⟨⟨0, NINODE_pos⟩, fun j _ => hfull j⟩)
      fun ip k' hk' => ?_)
    exact (h.visits.igets hk').runs_namexFrom h hE _ hk'.inum (.inl hname) (h.named _ hname) hQ
  · obtain ⟨cwd, hcwd, hpos, hal⟩ := h.cwd
    have hstart : v.kern.start μ.slot path = (v.kern.inode cwd).inum := by
      rw [Kern.start, if_neg hrel, hcwd]
      rfl
    refine runs_bind (runs_cwd ?_)
    rw [hcwd]
    refine runs_bind (runs_bind (runs_idup (runs_pure ?_)))
    have hone : Visits sb v I [cwd] noLocks (v.setKern (v.kern.addRef cwd 1)) := by
      refine h.visits.addRef hpos (fun i => ?_) (by omega)
      by_cases hi : i = cwd
      · rw [hi, List.count_singleton_self, if_pos rfl]
        rfl
      · rw [List.count_cons_of_ne (Ne.symm hi), if_neg hi]
        rfl
    refine hone.runs_namexFrom h hE _ ?_ (.inr hpos) (hstart ▸ hal) hQ
    rw [View.setKern_kern, Kern.addRef_self, hstart]

/-! ### Path lookup is a fold -/

/-- A lookup has found `r`: it has taken one reference to it, and that is all. -/
structure View.Looked (v v' : View) (r : Option InodeRef) : Prop where
  content : v'.content = v.content
  file : v'.kern.file = v.kern.file
  proc : v'.kern.proc = v.kern.proc
  ref : ∀ i, (v'.kern.inode i).ref = (v.kern.inode i).ref + r.toList.count i
  lock : ∀ i, (v'.kern.inode i).lock = none
  inode : ∀ i, 0 < (v.kern.inode i).ref → (v'.kern.inode i).inum = (v.kern.inode i).inum ∧
    ((v.kern.inode i).valid = true → (v'.kern.inode i).valid = true)

theorem Visits.looked (h₀ : Clean sb v I) {r : Option InodeRef}
    (h : Visits sb v I r.toList noLocks v') : v.Looked v' r :=
  ⟨h.clean.content.trans h₀.content.symm, h.file, h.proc, h.ref, h.lock, h.inode⟩

/-- Every run returns, unless no entry of the table of inodes is free when one is needed; then at most one
entry was free in `v`. -/
def Caller.lookup (c : Caller) (v : View) : Mode :=
  ⟨c, True, fun msg w => msg = "iget: no inodes" ∧ w.kern.NoInode ∧ v.kern.Crowded⟩

theorem Caller.lookup_reads (c : Caller) (v : View) : (c.lookup v).Reads :=
  ⟨fun _ _ h => h, fun _ h => absurd h.1 (by decide)⟩

theorem costs_iunlockput (ip : InodeRef) : (iunlockput sb ip).Affords (pay true) (0, 2) (0, 2) :=
  (costs_iunlock ip).bind fun _ => costs_iput sb ip

theorem costs_namex (path : Path) (parent : Bool) :
    (namex sb path parent).Affords (pay true) (0, 2) (0, 2) := by
  have hfrom (ip : InodeRef) (names : List (List UInt8)) :
      (namexFrom sb parent ip names).Affords (pay true) (0, 2) (0, 2) := by
    induction names generalizing ip with
    | nil =>
      exact Prog.affords_ite ((costs_iput sb ip).bind fun _ => le_rfl) le_rfl
    | cons name rest ih =>
      have hout : (do iunlockput sb ip; return none : Code (Option (InodeRef × List UInt8))).Affords
          (pay true) (0, 2) (0, 2) := (costs_iunlockput ip).bind fun _ => le_rfl
      refine (costs_ilock sb ip).bind fun _ => costs_tab fun (x : Inode) => ?_
      refine Prog.affords_ite hout (Prog.affords_ite ?_ ?_)
      · exact (costs_iunlock ip).bind fun _ => le_rfl
      · refine (costs_dirlookup sb ip name).bind fun r => ?_
        cases r with
        | none => exact hout
        | some r => exact (costs_iunlockput ip).bind fun _ => ih r.1
  refine Prog.affords_ite ?_ (costs_tab fun (r : Option InodeRef) => ?_)
  · exact (costs_iget _ _).bind fun ip => hfrom ip _
  · cases r with
    | none => trivial
    | some cwd => exact costs_tab fun _ => hfrom cwd _

/-- The lookup of a path in a transaction or outside. -/
theorem Lookable.fits_namex {c : Caller} (h : Lookable sb c.slot v I) (hroom : v.Room 0 2) (path : Path)
    (parent : Bool) :
    Fits (c.lookup v) (namex sb path parent) (fun r v' =>
      v'.numbers r = I.namex sb parent (v.kern.start c.slot path) path.elems ∧
        v.Looked v' (r.map (·.1))) v := by
  have h' : Lookable sb c.slot (v.setOp none) I :=
    ⟨h.clean.setOp none, h.unlocked, h.aligned, h.named, h.linked, h.cwd⟩
  refine (Runs.fits_inside (c.lookup_reads v) (h'.runs_namex (μ := c.lookup v) path
    (fun w hw hv => ⟨rfl, hw, hv⟩) fun r v' hr hv' => ?_) hroom (costs_namex path parent)).mono
    fun _ _ => And.left
  exact ⟨hr, (hv'.looked h'.clean).1, hv'.file, hv'.proc, hv'.ref, hv'.lock, hv'.inode⟩

/-- **Path lookup is a fold over path elements.** The elements are the parts of the path between the
slashes, cut to `DIRSIZ` bytes. `namei` gives the inode that they lead to one after the other, each
looked up in the directory before it; it fails if and only if some prefix leads to no directory, or to
one without the next name. With at least one element this is the inode that the last one names in the
directory that `nameiparent` gives; without any, `nameiparent` fails. A lookup that succeeds leaves one
more reference, to the inode it returns, and one that fails leaves none. -/
theorem path_lookup_is_a_fold (c : Caller) (path : Path) (h : Lookable sb c.slot v I)
    (hlogged : v.logged.card ≤ maxLogged) (hlog : maxLogged + 2 ≤ v.logsize) :
    path.elems = segments path.bytes ∧
    Fits (c.lookup v) (namei sb path) (fun r v' => r.map (fun ip => (v'.kern.inode ip).inum) =
      I.walk sb (v.kern.start c.slot path) path.elems ∧ v.Looked v' r) v ∧
    (I.walk sb (v.kern.start c.slot path) path.elems = none ↔ ∃ before name after d,
      path.elems = before ++ name :: after ∧ I.walk sb (v.kern.start c.slot path) before = some d ∧
      ((I.din d).type ≠ T_DIR ∨ I.lookup sb d name = none)) ∧
    Fits (c.lookup v) (nameiparent sb path) (fun r v' => v'.numbers r =
      I.parent sb (v.kern.start c.slot path) path.elems ∧ v.Looked v' (r.map (·.1))) v ∧
    (path.elems ≠ [] → ∀ m, I.walk sb (v.kern.start c.slot path) path.elems = some m ↔
      ∃ d name, I.parent sb (v.kern.start c.slot path) path.elems = some (d, name) ∧
        I.lookup sb d name = some m) ∧
    (path.elems = [] → I.parent sb (v.kern.start c.slot path) path.elems = none) ∧
    ∀ w dp d name, HoldsDir sb w I dp d → w.logged.card ≤ maxLogged → maxLogged + 2 ≤ w.logsize →
      Fits (c.lookup w) (dirlookup sb dp name) (fun r w' =>
        (w'.numbers r).map (·.1) = I.lookup sb d name) w := by
  have hroom : v.Room 0 2 := h.clean.idle.room hlogged hlog
  refine ⟨path.elems_eq_segments, ?_, Image.walk_eq_none, ?_, fun hne m => ?_, fun hnil => ?_, ?_⟩
  · refine runs_bind ((h.fits_namex hroom path false).mono ?_)
    rintro r v' ⟨hr, hv'⟩
    refine runs_pure ⟨?_, hv'⟩
    rw [Image.namex_false] at hr
    have hfst := congrArg (Option.map Prod.fst) hr
    simpa [View.numbers, Option.map_map, Function.comp_def] using hfst
  · have hparent := h.fits_namex hroom path true
    rwa [Image.namex_true] at hparent
  · rw [Image.walk_eq_parent hne, Option.bind_eq_some_iff]
    exact Prod.exists
  · rw [hnil]
    rfl
  · intro w dp d name hw hlogged hlog
    refine hw.fits_dirlookup (hw.clean.idle.room (n := 0) hlogged hlog) (c.lookup_reads w)
      (fun hfull => ⟨rfl, hfull, ⟨0, NINODE_pos⟩, fun j _ => hfull j⟩) (fun hnone => ?_)
      fun j m hfind ip k' hk' => ?_
    · rw [Image.lookup, Slots.lookup, hnone]
      rfl
    · rw [Image.lookup, Slots.lookup, hfind, View.numbers, Option.map_some, Option.map_some,
        View.setKern_kern, hk'.inum]
      rfl

/-! ### A file in a small directory -/

/-- The path "//f". -/
def smallPath : Path := ⟨[slash, slash, 102], by decide, by decide⟩

section linked

variable {J : Image} (hJ : Image.Written smallSb 1 smallImage J 0 (Dirent.encode 2 [102]) [])

include hJ

theorem linked_isDir : J.IsDir smallSb 1 ∧ J.slots 1 = 1 := by
  obtain ⟨hdir, hslots⟩ := Image.Written.isDir (j := 0) hJ (length_encode 2 [102]) smallView_dirReady.dir
  have hempty : smallImage.slots 1 = 0 := by
    rw [Image.slots, smallImage_din (by decide)]
    rfl
  rw [hempty] at hslots
  exact ⟨hdir, hslots⟩

theorem linked_file : J.din 2 = blankDinode T_FILE :=
  (hJ.others 2 (by decide)).din.trans (smallImage_din (by decide))

theorem linked_names {m : ℕ} (h : J.Names smallSb m) : m = 1 ∨ m = 2 := by
  rcases h with rfl | ⟨d, j, he⟩
  · exact .inl rfl
  have hslot := he.slot
  by_cases hd : d = 1
  · subst hd
    rw [(linked_isDir hJ).2] at hslot
    obtain rfl : j = 0 := by omega
    right
    rw [← he.inum, Image.Written.entry (j := 0) hJ (length_encode 2 [102]) (fun hne => absurd rfl hne),
      if_pos rfl]
    exact (decode_encode (by decide) [102]).1
  · rw [Image.slots, (hJ.others d hd).din, smallImage_din he.allocated.1, if_neg hd] at hslot
    split at hslot <;> exact absurd hslot (Nat.not_lt_zero j)

theorem linked_walk : J.walk smallSb ROOTINO [[102]] = some 2 := by
  obtain ⟨hdir, hslots⟩ := linked_isDir hJ
  have hslot : J.slot smallSb 1 0 = some (cname [102], 2) :=
    Image.Written.slot_self (j := 0) hJ (by decide) (by decide)
  have hhit : Slots.hit (J.slot smallSb 1) (cname [102]) 0 = some (0, 2) :=
    Slots.hit_eq_some.mpr ⟨rfl, hslot⟩
  have hlookup : J.lookup smallSb 1 [102] = some 2 := by
    rw [Image.lookup, Slots.lookup, Slots.find, hslots, List.range_one, List.findSome?_cons, hhit]
    rfl
  rw [Image.walk_cons]
  change (J.enter smallSb 1 [102]).bind _ = some 2
  rw [Image.enter, if_pos hdir.type, hlookup]
  rfl

theorem linked_lookable {v : View}
    (hmoves : (smallView (some ∅)).Moves v ⟨0, by decide⟩ 1 J) :
    Lookable smallSb ⟨0, NPROC_pos⟩ v J := by
  have hkern : v.kern = smallKern.setInode ⟨0, by decide⟩
      { smallKern.inode ⟨0, by decide⟩ with din := J.din 1 } := hmoves.kern
  have hal : ∀ m, m = 1 ∨ m = 2 → J.Allocated smallSb m := by
    rintro m (rfl | rfl)
    · exact (linked_isDir hJ).1.allocated
    · exact ⟨show 2 < 64 by decide, by rw [linked_file hJ]; exact show T_FILE ≠ 0 by decide⟩
  have hlock : ∀ i, (smallKern.inode i).lock = none := by
    intro i
    unfold smallKern
    dsimp only
    split
    · rfl
    · split <;> rfl
  refine ⟨((smallView_dirReady.toHoldsDir.setOp (some ∅)).toHolds.written hJ hmoves).clean, fun i => ?_,
    fun d hd htype => ?_, fun m hm => hal m (linked_names hJ hm), fun m hm => .inl ?_,
    ⟨0, by decide⟩, ?_, ?_, ?_⟩
  · rw [hkern]
    by_cases hi : i = ⟨0, by decide⟩
    · rw [hi, Kern.setInode_self']
      rfl
    · rw [Kern.setInode_of_ne _ _ hi, hlock]
  · by_cases hd1 : d = 1
    · rw [hd1]
      exact (linked_isDir hJ).1.aligned
    · rw [(hJ.others d hd1).din, smallImage_din hd.1, if_neg hd1]
      split <;> exact Nat.dvd_zero 16
  · rcases linked_names hJ hm with rfl | rfl
    · rw [hJ.din]
      change (smallImage.din 1).nlink ≠ 0
      rw [smallImage_din (by decide)]
      exact Nat.one_ne_zero
    · rw [linked_file hJ]
      exact Nat.one_ne_zero
  · rw [hkern]
    rfl
  · rw [hkern, Kern.setInode_self']
    exact Int.one_pos
  · rw [hkern, Kern.setInode_self']
    exact hal 1 (.inl rfl)

end linked

/-- The file is linked in the root directory as "f", and found by the path "//f". -/
theorem path_lookup_is_a_fold_small :
    ∃ v, (smallCaller 120 8 (by decide)).exec (dirlink smallSb ⟨0, by decide⟩ [102] 2)
        (smallView (some ∅)) = .returned true v ∧
      Fits ((smallCaller 120 8 (by decide)).lookup v) (namei smallSb smallPath) (fun r v' =>
        r.map (fun ip => (v'.kern.inode ip).inum) = some 2 ∧ v.Looked v' r) v := by
  have hdir := smallView_dirReady.toHoldsDir.setOp (some ∅)
  have hfree : smallImage.freeSlot smallSb 1 = 0 := by
    rw [Image.freeSlot, Image.slots, smallImage_din (by decide)]
    rfl
  have hlinked : Fits ((smallCaller 120 8 (by decide)).resources smallSb)
      (dirlink smallSb ⟨0, by decide⟩ [102] 2) (fun r v => r = true → ∃ J : Image,
        Image.Written smallSb 1 smallImage J 0 (Dirent.encode 2 [102]) [] ∧
        (smallView (some ∅)).Moves v ⟨0, by decide⟩ 1 J ∧ v.Room 0 2) (smallView (some ∅)) := by
    have hroom : ((smallView none).setOp (some ∅)).Room 7 2 := hdir.clean.idle.room
      (show 0 + 7 ≤ maxLogged by decide) (show (maxLogged : ℤ) + 2 ≤ 31 by decide)
    refine hdir.fits_dirlink (m := 0) smallSb_sane (Option.some_ne_none _) hroom
      (Caller.resources_reads _ _) (Caller.resources_gets _ _) (Caller.resources_fills _ _)
      (by rw [hfree]; decide) (fun _ _ _ h => absurd h Bool.false_ne_true) fun _ J v' hJ hv' hroom' _ => ?_
    rw [hfree] at hJ
    exact ⟨J, hJ, hv', hroom'⟩
  obtain ⟨v, hv⟩ := Returns.eq (o := (smallCaller 120 8 (by decide)).exec
    (dirlink smallSb ⟨0, by decide⟩ [102] 2) (smallView (some ∅))) (a := true) (by decide +kernel)
  obtain ⟨J, hJ, hmoves, hroom⟩ := hlinked.run vexec_sound hv rfl
  have h := (path_lookup_is_a_fold (smallCaller 120 8 (by decide)) smallPath (linked_lookable hJ hmoves)
    hroom.log hroom.size).2.1
  have helems : smallPath.elems = [[102]] := by decide
  have hstart : v.kern.start (smallCaller 120 8 (by decide)).slot smallPath = ROOTINO := rfl
  rw [helems, hstart, linked_walk hJ] at h
  exact ⟨v, hv, h⟩

end Xv6.Fs
