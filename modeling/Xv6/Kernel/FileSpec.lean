import Xv6.Kernel.Inv

/-!
# Specifications of the file table and of pipes

References move between file descriptors and running code (`Inv.give`, `Inv.take`, `Inv.dup`), and
closing the last reference of a pipe's end frees the pipe when the other end is closed already. The
specifications leave the process table open, since `exit` closes a file before it clears the
descriptor.
-/

namespace Xv6.Kernel

open Lib (Bytes Code refs)
open Mem

/-- One reference more to `f`. -/
def inc (extra : FileId → ℕ) (f : FileId) : FileId → ℕ := Function.update extra f (extra f + 1)

/-- One reference less to `f`. -/
def dec (extra : FileId → ℕ) (f : FileId) : FileId → ℕ := Function.update extra f (extra f - 1)

theorem dec_inc (extra : FileId → ℕ) (f : FileId) : dec (inc extra f) f = extra := by
  unfold dec inc
  rw [Function.update_self, Function.update_idem, Nat.add_sub_cancel, Function.update_eq_self]

section refs

variable {k k' : Kern} {l l' : List ℕ} {own : Party → Set ℕ} {extra extra' : FileId → ℕ}
  {p : Slot} {fd : Fd} {f : FileId}

/-- A change of the file table that keeps what each file is. -/
def SameKinds (k k' : Kern) : Prop :=
  ∀ f, (k'.ftable f).type = (k.ftable f).type ∧ (k'.ftable f).pipe = (k.ftable f).pipe ∧
    (k'.ftable f).writable = (k.ftable f).writable

theorem SameKinds.isEnd (h : SameKinds k k') (pi : ℕ) (w : Bool) (f : FileId) :
    IsEnd k' pi w f ↔ IsEnd k pi w f := by
  unfold IsEnd
  rw [(h f).1, (h f).2.1, (h f).2.2]

theorem SameKinds.pipePages (h : SameKinds k k') : pipePages k' = pipePages k := by
  ext pi
  simp only [Kernel.pipePages, h.isEnd]

/-- Only reference counts and holders changed. -/
theorem FilesOk.rebalance (h : FilesOk k extra) (hp : k'.pipes = k.pipes) (hsame : SameKinds k k')
    (href : ∀ f, (k'.ftable f).ref = refs (opened k') f + extra' f)
    (hfree : ∀ f, (k'.ftable f).ref = 0 → (k.ftable f).type = .FD_NONE) : FilesOk k' extra' := by
  refine ⟨href, fun f hf => (hsame f).1.trans (hfree f hf), fun pi w f g => ?_, fun pi hpi w => ?_⟩
  · rw [hsame.isEnd, hsame.isEnd]
    exact h.unique pi w f g
  · rw [hp]
    simp only [hsame.isEnd]
    exact h.isOpen pi (hsame.pipePages ▸ hpi) w

/-- The kernel with another file in one descriptor. -/
def Kern.setFd (k : Kern) (p : Slot) (fd : Fd) (v : Option FileId) : Kern :=
  { k with procs := Function.update k.procs p
             ({ k.procs p with ofile := Function.update (k.procs p).ofile fd v }) }

/-- The kernel with another reference count of one file. -/
def Kern.setRef (k : Kern) (f : FileId) (n : ℕ) : Kern :=
  { k with ftable := Function.update k.ftable f ({ k.ftable f with ref := n }) }

theorem opened_setFd (k : Kern) (p : Slot) (fd : Fd) (v : Option FileId) :
    opened (k.setFd p fd v) = Function.update (opened k) (p, fd) v := by
  funext ⟨q, fd'⟩
  unfold opened Kern.setFd
  by_cases hq : q = p
  · subst hq
    by_cases hfd : fd' = fd
    · subst hfd
      simp
    · rw [Function.update_of_ne (by simp [hfd])]
      simp [Function.update_of_ne hfd]
  · rw [Function.update_of_ne (by simp [hq])]
    simp [Function.update_of_ne hq]

variable {v : Option FileId} {n : ℕ}

theorem setFd_procs_of_ne {q : Slot} (h : q ≠ p) :
    (k.setFd p fd v).procs q = k.procs q := Function.update_of_ne h ..

theorem setFd_procs_self : (k.setFd p fd v).procs p =
    { k.procs p with ofile := Function.update (k.procs p).ofile fd v } := Function.update_self ..

theorem Inv.setFd (h : Inv k l own extra)
    (hstate : v = none ∨ (k.procs p).state ≠ .unused ∧ (k.procs p).state ≠ .zombie)
    (hfiles : FilesOk (k.setFd p fd v) extra') :
    Inv (k.setFd p fd v) l own extra' where
  parts := h.parts
  kernel := h.kernel
  trampoline := h.trampoline
  proc q := by
    by_cases hq : q = p
    · subst hq
      rw [setFd_procs_self]
      exact h.proc q
    · rw [setFd_procs_of_ne hq]
      exact h.proc q
  pipes := h.pipes
  shape q := by
    by_cases hq : q = p
    · subst hq
      rw [setFd_procs_self]
      refine ⟨(h.shape q).idle, (h.shape q).active, fun hs fd' => ?_, (h.shape q).home⟩
      rcases hstate with rfl | ⟨h1, h2⟩
      · show Function.update (k.procs q).ofile fd none fd' = none
        by_cases hfd : fd' = fd
        · rw [hfd, Function.update_self]
        · rw [Function.update_of_ne hfd]
          exact (h.shape q).closed hs fd'
      · exact absurd hs (by simp [h1, h2])
    · rw [setFd_procs_of_ne hq]
      exact h.shape q
  files := hfiles

theorem refs_setFd (k : Kern) (p : Slot) (fd : Fd) (v : Option FileId) (g : FileId) :
    refs (opened (k.setFd p fd v)) g + (if (k.procs p).ofile fd = some g then 1 else 0) =
      refs (opened k) g + (if v = some g then 1 else 0) := by
  rw [opened_setFd]
  exact Lib.refs_update (opened k) (p, fd) v g

theorem Inv.give (h : Inv k l own extra) (hfd : (k.procs p).ofile fd = none) (hf : 0 < extra f)
    (hstate : (k.procs p).state ≠ .unused ∧ (k.procs p).state ≠ .zombie) :
    Inv (k.setFd p fd (some f)) l own (dec extra f) := by
  refine h.setFd (.inr hstate) (h.files.rebalance rfl (fun _ => ⟨rfl, rfl, rfl⟩) (fun g => ?_)
    fun g hg => h.files.free g hg)
  have hr := refs_setFd k p fd (some f) g
  rw [hfd, if_neg (by simp)] at hr
  show (k.ftable g).ref = _
  rw [h.files.ref_eq g]
  by_cases hgf : g = f
  · subst hgf
    rw [if_pos rfl] at hr
    rw [dec, Function.update_self]
    omega
  · rw [if_neg (by simpa using fun he => hgf he.symm)] at hr
    rw [dec, Function.update_of_ne hgf]
    omega

theorem Inv.take (h : Inv k l own extra) (hfd : (k.procs p).ofile fd = some f) :
    Inv (k.setFd p fd none) l own (inc extra f) := by
  refine h.setFd (.inl rfl) (h.files.rebalance rfl (fun _ => ⟨rfl, rfl, rfl⟩) (fun g => ?_)
    fun g hg => h.files.free g hg)
  have hr := refs_setFd k p fd none g
  rw [hfd, if_neg (by simp : ¬ (none : Option FileId) = some g)] at hr
  show (k.ftable g).ref = _
  rw [h.files.ref_eq g]
  by_cases hgf : g = f
  · subst hgf
    rw [if_pos rfl] at hr
    rw [inc, Function.update_self]
    omega
  · rw [if_neg (by simpa using fun he => hgf he.symm)] at hr
    rw [inc, Function.update_of_ne hgf]
    omega

theorem opened_setRef (k : Kern) (f : FileId) (n : ℕ) : opened (k.setRef f n) = opened k := rfl

theorem sameKinds_setRef (k : Kern) (f : FileId) (n : ℕ) : SameKinds k (k.setRef f n) := fun g => by
  unfold Kern.setRef
  by_cases hg : g = f
  · subst hg
    simp
  · simp [Function.update_of_ne hg]

theorem setRef_ref_self : ((k.setRef f n).ftable f).ref = n := by
  simp [Kern.setRef]

theorem setRef_ref_of_ne {g : FileId} (h : g ≠ f) :
    ((k.setRef f n).ftable g).ref = (k.ftable g).ref := by
  simp [Kern.setRef, Function.update_of_ne h]

theorem Inv.setRef (h : Inv k l own extra) (hn : n ≠ 0 ∨ (k.ftable f).type = .FD_NONE)
    (hbal : n = refs (opened k) f + extra' f) (hother : ∀ g, g ≠ f → extra' g = extra g) :
    Inv (k.setRef f n) l own extra' where
  parts := h.parts
  kernel := h.kernel
  trampoline := h.trampoline
  proc := h.proc
  pipes := h.pipes.trans (sameKinds_setRef k f n).pipePages.symm
  shape := h.shape
  files := by
    refine h.files.rebalance rfl (sameKinds_setRef k f n) (fun g => ?_) fun g hg => ?_
    · rw [opened_setRef]
      by_cases hgf : g = f
      · rw [hgf, setRef_ref_self]
        exact hbal
      · rw [setRef_ref_of_ne hgf, hother g hgf]
        exact h.files.ref_eq g
    · by_cases hgf : g = f
      · rw [hgf] at hg ⊢
        rw [setRef_ref_self] at hg
        exact hn.resolve_left fun hne => hne hg
      · rw [setRef_ref_of_ne hgf] at hg
        exact h.files.free g hg

theorem Inv.dup (h : Inv k l own extra) : Inv (k.setRef f ((k.ftable f).ref + 1)) l own (inc extra f) := by
  refine h.setRef (.inl (Nat.succ_ne_zero _)) ?_ fun g hg => Function.update_of_ne hg ..
  rw [inc, Function.update_self, h.files.ref_eq f]
  omega

theorem Inv.drop (h : Inv k l own extra) (hf : 0 < extra f) (href : 1 < (k.ftable f).ref) :
    Inv (k.setRef f ((k.ftable f).ref - 1)) l own (dec extra f) := by
  refine h.setRef (.inl (by omega)) ?_ fun g hg => Function.update_of_ne hg ..
  rw [dec, Function.update_self, h.files.ref_eq f]
  omega

end refs

/-! ### Closing -/

/-- The kernel after the last reference of `f` is gone. -/
def Kern.clearFile (k : Kern) (f : FileId) : Kern :=
  { k with ftable := Function.update k.ftable f ({ k.ftable f with ref := 0, type := .FD_NONE }) }

/-- The kernel after one end of a pipe is closed. -/
def Kern.closeEnd (k : Kern) (pi : ℕ) (w : Bool) : Kern :=
  { k with pipes := Function.update k.pipes pi
             (if w then { k.pipes pi with writeopen := false }
              else { k.pipes pi with readopen := false }) }

section close

variable {k : Kern} {l : List ℕ} {own : Party → Set ℕ} {extra : FileId → ℕ} {f : FileId}

theorem clearFile_self : (k.clearFile f).ftable f = { k.ftable f with ref := 0, type := .FD_NONE } :=
  Function.update_self ..

theorem clearFile_of_ne {g : FileId} (h : g ≠ f) : (k.clearFile f).ftable g = k.ftable g :=
  Function.update_of_ne h ..

variable {pi : ℕ} {w : Bool}

theorem isEnd_clearFile {g : FileId} : IsEnd (k.clearFile f) pi w g ↔ IsEnd k pi w g ∧ g ≠ f := by
  unfold IsEnd
  by_cases hg : g = f
  · subst hg
    rw [clearFile_self]
    simp
  · rw [clearFile_of_ne hg]
    simp [hg]

theorem clearFile_ref_eq (h : FilesOk k extra) (hf : 0 < extra f) (href : (k.ftable f).ref = 1)
    (g : FileId) : ((k.clearFile f).ftable g).ref = refs (opened k) g + dec extra f g := by
  by_cases hg : g = f
  · subst hg
    have := h.ref_eq g
    rw [clearFile_self, dec, Function.update_self]
    show 0 = _
    omega
  · rw [clearFile_of_ne hg, dec, Function.update_of_ne hg]
    exact h.ref_eq g

theorem clearFile_free (h : FilesOk k extra) (g : FileId)
    (hg : ((k.clearFile f).ftable g).ref = 0) : ((k.clearFile f).ftable g).type = .FD_NONE := by
  by_cases hgf : g = f
  · rw [hgf, clearFile_self]
  · rw [clearFile_of_ne hgf] at hg ⊢
    exact h.free g hg

/-- Closing a file that is not a pipe. -/
theorem Inv.clearFile (h : Inv k l own extra) (hf : 0 < extra f) (href : (k.ftable f).ref = 1)
    (htype : (k.ftable f).type ≠ .FD_PIPE) : Inv (k.clearFile f) l own (dec extra f) := by
  have hend : ∀ pi w g, IsEnd (k.clearFile f) pi w g ↔ IsEnd k pi w g := fun pi w g => by
    rw [isEnd_clearFile]
    refine ⟨And.left, fun hg => ⟨hg, ?_⟩⟩
    rintro rfl
    exact htype hg.1
  have hpages : pipePages (k.clearFile f) = pipePages k := by
    ext pi
    simp only [pipePages, hend]
  refine ⟨h.parts, h.kernel, h.proc, h.pipes.trans hpages.symm, h.shape,
    ⟨clearFile_ref_eq h.files hf href, clearFile_free h.files, fun pi w g g' => ?_,
      fun pi hpi w => ?_⟩, h.trampoline⟩
  · rw [hend, hend]
    exact h.files.unique pi w g g'
  · simp only [hend]
    exact h.files.isOpen pi (hpages ▸ hpi) w

theorem closeEnd_isOpen_of_ne {q : ℕ} {v : Bool} (h : ¬ (q = pi ∧ v = w)) :
    ((k.closeEnd pi w).pipes q).isOpen v = (k.pipes q).isOpen v := by
  unfold Kern.closeEnd
  by_cases hq : q = pi
  · subst hq
    cases w <;> cases v <;> simp_all [Pipe.isOpen]
  · simp [Function.update_of_ne hq]

theorem closeEnd_isOpen_self : ((k.closeEnd pi w).pipes pi).isOpen w = false := by
  unfold Kern.closeEnd
  cases w <;> simp [Pipe.isOpen]

/-- The file `f`, an end of a pipe, is closed for good. -/
theorem FilesOk.closePipe (h : FilesOk k extra) (hf : 0 < extra f) (href : (k.ftable f).ref = 1)
    (hend : IsEnd k pi w f) :
    FilesOk ((k.clearFile f).closeEnd pi w) (dec extra f) ∧
    (((((k.clearFile f).closeEnd pi w).pipes pi).isOpen false = false ∧
      (((k.clearFile f).closeEnd pi w).pipes pi).isOpen true = false) ↔
        pi ∉ pipePages ((k.clearFile f).closeEnd pi w)) ∧
    (∀ q, q ≠ pi → (q ∈ pipePages ((k.clearFile f).closeEnd pi w) ↔ q ∈ pipePages k)) := by
  have hiff : ∀ q v g, IsEnd ((k.clearFile f).closeEnd pi w) q v g ↔ IsEnd k q v g ∧ g ≠ f :=
    fun q v g => isEnd_clearFile
  have hin : pi ∈ pipePages k := ⟨w, f, hend⟩
  have hopen : ∀ q ∈ pipePages k, ∀ v,
      (((k.clearFile f).closeEnd pi w).pipes q).isOpen v = true ↔
        ∃ g, IsEnd ((k.clearFile f).closeEnd pi w) q v g := by
    intro q hq v
    by_cases hqv : q = pi ∧ v = w
    · obtain ⟨rfl, rfl⟩ := hqv
      rw [closeEnd_isOpen_self]
      refine ⟨fun hc => absurd hc (by decide), fun ⟨g, hg⟩ => ?_⟩
      exact absurd (h.unique q v g f ((hiff q v g).mp hg).1 hend) ((hiff q v g).mp hg).2
    · rw [closeEnd_isOpen_of_ne hqv]
      refine (h.isOpen q hq v).trans ⟨fun ⟨g, hg⟩ => ⟨g, (hiff q v g).mpr ⟨hg, ?_⟩⟩,
        fun ⟨g, hg⟩ => ⟨g, ((hiff q v g).mp hg).1⟩⟩
      rintro rfl
      exact hqv ⟨hg.2.1.symm.trans hend.2.1, hg.2.2.symm.trans hend.2.2⟩
  have hsub : ∀ q ∈ pipePages ((k.clearFile f).closeEnd pi w), q ∈ pipePages k :=
    fun q ⟨v, g, hg⟩ => ⟨v, g, ((hiff q v g).mp hg).1⟩
  refine ⟨⟨clearFile_ref_eq h hf href, clearFile_free h, fun q v g g' hg hg' => ?_,
    fun q hq v => hopen q (hsub q hq) v⟩, ⟨fun hc hq => ?_, fun hq => ?_⟩, fun q hq => ⟨hsub q, ?_⟩⟩
  · exact h.unique q v g g' ((hiff q v g).mp hg).1 ((hiff q v g').mp hg').1
  · obtain ⟨v, g, hg⟩ := hq
    have := (hopen pi hin v).mpr ⟨g, hg⟩
    cases v
    · exact absurd (hc.1.symm.trans this) (by decide)
    · exact absurd (hc.2.symm.trans this) (by decide)
  · have hall : ∀ v, (((k.clearFile f).closeEnd pi w).pipes pi).isOpen v = false := fun v => by
      rw [← Bool.not_eq_true, hopen pi hin v]
      exact fun ⟨g, hg⟩ => hq ⟨v, g, hg⟩
    exact ⟨hall false, hall true⟩
  · rintro ⟨v, g, hg⟩
    refine ⟨v, g, (hiff q v g).mpr ⟨hg, ?_⟩⟩
    rintro rfl
    exact hq (hg.2.1.symm.trans hend.2.1)

/-- The kernel with another process table. -/
def Kern.withProcs (k : Kern) (procs : Slot → Proc) : Kern := { k with procs := procs }

/-- What closing files leaves alone. -/
structure SameProcs (k k' : Kern) : Prop where
  procs : k'.procs = k.procs
  initproc : k'.initproc = k.initproc

theorem SameProcs.refl (k : Kern) : SameProcs k k := ⟨rfl, rfl⟩

theorem SameProcs.trans {k k' k'' : Kern} (h : SameProcs k k') (h' : SameProcs k' k'') :
    SameProcs k k'' := ⟨h'.procs.trans h.procs, h'.initproc.trans h.initproc⟩

/-- Closing the last reference of a pipe's end frees the pipe exactly when the other end is closed. -/
theorem pipeclose_spec {P : Slot → Proc} (h : Inv (k.withProcs P) l own extra) (hf : 0 < extra f)
    (href : (k.ftable f).ref = 1) (hend : IsEnd k pi w f) :
    Code.wp (pipeclose pi w) (fun _ k' => SameProcs (k.clearFile f) k' ∧ ∃ l' own',
      Inv (k'.withProcs P) l' own' (dec extra f)) (k.clearFile f) := by
  obtain ⟨hfiles, hclosed, hpages⟩ :=
    FilesOk.closePipe (k := k.withProcs P) (f := f) h.files hf href hend
  have hin : pi ∈ pipePages (k.withProcs P) := ⟨w, f, hend⟩
  have hown : pi ∈ own .pipes := h.pipes ▸ hin
  suffices hrest : Code.wp (do
      let k ← Code.get
      if (k.pipes pi).readopen = false ∧ (k.pipes pi).writeopen = false then vm (kfree pi)
      else pure ()) (fun _ k' => SameProcs (k.clearFile f) k' ∧ ∃ l' own',
        Inv (k'.withProcs P) l' own' (dec extra f)) ((k.clearFile f).closeEnd pi w) by
    cases w <;> exact hrest
  simp only [Code.wp_bind, Code.wp_get, Code.wp_ite, Code.wp_pure, vm, Code.wp_zoom]
  refine ⟨fun hc => ?_, fun hc => ⟨⟨rfl, rfl⟩, ?_⟩⟩
  · have hfree := hclosed.mp hc
    refine Code.wp_mono (kfree_spec (h.parts.heap_of .pipes) hown) ?_
    rintro - s' ⟨heff, -⟩
    refine ⟨⟨rfl, rfl⟩, pi :: l, _, h.changePipes _ ?_ rfl rfl rfl rfl
      (hfiles.congr ⟨rfl, rfl, rfl, rfl, rfl⟩ fun _ => rfl)⟩
    have hset : own .pipes \ {pi} = pipePages (((k.withProcs P).clearFile f).closeEnd pi w) := by
      ext q
      by_cases hq : q = pi
      · subst hq
        exact ⟨fun hx => absurd rfl hx.2, fun hx => absurd hx hfree⟩
      · rw [hpages q hq, h.pipes]
        exact ⟨And.left, fun hx => ⟨hx, hq⟩⟩
    rw [hset] at heff
    exact heff
  · have hkeep : pi ∈ pipePages (((k.withProcs P).clearFile f).closeEnd pi w) := by
      by_contra hq
      exact hc (hclosed.mpr hq)
    have hset : own .pipes = pipePages (((k.withProcs P).clearFile f).closeEnd pi w) := by
      rw [h.pipes]
      ext q
      by_cases hq : q = pi
      · subst hq
        exact ⟨fun _ => hkeep, fun _ => hin⟩
      · exact (hpages q hq).symm
    refine ⟨l, _, h.changePipes (((k.withProcs P).clearFile f).closeEnd pi w) ?_ rfl rfl rfl rfl hfiles⟩
    rw [← hset]
    exact .refl (h.parts.heap_of .pipes)

theorem fileclose_spec {P : Slot → Proc} (h : Inv (k.withProcs P) l own extra) (hf : 0 < extra f) :
    Code.wp (fileclose f) (fun _ k' => SameProcs k k' ∧ ∃ l' own',
      Inv (k'.withProcs P) l' own' (dec extra f)) k := by
  have href : (k.ftable f).ref = refs (opened (k.withProcs P)) f + extra f := h.files.ref_eq f
  simp only [fileclose, setFile, Code.wp_bind, Code.wp_get, Code.wp_ite, Code.wp_panic,
    Code.wp_modify]
  refine ⟨fun h1 => absurd h1 (by omega), fun _ => ⟨fun hmany => ?_, fun hone => ?_⟩⟩
  · exact ⟨⟨rfl, rfl⟩, l, own, Inv.drop (k := k.withProcs P) h hf hmany⟩
  · have h1 : (k.ftable f).ref = 1 := by omega
    refine ⟨fun hpipe => ?_, fun hno => ⟨⟨rfl, rfl⟩, l, own, ?_⟩⟩
    · refine Code.wp_mono (pipeclose_spec h hf h1 ⟨hpipe, rfl, rfl⟩) ?_
      rintro - k' ⟨hs, hinv⟩
      exact ⟨⟨hs.procs, hs.initproc⟩, hinv⟩
    · exact Inv.clearFile (k := k.withProcs P) h hf h1 hno

end close

/-! ### Opening -/

section opening

variable {k : Kern} {l : List ℕ} {own : Party → Set ℕ} {extra : FileId → ℕ} {f : FileId}
  {p : Slot}

theorem filealloc_spec (h : Inv k l own extra) :
    Code.wp filealloc (fun r k' => SameProcs k k' ∧
      ((r = none ∧ k' = k) ∨ ∃ f, r = some f ∧ (k.ftable f).ref = 0 ∧ (k.ftable f).type = .FD_NONE ∧
        k' = k.setRef f 1 ∧ Inv k' l own (inc extra f))) k := by
  rw [filealloc, Code.wp_bind, Code.wp_get]
  cases hfind : (List.finRange NFILE).find? (fun f => (k.ftable f).ref = 0) with
  | none => exact ⟨.refl k, .inl ⟨rfl, rfl⟩⟩
  | some f =>
    have h0 : (k.ftable f).ref = 0 := by
      have hprop := List.find?_some hfind
      exact of_decide_eq_true hprop
    have hinv : Inv (k.setRef f ((k.ftable f).ref + 1)) l own (inc extra f) := h.dup
    rw [h0] at hinv
    exact ⟨⟨rfl, rfl⟩, .inr ⟨f, rfl, h0, h.files.free f h0, rfl, hinv⟩⟩

theorem fdalloc_spec :
    Code.wp (fdalloc p f) (fun r k' => (r = none ∧ k' = k) ∨
      ∃ fd, r = some fd ∧ (k.procs p).ofile fd = none ∧ k' = k.setFd p fd (some f)) k := by
  rw [fdalloc, Code.wp_bind, Code.wp_get]
  cases hfind : (List.finRange NOFILE).find? (fun fd => (k.procs p).ofile fd = none) with
  | none => exact .inl ⟨rfl, rfl⟩
  | some fd =>
    have hnone : (k.procs p).ofile fd = none := by
      have hprop := List.find?_some hfind
      exact of_decide_eq_true hprop
    exact .inr ⟨fd, rfl, hnone, rfl⟩

theorem argfd_spec {n : ℤ} :
    Code.wp (argfd p n) (fun r k' => k' = k ∧
      (r = none ∨ ∃ fd f, r = some (fd, f) ∧ (k.procs p).ofile fd = some f)) k := by
  rw [argfd, Code.wp_bind, Code.wp_get]
  split
  · rw [Code.wp_pure]
    refine ⟨rfl, ?_⟩
    cases hf : (k.procs p).ofile ⟨n.toNat, by omega⟩ with
    | none => exact .inl rfl
    | some f => exact .inr ⟨_, f, rfl, hf⟩
  · exact ⟨rfl, .inl rfl⟩

/-- The file `f` becomes an end of a new pipe. -/
def Kern.setEnd (k : Kern) (f : FileId) (pi : ℕ) (w : Bool) : Kern :=
  { k with ftable := Function.update k.ftable f
             ({ k.ftable f with type := .FD_PIPE, readable := !w, writable := w, pipe := pi }) }

/-- A pipe with both ends open appears at `pi`. -/
def Kern.openPipe (k : Kern) (pi : ℕ) : Kern :=
  { k with pipes := Function.update k.pipes pi { readopen := true, writeopen := true } }

variable {pi : ℕ} {w : Bool}

theorem isEnd_setEnd {q : ℕ} {v : Bool} {g : FileId} :
    IsEnd (k.setEnd f pi w) q v g ↔ (g = f ∧ q = pi ∧ v = w) ∨ (g ≠ f ∧ IsEnd k q v g) := by
  unfold IsEnd Kern.setEnd
  by_cases hg : g = f
  · subst hg
    simp
    exact ⟨fun h => ⟨h.1.symm, h.2.symm⟩, fun h => ⟨h.1.symm, h.2.symm⟩⟩
  · simp [hg]

theorem setEnd_ref (g : FileId) : ((k.setEnd f pi w).ftable g).ref = (k.ftable g).ref := by
  unfold Kern.setEnd
  by_cases hg : g = f
  · subst hg
    simp
  · simp [Function.update_of_ne hg]

theorem setEnd_type_of_ne {g : FileId} (hg : g ≠ f) :
    ((k.setEnd f pi w).ftable g).type = (k.ftable g).type := by
  unfold Kern.setEnd
  simp [Function.update_of_ne hg]

theorem FilesOk.newPipe {f0 f1 : FileId} (h : FilesOk k extra) (hne : f0 ≠ f1)
    (ht0 : (k.ftable f0).type = .FD_NONE) (ht1 : (k.ftable f1).type = .FD_NONE)
    (hr0 : (k.ftable f0).ref ≠ 0) (hr1 : (k.ftable f1).ref ≠ 0) (hpi : pi ∉ pipePages k) :
    FilesOk (((k.openPipe pi).setEnd f0 pi false).setEnd f1 pi true) extra ∧
    pipePages (((k.openPipe pi).setEnd f0 pi false).setEnd f1 pi true) = insert pi (pipePages k) := by
  have hno0 : ∀ q v, ¬ IsEnd k q v f0 := fun q v he => by
    rw [IsEnd, ht0] at he
    exact absurd he.1 (by decide)
  have hno1 : ∀ q v, ¬ IsEnd k q v f1 := fun q v he => by
    rw [IsEnd, ht1] at he
    exact absurd he.1 (by decide)
  -- the ends are the old ones and the two new files
  have hiff : ∀ q v g, IsEnd (((k.openPipe pi).setEnd f0 pi false).setEnd f1 pi true) q v g ↔
      (q = pi ∧ ((g = f0 ∧ v = false) ∨ (g = f1 ∧ v = true))) ∨ IsEnd k q v g := by
    intro q v g
    rw [isEnd_setEnd, isEnd_setEnd]
    show _ ∨ (_ ∧ (_ ∨ (_ ∧ IsEnd k q v g))) ↔ _
    constructor
    · intro hx
      rcases hx with ⟨rfl, rfl, rfl⟩ | ⟨-, ⟨rfl, rfl, rfl⟩ | ⟨-, hx⟩⟩
      · exact .inl ⟨rfl, .inr ⟨rfl, rfl⟩⟩
      · exact .inl ⟨rfl, .inl ⟨rfl, rfl⟩⟩
      · exact .inr hx
    · intro hx
      rcases hx with ⟨rfl, ⟨rfl, rfl⟩ | ⟨rfl, rfl⟩⟩ | hx
      · exact .inr ⟨hne, .inl ⟨rfl, rfl, rfl⟩⟩
      · exact .inl ⟨rfl, rfl, rfl⟩
      · have hg1 : g ≠ f1 := fun he => hno1 q v (he ▸ hx)
        have hg0 : g ≠ f0 := fun he => hno0 q v (he ▸ hx)
        exact .inr ⟨hg1, .inr ⟨hg0, hx⟩⟩
  have hold : ∀ v g, ¬ IsEnd k pi v g := fun v g he => hpi ⟨v, g, he⟩
  have hpages : pipePages (((k.openPipe pi).setEnd f0 pi false).setEnd f1 pi true) =
      insert pi (pipePages k) := by
    ext q
    constructor
    · intro hq
      obtain ⟨v, g, hg⟩ := hq
      rcases (hiff q v g).mp hg with ⟨rfl, -⟩ | hg
      · exact .inl rfl
      · exact .inr ⟨v, g, hg⟩
    · intro hq
      rcases hq with rfl | ⟨v, g, hg⟩
      · exact ⟨false, f0, (hiff q false f0).mpr (.inl ⟨rfl, .inl ⟨rfl, rfl⟩⟩)⟩
      · exact ⟨v, g, (hiff q v g).mpr (.inr hg)⟩
  refine ⟨⟨fun g => ?_, fun g hg => ?_, fun q v g g' hg hg' => ?_, fun q hq v => ?_⟩, hpages⟩
  · rw [setEnd_ref, setEnd_ref]
    exact h.ref_eq g
  · rw [setEnd_ref, setEnd_ref] at hg
    have hg1 : g ≠ f1 := fun he => hr1 (he ▸ hg)
    have hg0 : g ≠ f0 := fun he => hr0 (he ▸ hg)
    rw [setEnd_type_of_ne hg1, setEnd_type_of_ne hg0]
    exact h.free g hg
  · rcases (hiff q v g).mp hg with ⟨rfl, hv⟩ | ho <;> rcases (hiff _ v g').mp hg' with ⟨hq', hv'⟩ | ho'
    · rcases hv with ⟨rfl, rfl⟩ | ⟨rfl, rfl⟩ <;> rcases hv' with ⟨rfl, hb⟩ | ⟨rfl, hb⟩
      · rfl
      · exact absurd hb (by decide)
      · exact absurd hb (by decide)
      · rfl
    · exact absurd ho' (hold v g')
    · exact absurd (hq' ▸ ho) (hold v g)
    · exact h.unique q v g g' ho ho'
  · by_cases hqp : q = pi
    · subst hqp
      have hopen : ((((k.openPipe q).setEnd f0 q false).setEnd f1 q true).pipes q).isOpen v = true := by
        show (Function.update k.pipes q { readopen := true, writeopen := true } q).isOpen v = true
        rw [Function.update_self]
        cases v <;> rfl
      rw [hopen]
      refine ⟨fun _ => ?_, fun _ => rfl⟩
      cases v
      · exact ⟨f0, (hiff q false f0).mpr (.inl ⟨rfl, .inl ⟨rfl, rfl⟩⟩)⟩
      · exact ⟨f1, (hiff q true f1).mpr (.inl ⟨rfl, .inr ⟨rfl, rfl⟩⟩)⟩
    · have hq' : q ∈ pipePages k := by
        rw [hpages] at hq
        exact hq.resolve_left hqp
      have hsame : (((k.openPipe pi).setEnd f0 pi false).setEnd f1 pi true).pipes q = k.pipes q :=
        Function.update_of_ne hqp ..
      rw [hsame, h.isOpen q hq' v]
      refine ⟨fun ⟨g, hg⟩ => ⟨g, (hiff q v g).mpr (.inr hg)⟩, fun ⟨g, hg⟩ => ⟨g, ?_⟩⟩
      exact ((hiff q v g).mp hg).resolve_left fun hx => hqp hx.1

end opening

end Xv6.Kernel
