import Xv6.Kernel.FileSpec

/-!
# The system calls on open files

`pipealloc`, `dup`, `close`, `open` and `pipe` keep the invariant, on every way out.
-/

namespace Xv6.Kernel

open Lib (Bytes Code refs)
open Mem

/-- A process that has not exited. -/
def Running (x : Proc) : Prop := x.state ≠ .unused ∧ x.state ≠ .zombie

section calls

variable {k : Kern} {l : List ℕ} {own : Party → Set ℕ} {extra : FileId → ℕ} {f : FileId}
  {p : Slot}

theorem Inv.space (h : Inv k l own extra) (hp : (k.procs p).state ≠ .unused) :
    ∃ A, (k.procs p).pagetable = A.root ∧
      User (procLayout k.trampoline (k.procs p).trapframe) k.phys l A (npages (k.procs p).sz) ∧
      (k.procs p).trapframe ∉ A.footprint (npages (k.procs p).sz) ∧
      own (.proc p) = insert (k.procs p).trapframe (A.footprint (npages (k.procs p).sz)) := by
  rcases h.proc p with hidle | hspace
  · exact absurd hidle.1 ((h.shape p).active hp)
  · exact hspace

theorem copyout_inv {addr src len : ℕ} {source : Bytes} (h : Inv k l own extra)
    (hp : (k.procs p).state ≠ .unused) :
    Code.wp (vm (copyout (k.procs p).pagetable addr source src len)) (fun _ k' => SameProcs k k' ∧
      ∃ l' own', Inv k' l' own' extra) k := by
  obtain ⟨A, hroot, hu, hfresh, hown⟩ := h.space hp
  rw [vm, Code.wp_zoom, hroot]
  apply Code.wp_mono (copyout_spec hu)
  intro r s' hres
  have hheap := h.parts.heap_of (.proc p)
  rw [hown, ← Set.union_singleton] at hheap
  have heff := hres.eff.frame_union (hheap.subset Set.subset_union_right) (by
    intro pa hpa hin
    rw [Set.mem_singleton_iff.mp hpa] at hin
    exact hfresh hin)
  rw [Set.union_singleton, ← hown] at heff
  have hinv := h.change { k with phys := s' } p heff ⟨rfl, rfl, rfl, rfl, rfl⟩ (fun _ _ => rfl)
    (.inr ⟨A, hroot, hres.user, hfresh, hown⟩) (h.shape p) rfl
  rw [Function.update_eq_self] at hinv
  exact ⟨⟨rfl, rfl⟩, l, own, hinv⟩

theorem fileclose_inv (h : Inv k l own (inc extra f)) :
    Code.wp (fileclose f) (fun _ k' => SameProcs k k' ∧ ∃ l' own', Inv k' l' own' extra) k := by
  have hf : 0 < inc extra f f := by
    rw [inc, Function.update_self]
    omega
  apply Code.wp_mono (fileclose_spec (P := k.procs) h hf)
  intro _ k' hres
  obtain ⟨hs, l', own', hinv⟩ := hres
  rw [dec_inc, ← hs.procs] at hinv
  exact ⟨hs, l', own', hinv⟩

/-- Closing both files of a pipe that nobody got to know. -/
theorem fileclose_both {α : Type} {f g : FileId} {K : KCode α} {R : α → Kern → Prop} (hfg : f ≠ g)
    (h : Inv k l own (inc (inc extra f) g))
    (hK : ∀ k' l' own', SameProcs k k' → Inv k' l' own' extra → Code.wp K R k') :
    Code.wp (do
      fileclose f
      fileclose g
      K) R k := by
  rw [Code.wp_bind]
  have hswap : inc (inc extra f) g = inc (inc extra g) f := by
    unfold inc
    rw [Function.update_of_ne hfg.symm, Function.update_of_ne hfg, Function.update_comm hfg.symm]
  rw [hswap] at h
  apply Code.wp_mono (fileclose_inv h)
  intro _ k1 hres
  obtain ⟨hs1, l1, own1, h1⟩ := hres
  rw [Code.wp_bind]
  apply Code.wp_mono (fileclose_inv h1)
  intro _ k2 hres
  obtain ⟨hs2, l2, own2, h2⟩ := hres
  exact hK k2 l2 own2 (hs1.trans hs2) h2

/-- `pipealloc` returns the two ends of a new pipe, or leaves everything as it was. -/
theorem pipealloc_spec (h : Inv k l own extra) :
    Code.wp pipealloc (fun r k' => SameProcs k k' ∧ ∃ l' own',
      (r = none ∧ Inv k' l' own' extra) ∨
      ∃ rf wf, r = some (rf, wf) ∧ rf ≠ wf ∧ Inv k' l' own' (inc (inc extra rf) wf)) k := by
  rw [pipealloc, Code.wp_bind]
  apply Code.wp_mono (filealloc_spec h)
  intro r k1 hres
  obtain ⟨hs1, ⟨rfl, rfl⟩ | ⟨f0, rfl, -, ht0, rfl, h1⟩⟩ := hres
  · exact ⟨.refl _, l, own, .inl ⟨rfl, h⟩⟩
  dsimp only
  rw [Code.wp_bind]
  apply Code.wp_mono (filealloc_spec h1)
  intro r k2 hres
  obtain ⟨hs2, ⟨rfl, rfl⟩ | ⟨f1, rfl, hr1, ht1, rfl, h2⟩⟩ := hres
  · dsimp only
    rw [Code.wp_bind]
    apply Code.wp_mono (fileclose_inv h1)
    intro _ k3 hres
    obtain ⟨hs3, l3, own3, h3⟩ := hres
    exact ⟨hs1.trans hs3, l3, own3, .inl ⟨rfl, h3⟩⟩
  have hne : f0 ≠ f1 := by
    intro he
    rw [← he, setRef_ref_self] at hr1
    exact absurd hr1 (by decide)
  dsimp only
  rw [Code.wp_bind, vm, Code.wp_zoom]
  apply Code.wp_mono (kalloc_spec (h2.parts.heap_of .pipes))
  intro pi s' hres
  rcases hres with ⟨rfl, heff, -, -⟩ | ⟨l', rfl, heff, hnew, hpos, -⟩
  · have h3 := h2.changePipes (((k.setRef f0 1).setRef f1 1).withPhys s')
      (by rw [h2.pipes] at heff ⊢; exact heff) rfl rfl rfl rfl
      (h2.files.congr ⟨rfl, rfl, rfl, rfl, rfl⟩ fun _ => rfl)
    rw [if_pos rfl]
    apply fileclose_both hne h3
    intro k4 l4 own4 hs4 h4
    exact ⟨⟨hs4.procs, hs4.initproc⟩, l4, own4, .inl ⟨rfl, h4⟩⟩
  · rw [h2.pipes] at heff hnew
    have ht0' : (((k.setRef f0 1).setRef f1 1).ftable f0).type = .FD_NONE := by
      rw [(sameKinds_setRef _ f1 1 f0).1, (sameKinds_setRef k f0 1 f0).1, ht0]
    have ht1' : (((k.setRef f0 1).setRef f1 1).ftable f1).type = .FD_NONE := by
      rw [(sameKinds_setRef _ f1 1 f1).1, ht1]
    have hr0' : (((k.setRef f0 1).setRef f1 1).ftable f0).ref ≠ 0 := by
      rw [setRef_ref_of_ne hne, setRef_ref_self]
      decide
    have hr1' : (((k.setRef f0 1).setRef f1 1).ftable f1).ref ≠ 0 := by
      rw [setRef_ref_self]
      decide
    obtain ⟨hfiles, hpages⟩ := h2.files.newPipe hne ht0' ht1' hr0' hr1' hnew
    rw [if_neg hpos]
    have h3 := h2.changePipes
      (((((((k.setRef f0 1).setRef f1 1).withPhys s').openPipe pi).setEnd f0 pi false).setEnd f1 pi
        true)) (by rw [h2.pipes]; exact hpages ▸ heff) rfl rfl rfl rfl
      (hfiles.congr ⟨rfl, rfl, rfl, rfl, rfl⟩ fun _ => rfl)
    exact ⟨⟨rfl, rfl⟩, l', _, .inr ⟨f0, f1, rfl, hne, h3⟩⟩

/-- The invariant with some free list and division of RAM, while running code holds no file. -/
def Good (k : Kern) : Prop := ∃ l own, Inv k l own fun _ => 0

theorem Inv.good (h : Inv k l own fun _ => 0) : Good k := ⟨l, own, h⟩

variable {fd : Fd} {type : FdType} {readable writable : Bool} {v : Option FileId}

/-- Running code gives the reference that it got last. -/
theorem Inv.giveInc (h : Inv k l own (inc extra f)) (hfd : (k.procs p).ofile fd = none)
    (hp : Running (k.procs p)) : Inv (k.setFd p fd (some f)) l own extra := by
  have hgive := h.give hfd (by rw [inc, Function.update_self]; omega) hp
  rwa [dec_inc] at hgive

theorem sys_dup_spec {n : ℤ} (h : Good k) (hp : Running (k.procs p)) :
    Code.wp (sys_dup p n) (fun _ k' => Good k') k := by
  obtain ⟨l, own, h⟩ := h
  rw [sys_dup, Code.wp_bind]
  apply Code.wp_mono argfd_spec
  intro r k1 hres
  obtain ⟨rfl, rfl | ⟨fd, f, rfl, hfd⟩⟩ := hres
  · exact h.good
  dsimp only
  rw [Code.wp_bind]
  apply Code.wp_mono fdalloc_spec
  intro r k2 hres
  rcases hres with ⟨rfl, rfl⟩ | ⟨fd', rfl, hnone, rfl⟩
  · exact h.good
  have href : ¬ ((k1.setFd p fd' (some f)).ftable f).ref < 1 := by
    have hpos : 0 < refs (opened k1) f := Lib.refs_pos (i := (p, fd)) hfd
    have heq := h.files.ref_eq f
    show ¬ (k1.ftable f).ref < 1
    omega
  -- the order of the two updates does not matter: count first, then hand over
  have hdup : Inv (k1.setRef f ((k1.ftable f).ref + 1)) l own (inc (fun _ => 0) f) := h.dup
  have hgive := hdup.giveInc hnone hp
  simp only [filedup, setFile, Code.wp_bind, Code.wp_get, Code.wp_ite, Code.wp_panic,
    Code.wp_modify, Code.wp_pure]
  exact ⟨fun hlt => href hlt, fun _ => ⟨l, own, hgive⟩⟩

theorem sys_close_spec {n : ℤ} (h : Good k) : Code.wp (sys_close p n) (fun _ k' => Good k') k := by
  obtain ⟨l, own, h⟩ := h
  rw [sys_close, Code.wp_bind]
  apply Code.wp_mono argfd_spec
  intro r k1 hres
  obtain ⟨rfl, rfl | ⟨fd, f, rfl, hfd⟩⟩ := hres
  · exact h.good
  have htake := h.take hfd
  dsimp only
  rw [Code.wp_bind, clearFd, setProc, Code.wp_modify, Code.wp_bind]
  apply Code.wp_mono (fileclose_inv htake)
  intro _ k2 hres
  obtain ⟨-, l2, own2, h2⟩ := hres
  exact h2.good

/-- The kernel after a file got its type. -/
def Kern.setType (k : Kern) (f : FileId) (type : FdType) (readable writable : Bool) : Kern :=
  { k with ftable := Function.update k.ftable f
             ({ k.ftable f with type := type, readable := readable, writable := writable }) }

theorem setType_of_ne {g : FileId} (hg : g ≠ f) :
    (k.setType f type readable writable).ftable g = k.ftable g := Function.update_of_ne hg ..

theorem setType_self :
    (k.setType f type readable writable).ftable f =
      { k.ftable f with type := type, readable := readable, writable := writable } :=
  Function.update_self ..

theorem Inv.setType (h : Inv k l own extra) (ht : type ≠ .FD_PIPE)
    (hold : (k.ftable f).type ≠ .FD_PIPE) (href : (k.ftable f).ref ≠ 0) :
    Inv (k.setType f type readable writable) l own extra := by
  have hend : ∀ pi w g, IsEnd (k.setType f type readable writable) pi w g ↔ IsEnd k pi w g := by
    intro pi w g
    unfold IsEnd
    by_cases hg : g = f
    · subst hg
      rw [setType_self]
      simp [ht, hold]
    · rw [setType_of_ne hg]
  have hpages : pipePages (k.setType f type readable writable) = pipePages k := by
    ext pi
    simp only [pipePages, hend]
  refine ⟨h.parts, h.kernel, h.proc, h.pipes.trans hpages.symm, h.shape,
    ⟨fun g => ?_, fun g hg => ?_, fun pi w g g' => ?_, fun pi hpi w => ?_⟩, h.trampoline⟩
  · have heq := h.files.ref_eq g
    by_cases hg : g = f
    · subst hg
      rw [setType_self]
      exact heq
    · rw [setType_of_ne hg]
      exact heq
  · by_cases hgf : g = f
    · subst hgf
      rw [setType_self] at hg
      exact absurd hg href
    · rw [setType_of_ne hgf] at hg ⊢
      exact h.files.free g hg
  · rw [hend, hend]
    exact h.files.unique pi w g g'
  · simp only [hend]
    exact h.files.isOpen pi (hpages ▸ hpi) w

theorem sys_open_spec (h : Good k) (hp : Running (k.procs p)) (ht : type ≠ .FD_PIPE) :
    Code.wp (sys_open p type readable writable) (fun _ k' => Good k') k := by
  obtain ⟨l, own, h⟩ := h
  rw [sys_open, Code.wp_bind]
  apply Code.wp_mono (filealloc_spec h)
  intro r k1 hres
  obtain ⟨hs1, ⟨rfl, rfl⟩ | ⟨f, rfl, -, ht0, rfl, h1⟩⟩ := hres
  · exact h.good
  dsimp only
  rw [Code.wp_bind]
  apply Code.wp_mono fdalloc_spec
  intro r k2 hres
  rcases hres with ⟨rfl, rfl⟩ | ⟨fd, rfl, hnone, rfl⟩
  · dsimp only
    rw [Code.wp_bind]
    apply Code.wp_mono (fileclose_inv h1)
    intro _ k3 hres
    obtain ⟨-, l3, own3, h3⟩ := hres
    exact h3.good
  · have hgive := h1.giveInc hnone hp
    dsimp only
    rw [Code.wp_bind, setFile, Code.wp_modify]
    refine ⟨l, own, hgive.setType ht ?_ ?_⟩
    · show ((k.setRef f 1).ftable f).type ≠ .FD_PIPE
      rw [(sameKinds_setRef k f 1 f).1, ht0]
      decide
    · show ((k.setRef f 1).ftable f).ref ≠ 0
      rw [setRef_ref_self]
      decide

theorem setFd_ofile_self : ((k.setFd p fd v).procs p).ofile fd = v := by
  rw [setFd_procs_self]
  exact Function.update_self ..

theorem setFd_ofile_of_ne {fd' : Fd} (h : fd' ≠ fd) :
    ((k.setFd p fd v).procs p).ofile fd' = (k.procs p).ofile fd' := by
  rw [setFd_procs_self]
  exact Function.update_of_ne h ..

theorem setFd_state {q : Slot} : ((k.setFd p fd v).procs q).state = (k.procs q).state := by
  by_cases hq : q = p
  · rw [hq, setFd_procs_self]
  · rw [setFd_procs_of_ne hq]

theorem setFd_cwd {q : Slot} : ((k.setFd p fd v).procs q).cwd = (k.procs q).cwd := by
  by_cases hq : q = p
  · rw [hq, setFd_procs_self]
  · rw [setFd_procs_of_ne hq]

/-- The way out of `sys_pipe` when the descriptors cannot be delivered. -/
theorem undo_pipe {fd0 fd1 : Fd} {rf wf : FileId} (h : Inv k l own fun _ => 0) (hfd : fd0 ≠ fd1)
    (hne : rf ≠ wf) (h0 : (k.procs p).ofile fd0 = some rf) (h1 : (k.procs p).ofile fd1 = some wf) :
    Code.wp (do
      clearFd p fd0
      clearFd p fd1
      fileclose rf
      fileclose wf
      return (-1 : ℤ)) (fun _ k' => Good k') k := by
  have ht0 := h.take h0
  have hfd1 : ((k.setFd p fd0 none).procs p).ofile fd1 = some wf := by
    rwa [setFd_ofile_of_ne hfd.symm]
  have ht1 := ht0.take hfd1
  rw [Code.wp_bind, clearFd, setProc, Code.wp_modify, Code.wp_bind, clearFd, setProc,
    Code.wp_modify]
  apply fileclose_both hne ht1
  intro k' l' own' _ h'
  exact h'.good

theorem sys_pipe_spec {fdarray : ℕ} (h : Good k) (hp : Running (k.procs p)) :
    Code.wp (sys_pipe p fdarray) (fun _ k' => Good k') k := by
  obtain ⟨l, own, h⟩ := h
  rw [sys_pipe, Code.wp_bind]
  apply Code.wp_mono (pipealloc_spec h)
  intro r k1 hres
  obtain ⟨hs1, l1, own1, ⟨rfl, h1⟩ | ⟨rf, wf, rfl, hne, h1⟩⟩ := hres
  · exact h1.good
  have hp1 : Running (k1.procs p) := by rwa [hs1.procs]
  dsimp only
  rw [Code.wp_bind]
  apply Code.wp_mono fdalloc_spec
  intro r k2 hres
  rcases hres with ⟨rfl, rfl⟩ | ⟨fd0, rfl, hnone0, rfl⟩
  · apply fileclose_both hne h1
    intro k3 l3 own3 _ h3
    exact h3.good
  -- the read end goes to `fd0`
  have hswap : inc (inc (fun _ => 0) rf) wf = inc (inc (fun _ => 0) wf) rf := by
    unfold inc
    rw [Function.update_of_ne hne.symm, Function.update_of_ne hne, Function.update_comm hne.symm]
  have h2 : Inv (k1.setFd p fd0 (some rf)) l1 own1 (inc (fun _ => 0) wf) := by
    rw [hswap] at h1
    exact h1.giveInc hnone0 hp1
  have hp2 : Running ((k1.setFd p fd0 (some rf)).procs p) := by
    unfold Running
    rwa [setFd_state]
  dsimp only
  rw [Code.wp_bind]
  apply Code.wp_mono fdalloc_spec
  intro r k3 hres
  rcases hres with ⟨rfl, rfl⟩ | ⟨fd1, rfl, hnone1, rfl⟩
  · have hfd0 : ((k1.setFd p fd0 (some rf)).procs p).ofile fd0 = some rf := setFd_ofile_self
    have htake := h2.take hfd0
    rw [← hswap] at htake
    dsimp only
    rw [Code.wp_bind, clearFd, setProc, Code.wp_modify]
    apply fileclose_both hne htake
    intro k4 l4 own4 _ h4
    exact h4.good
  have h3 : Inv ((k1.setFd p fd0 (some rf)).setFd p fd1 (some wf)) l1 own1 (fun _ => 0) :=
    h2.giveInc hnone1 hp2
  have hfd : fd0 ≠ fd1 := by
    intro he
    rw [← he, setFd_ofile_self] at hnone1
    exact absurd hnone1 (by simp)
  have hu3 : (((k1.setFd p fd0 (some rf)).setFd p fd1 (some wf)).procs p).state ≠ .unused := by
    rw [setFd_state]
    exact hp2.1
  have hof0 : (((k1.setFd p fd0 (some rf)).setFd p fd1 (some wf)).procs p).ofile fd0 = some rf := by
    rw [setFd_ofile_of_ne hfd, setFd_ofile_self]
  have hof1 : (((k1.setFd p fd0 (some rf)).setFd p fd1 (some wf)).procs p).ofile fd1 = some wf :=
    setFd_ofile_self
  dsimp only
  generalize (k1.setFd p fd0 (some rf)).setFd p fd1 (some wf) = k3 at h3 hu3 hof0 hof1
  rw [Code.wp_bind, Code.wp_get, Code.wp_bind]
  apply Code.wp_mono (copyout_inv h3 hu3)
  intro r k4 hres
  obtain ⟨hs4, l4, own4, h4⟩ := hres
  rw [← hs4.procs] at hu3 hof0 hof1 ⊢
  by_cases hr : r < 0
  · rw [if_pos hr, Code.wp_bind, Code.wp_pure, if_pos hr]
    exact undo_pipe h4 hfd hne hof0 hof1
  · rw [if_neg hr, Code.wp_bind]
    apply Code.wp_mono (copyout_inv h4 hu3)
    intro r' k5 hres
    obtain ⟨hs5, l5, own5, h5⟩ := hres
    rw [← hs5.procs] at hof0 hof1
    by_cases hr' : r' < 0
    · rw [if_pos hr']
      exact undo_pipe h5 hfd hne hof0 hof1
    · rw [if_neg hr']
      exact h5.good

end calls

end Xv6.Kernel
