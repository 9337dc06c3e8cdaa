import Xv6.Kernel.FileCalls
import Xv6.Kernel.ProcSpec

/-!
# The system calls on processes

`sbrk`, `fork`, `exit`, `wait` and `kill` keep the invariant, whichever calls of `kalloc` fail. A
process that cannot be completed is given back by `freeproc`, in whatever state it was left.
-/

namespace Xv6.Kernel

open Lib (Bytes Code refs)
open Mem

/-- Only process `p` and physical memory changed. -/
structure Local (k : Kern) (p : Slot) (k' : Kern) : Prop where
  procs : ∀ q, q ≠ p → k'.procs q = k.procs q
  ftable : k'.ftable = k.ftable
  iref : k'.iref = k.iref
  initproc : k'.initproc = k.initproc

variable {p : Slot}

theorem Local.trans {k k' k'' : Kern} (h : Local k p k') (h' : Local k' p k'') : Local k p k'' :=
  ⟨fun q hq => (h'.procs q hq).trans (h.procs q hq), h'.ftable.trans h.ftable, h'.iref.trans h.iref,
    h'.initproc.trans h.initproc⟩

/-- What a failed attempt to make a process leaves: all but the unused slots as it was. -/
structure Undone (k : Kern) (l : List ℕ) (k' : Kern) (l' : List ℕ) : Prop where
  procs : ∀ q, (k.procs q).state ≠ .unused → k'.procs q = k.procs q
  ftable : k'.ftable = k.ftable
  iref : k'.iref = k.iref
  eff : Effect k.phys l ∅ k'.phys l' ∅

theorem Local.undone {k k' : Kern} {l l' : List ℕ} (h : Local k p k')
    (hp : (k.procs p).state = .unused) (heff : Effect k.phys l ∅ k'.phys l' ∅) : Undone k l k' l' :=
  ⟨fun q hq => h.procs q fun he => hq (he ▸ hp), h.ftable, h.iref, heff⟩

/-- A slot after `freeproc`. -/
def freed (x : Proc) : Proc :=
  { x with pagetable := 0, sz := 0, pid := 0, parent := none, name := [], killed := false, xstate := 0,
           state := .unused, trapframe := 0 }

section free

variable {k : Kern} {l : List ℕ} {own : Party → Set ℕ} {extra : FileId → ℕ} {p : Slot} {T : Set ℕ}

theorem freeproc_spec (hm : ProcMem k.trampoline k.phys l (k.procs p) T) (hh : Heap k.phys l T) :
    Code.wp (freeproc p) (fun _ k' => ∃ s' l', Effect k.phys l T s' l' ∅ ∧
      k' = (k.withPhys s').setSlot p (freed (k.procs p))) k := by
  simp only [freeproc, Code.wp_bind, Code.wp_get, Code.wp_ite, wp_vm, wp_setProc, setSlot_phys,
    setSlot_withPhys, withPhys_phys, setSlot_self, setSlot_setSlot, withPhys_procs,
    withPhys_withPhys]
  rcases hm with ⟨hpt, hsz, rfl⟩ | ⟨A, hroot, hu, hfresh, rfl⟩
  · refine ⟨fun htf => ?_, fun htf => ⟨fun h => absurd hpt h, fun _ => ?_⟩⟩
    · apply Code.wp_mono (kfree_spec hh ⟨rfl, htf⟩)
      intro _ s' hres
      obtain ⟨heff, -⟩ := hres
      have hempty : {pa | pa = (k.procs p).trapframe ∧ pa ≠ 0} \ {(k.procs p).trapframe} = ∅ :=
        Set.eq_empty_of_forall_notMem fun pa hpa => hpa.2 hpa.1.1
      rw [hempty] at heff
      exact ⟨fun h => absurd hpt h, fun _ => ⟨s', _, heff, rfl⟩⟩
    · refine ⟨k.phys, l, ?_, rfl⟩
      have hempty : {pa | pa = (k.procs p).trapframe ∧ pa ≠ 0} = ∅ :=
        Set.eq_empty_of_forall_notMem fun pa hpa => htf (hpa.1 ▸ hpa.2)
      rw [hempty] at hh ⊢
      exact .refl hh
  · have htf : (k.procs p).trapframe ≠ 0 := hh.pos (hh.owned _ (Set.mem_insert ..))
    have hpt : (k.procs p).pagetable ≠ 0 := by
      rw [hroot]
      exact hu.rep.root_ne
    refine ⟨fun _ => ?_, fun h => absurd htf h⟩
    apply Code.wp_mono (kfree_spec hh (Set.mem_insert ..))
    intro _ s' hres
    obtain ⟨heff, hoff⟩ := hres
    rw [Set.insert_sdiff_self_of_notMem hfresh] at heff
    have hu' : User (procLayout k.trampoline (k.procs p).trapframe) s' _ A _ :=
      ⟨hu.rep.sameOff hoff fun pa hpa he => hfresh (.inl (Set.mem_singleton_iff.mp he ▸ hpa)),
        heff.heap, hu.space⟩
    refine ⟨fun _ => ?_, fun h => absurd hpt h⟩
    rw [hroot]
    apply Code.wp_mono (proc_freepagetable_spec hu')
    intro _ s'' hres
    obtain ⟨l'', heff'⟩ := hres
    exact ⟨s'', l'', heff.trans heff', rfl⟩

variable {x : Proc} {s : Phys}

theorem Shape.freed (h : ∀ fd, x.ofile fd = none) : Shape (freed x) :=
  ⟨fun _ => ⟨rfl, rfl, rfl⟩, fun hne => absurd rfl hne, fun _ => h, nofun⟩

theorem procMem_freed {trampoline : ℕ} : ProcMem trampoline s l (freed x) ∅ := by
  refine .inl ⟨rfl, rfl, ?_⟩
  exact (Set.eq_empty_of_forall_notMem fun pa hpa => hpa.2 hpa.1).symm

/-- A process without open files is gone. -/
theorem freeproc_inv (h : Inv k l own extra) (hof : ∀ fd, (k.procs p).ofile fd = none) :
    Code.wp (freeproc p) (fun _ k' => Local k p k' ∧ ∃ l' own', Inv k' l' own' extra ∧
      Effect k.phys l (own (.proc p)) k'.phys l' ∅) k := by
  apply Code.wp_mono (freeproc_spec (h.proc p) (h.parts.heap_of (.proc p)))
  intro _ k' hres
  obtain ⟨s', l', heff, rfl⟩ := hres
  have hinv := h.change ((k.withPhys s').setSlot p (freed (k.procs p))) p heff
    ⟨rfl, rfl, rfl, rfl, rfl⟩ (fun q hq => setSlot_of_ne hq)
    (by rw [setSlot_self]; exact procMem_freed) (by rw [setSlot_self]; exact Shape.freed hof)
    (by rw [setSlot_self]; rfl)
  exact ⟨⟨fun q hq => setSlot_of_ne hq, rfl, rfl, rfl⟩, l', _, hinv, heff⟩

/-- The kernel after `allocpid`. -/
def Kern.nextPid (k : Kern) : Kern := { k with nextpid := k.nextpid + 1 }

theorem Inv.nextPid (h : Inv k l own extra) : Inv k.nextPid l own extra :=
  ⟨h.parts, h.kernel, h.proc, h.pipes, h.shape, h.files.congr ⟨rfl, rfl, rfl, rfl, rfl⟩ fun _ => rfl,
    h.trampoline⟩

theorem abandon_spec (x : Proc) {l' : List ℕ} (h : Inv k l own extra) (hown : own (.proc p) = ∅)
    (hof : x.ofile = (k.procs p).ofile) (hnone : ∀ fd, (k.procs p).ofile fd = none)
    (heff : Effect k.phys l ∅ s l' T) (hm : ProcMem k.trampoline s l' x T) :
    Code.wp (freeproc p) (fun _ k' => Local k p k' ∧ ∃ l' own', Inv k' l' own' extra ∧
      Effect k.phys l ∅ k'.phys l' ∅) ((k.withPhys s).setSlot p x) := by
  have hfree := freeproc_spec (k := (k.withPhys s).setSlot p x) (l := l') (p := p) (T := T)
    (by rw [setSlot_self]; exact hm) heff.heap
  apply Code.wp_mono hfree
  intro _ k' hres
  obtain ⟨s', l'', heff', rfl⟩ := hres
  have hall := heff.trans heff'
  rw [← hown] at heff
  simp only [setSlot_withPhys, withPhys_withPhys, setSlot_self, setSlot_setSlot]
  have hinv := h.change ((k.withPhys s').setSlot p (freed x)) p (heff.trans heff')
    ⟨rfl, rfl, rfl, rfl, rfl⟩ (fun q hq => setSlot_of_ne hq)
    (by rw [setSlot_self]; exact procMem_freed)
    (by rw [setSlot_self]; exact Shape.freed fun fd => (congrFun hof fd).trans (hnone fd))
    (by rw [setSlot_self]; exact hof)
  exact ⟨⟨fun q hq => setSlot_of_ne hq, rfl, rfl, rfl⟩, _, _, hinv, hall⟩

/-- A slot that `allocproc` is setting up. -/
def settingUp (x : Proc) (pid : ℤ) (trapframe pagetable : ℕ) : Proc :=
  { x with pid := pid, state := .used, trapframe := trapframe, pagetable := pagetable }

/-- `allocproc` sets up an unused slot, or leaves all processes as they were. -/
theorem allocproc_spec (h : Inv k l own extra) :
    Code.wp allocproc (fun r k' => k'.initproc = k.initproc ∧ ∃ l' own', Inv k' l' own' extra ∧
      ((r = none ∧ Undone k l k' l' ∧
        ((∀ q, (k.procs q).state ≠ .unused) ∨ ¬ Plenty k.phys l 4)) ∨
      ∃ np, r = some np ∧ (k.procs np).state = .unused ∧ (k'.procs np).state = .used ∧
        (k'.procs np).sz = 0 ∧ (k'.procs np).ofile = (k.procs np).ofile ∧ Local k np k' ∧
        Effect k.phys l ∅ k'.phys l' (own' (.proc np)) ∧
        ∀ m, Plenty k.phys l (m + 4) → Plenty k'.phys l' m)) k := by
  rw [allocproc, Code.wp_bind, Code.wp_get]
  cases hfind : (List.finRange NPROC).find? (fun p => (k.procs p).state = .unused) with
  | none =>
    refine ⟨rfl, l, own, h, .inl ⟨rfl, ⟨fun _ _ => rfl, rfl, rfl,
      .refl (h.parts.heap.subset (Set.empty_subset _))⟩, .inl fun q hq => ?_⟩⟩
    have hno := List.find?_eq_none.mp hfind q (List.mem_finRange q)
    exact hno (decide_eq_true hq)
  | some p =>
    have hstate : (k.procs p).state = .unused := by
      have hprop := List.find?_some hfind
      exact of_decide_eq_true hprop
    obtain ⟨hpt, htf, hsz⟩ := (h.shape p).idle hstate
    have hof := (h.shape p).closed (.inl hstate)
    -- an unused slot owns nothing
    have hown : own (.proc p) = ∅ := by
      rcases h.proc p with ⟨-, -, hT⟩ | ⟨A, hroot, hu, -, -⟩
      · rw [hT, htf]
        exact Set.eq_empty_of_forall_notMem fun pa hpa => hpa.2 hpa.1
      · exact absurd (hroot.symm.trans hpt) hu.rep.root_ne
    have hheap := h.parts.heap_of (.proc p)
    rw [hown] at hheap
    have hpid := h.nextPid
    simp only [Code.wp_bind, Code.wp_ite, Code.wp_modify, Code.wp_pure, wp_vm, wp_setProc,
      setSlot_phys, setSlot_withPhys, withPhys_phys, setSlot_self, setSlot_setSlot,
      withPhys_procs, withPhys_withPhys]
    apply Code.wp_mono (kalloc_spec hheap)
    intro tf s1 hres
    rcases hres with ⟨rfl, heff1, -, hst1⟩ | ⟨l1, rfl, heff1, -, htf1, -, hst1⟩
    · refine ⟨fun _ => ?_, fun hc => absurd rfl hc⟩
      apply Code.wp_mono (abandon_spec (settingUp (k.procs p) k.nextpid 0 (k.procs p).pagetable)
        hpid hown rfl hof heff1 (.inl ⟨hpt, hsz,
          (Set.eq_empty_of_forall_notMem fun pa hpa => hpa.2 hpa.1).symm⟩))
      intro _ k' hres
      obtain ⟨hlocal, l', own', hinv, heff⟩ := hres
      have hlocal : Local k p k' := ⟨hlocal.procs, hlocal.ftable, hlocal.iref, hlocal.initproc⟩
      exact ⟨hlocal.initproc, l', own', hinv, .inl ⟨trivial, hlocal.undone hstate heff,
        .inr fun hpl => hst1 (hpl.mono (by decide))⟩⟩
    · have hset : (insert tf ∅ : Set ℕ) = {pa | pa = tf ∧ pa ≠ 0} := by
        ext pa
        exact ⟨fun hpa => hpa.elim (fun he => ⟨he, he ▸ htf1⟩) False.elim, fun hpa => .inl hpa.1⟩
      have hram := heff1.heap.owned tf (Set.mem_insert ..)
      refine ⟨fun hc => absurd hc htf1, fun _ => ?_⟩
      have hempty : Heap s1 l1 ∅ := heff1.heap.subset (Set.empty_subset _)
      apply Code.wp_mono (proc_pagetable_spec IsLeaf (fun _ h => h) hempty h.trampoline hram.high)
      intro pt s2 hres
      rcases hres with ⟨rfl, ⟨l2, heff2⟩, hst2⟩ | ⟨l2, A, hpt2, rfl, hu, heff2, hst2⟩
      · refine ⟨fun _ => ?_, fun hc => absurd rfl hc⟩
        have heff := heff2.frame_union heff1.heap fun pa _ hin => hin
        rw [Set.empty_union] at heff
        have hall := heff1.trans heff
        rw [hset] at hall
        apply Code.wp_mono (abandon_spec (settingUp (k.procs p) k.nextpid tf 0) hpid hown rfl hof
          hall (.inl ⟨rfl, hsz, rfl⟩))
        intro _ k' hres
        obtain ⟨hlocal, l', own', hinv, heff⟩ := hres
        have hlocal : Local k p k' := ⟨hlocal.procs, hlocal.ftable, hlocal.iref, hlocal.initproc⟩
        exact ⟨hlocal.initproc, l', own', hinv, .inl ⟨trivial, hlocal.undone hstate heff,
          .inr fun hpl => hst2 (hst1 3 hpl)⟩⟩
      · refine ⟨fun hc => absurd hc hpt2, fun _ => ?_⟩
        have heff := heff2.frame_union heff1.heap fun pa _ hin => hin
        rw [Set.empty_union, Set.union_comm, Set.insert_union, Set.empty_union] at heff
        have hall := heff1.trans heff
        have hn0 : npages (k.procs p).sz = 0 := by
          rw [hsz]
          decide
        have hfresh : tf ∉ A.footprint 0 := by
          intro hin
          exact (heff2.foreign (Set.notMem_empty tf)
            (heff1.heap.disjoint tf (Set.mem_insert ..))).1 hin
        have hinv := hpid.change
          ((k.nextPid.withPhys s2).setSlot p (settingUp (k.procs p) k.nextpid tf A.root)) p
          (hown.symm ▸ hall)
          ⟨rfl, rfl, rfl, rfl, rfl⟩ (fun q hq => setSlot_of_ne hq)
          (by
            rw [setSlot_self]
            refine .inr ⟨A, rfl, ?_⟩
            show User (procLayout k.trampoline tf) s2 l2 A (npages (k.procs p).sz) ∧
              tf ∉ A.footprint (npages (k.procs p).sz) ∧
              insert tf (A.footprint 0) = insert tf (A.footprint (npages (k.procs p).sz))
            rw [hn0]
            exact ⟨hu, hfresh, rfl⟩)
          (by
            rw [setSlot_self]
            refine ⟨fun hs => (by cases hs), fun _ => hpt2, fun _ => hof, ?_⟩
            rintro hs
            cases hs)
          (by rw [setSlot_self]; rfl)
        refine ⟨rfl, l2, _, hinv, .inr ⟨p, rfl, hstate, ?_, ?_, ?_,
          ⟨fun q hq => setSlot_of_ne hq, rfl, rfl, rfl⟩, ?_,
          fun m hpl => hst2 m (hst1 (m + 3) hpl)⟩⟩
        · rw [setSlot_self]
        · rw [setSlot_self]
          exact hsz
        · rw [setSlot_self]
        · rw [Function.update_self]
          exact hall

end free

/-! ### `sbrk` -/

section grow

variable {k : Kern} {l : List ℕ} {own : Party → Set ℕ} {extra : FileId → ℕ} {p : Slot}

theorem setSlot_eq_self (k : Kern) (p : Slot) : k.setSlot p (k.procs p) = k := by
  unfold Kern.setSlot
  rw [Function.update_eq_self]

/-- A change of state that keeps a process's memory and files. -/
structure SameMem (x y : Proc) : Prop where
  sz : y.sz = x.sz
  pagetable : y.pagetable = x.pagetable
  trapframe : y.trapframe = x.trapframe
  ofile : y.ofile = x.ofile

theorem Inv.setSlot {y : Proc} (h : Inv k l own extra) (hs : SameMem (k.procs p) y)
    (hshape : Shape y) : Inv (k.setSlot p y) l own extra := by
  have hmem : ProcMem k.trampoline k.phys l y (own (.proc p)) := by
    have hold := h.proc p
    unfold ProcMem at hold ⊢
    rwa [hs.sz, hs.pagetable, hs.trapframe]
  have hinv := h.change (k.setSlot p y) p (.refl (h.parts.heap_of (.proc p)))
    ⟨rfl, rfl, rfl, rfl, rfl⟩ (fun q hq => setSlot_of_ne hq) (by rw [setSlot_self]; exact hmem)
    (by rw [setSlot_self]; exact hshape) (by rw [setSlot_self]; exact hs.ofile)
  rwa [Function.update_eq_self] at hinv

variable {A A' : PTab} {l' : List ℕ} {L : Layout} {s' : Phys} {n : ℤ}

theorem Inv.resize {sz' : ℕ} (h : Inv k l own extra) (hp : (k.procs p).state ≠ .unused)
    (hroot : (k.procs p).pagetable = A.root)
    (hfresh : (k.procs p).trapframe ∉ A.footprint (npages (k.procs p).sz))
    (hown : own (.proc p) = insert (k.procs p).trapframe (A.footprint (npages (k.procs p).sz)))
    (hres : Resized (procLayout k.trampoline (k.procs p).trapframe) k.phys l A
      (npages (k.procs p).sz) s' l' A' (npages sz')) :
    ∃ own', Inv ((k.withPhys s').setSlot p { k.procs p with sz := sz' }) l' own' extra ∧
      Effect k.phys l (own (.proc p)) s' l' (own' (.proc p)) := by
  have hheap := h.parts.heap_of (.proc p)
  rw [hown, ← Set.union_singleton] at hheap
  have hsingle := hheap.subset Set.subset_union_right
  have hoff : ∀ pa ∈ ({(k.procs p).trapframe} : Set ℕ), pa ∉ A.footprint (npages (k.procs p).sz) := by
    intro pa hpa hin
    rw [Set.mem_singleton_iff.mp hpa] at hin
    exact hfresh hin
  have heff := hres.eff.frame_union hsingle hoff
  rw [Set.union_singleton, Set.union_singleton, ← hown] at heff
  have hfresh' : (k.procs p).trapframe ∉ A'.footprint (npages sz') :=
    (hres.eff.foreign hfresh (hsingle.disjoint _ rfl)).1
  have hshape := h.shape p
  refine ⟨_, h.change _ p heff ⟨rfl, rfl, rfl, rfl, rfl⟩ (fun q hq => setSlot_of_ne hq) ?_ ?_ ?_, ?_⟩
  · rw [setSlot_self]
    exact .inr ⟨A', hroot.trans hres.root_eq.symm, hres.user, hfresh', rfl⟩
  · rw [setSlot_self]
    exact ⟨fun hc => absurd hc hp, fun _ => hshape.active hp, hshape.closed, hshape.home⟩
  · rw [setSlot_self]
  · rw [Function.update_self]
    exact heff

theorem newFlags : IsLeaf (PTE_W ||| PTE_X ||| PTE_R ||| PTE_U ||| PTE_V) :=
  isLeaf_iff.mpr (by decide)

theorem Inv.resizeSame (h : Inv k l own extra) (hp : (k.procs p).state ≠ .unused)
    (hroot : (k.procs p).pagetable = A.root)
    (hfresh : (k.procs p).trapframe ∉ A.footprint (npages (k.procs p).sz))
    (hown : own (.proc p) = insert (k.procs p).trapframe (A.footprint (npages (k.procs p).sz)))
    (hres : Resized (procLayout k.trampoline (k.procs p).trapframe) k.phys l A
      (npages (k.procs p).sz) s' l' A' (npages (k.procs p).sz)) :
    ∃ own', Inv (k.withPhys s') l' own' extra ∧
      Effect k.phys l (own (.proc p)) s' l' (own' (.proc p)) := by
  obtain ⟨own', hinv, heff⟩ := h.resize hp hroot hfresh hown hres
  have hself : ((k.withPhys s').setSlot p { k.procs p with sz := (k.procs p).sz }) = k.withPhys s' :=
    setSlot_eq_self (k.withPhys s') p
  exact ⟨own', hself ▸ hinv, heff⟩

/-- The new size that `growproc` computes, if it changes anything. -/
structure NewSize (sz : ℕ) (n : ℤ) (sz' : ℕ) : Prop where
  /-- A size within 32 bits is the sum. -/
  sum : -2 ^ 31 ≤ n → n < 2 ^ 31 → 0 ≤ sz + n → (sz' : ℤ) = sz + n
  /-- A negative size wraps around, and then nothing is deallocated. -/
  wrap : -2 ^ 31 ≤ n → sz + n < 0 → sz' = sz

/-- Memory ends the size of a process long before 32 bits do. -/
theorem User.sz_lt {s : Phys} {sz : ℕ} (h : User L s l A (npages sz)) : sz ≤ 2 ^ 27 := by
  have hram := h.le_ram
  unfold npages at hram
  omega

/-- `growproc` moves the end of memory, or leaves the process as it was. -/
theorem growproc_moves (hroot : (k.procs p).pagetable = A.root)
    (hu : User L k.phys l A (npages (k.procs p).sz))
    (hflags : L.flags (PTE_W ||| PTE_X ||| PTE_R ||| PTE_U ||| PTE_V)) :
    Code.wp (growproc p n) (fun r k' => ∃ s' l' A',
      r = -1 ∧ k' = k.withPhys s' ∧
        Resized L k.phys l A (npages (k.procs p).sz) s' l' A' (npages (k.procs p).sz) ∧
        Kept k.phys.mem A s'.mem A' (npages (k.procs p).sz) ∨
      ∃ sz', r = 0 ∧ k' = (k.withPhys s').setSlot p { k.procs p with sz := sz' } ∧
        NewSize (k.procs p).sz n sz' ∧
        Resized L k.phys l A (npages (k.procs p).sz) s' l' A' (npages sz') ∧
        Kept k.phys.mem A s'.mem A' (npages (min (k.procs p).sz sz')) ∧
        (∀ w, npages (k.procs p).sz ≤ w → w < npages sz' → Fresh s'.mem A' w) ∧
        ∀ w, npages sz' ≤ w → w < npages (k.procs p).sz → PTE2PA (A.leaf w) ∈ l') k := by
  have hsmall := User.sz_lt hu
  have hsz : (k.procs p).sz % 2 ^ 32 = (k.procs p).sz := Nat.mod_eq_of_lt (by omega)
  simp only [growproc, Code.wp_bind, Code.wp_get, Code.wp_ite, Code.wp_pure, wp_vm, wp_setProc, hsz,
    withPhys_procs]
  refine ⟨fun hpos => ?_, fun hpos => ⟨fun hneg => ?_, fun hneg => ?_⟩⟩
  · have hspec := fun newsz => uvmalloc_spec newsz hu hflags
    simp only [← hroot] at hspec
    apply Code.wp_mono (hspec _)
    intro r s' hres
    obtain ⟨l', A', hkept, ⟨rfl, hres, -⟩ | ⟨hr, hmax, hres, hnew, -⟩⟩ := hres
    · exact ⟨fun _ => ⟨s', l', A', .inl ⟨trivial, rfl, hres, hkept⟩⟩, fun hc => absurd rfl hc⟩
    · rw [Nat.mod_eq_of_lt (show r < 2 ^ 32 by have := User.sz_lt hres.user; omega)]
      refine ⟨fun hc => absurd hc hr, fun _ => ⟨s', l', A', .inr ⟨r, trivial, rfl, ⟨?_, ?_⟩, hres, ?_,
        hnew, fun w h1 h2 => ?_⟩⟩⟩
      · omega
      · omega
      · rwa [Nat.min_eq_left (by omega)]
      · unfold npages at h1 h2
        omega
  · have hspec := fun newsz => uvmdealloc_spec newsz hu
    simp only [← hroot] at hspec
    apply Code.wp_mono (hspec _)
    intro r s' hres
    obtain ⟨hmin, l', A', hres, hkept, hfreed⟩ := hres
    rw [Nat.mod_eq_of_lt (show r < 2 ^ 32 by have := User.sz_lt hres.user; omega)]
    refine ⟨s', l', A', .inr ⟨r, trivial, rfl, ⟨?_, ?_⟩, hres, ?_, fun w h1 h2 => ?_, hfreed⟩⟩
    · omega
    · omega
    · rwa [Nat.min_eq_right (by omega)]
    · unfold npages at h1 h2
      omega
  · refine ⟨k.phys, l, A, .inr ⟨(k.procs p).sz, trivial, rfl, ⟨?_, fun _ _ => rfl⟩, .refl hu, .refl,
      fun w h1 h2 => absurd h2 (by omega), fun w h1 h2 => absurd h2 (by omega)⟩⟩
    omega

theorem growproc_spec (h : Good k) (hp : Running (k.procs p)) :
    Code.wp (growproc p n) (fun _ k' => Good k') k := by
  obtain ⟨l, own, h⟩ := h
  obtain ⟨A, hroot, hu, hfresh, hown⟩ := h.space hp.1
  apply Code.wp_mono (growproc_moves hroot hu newFlags)
  intro r k' hres
  obtain ⟨s', l', A', ⟨-, rfl, hres, -⟩ | ⟨sz', -, rfl, -, hres, -⟩⟩ := hres
  · obtain ⟨own', hinv, -⟩ := h.resizeSame hp.1 hroot hfresh hown hres
    exact hinv.good
  · obtain ⟨own', hinv, -⟩ := h.resize hp.1 hroot hfresh hown hres
    exact hinv.good

theorem sys_sbrk_spec (h : Good k) (hp : Running (k.procs p)) :
    Code.wp (sys_sbrk p n) (fun _ k' => Good k') k := by
  simp only [sys_sbrk, Code.wp_bind, Code.wp_get, Code.wp_ite, Code.wp_pure]
  apply Code.wp_mono (growproc_spec h hp)
  intro _ k' hk'
  exact ⟨fun _ => hk', fun _ => hk'⟩

end grow

/-! ### `fork` -/

section fork

variable {k : Kern} {l : List ℕ} {own : Party → Set ℕ} {extra : FileId → ℕ} {p np : Slot}

theorem Inv.writeTrapframe {m : Bytes} (h : Inv k l own extra) (hp : (k.procs p).state ≠ .unused)
    (hm : SameOff {(k.procs p).trapframe} k.phys.mem m) :
    Inv (k.withPhys { k.phys with mem := m }) l own extra := by
  obtain ⟨A, hroot, hu, hfresh, hown⟩ := h.space hp
  have hsub : ({(k.procs p).trapframe} : Set ℕ) ⊆ own (.proc p) := by
    rw [hown, Set.singleton_subset_iff]
    exact Set.mem_insert ..
  have heff := (h.parts.heap_of (.proc p)).write (hm.mono hsub)
  have hrep : Rep m A := by
    apply hu.rep.sameOff hm
    intro pa hpa hin
    rw [Set.mem_singleton_iff.mp hin] at hpa
    exact hfresh (.inl hpa)
  have hheap := heff.heap
  rw [hown] at hheap
  have hinv := h.change (k.withPhys { k.phys with mem := m }) p heff ⟨rfl, rfl, rfl, rfl, rfl⟩
    (fun _ _ => rfl)
    (.inr ⟨A, hroot, ⟨hrep, hheap.subset (Set.subset_insert ..), hu.space⟩, hfresh, hown⟩)
    (h.shape p) rfl
  rwa [Function.update_eq_self] at hinv

theorem Inv.trapframe_page (h : Inv k l own extra) (hp : (k.procs p).state ≠ .unused) :
    RamPage k.phys.kend (k.procs p).trapframe := by
  obtain ⟨A, -, -, -, hown⟩ := h.space hp
  apply (h.parts.heap_of (.proc p)).owned
  rw [hown]
  exact Set.mem_insert ..

/-- A child gets a file of its parent. -/
theorem Inv.share {f : FileId} {fd : Fd} (h : Inv k l own extra) (hf : (k.procs p).ofile fd = some f)
    (hfd : (k.procs np).ofile fd = none) (hnp : Running (k.procs np)) :
    ¬ (k.ftable f).ref < 1 ∧
      Inv ((k.setRef f ((k.ftable f).ref + 1)).setFd np fd (some f)) l own extra := by
  have hdup : Inv (k.setRef f ((k.ftable f).ref + 1)) l own (inc extra f) := h.dup
  have hpos : 0 < refs (opened k) f := Lib.refs_pos (i := (p, fd)) hf
  have heq := h.files.ref_eq f
  exact ⟨by omega, hdup.giveInc hfd hnp⟩

theorem setFd_setSlot (k : Kern) (np : Slot) (fd : Fd) (v : Option FileId) (ofile : Fd → Option FileId) :
    ((k.setFd np fd v).setSlot np { (k.setFd np fd v).procs np with ofile := ofile }).procs =
      (k.setSlot np { k.procs np with ofile := ofile }).procs := by
  rw [setFd_procs_self]
  exact Function.update_idem ..

theorem dupFiles_spec (fds : List Fd) (hnd : fds.Nodup) (h : Inv k l own extra)
    (hnp : Running (k.procs np)) (hnone : ∀ fd ∈ fds, (k.procs np).ofile fd = none) :
    Code.wp (dupFiles p np fds) (fun _ k' => Inv k' l own extra ∧ k'.phys = k.phys ∧
      ∃ ofile, k'.procs = (k.setSlot np { k.procs np with ofile := ofile }).procs) k := by
  induction fds generalizing k with
  | nil => exact ⟨h, rfl, (k.procs np).ofile, by rw [setSlot_eq_self k np]⟩
  | cons fd fds ih =>
    obtain ⟨hnot, hnd⟩ := List.nodup_cons.mp hnd
    rw [dupFiles, Code.wp_bind, Code.wp_get]
    cases hf : (k.procs p).ofile fd with
    | none => exact ih hnd h hnp fun fd' hfd' => hnone fd' (List.mem_cons_of_mem _ hfd')
    | some f =>
      obtain ⟨href, hshare⟩ := h.share hf (hnone fd (List.mem_cons_self ..)) hnp
      have hnext := ih hnd hshare (by rwa [Running, setFd_state]) (by
        intro fd' hfd'
        have hfd : fd' ≠ fd := fun he => hnot (he ▸ hfd')
        rw [setFd_ofile_of_ne hfd]
        exact hnone fd' (List.mem_cons_of_mem _ hfd'))
      simp only [filedup, setFile, setProc, Code.wp_bind, Code.wp_get, Code.wp_ite,
        Code.wp_panic, Code.wp_modify]
      refine ⟨fun hlt => href hlt, fun _ => ?_⟩
      apply Code.wp_mono hnext
      intro _ k' hres
      obtain ⟨hinv, hphys, ofile, hprocs⟩ := hres
      refine ⟨hinv, hphys, ofile, ?_⟩
      rw [hprocs]
      exact setFd_setSlot k np fd (some f) ofile

/-- The kernel with other counts of references to inodes. -/
def Kern.withIref (k : Kern) (iref : InodeId → ℤ) : Kern := { k with iref := iref }

theorem Inv.withIref {iref : InodeId → ℤ} (h : Inv k l own extra) : Inv (k.withIref iref) l own extra :=
  ⟨h.parts, h.kernel, h.proc, h.pipes, h.shape, h.files.congr ⟨rfl, rfl, rfl, rfl, rfl⟩ fun _ => rfl,
    h.trampoline⟩

/-- A child that `fork` has completed. Of the memory only its trapframe was written to. -/
structure Forked (k : Kern) (np : Slot) (k' : Kern) : Prop where
  good : Good k'
  mem : ∃ m, SameOff {(k.procs np).trapframe} k.phys.mem m ∧ k'.phys = { k.phys with mem := m }
  others : ∀ q, q ≠ np → k'.procs q = k.procs q
  state : (k'.procs np).state = .runnable
  sz : (k'.procs np).sz = (k.procs np).sz
  pagetable : (k'.procs np).pagetable = (k.procs np).pagetable
  pid : (k'.procs np).pid = (k.procs np).pid

theorem fork_finish (x : Proc) (pid : ℤ) (h : Inv k l own fun _ => 0) (hnp : Running (k.procs np))
    (hnone : ∀ fd, (k.procs np).ofile fd = none) (hcwd : x.cwd ≠ none) :
    Code.wp (do
      vm (memmove (k.procs np).trapframe x.trapframe 288)
      vm (store64 ((k.procs np).trapframe + 112) 0)
      dupFiles p np (List.finRange NOFILE)
      idup x.cwd
      setProc np fun y => { y with cwd := x.cwd, name := safestrcpy x.name 16 }
      setProc np fun y => { y with parent := some p }
      setProc np fun y => { y with state := .runnable }
      return pid) (fun r k' => r = pid ∧ Forked k np k') k := by
  have hal := (h.trapframe_page hnp.1).aligned
  have hcopy := sameOff_copy (m := k.phys.mem) k.phys.mem x.trapframe hal (by decide : 0 + 288 ≤ 4096)
  have hstore := fun m => sameOff_store (m := m) (v := 0) hal (by decide : 112 + 8 ≤ 4096)
  have h1 := h.writeTrapframe hnp.1 hcopy
  have h2 := h1.writeTrapframe hnp.1 (hstore _)
  obtain ⟨i, hi⟩ := Option.ne_none_iff_exists'.mp hcwd
  simp only [Code.wp_bind, wp_vm, memmove, store64, Code.wp_modify, wp_setProc, Code.wp_pure]
  apply Code.wp_mono (dupFiles_spec (List.finRange NOFILE) (List.nodup_finRange _) h2 hnp
    fun fd _ => hnone fd)
  intro _ k3 hres
  obtain ⟨h3, hphys, ofile, hprocs⟩ := hres
  have hnp3 : k3.procs np = { k.procs np with ofile := ofile } := by
    rw [hprocs]
    exact setSlot_self
  have hrun : (k3.procs np).state ≠ .unused := by
    rw [hnp3]
    exact hnp.1
  rw [hi, idup, addRef, Code.wp_modify, setSlot_setSlot, setSlot_setSlot, setSlot_self, setSlot_self]
  refine ⟨trivial, ⟨l, own, h3.withIref.setSlot ⟨rfl, rfl, rfl, rfl⟩
    (.runnable rfl ((h3.shape np).active hrun) (Option.some_ne_none i))⟩,
    ⟨_, hcopy.trans (hstore _), hphys⟩, fun q hq => ?_, ?_, ?_, ?_, ?_⟩
  · rw [setSlot_of_ne hq]
    show k3.procs q = _
    rw [hprocs]
    exact setSlot_of_ne hq
  · rw [setSlot_self]
  · rw [setSlot_self]
    show (k3.procs np).sz = _
    rw [hnp3]
  · rw [setSlot_self]
    show (k3.procs np).pagetable = _
    rw [hnp3]
  · rw [setSlot_self]
    show (k3.procs np).pid = _
    rw [hnp3]

/-- The child `np` of process `p` after `fork`: its address space `A` is a copy of that of its parent,
`B`, which is as before. -/
structure Child (k : Kern) (l : List ℕ) (p np : Slot) (k' : Kern) (A B : PTab) (l' : List ℕ)
    (LA LB : Layout) : Prop where
  good : Good k'
  slot : (k.procs np).state = .unused
  others : ∀ q, q ≠ np → k'.procs q = k.procs q
  state : (k'.procs np).state = .runnable
  sz : (k'.procs np).sz = (k.procs p).sz
  root : (k'.procs np).pagetable = A.root
  user : User LA k'.phys l' A (npages (k.procs p).sz)
  parent_root : (k.procs p).pagetable = B.root
  parent_before : User LB k.phys l B (npages (k.procs p).sz)
  parent : User LB k'.phys l' B (npages (k.procs p).sz)
  kept : Kept k.phys.mem B k'.phys.mem B (npages (k.procs p).sz)
  copied : ∀ w, w < npages (k.procs p).sz → Copied k.phys.mem B k'.phys.mem A w

theorem Inv.trapframe_mem (h : Inv k l own extra) (hp : (k.procs p).state ≠ .unused) :
    (k.procs p).trapframe ∈ own (.proc p) := by
  obtain ⟨A, -, -, -, hown⟩ := h.space hp
  rw [hown]
  exact Set.mem_insert ..

/-- `fork` makes a copy of a process or changes nothing. -/
theorem fork_copy (h : Inv k l own fun _ => 0) (hp : Running (k.procs p))
    (hcwd : (k.procs p).cwd ≠ none) :
    Code.wp (fork p) (fun r k' =>
      (r = -1 ∧ Good k' ∧ ∃ l', Undone k l k' l') ∨
      ∃ np A B l' LA LB, r = (k'.procs np).pid ∧ Child k l p np k' A B l' LA LB) k := by
  rw [fork, Code.wp_bind]
  apply Code.wp_mono (allocproc_spec h)
  intro r k1 hres
  obtain ⟨-, l1, own1, h1, ⟨rfl, hundone, -⟩ | ⟨np, rfl, hidle, hused, hsz, hof, hlocal, heff1, -⟩⟩ := hres
  · exact .inl ⟨rfl, h1.good, l1, hundone⟩
  have hne : p ≠ np := fun he => hp.1 (he ▸ hidle)
  have hnp1 : Running (k1.procs np) := by
    rw [Running, hused]
    decide
  have hnone : ∀ fd, (k1.procs np).ofile fd = none := by
    intro fd
    rw [hof]
    exact (h.shape np).closed (.inl hidle) fd
  -- the parent's address space, before and after `allocproc`
  obtain ⟨B, hrootB, huB, -, -⟩ := h.space hp.1
  have huB1 := huB.frame heff1 fun pa _ hin => hin
  have hkept1 := huB.kept heff1 fun pa _ hin => hin
  have hoffB : ∀ pa ∈ B.footprint (npages (k.procs p).sz), pa ∉ own1 (.proc np) := fun pa hpa =>
    (heff1.foreign (Set.notMem_empty pa) (huB.heap.disjoint pa hpa)).1
  obtain ⟨A, hrootA, huA, hfreshA, hownA⟩ := h1.space hnp1.1
  have h0 : npages (k1.procs np).sz = 0 := by
    rw [hsz]
    decide
  have hforeign : ∀ pa ∈ B.footprint (npages (k.procs p).sz), pa ∉ A.footprint 0 := by
    intro pa hpa hin
    apply hoffB pa hpa
    rw [hownA, h0]
    exact .inr hin
  rw [h0] at huA
  have hcopy := uvmcopy_spec huA huB1 (fun _ hf => hf) hforeign
  rw [← hrootA, ← hrootB] at hcopy
  simp only [Code.wp_bind, Code.wp_get, wp_vm, hlocal.procs p hne]
  apply Code.wp_mono hcopy
  intro r s2 hres
  obtain ⟨l2, A2, ⟨rfl, hres, hcopied⟩ | ⟨rfl, hres⟩⟩ := hres
  · have hkept2 := huB1.kept hres.eff hforeign
    have huB2 := huB1.frame hres.eff hforeign
    have htf1 := h1.trapframe_mem hnp1.1
    have htfA : (k1.procs np).trapframe ∉ A2.footprint (npages (k.procs p).sz) := by
      rw [h0] at hfreshA
      exact (hres.eff.foreign hfreshA ((h1.parts.heap_of (.proc np)).disjoint _ htf1)).1
    have huA2 := hres.user
    rw [← h0] at hres
    obtain ⟨own2, h2, -⟩ := h1.resize hnp1.1 hrootA hfreshA hownA hres
    have hnp2 : ((k1.withPhys s2).setSlot np { k1.procs np with sz := (k.procs p).sz }).procs np =
        { k1.procs np with sz := (k.procs p).sz } := setSlot_self
    have htf2 := h2.trapframe_mem (p := np) (by rw [hnp2]; exact hnp1.1)
    have hfinish := fork_finish (p := p) (k.procs p) (k1.procs np).pid h2 (by rwa [hnp2])
      (by rwa [hnp2]) hcwd
    rw [hnp2] at hfinish htf2
    rw [if_neg (by decide), Code.wp_bind]
    apply Code.wp_mono hfinish
    intro r k' hres'
    obtain ⟨rfl, hforked⟩ := hres'
    obtain ⟨m, hm, hphys⟩ := hforked.mem
    rw [hnp2] at hm
    -- only the child's trapframe is written to after the copy
    have hwrite := ((h2.parts.heap_of (.proc np)).subset (Set.singleton_subset_iff.mpr htf2)).write hm
    have hphys : k'.phys = { s2 with mem := m } := hphys
    have htfA' : ∀ pa ∈ A2.footprint (npages (k.procs p).sz), pa ∉ ({(k1.procs np).trapframe} : Set ℕ) :=
      fun pa hpa hin => htfA (Set.mem_singleton_iff.mp hin ▸ hpa)
    have htfB : ∀ pa ∈ B.footprint (npages (k.procs p).sz), pa ∉ ({(k1.procs np).trapframe} : Set ℕ) :=
      fun pa hpa hin => hoffB pa hpa (Set.mem_singleton_iff.mp hin ▸ htf1)
    refine .inr ⟨np, A2, B, l2, _, _, ?_, hforked.good, hidle, fun q hq => ?_, hforked.state, ?_, ?_,
      hphys ▸ huA2.frame hwrite htfA', hrootB, huB, hphys ▸ huB2.frame hwrite htfB, ?_, fun w hw => ?_⟩
    · rw [hforked.pid, hnp2]
    · rw [hforked.others q hq, setSlot_of_ne hq]
      exact hlocal.procs q hq
    · rw [hforked.sz, hnp2]
    · rw [hforked.pagetable, hnp2]
      exact hrootA.trans hres.root_eq.symm
    · rw [hphys]
      exact (hkept1.trans hkept2).trans (huB2.kept hwrite htfB)
    · rw [hphys]
      exact ((hcopied w hw).source hkept1 hw).kept (huA2.kept hwrite htfA') hw
  · rw [← h0] at hres
    obtain ⟨own2, h2, heff2⟩ := h1.resizeSame hnp1.1 hrootA hfreshA hownA hres
    rw [if_pos (by decide), Code.wp_bind]
    apply Code.wp_mono (freeproc_inv h2 hnone)
    intro _ k3 hres
    obtain ⟨hlocal3, l3, own3, h3, heff3⟩ := hres
    have hall := hlocal.trans ⟨hlocal3.procs, hlocal3.ftable, hlocal3.iref, hlocal3.initproc⟩
    exact .inl ⟨rfl, h3.good, l3, hall.undone hidle ((heff1.trans heff2).trans heff3)⟩

theorem fork_spec (h : Good k) (hp : Running (k.procs p)) (hcwd : (k.procs p).cwd ≠ none) :
    Code.wp (fork p) (fun _ k' => Good k') k := by
  obtain ⟨l, own, h⟩ := h
  apply Code.wp_mono (fork_copy h hp hcwd)
  intro r k' hres
  obtain ⟨-, hgood, -⟩ | ⟨np, A, B, l', LA, LB, -, hchild⟩ := hres
  · exact hgood
  · exact hchild.good

end fork

/-! ### `exit`, `wait` and `kill` -/

section exit

variable {k : Kern} {l : List ℕ} {own : Party → Set ℕ} {extra : FileId → ℕ} {p : Slot}

theorem closeFile_spec {fd : Fd} {f : FileId} (h : Inv k l own extra)
    (hf : (k.procs p).ofile fd = some f) :
    Code.wp (do
      fileclose f
      clearFd p fd) (fun _ k' => k'.initproc = k.initproc ∧ k'.procs = (k.setFd p fd none).procs ∧
        ∃ l' own', Inv k' l' own' extra) k := by
  have htake := h.take hf
  rw [Code.wp_bind]
  apply Code.wp_mono (fileclose_spec (P := (k.setFd p fd none).procs) htake
    (by rw [inc, Function.update_self]; omega))
  intro _ k1 hres
  obtain ⟨hs, l1, own1, h1⟩ := hres
  have heq : k1.setFd p fd none = k1.withProcs (k.setFd p fd none).procs := by
    unfold Kern.setFd Kern.withProcs
    rw [hs.procs]
  rw [dec_inc, ← heq] at h1
  rw [clearFd, setProc, Code.wp_modify]
  refine ⟨hs.initproc, ?_, l1, own1, h1⟩
  show (k1.setFd p fd none).procs = _
  rw [heq]
  rfl

theorem closeFiles_spec (fds : List Fd) (h : Inv k l own extra) :
    Code.wp (closeFiles p fds) (fun _ k' => (∃ l' own', Inv k' l' own' extra) ∧
      (k'.procs p).state = (k.procs p).state ∧ (k'.procs p).cwd = (k.procs p).cwd ∧
      ∀ fd, fd ∈ fds ∨ (k.procs p).ofile fd = none → (k'.procs p).ofile fd = none) k := by
  induction fds generalizing k l own with
  | nil => exact ⟨⟨l, own, h⟩, rfl, rfl, fun fd hfd => hfd.resolve_left (by simp)⟩
  | cons fd fds ih =>
    rw [closeFiles, Code.wp_bind, Code.wp_get]
    cases hf : (k.procs p).ofile fd with
    | none =>
      apply Code.wp_mono (ih h)
      intro _ k' hres
      obtain ⟨hinv, hstate, hcwd, hclosed⟩ := hres
      refine ⟨hinv, hstate, hcwd, fun fd' hfd' => hclosed fd' ?_⟩
      rcases hfd' with hfd' | hfd'
      · rcases List.mem_cons.mp hfd' with rfl | hfd'
        · exact .inr hf
        · exact .inl hfd'
      · exact .inr hfd'
    | some f =>
      have hclose := closeFile_spec h hf
      rw [Code.wp_bind] at hclose
      dsimp only
      rw [Code.wp_bind]
      apply Code.wp_mono hclose
      intro _ k1 hclose
      rw [Code.wp_bind]
      apply Code.wp_mono hclose
      intro _ k2 hres
      obtain ⟨-, hprocs, l2, own2, h2⟩ := hres
      apply Code.wp_mono (ih h2)
      intro _ k' hres
      obtain ⟨hinv, hstate, hcwd, hclosed⟩ := hres
      refine ⟨hinv, ?_, ?_, fun fd' hfd' => hclosed fd' ?_⟩
      · rw [hstate, hprocs, setFd_state]
      · rw [hcwd, hprocs, setFd_cwd]
      · rw [hprocs]
        by_cases he : fd' = fd
        · rw [he]
          exact .inr setFd_ofile_self
        · rw [setFd_ofile_of_ne he]
          exact hfd'.imp_left fun hm => (List.mem_cons.mp hm).resolve_left he

/-- Changing the parents of processes. -/
theorem Inv.withProcs {P : Slot → Proc} (h : Inv k l own extra)
    (hs : ∀ q, SameMem (k.procs q) (P q) ∧ (P q).state = (k.procs q).state ∧
      (P q).cwd = (k.procs q).cwd) :
    Inv (k.withProcs P) l own extra where
  parts := h.parts
  kernel := h.kernel
  trampoline := h.trampoline
  proc q := by
    have hold := h.proc q
    unfold ProcMem at hold
    rwa [← (hs q).1.sz, ← (hs q).1.pagetable, ← (hs q).1.trapframe] at hold
  pipes := h.pipes
  shape q := by
    obtain ⟨hsame, hstate, hcwd⟩ := hs q
    have hold := h.shape q
    refine ⟨fun hc => ?_, fun hc => ?_, fun hc => ?_, fun hc => ?_⟩
    · show (P q).pagetable = 0 ∧ (P q).trapframe = 0 ∧ (P q).sz = 0
      rw [hsame.pagetable, hsame.trapframe, hsame.sz]
      exact hold.idle (hstate ▸ hc)
    · show (P q).pagetable ≠ 0
      rw [hsame.pagetable]
      exact hold.active (hstate ▸ hc)
    · show ∀ fd, (P q).ofile fd = none
      rw [hsame.ofile]
      exact hold.closed (hstate ▸ hc)
    · show (P q).cwd ≠ none
      rw [hcwd]
      exact hold.home (hstate ▸ hc)
  files := h.files.congr ⟨rfl, rfl, rfl, rfl, rfl⟩ fun q => (hs q).1.ofile

/-- A process after `reparent`. -/
def adopt (k : Kern) (p q : Slot) : Proc :=
  if (k.procs q).parent = some p then { k.procs q with parent := some k.initproc } else k.procs q

theorem sameMem_adopt (q : Slot) :
    SameMem (k.procs q) (adopt k p q) ∧ (adopt k p q).state = (k.procs q).state ∧
      (adopt k p q).cwd = (k.procs q).cwd := by
  unfold adopt
  split
  · exact ⟨⟨rfl, rfl, rfl, rfl⟩, rfl, rfl⟩
  · exact ⟨⟨rfl, rfl, rfl, rfl⟩, rfl, rfl⟩

/-- It does not matter that `exit` gives up the current directory before it calls `reparent`. -/
theorem adopt_setCwd (f : Proc → Proc) :
    ((k.setSlot p { k.procs p with cwd := none }).withProcs
        (adopt (k.setSlot p { k.procs p with cwd := none }) p)).setSlot p
      (f (adopt (k.setSlot p { k.procs p with cwd := none }) p p)) =
    (k.withProcs (adopt k p)).setSlot p (f { adopt k p p with cwd := none }) := by
  have hself : adopt (k.setSlot p { k.procs p with cwd := none }) p p =
      { adopt k p p with cwd := none } := by
    unfold adopt
    rw [setSlot_self]
    split <;> rfl
  have hother : ∀ q, q ≠ p → adopt (k.setSlot p { k.procs p with cwd := none }) p q = adopt k p q :=
    fun q hq => by
      unfold adopt
      rw [setSlot_of_ne hq]
      rfl
  rw [hself]
  unfold Kern.setSlot Kern.withProcs
  congr 1
  funext q
  by_cases hq : q = p
  · rw [hq, Function.update_self, Function.update_self]
  · rw [Function.update_of_ne hq, Function.update_of_ne hq]
    exact hother q hq

/-- `exit` keeps the invariant. Only the first process must not exit. -/
theorem exit_spec {status : ℤ} (h : Good k) (hp : Running (k.procs p)) (hinit : p ≠ k.initproc)
    (hcwd : (k.procs p).cwd ≠ none) : Code.wp (exit p status) (fun _ k' => Good k') k := by
  obtain ⟨l, own, h⟩ := h
  rw [exit, Code.wp_bind, Code.wp_get, if_neg hinit, Code.wp_bind]
  apply Code.wp_mono (closeFiles_spec (List.finRange NOFILE) h)
  intro _ k1 hres
  obtain ⟨⟨l1, own1, h1⟩, hstate, hcwd1, hclosed⟩ := hres
  obtain ⟨i, hi⟩ := Option.ne_none_iff_exists'.mp hcwd
  -- the kernel after the current directory is given up
  let k2 := k1.withIref (Function.update k1.iref i (k1.iref i + -1))
  have h2 : Inv k2 l1 own1 fun _ => 0 := h1.withIref
  have h3 := h2.withProcs (P := adopt k2 p) sameMem_adopt
  obtain ⟨hsame, hstate2, -⟩ := sameMem_adopt (k := k2) (p := p) p
  rw [Code.wp_bind, Code.wp_get, hcwd1, hi, Code.wp_bind, iput, addRef, Code.wp_modify, Code.wp_bind,
    wp_setProc, Code.wp_bind, reparent, Code.wp_modify, wp_setProc]
  have hshape : Shape { adopt k2 p p with cwd := none, xstate := status, state := .zombie } := by
    refine ⟨nofun, fun _ => ?_, fun _ fd => ?_, nofun⟩
    · apply (h3.shape p).active
      show (adopt k2 p p).state ≠ _
      rw [hstate2]
      exact hstate ▸ hp.1
    · show (adopt k2 p p).ofile fd = none
      rw [hsame.ofile]
      exact hclosed fd (.inl (List.mem_finRange fd))
  have hmem : SameMem ((k2.withProcs (adopt k2 p)).procs p)
      { adopt k2 p p with cwd := none, xstate := status, state := .zombie } := ⟨rfl, rfl, rfl, rfl⟩
  have hgood := (h3.setSlot hmem hshape).good
  have heq := adopt_setCwd (k := k2) (p := p) fun x => { x with xstate := status, state := .zombie }
  rw [← heq] at hgood
  exact hgood

variable {addr : ℕ}

theorem waitScan_spec (h : Inv k l own fun _ => 0) (hp : Running (k.procs p)) (nps : List Slot)
    (havekids : Bool) : Code.wp (waitScan p addr nps havekids) (fun _ k' => Good k') k := by
  induction nps generalizing havekids with
  | nil => exact h.good
  | cons np nps ih =>
    simp only [waitScan, Code.wp_bind, Code.wp_get, Code.wp_ite, Code.wp_pure]
    refine ⟨fun _ => ih havekids, fun hparent => ⟨fun _ => ih true, fun hzombie => ?_⟩⟩
    have hstate : (k.procs np).state = .zombie := not_not.mp hzombie
    have hfree : ∀ {k' l' own'}, SameProcs k k' → (Inv k' l' own' fun _ => 0) →
        Code.wp (freeproc np) (fun _ k'' => Good k'') k' := by
      intro k' l' own' hs h'
      have hnone := (h.shape np).closed (.inr hstate)
      rw [← hs.procs] at hnone
      apply Code.wp_mono (freeproc_inv h' hnone)
      intro _ k'' hres
      obtain ⟨-, l'', own'', h'', -⟩ := hres
      exact h''.good
    refine ⟨fun _ => ⟨fun _ => h.good, fun _ => hfree (.refl k) h⟩, fun _ => ?_⟩
    apply Code.wp_mono (copyout_inv h hp.1)
    intro r k1 hres
    obtain ⟨hs, l1, own1, h1⟩ := hres
    exact ⟨fun _ => h1.good, fun _ => hfree hs h1⟩

theorem wait_spec (h : Good k) (hp : Running (k.procs p)) :
    Code.wp (wait p addr) (fun _ k' => Good k') k := by
  obtain ⟨l, own, h⟩ := h
  rw [wait, Code.wp_bind]
  apply Code.wp_mono (waitScan_spec h hp (List.finRange NPROC) false)
  intro r k1 h1
  cases r with
  | inl r => exact h1
  | inr havekids =>
    simp only [Code.wp_bind, Code.wp_get, Code.wp_ite, Code.wp_pure]
    exact ⟨fun _ => h1, fun _ => h1⟩

theorem kill_spec {pid : ℤ} (h : Good k) : Code.wp (kill pid) (fun _ k' => Good k') k := by
  obtain ⟨l, own, h⟩ := h
  rw [kill, Code.wp_bind, Code.wp_get]
  cases (List.finRange NPROC).find? (fun p => (k.procs p).pid = pid) with
  | none => exact h.good
  | some q =>
    dsimp only
    rw [Code.wp_bind, wp_setProc]
    have hq := h.shape q
    exact ⟨l, own, h.setSlot ⟨rfl, rfl, rfl, rfl⟩ ⟨hq.idle, hq.active, hq.closed, hq.home⟩⟩

end exit

end Xv6.Kernel
