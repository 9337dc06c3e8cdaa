import Xv6.Kernel.Boot
import Xv6.Lib.Count
import Xv6.Mem.UserOps

/-!
# The invariant of the kernel's memory

Every page of RAM is on the free list or belongs to one of three kinds of parties: the kernel (its
page table and the kernel stacks), a process (its trapframe and its address space), and the open
pipes. `Inv` says this together with what the file table promises: a file is referred to as often
as it counts, and a pipe is open at an end exactly when a file for that end is.
-/

namespace Xv6.Kernel

open Lib (Bytes Code refs)
open Mem

/-! ### Partitions of RAM -/

/-- The pages of RAM are divided among the free list and the owners `ι`. -/
structure Parts {ι : Type} (s : Phys) (l : List ℕ) (own : ι → Set ℕ) : Prop where
  heap : Heap s l {pa | ∃ i, pa ∈ own i}
  disjoint : ∀ i j pa, pa ∈ own i → pa ∈ own j → i = j
  cover : ∀ pa, RamPage s.kend pa → pa ∈ l ∨ ∃ i, pa ∈ own i

section parts

variable {ι : Type} {s s' : Phys} {l l' : List ℕ} {own : ι → Set ℕ} {i : ι}
  {T' : Set ℕ}

theorem Parts.heap_of (h : Parts s l own) (i : ι) : Heap s l (own i) :=
  h.heap.subset fun _ hpa => ⟨i, hpa⟩

/-- A page of another owner is foreign to an owner's effect. -/
theorem Parts.off (h : Parts s l own) {j : ι} (hij : j ≠ i) : ∀ pa ∈ own j, pa ∉ own i :=
  fun pa hj hi => hij (h.disjoint j i pa hj hi)

/-- One owner's effect leaves a partition. -/
theorem Parts.effect [DecidableEq ι] (h : Parts s l own) (he : Effect s l (own i) s' l' T') :
    Parts s' l' (Function.update own i T') := by
  -- pages of the others are neither owned nor free for this owner, before and after
  have hother : ∀ j, j ≠ i → ∀ pa ∈ own j, pa ∉ T' ∧ pa ∉ l' := fun j hj pa hpa =>
    he.foreign (h.off hj pa hpa) ((h.heap_of j).disjoint pa hpa)
  have hcases : ∀ j pa, pa ∈ Function.update own i T' j → (j = i ∧ pa ∈ T') ∨ (j ≠ i ∧ pa ∈ own j) :=
    fun j pa hpa => by
      by_cases hj : j = i
      · subst hj
        rw [Function.update_self] at hpa
        exact .inl ⟨rfl, hpa⟩
      · rw [Function.update_of_ne hj] at hpa
        exact .inr ⟨hj, hpa⟩
  refine ⟨{ he.heap with owned := ?_, disjoint := ?_ }, ?_, ?_⟩
  · rintro pa ⟨j, hpa⟩
    rcases hcases j pa hpa with ⟨-, hpa⟩ | ⟨-, hpa⟩
    · exact he.heap.owned pa hpa
    · rw [he.kend_eq]
      exact h.heap.owned pa ⟨j, hpa⟩
  · rintro pa ⟨j, hpa⟩
    rcases hcases j pa hpa with ⟨-, hpa⟩ | ⟨hj, hpa⟩
    · exact he.heap.disjoint pa hpa
    · exact (hother j hj pa hpa).2
  · intro a b pa ha hb
    rcases hcases a pa ha with ⟨hai, ha'⟩ | ⟨hai, ha'⟩ <;>
      rcases hcases b pa hb with ⟨hbi, hb'⟩ | ⟨hbi, hb'⟩
    · rw [hai, hbi]
    · exact absurd ha' (hother b hbi pa hb').1
    · exact absurd hb' (hother a hai pa ha').1
    · exact h.disjoint a b pa ha' hb'
  · intro pa hpa
    rw [he.kend_eq] at hpa
    rcases h.cover pa hpa with hl | ⟨j, hj⟩
    · rcases (he.pages pa).mpr (.inr hl) with hT | hl'
      · exact .inr ⟨i, by rwa [Function.update_self]⟩
      · exact .inl hl'
    · by_cases hji : j = i
      · subst hji
        rcases (he.pages pa).mpr (.inl hj) with hT | hl'
        · exact .inr ⟨j, by rwa [Function.update_self]⟩
        · exact .inl hl'
      · exact .inr ⟨j, by rwa [Function.update_of_ne hji]⟩

end parts

/-! ### What a process and the kernel own -/

/-- Page number of the trampoline. -/
def trampolinePage : ℕ := 67108863

theorem kernel_entry {pa perm : ℕ} (hperm : (perm ||| PTE_V) &&& PTE_U = 0) :
    (PA2PTE pa ||| perm ||| PTE_V) &&& PTE_U = 0 := by
  rw [Nat.or_assoc, or_and_flags (by decide), hperm]

/-- The layout with the trampoline only. -/
def trampLayout (flags : ℕ → Prop) (hf : ∀ f, flags f → IsLeaf f) (trampoline : ℕ) : Layout :=
  (Layout.bare flags hf).add trampolinePage (PA2PTE trampoline ||| (PTE_R ||| PTE_X) ||| PTE_V)
    (by decide) (kernel_entry (by decide))

/-- The layout of a user page table whose memory has the given flags. -/
def layoutOf (flags : ℕ → Prop) (hf : ∀ f, flags f → IsLeaf f) (trampoline trapframe : ℕ) :
    Layout :=
  (trampLayout flags hf trampoline).add topPage
    (PA2PTE trapframe ||| (PTE_R ||| PTE_W) ||| PTE_V) le_rfl (kernel_entry (by decide))

/-- The layout of a process's address space. -/
def procLayout (trampoline trapframe : ℕ) : Layout :=
  layoutOf IsLeaf (fun _ h => h) trampoline trapframe

/-- The layout of an address space that `exec` is loading: the user can access every page. -/
def loadLayout (trampoline trapframe : ℕ) : Layout :=
  layoutOf (fun f => IsLeaf f ∧ f &&& PTE_U ≠ 0) (fun _ h => h.1) trampoline trapframe

/-- The process `x` owns exactly the pages `T`. -/
def ProcMem (trampoline : ℕ) (s : Phys) (l : List ℕ) (x : Proc) (T : Set ℕ) : Prop :=
  (x.pagetable = 0 ∧ x.sz = 0 ∧ T = {pa | pa = x.trapframe ∧ pa ≠ 0}) ∨
  ∃ A, x.pagetable = A.root ∧ User (procLayout trampoline x.trapframe) s l A (npages x.sz) ∧
    x.trapframe ∉ A.footprint (npages x.sz) ∧ T = insert x.trapframe (A.footprint (npages x.sz))

/-- The kernel owns exactly the pages `T`. -/
def KernMem (s : Phys) (kernel_pagetable : ℕ) (kstack : Slot → ℕ) (T : Set ℕ) : Prop :=
  ∃ K : PTab, Rep s.mem K ∧ K.root = kernel_pagetable ∧ Function.Injective kstack ∧
    (∀ p, kstack p ∉ K.tables) ∧ T = K.tables ∪ Set.range kstack

/-- What the state of a process says about its memory and files. -/
structure Shape (x : Proc) : Prop where
  idle : x.state = .unused → x.pagetable = 0 ∧ x.trapframe = 0 ∧ x.sz = 0
  active : x.state ≠ .unused → x.pagetable ≠ 0
  closed : x.state = .unused ∨ x.state = .zombie → ∀ fd, x.ofile fd = none
  home : x.state = .runnable → x.cwd ≠ none

theorem Shape.runnable {x : Proc} (hx : x.state = .runnable) (hpt : x.pagetable ≠ 0)
    (hcwd : x.cwd ≠ none) : Shape x where
  idle hc := by
    rw [hx] at hc
    cases hc
  active _ := hpt
  closed hc := by
    rw [hx] at hc
    rcases hc with hc | hc <;> cases hc
  home _ := hcwd

/-- Who owns pages of RAM. -/
inductive Party
  | kernel
  | proc (p : Slot)
  | pipes
  deriving DecidableEq

/-- The files that all processes have open. -/
def opened (k : Kern) (x : Slot × Fd) : Option FileId := (k.procs x.1).ofile x.2

/-- The file `f` is an end of the pipe `pi`. -/
def IsEnd (k : Kern) (pi : ℕ) (writable : Bool) (f : FileId) : Prop :=
  (k.ftable f).type = .FD_PIPE ∧ (k.ftable f).pipe = pi ∧ (k.ftable f).writable = writable

/-- Whether an end of a pipe is open. -/
def Pipe.isOpen (q : Pipe) : Bool → Bool
  | true => q.writeopen
  | false => q.readopen

/-- The pages of the pipes that some file refers to. -/
def pipePages (k : Kern) : Set ℕ := {pi | ∃ w f, IsEnd k pi w f}

/-- The file table counts references; `extra f` of them are held by code that is running. -/
structure FilesOk (k : Kern) (extra : FileId → ℕ) : Prop where
  ref_eq : ∀ f, (k.ftable f).ref = refs (opened k) f + extra f
  free : ∀ f, (k.ftable f).ref = 0 → (k.ftable f).type = .FD_NONE
  unique : ∀ pi w f g, IsEnd k pi w f → IsEnd k pi w g → f = g
  isOpen : ∀ pi ∈ pipePages k, ∀ w, (k.pipes pi).isOpen w = true ↔ ∃ f, IsEnd k pi w f

/-- The invariant, with the free list, the division of RAM and the references held by running
code. -/
structure Inv (k : Kern) (l : List ℕ) (own : Party → Set ℕ) (extra : FileId → ℕ) : Prop where
  parts : Parts k.phys l own
  kernel : KernMem k.phys k.kernel_pagetable k.kstack (own .kernel)
  proc : ∀ p, ProcMem k.trampoline k.phys l (k.procs p) (own (.proc p))
  pipes : own .pipes = pipePages k
  shape : ∀ p, Shape (k.procs p)
  files : FilesOk k extra
  trampoline : k.trampoline < PHYSTOP

/-! ### Frames -/

section frame

variable {s s' : Phys} {l l' : List ℕ} {T T' U : Set ℕ}

theorem ProcMem.frame {trampoline : ℕ} {x : Proc} (h : ProcMem trampoline s l x U)
    (he : Effect s l T s' l' T') (hoff : ∀ pa ∈ U, pa ∉ T) : ProcMem trampoline s' l' x U := by
  rcases h with h | ⟨A, hpt, hu, hfresh, rfl⟩
  · exact .inl h
  · exact .inr ⟨A, hpt, hu.frame he fun pa hpa => hoff pa (.inr hpa), hfresh, rfl⟩

theorem KernMem.frame {kpt : ℕ} {kstack : Slot → ℕ} (h : KernMem s kpt kstack U) (hh : Heap s l U)
    (he : Effect s l T s' l' T') (hoff : ∀ pa ∈ U, pa ∉ T) : KernMem s' kpt kstack U := by
  obtain ⟨K, hrep, hroot, hinj, hsep, rfl⟩ := h
  have hf : Foreign s l T K :=
    ⟨hrep, hh.subset Set.subset_union_left, fun pa hpa => hoff pa (.inl hpa)⟩
  exact ⟨K, (hf.effect he).rep, hroot, hinj, hsep, rfl⟩

end frame

/-! ### States of the kernel -/

/-- The kernel with another physical memory. -/
def Kern.withPhys (k : Kern) (s : Phys) : Kern := { k with phys := s }

/-- The kernel with another process in a slot. -/
def Kern.setSlot (k : Kern) (p : Slot) (x : Proc) : Kern :=
  { k with procs := Function.update k.procs p x }

section states

variable {k : Kern} {s t : Phys} {p q : Slot} {x y : Proc}

@[simp] theorem withPhys_phys : (k.withPhys s).phys = s := rfl

@[simp] theorem withPhys_procs : (k.withPhys s).procs = k.procs := rfl

@[simp] theorem withPhys_withPhys : (k.withPhys s).withPhys t = k.withPhys t := rfl

@[simp] theorem setSlot_phys : (k.setSlot p x).phys = k.phys := rfl

@[simp] theorem setSlot_withPhys : (k.setSlot p x).withPhys s = (k.withPhys s).setSlot p x := rfl

@[simp] theorem setSlot_self : (k.setSlot p x).procs p = x := Function.update_self ..

theorem setSlot_of_ne (h : q ≠ p) : (k.setSlot p x).procs q = k.procs q := Function.update_of_ne h ..

@[simp] theorem setSlot_setSlot : (k.setSlot p x).setSlot p y = k.setSlot p y := by
  unfold Kern.setSlot
  simp only [Function.update_idem]

@[simp] theorem wp_vm {α : Type} {c : PCode α} {R : α → Kern → Prop} :
    Code.wp (vm c) R k ↔ Code.wp c (fun a s => R a (k.withPhys s)) k.phys := Code.wp_zoom

@[simp] theorem wp_setProc {f : Proc → Proc} {R : Unit → Kern → Prop} :
    Code.wp (setProc p f) R k ↔ R () (k.setSlot p (f (k.procs p))) := Iff.rfl

end states

/-! ### Steps of one party -/

section change

variable {k k' : Kern} {l l' : List ℕ} {own : Party → Set ℕ} {extra : FileId → ℕ} {T' : Set ℕ}

/-- What does not change when a process works on its own memory. -/
structure SameTables (k k' : Kern) : Prop where
  ftable : k'.ftable = k.ftable
  pipes : k'.pipes = k.pipes
  kernel_pagetable : k'.kernel_pagetable = k.kernel_pagetable
  kstack : k'.kstack = k.kstack
  trampoline : k'.trampoline = k.trampoline

theorem FilesOk.congr (h : FilesOk k extra) (hs : SameTables k k')
    (ho : ∀ q, (k'.procs q).ofile = (k.procs q).ofile) : FilesOk k' extra := by
  have hopen : opened k' = opened k := funext fun x => congrFun (ho x.1) x.2
  have hend : ∀ pi w f, IsEnd k' pi w f ↔ IsEnd k pi w f := fun pi w f => by
    unfold IsEnd
    rw [hs.ftable]
  have hpages : pipePages k' = pipePages k := by
    ext pi
    simp only [pipePages, hend]
  refine ⟨fun f => ?_, fun f => ?_, fun pi w f g => ?_, fun pi hpi w => ?_⟩
  · rw [hs.ftable, hopen]
    exact h.ref_eq f
  · rw [hs.ftable]
    exact h.free f
  · rw [hend, hend]
    exact h.unique pi w f g
  · rw [hs.pipes]
    simp only [hend]
    exact h.isOpen pi (hpages ▸ hpi) w

theorem SameTables.pipePages (hs : SameTables k k') : pipePages k' = pipePages k := by
  unfold Kernel.pipePages IsEnd
  rw [hs.ftable]

/-- Process `p` changed its own memory. -/
theorem Inv.change (h : Inv k l own extra) (k' : Kern) (p : Slot)
    (he : Effect k.phys l (own (.proc p)) k'.phys l' T') (hs : SameTables k k')
    (hother : ∀ q, q ≠ p → k'.procs q = k.procs q)
    (hmem : ProcMem k.trampoline k'.phys l' (k'.procs p) T') (hshape : Shape (k'.procs p))
    (ho : (k'.procs p).ofile = (k.procs p).ofile) :
    Inv k' l' (Function.update own (.proc p) T') extra where
  parts := h.parts.effect he
  kernel := by
    rw [hs.kernel_pagetable, hs.kstack, Function.update_of_ne (by simp)]
    exact h.kernel.frame (h.parts.heap_of .kernel) he (h.parts.off (by simp))
  proc q := by
    rw [hs.trampoline]
    by_cases hq : q = p
    · subst hq
      rwa [Function.update_self]
    · have hne : Party.proc q ≠ .proc p := fun he => hq (Party.proc.inj he)
      rw [Function.update_of_ne hne, hother q hq]
      exact (h.proc q).frame he (h.parts.off hne)
  pipes := by
    rw [Function.update_of_ne (by simp), h.pipes, hs.pipePages]
  shape q := by
    by_cases hq : q = p
    · exact hq ▸ hshape
    · rw [hother q hq]
      exact h.shape q
  files := h.files.congr hs fun q => by
    by_cases hq : q = p
    · rw [hq, ho]
    · rw [hother q hq]
  trampoline := hs.trampoline ▸ h.trampoline

/-- The set of open pipes changed. -/
theorem Inv.changePipes {extra' : FileId → ℕ} (h : Inv k l own extra) (k' : Kern)
    (he : Effect k.phys l (own .pipes) k'.phys l' (pipePages k')) (hp : k'.procs = k.procs)
    (hk : k'.kernel_pagetable = k.kernel_pagetable) (hks : k'.kstack = k.kstack)
    (ht : k'.trampoline = k.trampoline) (hfiles : FilesOk k' extra') :
    Inv k' l' (Function.update own .pipes (pipePages k')) extra' where
  parts := h.parts.effect he
  kernel := by
    rw [hk, hks, Function.update_of_ne (by simp)]
    exact h.kernel.frame (h.parts.heap_of .kernel) he (h.parts.off (by simp))
  proc q := by
    rw [ht, hp, Function.update_of_ne (by simp)]
    exact (h.proc q).frame he (h.parts.off (by simp))
  pipes := Function.update_self ..
  shape q := hp ▸ h.shape q
  files := hfiles
  trampoline := ht ▸ h.trampoline

end change

end Xv6.Kernel
