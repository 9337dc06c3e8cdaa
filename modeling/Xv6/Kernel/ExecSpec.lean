import Xv6.Kernel.Load

/-!
# `exec` keeps the invariant

`exec` builds the new address space beside the old one and frees one of the two, on every way out.
The pages of the argument strings are held by running code.
-/

namespace Xv6.Kernel

open Lib (Bytes Code refs)
open Mem

/-! ### Replacing the memory of a process -/

section exec

variable {k : Kern} {s : Phys} {l : List ℕ} {p : Slot} {T E : Set ℕ}

/-- Process `p` is in `exec`: its memory is `T`, and running code holds the argument pages `E`. -/
structure InExec (k : Kern) (p : Slot) (l : List ℕ) (T E : Set ℕ) : Prop where
  memory : ProcMem k.trampoline k.phys l (k.procs p) T
  active : (k.procs p).pagetable ≠ 0
  apart : ∀ pa ∈ E, pa ∉ T
  heap : Heap k.phys l (T ∪ E)
  trampoline : k.trampoline < PHYSTOP

/-- The process `p`, which owned `T`, has perhaps another address space; running code owns `E`. -/
def Swapped (k : Kern) (l : List ℕ) (p : Slot) (T E : Set ℕ) (k' : Kern) : Prop :=
  ∃ s' l' y T', k' = (k.withPhys s').setSlot p y ∧ y.state = (k.procs p).state ∧
    y.ofile = (k.procs p).ofile ∧ y.cwd = (k.procs p).cwd ∧ y.pagetable ≠ 0 ∧
    ProcMem k.trampoline s' l' y T' ∧ (∀ pa ∈ E, pa ∉ T') ∧ Effect k.phys l (T ∪ E) s' l' (T' ∪ E)

/-- The trapframe starts the program at `entry` with its stack at `top`, which is also `argv`. -/
structure Entered (m : Bytes) (trapframe entry top : ℕ) : Prop where
  epc : m.load (trapframe + 24) 8 = entry % 256 ^ 8
  sp : m.load (trapframe + 48) 8 = top % 256 ^ 8
  a1 : m.load (trapframe + 120) 8 = top % 256 ^ 8

variable {A : PTab} {path : List UInt8} {l' argv : List ℕ} {sz : ℕ} {s' : Phys}

/-- An attempt that gave everything back. -/
theorem Swapped.same (h : InExec k p l T E) (heff : Effect k.phys l ∅ s' l' ∅) :
    Swapped k l p T E (k.withPhys s') := by
  have hall := heff.frame_union h.heap fun pa _ hin => hin
  rw [Set.empty_union] at hall
  exact ⟨s', l', k.procs p, T, (setSlot_eq_self (k.withPhys s') p).symm, rfl, rfl, rfl, h.active,
    h.memory.frame heff fun pa _ hin => hin, h.apart, hall⟩

/-- The end of `exec`: the new address space takes the place of the old one, which is freed. -/
theorem commit_spec {x : Proc} {B : PTab} (argc entry sp : ℕ) (name : List UInt8)
    (hroot : x.pagetable = B.root)
    (hB : User (procLayout k.trampoline x.trapframe) k.phys l B (npages x.sz))
    (hA : User (procLayout k.trampoline x.trapframe) k.phys l A (npages sz))
    (hfresh : x.trapframe ∉ B.footprint (npages x.sz))
    (hnew : ∀ pa ∈ insert x.trapframe (B.footprint (npages x.sz)) ∪ E, pa ∉ A.footprint (npages sz))
    (hE : ∀ pa ∈ E, pa ∉ insert x.trapframe (B.footprint (npages x.sz)))
    (hh : Heap k.phys l (A.footprint (npages sz) ∪
      (insert x.trapframe (B.footprint (npages x.sz)) ∪ E))) :
    Code.wp (do
      vm (store64 (x.trapframe + 120) sp)
      setProc p fun x => { x with name := name }
      setProc p fun x => { x with pagetable := A.root, sz := sz }
      vm (store64 (x.trapframe + 24) entry)
      vm (store64 (x.trapframe + 48) sp)
      vm (proc_freepagetable x.pagetable x.sz)
      return (argc : ℤ)) (fun r k' => r = argc ∧ ∃ s' l',
        k' = (k.withPhys s').setSlot p { k.procs p with name := name, pagetable := A.root, sz := sz } ∧
        User (procLayout k.trampoline x.trapframe) s' l' A (npages sz) ∧
        Effect k.phys l (A.footprint (npages sz) ∪
          (insert x.trapframe (B.footprint (npages x.sz)) ∪ E)) s' l'
          (insert x.trapframe (A.footprint (npages sz)) ∪ E) ∧
        Kept k.phys.mem A s'.mem A (npages sz) ∧ Entered s'.mem x.trapframe entry sp) k := by
  have htf : x.trapframe ∈ A.footprint (npages sz) ∪
      (insert x.trapframe (B.footprint (npages x.sz)) ∪ E) := .inr (.inl (Set.mem_insert ..))
  have hal := (hh.owned _ htf).aligned
  -- the three stores go to the trapframe
  have hmem := ((sameOff_store (m := k.phys.mem) (v := sp) hal (by decide : 120 + 8 ≤ 4096)).trans
    (sameOff_store (v := entry) hal (by decide : 24 + 8 ≤ 4096))).trans
    (sameOff_store (v := sp) hal (by decide : 48 + 8 ≤ 4096))
  have hwrite := (hh.subset (Set.singleton_subset_iff.mpr htf)).write hmem
  have hwriteAll := hh.write (hmem.mono (Set.singleton_subset_iff.mpr htf))
  have hoffA : ∀ pa ∈ A.footprint (npages sz), pa ∉ ({x.trapframe} : Set ℕ) := by
    intro pa hpa hin
    rw [Set.mem_singleton_iff.mp hin] at hpa
    exact hnew _ (.inl (Set.mem_insert ..)) hpa
  have hA2 := hA.frame hwrite hoffA
  have hkept := hA.kept hwrite hoffA
  have hB2 := hB.frame hwrite (by
    intro pa hpa hin
    rw [Set.mem_singleton_iff.mp hin] at hpa
    exact hfresh hpa)
  simp only [Code.wp_bind, Code.wp_pure, wp_vm, wp_setProc, store64, Code.wp_modify, hroot,
    setSlot_self, setSlot_setSlot]
  apply Code.wp_mono (proc_freepagetable_spec hB2)
  intro _ s3 hres
  obtain ⟨l3, hfree⟩ := hres
  have hswap : A.footprint (npages sz) ∪ (insert x.trapframe (B.footprint (npages x.sz)) ∪ E) =
      B.footprint (npages x.sz) ∪ (insert x.trapframe (A.footprint (npages sz)) ∪ E) := by
    ext pa
    simp only [Set.mem_union, Set.mem_insert_iff]
    tauto
  have hrest : ∀ pa ∈ insert x.trapframe (A.footprint (npages sz)) ∪ E,
      pa ∉ B.footprint (npages x.sz) := by
    intro pa hpa hin
    rcases hpa with (rfl | hpa) | hpa
    · exact hfresh hin
    · exact hnew pa (.inl (.inr hin)) hpa
    · exact hE pa hpa (.inr hin)
  have hkeep := hwriteAll.heap
  rw [hswap] at hkeep
  have hfreeAll := hfree.frame_union (hkeep.subset Set.subset_union_right) hrest
  rw [← hswap, Set.empty_union] at hfreeAll
  have hoffB : ∀ pa ∈ A.footprint (npages sz), pa ∉ B.footprint (npages x.sz) :=
    fun pa hpa hin => hnew pa (.inl (.inr hin)) hpa
  have htrap := fun off (hoff : off + 8 ≤ 4096) =>
    hfree.load_eq hal hoff hfresh (hwriteAll.heap.disjoint _ htf)
  refine ⟨trivial, s3, l3, rfl, hA2.frame hfree hoffB, hwriteAll.trans hfreeAll,
    hkept.trans (hA2.kept hfree hoffB), ?_, ?_, ?_⟩
  · rw [htrap 24 (by decide), Bytes.load_store_of_disjoint (by omega), Bytes.load_store]
  · rw [htrap 48 (by decide), Bytes.load_store]
  · rw [htrap 120 (by decide), Bytes.load_store_of_disjoint (by omega),
      Bytes.load_store_of_disjoint (by omega), Bytes.load_store]

/-- `exec` of a program `f` with result `r` failed and gave everything back. -/
def ExecFailed (k : Kern) (l : List ℕ) (r : ℤ) (k' : Kern) : Prop :=
  r = -1 ∧ ∃ s' l', k' = k.withPhys s' ∧ Effect k.phys l ∅ s' l' ∅

/-- `exec` has all it needs: an acceptable program that ends at `top`, enough free pages, and arguments
that fit in a page. -/
structure Startable (k : Kern) (l : List ℕ) (E : Set ℕ) (f : Image) (argv : List ℕ)
    (strs : List (List UInt8)) (top : ℕ) : Prop where
  program : f.Fits top
  pages : Plenty k.phys l (3 * npages top + 9)
  args : Args k.phys.mem E argv strs
  few : argv.length ≤ MAXARG
  room : stackSize strs ≤ PGSIZE

/-- `exec` replaced the memory `T` of process `p` by the address space `A`: the program `f`, and a
stack with the arguments if these are known. -/
structure Installed (k : Kern) (l : List ℕ) (p : Slot) (T E : Set ℕ) (path : List UInt8) (f : Image)
    (argv : List ℕ) (strs : List (List UInt8)) (r : ℤ) (k' : Kern) (A : PTab) (l' : List ℕ)
    (n sz argc sp : ℕ) : Prop where
  result : r = argc
  fits : ∃ top, top ≤ n * 4096 ∧ f.Fits top
  kern : k' = (k.withPhys k'.phys).setSlot p { k.procs p with
    name := safestrcpy (lastName path path) 16, pagetable := A.root, sz := sz }
  user : User (procLayout k.trampoline (k.procs p).trapframe) k'.phys l' A (npages sz)
  fresh : (k.procs p).trapframe ∉ A.footprint (npages sz)
  apart : ∀ pa ∈ E, pa ∉ insert (k.procs p).trapframe (A.footprint (npages sz))
  eff : Effect k.phys l (T ∪ E) k'.phys l'
    (insert (k.procs p).trapframe (A.footprint (npages sz)) ∪ E)
  built : Built k'.phys.mem A n f.loaded sz
  entered : Entered k'.phys.mem (k.procs p).trapframe (f.field 24 8) sp
  args : Args k.phys.mem E argv strs ∧ argv.length ≤ MAXARG →
    Stacked f.loaded sz strs (some (argc, sp)) k'.phys.mem A

theorem giveUp_spec {flags : ℕ → Prop} {hf : ∀ f, flags f → IsLeaf f} {trapframe : ℕ}
    (hu : User (layoutOf flags hf k.trampoline trapframe) s' l' A (npages sz))
    (heff : Effect k.phys l ∅ s' l' (A.footprint (npages sz))) :
    Code.wp (do
      vm (proc_freepagetable A.root sz)
      return (-1 : ℤ)) (fun r k' => ExecFailed k l r k') (k.withPhys s') := by
  rw [Code.wp_bind, wp_vm]
  apply Code.wp_mono (proc_freepagetable_spec hu)
  intro _ s'' hres
  obtain ⟨l'', hfree⟩ := hres
  exact ⟨rfl, s'', l'', rfl, heff.trans hfree⟩

theorem Built.kept {m m' U : Bytes} {n : ℕ} (h : Built m A n U sz)
    (hk : Kept m A m' A (npages sz)) : Built m' A n U sz := by
  refine ⟨h.size, h.below.kept hk ?_, h.guard, h.access⟩
  rw [h.size, npages_mul]
  omega

theorem Stacked.kept {m m' U : Bytes} {strs : List (List UInt8)} {r : Option (ℕ × ℕ)}
    (h : Stacked U sz strs r m A) (hk : Kept m A m' A (npages sz)) : Stacked U sz strs r m' A := by
  refine ⟨h.full, fun argc sp hr => ?_⟩
  obtain ⟨hfit, hargc, hsp, hU⟩ := h.pushed argc sp hr
  refine ⟨hfit, hargc, hsp, hU.kept hk ?_⟩
  unfold npages
  omega

/-- `exec` installs the program that it read from the file, or leaves everything as it was. -/
theorem exec_image {f : Image} (strs : List (List UInt8)) (top : ℕ) (h : InExec k p l T E) :
    Code.wp (exec p path (some f) argv) (fun r k' =>
      ExecFailed k l r k' ∧ ¬ Startable k l E f argv strs top ∨
      ∃ A l' n sz argc sp, Installed k l p T E path f argv strs r k' A l' n sz argc sp) k := by
  obtain ⟨hm, hpt, hE, hh, ht⟩ := h
  have hsame : ExecFailed k l (-1) k :=
    ⟨rfl, k.phys, l, rfl, .refl (hh.subset (Set.empty_subset _))⟩
  rcases hm with ⟨hzero, -⟩ | ⟨B, hroot, hB, hfresh, rfl⟩
  · exact absurd hzero hpt
  have htf := (hh.owned (k.procs p).trapframe (.inl (Set.mem_insert ..))).high
  rw [exec, Code.wp_bind, Code.wp_get, Code.wp_ite, Code.wp_ite]
  refine ⟨fun hread => .inl ⟨hsame, fun hst => ?_⟩, fun hread =>
    ⟨fun hmagic => .inl ⟨hsame, fun hst => ?_⟩, fun hmagic => ?_⟩⟩
  · exact hread ((f.readi_eq_iff (by decide)).mpr hst.program.header)
  · exact hmagic hst.program.magic
  rw [Code.wp_bind, wp_vm]
  apply Code.wp_mono (proc_pagetable_spec (fun f => IsLeaf f ∧ f &&& PTE_U ≠ 0)
    (fun _ hf => hf.1) (hh.subset (Set.empty_subset _)) ht htf)
  intro pt s1 hres
  rcases hres with ⟨rfl, ⟨l1, heff1⟩, hno⟩ | ⟨l1, A, hpt1, rfl, hu1, heff1, hst1⟩
  · rw [if_pos rfl]
    exact .inl ⟨⟨rfl, s1, l1, rfl, heff1⟩, fun hst => hno (hst.pages.mono (by omega))⟩
  have hn0 : npages 0 = 0 := by decide
  rw [← hn0] at hu1 heff1
  rw [if_neg hpt1, Code.wp_bind, wp_vm]
  apply Code.wp_mono (loadSegs_spec _ top hu1 (hn0 ▸ Filled.empty) (Nat.mod_lt _ (by decide)))
  intro r s2 hres
  obtain ⟨done, sz⟩ := r
  obtain ⟨l2, A2, hres2, hload, hall2⟩ := hres
  have hst2 : Startable k l E f argv strs top → done = true ∧ Plenty s2 l2 6 := fun hst =>
    hall2 hst.program.program 6 (hst1 _ (hst.pages.mono (by omega)))
  have heff2 := heff1.trans hres2.eff
  rw [withPhys_withPhys, ← hres2.root_eq]
  cases done with
  | false =>
    exact Code.wp_mono (giveUp_spec hres2.user heff2) fun _ _ hfail =>
      .inl ⟨hfail, fun hst => Bool.false_ne_true (hst2 hst).1⟩
  | true =>
    dsimp only
    obtain ⟨-, hfits, hload⟩ := hload rfl
    have hE2 := (heff2.frame_union (hh.subset Set.subset_union_right) fun pa _ hin => hin).heap.subset
      (Set.subset_union_right (t := E))
    have hEA2 : ∀ pa ∈ E, pa ∉ A2.footprint (npages sz) := fun pa hpa =>
      (heff2.foreign (Set.notMem_empty pa) (hh.disjoint pa (.inr hpa))).1
    have hframe : Args k.phys.mem E argv strs → Args s2.mem E argv strs := fun hargs =>
      hargs.frame (hh.subset Set.subset_union_right) heff2 fun pa _ hin => hin
    rw [if_neg (by decide), Code.wp_bind, wp_vm]
    apply Code.wp_mono (buildStack_spec strs hres2.user hload hE2 hEA2)
    intro r s3 hres
    obtain ⟨sz3, r⟩ := r
    obtain ⟨l3, A3, hroot3, hu3, heff3, hbuilt⟩ := hres
    have heff := heff2.trans heff3
    rw [withPhys_withPhys, ← hroot3]
    cases r with
    | none =>
      refine Code.wp_mono (giveUp_spec hu3 heff) fun _ _ hfail => .inl ⟨hfail, fun hst => ?_⟩
      rcases hbuilt with ⟨-, hno⟩ | ⟨-, hstacked⟩
      · exact hno (hst2 hst).2
      · exact absurd ((hstacked ⟨hframe hst.args, hst.few⟩).full rfl) (not_lt.mpr hst.room)
    | some r =>
      obtain ⟨argc, sp⟩ := r
      obtain ⟨hbuilt, hstacked⟩ := hbuilt.resolve_left fun hc => absurd hc.1 (Option.some_ne_none _)
      have hall := heff.frame_union hh fun pa _ hin => hin
      rw [Set.empty_union] at hall
      have hnew : ∀ pa ∈ insert (k.procs p).trapframe
          (B.footprint (npages (k.procs p).sz)) ∪ E, pa ∉ A3.footprint (npages sz3) :=
        fun pa hpa => (heff.foreign (Set.notMem_empty pa) (hh.disjoint pa hpa)).1
      have hcommit := commit_spec (k := k.withPhys s3) (p := p) (E := E) argc
        (f.field 24 8) sp (safestrcpy (lastName path path) 16) hroot
        (hB.frame heff fun pa _ hin => hin) hu3 hfresh hnew hE hall.heap
      apply Code.wp_mono hcommit
      intro _ k' hres
      obtain ⟨hr, s4, l4, rfl, hu4, heff4, hkept, hent⟩ := hres
      have hheader := (f.readi_eq_iff (by decide)).mp (not_not.mp hread)
      refine .inr ⟨A3, l4, npages sz, sz3, argc, sp, hr,
        ⟨sz, by unfold npages; omega, hheader, not_not.mp hmagic, hfits⟩, rfl, hu4,
        hnew _ (.inl (Set.mem_insert ..)), ?_, hall.trans heff4, hbuilt.kept hkept, hent,
        fun hargs => (hstacked ⟨hframe hargs.1, hargs.2⟩).kept hkept⟩
      · intro pa hpa hin
        rcases hin with rfl | hin
        · exact hE _ hpa (Set.mem_insert ..)
        · exact hnew pa (.inr hpa) hin

/-- `exec` replaces the address space of the process, or leaves it as it was. -/
theorem exec_spec {file : Option Image} (h : InExec k p l T E) :
    Code.wp (exec p path file argv) (fun _ k' => Swapped k l p T E k') k := by
  cases file with
  | none => exact .same h (.refl (h.heap.subset (Set.empty_subset _)))
  | some f =>
    apply Code.wp_mono (exec_image [] 0 h)
    intro r k' hres
    rcases hres with ⟨⟨-, s', l', rfl, heff⟩, -⟩ | ⟨A, l', n, sz, argc, sp, hin⟩
    · exact .same h heff
    · exact ⟨k'.phys, l', _, _, hin.kern, rfl, rfl, rfl, hin.user.rep.root_ne,
        .inr ⟨A, rfl, hin.user, hin.fresh, rfl⟩, hin.apart, hin.eff⟩

end exec

/-! ### The arguments -/

section args

variable {k : Kern} {s : Phys} {l : List ℕ} {p : Slot} {L : Layout} {A : PTab} {n : ℕ}

theorem fetchaddr_spec {sz addr : ℕ} (h : User L s l A n) :
    Code.wp (fetchaddr A.root sz addr) (fun _ s' => s' = s) s := by
  simp only [fetchaddr, Code.wp_ite, Code.wp_pure, Code.wp_bind]
  refine ⟨fun _ => trivial, fun _ => ?_⟩
  apply Code.wp_mono (copyin_spec h)
  intro r s' hres
  exact ⟨fun _ => hres, fun _ => hres⟩

theorem fetchstr_spec {addr buf : ℕ} (h : User L s l A n) (hbuf : buf % 4096 = 0) :
    Code.wp (fetchstr A.root addr buf) (fun _ s' => ∃ m, s' = { s with mem := m } ∧
      SameOff {buf} s.mem m) s := by
  simp only [fetchstr, Code.wp_bind, Code.wp_ite, Code.wp_pure, memput, Code.wp_modify]
  apply Code.wp_mono (copyinstr_spec h)
  intro r s' hres
  obtain ⟨r, str⟩ := r
  obtain ⟨rfl, hlen, hnul⟩ := hres
  dsimp only at hlen hnul ⊢
  rw [PGSIZE_eq] at hlen hnul
  have hfit : 0 + (if r < 0 then str else str ++ [0]).length ≤ 4096 := by
    split
    · omega
    · rename_i hr
      have := hnul hr
      rw [List.length_append, List.length_singleton]
      omega
  have hpost := fun source => sameOff_copy (m := s'.mem) source 0 hbuf hfit
  exact ⟨fun _ => ⟨_, rfl, hpost _⟩, fun _ => ⟨_, rfl, hpost _⟩⟩

/-- The pages of a list of arguments. -/
def argPages (argv : List ℕ) : Set ℕ := {pa | pa ∈ argv}

theorem argPages_nil : argPages [] = ∅ := Set.eq_empty_of_forall_notMem fun _ => List.not_mem_nil

theorem argPages_cons (page : ℕ) (argv : List ℕ) : argPages (page :: argv) = insert page (argPages argv) :=
  Set.ext fun _ => List.mem_cons

theorem fetchArgs_spec {sz uargv : ℕ} (m i : ℕ) (h : User L s l A n) :
    Code.wp (fetchArgs A.root sz uargv m i) (fun r s' => r.1.Nodup ∧ ∃ l',
      Effect s l ∅ s' l' (argPages r.1)) s := by
  have hempty : ∀ {s : Phys} {l : List ℕ}, User L s l A n → ([] : List ℕ).Nodup ∧ ∃ l',
      Effect s l ∅ s l' (argPages []) := by
    intro s l h
    rw [argPages_nil]
    exact ⟨List.nodup_nil, l, .refl (h.heap.subset (Set.empty_subset _))⟩
  induction m generalizing s l i with
  | zero => exact hempty h
  | succ m ih =>
    rw [fetchArgs, Code.wp_bind]
    apply Code.wp_mono (fetchaddr_spec h)
    intro r s0 hs0
    rw [hs0]
    cases r with
    | none => exact hempty h
    | some uarg =>
      simp only [Code.wp_ite, Code.wp_pure, Code.wp_bind]
      refine ⟨fun _ => hempty h, fun _ => ?_⟩
      apply Code.wp_mono (kalloc_spec (h.heap.subset (Set.empty_subset _)))
      intro page s1 hres
      rcases hres with ⟨rfl, heff1, -⟩ | ⟨l1, -, heff1, -, hpage, -⟩
      · refine ⟨fun _ => ⟨List.nodup_nil, l, ?_⟩, fun hc => absurd rfl hc⟩
        rw [argPages_nil]
        exact heff1
      refine ⟨fun hc => absurd hc hpage, fun _ => ?_⟩
      have h1 := h.frame heff1 fun pa _ hin => hin
      have hram := heff1.heap.owned page (Set.mem_insert ..)
      apply Code.wp_mono (fetchstr_spec h1 hram.aligned)
      intro c s2 hres
      obtain ⟨mem, rfl, hmem⟩ := hres
      have heff2 := heff1.heap.write (by rwa [← Set.singleton_def] : SameOff (insert page ∅) s1.mem mem)
      have hoff : ∀ pa ∈ A.footprint n, pa ∉ insert page (∅ : Set ℕ) := fun pa hpa =>
        (heff1.foreign (Set.notMem_empty pa) (h.heap.disjoint pa hpa)).1
      have h2 := h1.frame heff2 hoff
      have heff12 := heff1.trans heff2
      constructor
      · intro _
        refine ⟨List.nodup_singleton page, l1, ?_⟩
        rw [argPages_cons, argPages_nil]
        exact heff12
      · intro _
        apply Code.wp_mono (ih (i + 1) h2)
        intro r s3 hres
        obtain ⟨hnd, l3, heff3⟩ := hres
        have hfresh : page ∉ argPages r.1 :=
          (heff3.foreign (Set.notMem_empty page) (heff2.heap.disjoint page (Set.mem_insert ..))).1
        have hall := heff3.frame_union heff2.heap fun pa _ hin => hin
        rw [Set.empty_union, Set.union_insert, Set.union_empty] at hall
        refine ⟨List.nodup_cons.mpr ⟨hfresh, hnd⟩, l3, ?_⟩
        rw [argPages_cons]
        exact heff12.trans hall

theorem freeArgs_spec (argv : List ℕ) (hnd : argv.Nodup) (hh : Heap s l (argPages argv)) :
    Code.wp (freeArgs argv) (fun _ s' => ∃ l', Effect s l (argPages argv) s' l' ∅) s := by
  induction argv generalizing s l with
  | nil =>
    rw [argPages_nil] at hh ⊢
    exact ⟨l, .refl hh⟩
  | cons page argv ih =>
    obtain ⟨hnot, hnd⟩ := List.nodup_cons.mp hnd
    rw [argPages_cons] at hh ⊢
    rw [freeArgs, Code.wp_bind]
    apply Code.wp_mono (kfree_spec hh (Set.mem_insert ..))
    intro _ s1 hres
    obtain ⟨heff, -⟩ := hres
    have hset : insert page (argPages argv) \ {page} = argPages argv :=
      Set.insert_sdiff_self_of_notMem hnot
    rw [hset] at heff
    apply Code.wp_mono (ih hnd heff.heap)
    intro _ s2 hres
    obtain ⟨l2, heff2⟩ := hres
    exact ⟨l2, heff.trans heff2⟩

theorem finishExec_spec {own : Party → Set ℕ} {s1 : Phys} {l1 : List ℕ} {argv : List ℕ} {ret : ℤ}
    {k' : Kern} (h : Inv k l own fun _ => 0) (hp : Running (k.procs p)) (hnd : argv.Nodup)
    (heff : Effect k.phys l ∅ s1 l1 (argPages argv))
    (hsw : Swapped (k.withPhys s1) l1 p (own (.proc p)) (argPages argv) k') :
    Code.wp (do
      vm (freeArgs argv)
      return ret) (fun _ k'' => Good k'') k' := by
  obtain ⟨s2, l2, y, T, rfl, hstate, hof, hcwd, hpt, hmem, hE, heff2⟩ := hsw
  rw [Code.wp_bind, wp_vm]
  have hargs := heff2.heap.subset (Set.subset_union_right (t := argPages argv))
  apply Code.wp_mono (freeArgs_spec argv hnd hargs)
  intro _ s3 hres
  obtain ⟨l3, heff3⟩ := hres
  have hTargs : ∀ pa ∈ T, pa ∉ argPages argv := fun pa hT hin => hE pa hin hT
  have hkeep := heff3.frame_union (heff2.heap.subset Set.subset_union_left) hTargs
  rw [Set.empty_union, Set.union_comm] at hkeep
  have hstart := heff.frame_union (h.parts.heap_of (.proc p)) fun pa _ hin => hin
  rw [Set.empty_union, Set.union_comm] at hstart
  have hall := (hstart.trans heff2).trans hkeep
  have hinv := h.change ((k.withPhys s3).setSlot p y) p hall ⟨rfl, rfl, rfl, rfl, rfl⟩
    (fun q hq => setSlot_of_ne hq) (by rw [setSlot_self]; exact hmem.frame heff3 hTargs)
    (by
      rw [setSlot_self]
      refine ⟨fun hc => absurd (hstate.symm.trans hc) hp.1, fun _ => hpt, fun hc => ?_, fun hc => ?_⟩
      · rw [hstate] at hc
        exact absurd hc (not_or.mpr hp)
      · rw [hcwd]
        exact (h.shape p).home (hstate.symm.trans hc))
    (by rw [setSlot_self]; exact hof)
  exact hinv.good

theorem sys_exec_spec {namei : List UInt8 → Option Image} {path uargv : ℕ} (h : Good k)
    (hp : Running (k.procs p)) :
    Code.wp (sys_exec p namei path uargv) (fun _ k' => Good k') k := by
  obtain ⟨l, own, h⟩ := h
  obtain ⟨A, hroot, hu, -, -⟩ := h.space hp.1
  simp only [sys_exec, Code.wp_bind, Code.wp_get, wp_vm, hroot]
  apply Code.wp_mono (copyinstr_spec hu)
  intro r s0 hres
  obtain ⟨rfl, -⟩ := hres
  rw [Code.wp_ite]
  refine ⟨fun _ => h.good, fun _ => ?_⟩
  simp only [Code.wp_bind, wp_vm]
  apply Code.wp_mono (fetchArgs_spec MAXARG 0 hu)
  intro r1 s1 hres
  obtain ⟨argv, ok⟩ := r1
  obtain ⟨hnd, l1, heff⟩ := hres
  have hall := heff.frame_union (h.parts.heap_of (.proc p)) fun pa _ hin => hin
  rw [Set.empty_union, Set.union_comm] at hall
  have hmem := (h.proc p).frame heff fun pa _ hin => hin
  have hdisj : ∀ pa ∈ argPages argv, pa ∉ own (.proc p) := by
    intro pa hpa hin
    exact (heff.foreign (Set.notMem_empty pa) ((h.parts.heap_of (.proc p)).disjoint pa hin)).1 hpa
  have hin : InExec (k.withPhys s1) p l1 (own (.proc p)) (argPages argv) :=
    ⟨hmem, (h.shape p).active hp.1, hdisj, hall.heap, h.trampoline⟩
  have hsame : Swapped (k.withPhys s1) l1 p (own (.proc p)) (argPages argv) (k.withPhys s1) :=
    .same hin (.refl (hall.heap.subset (Set.empty_subset _)))
  dsimp only
  cases ok with
  | false => exact finishExec_spec h hp hnd heff hsame
  | true =>
    rw [if_pos rfl, Code.wp_bind]
    apply Code.wp_mono (exec_spec hin)
    intro ret k2 hsw
    exact finishExec_spec h hp hnd heff hsw

end args

end Xv6.Kernel
