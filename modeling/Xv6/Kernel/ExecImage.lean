import Xv6.Kernel.UserMemory

/-!
# What `exec` installs

`exec` is all or nothing: it installs the program that the file describes, with zeros where the file
has nothing and a page without access below the stack, or it returns -1 and leaves no trace. This
holds for every file and wherever `kalloc` fails, with one exception: positions in the file are cut to
32 bits, so a segment that claims to begin at 4 GiB is loaded from the beginning of the file instead of
being refused. A file that is accepted otherwise is installed right exactly if this cuts no position
that matters. The arguments arrive on the new stack as they were given, if they fit in a page.
-/

namespace Xv6.Kernel

open Lib (Bytes Code)
open Mem

/-- Nothing is left of a call of `exec` by `p` but the order of the free pages. -/
structure ExecUndone (k : Kern) (p : Slot) (k' : Kern) : Prop where
  kern : k' = k.withPhys k'.phys
  free : ∀ pa, IsFree k'.phys pa ↔ IsFree k.phys pa
  mem : ∀ x, ¬ IsFree k.phys (PGROUNDDOWN x) → k'.phys.mem x = k.phys.mem x
  translate : ∀ va, va < MAXVA → k'.translate p va = k.translate p va
  byte : ∀ va, va < PGROUNDUP (k.procs p).sz → k'.byte p va = k.byte p va

/-- Process `p` has the program `f` in its memory, below a closed page and the stack. -/
structure ExecLoaded (k : Kern) (p : Slot) (f : Image) (k' : Kern) : Prop where
  others : ∀ q, q ≠ p → k'.procs q = k.procs q
  size : 2 * PGSIZE ≤ (k'.procs p).sz
  table : 0 < f.phnum → f.phoff + 56 * f.phnum ≤ f.size
  image : ∀ va, va < (k'.procs p).sz - PGSIZE → f.Gives va (k'.byte p va)
  access : ∀ va, va < (k'.procs p).sz → ∃ pa flags, k'.translate p va = some (pa, flags) ∧
    (flags &&& PTE_U = 0 ↔ (k'.procs p).sz - 2 * PGSIZE ≤ va ∧ va < (k'.procs p).sz - PGSIZE)

/-- What `exec` of `file` by `p` promises when it returns `r`. -/
def ExecOk (k : Kern) (p : Slot) (file : Option Image) (r : ℤ) (k' : Kern) : Prop :=
  r = -1 ∧ ExecUndone k p k' ∨ 0 ≤ r ∧ ∃ f, file = some f ∧ ExecLoaded k p f k'

/-- The argument strings `strs` were passed to the program of `p`: the stack pointer and `a1` hold the
address of the array of pointers to them. -/
structure Passed (k' : Kern) (p : Slot) (strs : List (List UInt8)) (r : ℤ) : Prop where
  result : r = strs.length
  room : stackSize strs ≤ PGSIZE
  sp : k'.phys.mem.load ((k'.procs p).trapframe + 48) 8 =
    k'.phys.mem.load ((k'.procs p).trapframe + 120) 8
  stack : ∃ ptrs, ArgStack (k'.byte p) ((k'.procs p).sz - PGSIZE) (k'.procs p).sz
    (k'.phys.mem.load ((k'.procs p).trapframe + 120) 8) strs ptrs
  access : ∀ va, (k'.procs p).sz - PGSIZE ≤ va → va < (k'.procs p).sz →
    UserMapped k'.phys.mem (k'.procs p).pagetable va

/-! ### From address spaces to what the process sees -/

section view

variable {k k' : Kern} {l l' : List ℕ} {p : Slot} {T E : Set ℕ} {path : List UInt8} {f : Image}
  {argv : List ℕ} {strs : List (List UInt8)} {r : ℤ} {A : PTab} {n sz argc sp : ℕ}

theorem ExecFailed.undone (hf : ExecFailed k l r k') (h : InExec k p l T E) :
    r = -1 ∧ ExecUndone k p k' := by
  obtain ⟨hr, s', l', rfl, heff⟩ := hf
  rcases h.memory with ⟨hzero, -⟩ | ⟨B, hroot, hB, -, -⟩
  · exact absurd hzero h.active
  have hB' : User _ (k.withPhys s').phys l' B _ := hB.frame heff fun pa _ hin => hin
  have hroot' : ((k.withPhys s').procs p).pagetable = B.root := hroot
  refine ⟨hr, rfl, fun pa => ?_, fun x hx => ?_, fun va hva => ?_, fun va hva => ?_⟩
  · rw [Heap.isFree hB'.heap, Heap.isFree h.heap]
    have hpages := heff.pages pa
    simpa using hpages
  · rw [Heap.isFree h.heap] at hx
    exact heff.frame x (Set.notMem_empty _) hx
  · exact translate_congr hroot hB hroot' hB' (lt_of_lt_MAXVA hva) rfl
  · have hlt := lt_PGROUNDUP hB hva
    have hram := hB.le_ram
    rw [byte_eq hroot' hB' (by omega), byte_eq hroot hB (by omega)]
    exact (hB.kept heff fun pa _ hin => hin).byte _ _ hlt (Nat.mod_lt _ (by decide))

theorem Installed.proc (h : Installed k l p T E path f argv strs r k' A l' n sz argc sp) :
    k'.procs p = { k.procs p with
      name := safestrcpy (lastName path path) 16, pagetable := A.root, sz := sz } := by
  rw [h.kern, setSlot_self]

theorem Installed.root (h : Installed k l p T E path f argv strs r k' A l' n sz argc sp) :
    (k'.procs p).pagetable = A.root := by rw [h.proc]

/-- The contents of the new memory are what the process sees. -/
theorem Installed.byte (h : Installed k l p T E path f argv strs r k' A l' n sz argc sp) {U : Bytes}
    {e va : ℕ} (hU : Mem.Holds k'.phys.mem A e U) (he : e ≤ sz) (hva : va < e) : k'.byte p va = U va := by
  have hsz := User.sz_lt h.user
  rw [byte_eq h.root h.user (by omega)]
  exact hU va hva

theorem flags_user (pte : ℕ) : PTE_FLAGS pte &&& PTE_U = pte &&& PTE_U := by
  rw [and_U, and_U, PTE_FLAGS_eq]
  omega

/-- The program is the one in the file exactly if no position that matters was cut. -/
theorem Installed.loaded_iff (h : Installed k l p T E path f argv strs r k' A l' n sz argc sp) :
    ExecLoaded k p f k' ↔ f.Faithful := by
  have hsize := h.built.size
  have hproc : (k'.procs p).sz = (n + 2) * 4096 := by rw [h.proc, ← hsize]
  have hpages : npages sz = n + 2 := by rw [hsize, npages_mul]
  have hpage := PGSIZE_eq
  have hend : (k'.procs p).sz - PGSIZE = (n + 1) * 4096 := by omega
  have hle : (n + 1) * 4096 ≤ sz := by omega
  have hbyte (va : ℕ) (hva : va < (n + 1) * 4096) : k'.byte p va = f.loaded va :=
    h.byte h.built.below hle hva
  obtain ⟨top, htop, hfits⟩ := h.fits
  have hgives := hfits.gives_loaded_iff (htop.trans (Nat.mul_le_mul_right 4096 n.le_succ))
  refine ⟨fun hl => hgives.mp ⟨hl.table, fun va hva => ?_⟩, fun hf => ⟨fun q hq => ?_, ?_,
    (hgives.mpr hf).1, fun va hva => ?_, fun va hva => ?_⟩⟩
  · rw [← hbyte va hva]
    exact hl.image va (by rwa [hend])
  · rw [h.kern, setSlot_of_ne hq]
    rfl
  · omega
  · rw [hend] at hva
    rw [hbyte va hva]
    exact (hgives.mpr hf).2 va hva
  · rw [hproc] at hva ⊢
    refine ⟨_, _, translate_below h.root h.user (by omega), ?_⟩
    rw [flags_user, PGSIZE_eq]
    constructor
    · intro h0
      have hguard : va / 4096 = n := by
        by_contra hne
        exact h.built.access _ (by omega) hne h0
      omega
    · intro hin
      rw [show va / 4096 = n by omega]
      exact h.built.guard

theorem Installed.passed (h : Installed k l p T E path f argv strs r k' A l' n sz argc sp)
    (hargs : Args k.phys.mem E argv strs) (hlen : argv.length ≤ MAXARG) : Passed k' p strs r := by
  obtain ⟨hroom, hargc, hsp, hU⟩ := (h.args ⟨hargs, hlen⟩).pushed argc sp rfl
  have hsize := h.built.size
  have hsz := User.sz_lt h.user
  have hproc : (k'.procs p).sz = sz := by rw [h.proc]
  have htf : (k'.procs p).trapframe = (k.procs p).trapframe := by rw [h.proc]
  have ha1 : k'.phys.mem.load ((k'.procs p).trapframe + 120) 8 = sz - stackSize strs := by
    rw [htf, h.entered.a1, hsp, Nat.mod_eq_of_lt (by omega)]
  have hpages : npages sz = n + 2 := by rw [hsize, npages_mul]
  refine ⟨by rw [h.result, hargc], hroom, ?_, ⟨placeArgs sz strs, ?_⟩, fun va h1 h2 => ?_⟩
  · rw [htf, h.entered.sp, h.entered.a1]
  · rw [PGSIZE_eq] at hroom
    rw [ha1, hproc, PGSIZE_eq]
    have hstack : ArgStack (pushAll f.loaded sz strs) (sz - 4096) sz (sz - stackSize strs) strs
        (placeArgs sz strs) := argStack_pushAll (by omega) (by omega) (by omega)
    exact hstack.congr fun va _ hva => h.byte hU le_rfl hva
  · rw [hproc, PGSIZE_eq] at h1
    rw [hproc] at h2
    rw [h.root, h.user.userMapped_iff]
    exact ⟨by omega, h.built.access _ (by omega) (by omega)⟩

end view

/-! ### All or nothing -/

section results

variable {k : Kern} {l : List ℕ} {p : Slot} {T E : Set ℕ} {path : List UInt8} {argv : List ℕ}

/-- `exec` is all or nothing, for every file that it does not accept or whose positions fit in an `uint`
where they matter. If it has all that it needs to install the file, this is also necessary. -/
theorem exec_all_or_nothing {file : Option Image} (h : InExec k p l T E) :
    ((∀ f top, file = some f → f.Fits top → f.Faithful) →
      Code.wp (exec p path file argv) (fun r k' => ExecOk k p file r k') k) ∧
    ∀ f strs top, file = some f → Startable k l E f argv strs top →
      (Code.wp (exec p path file argv) (fun r k' => ExecOk k p file r k') k ↔ f.Faithful) := by
  have hok : (∀ f top, file = some f → f.Fits top → f.Faithful) →
      Code.wp (exec p path file argv) (fun r k' => ExecOk k p file r k') k := by
    intro hfaith
    cases file with
    | none =>
      have hfail : ExecFailed k l (-1) k :=
        ⟨rfl, k.phys, l, rfl, .refl (h.heap.subset (Set.empty_subset _))⟩
      exact .inl (hfail.undone h)
    | some f =>
      apply Code.wp_mono (exec_image [] 0 h)
      intro r k' hres
      rcases hres with ⟨hfail, -⟩ | ⟨A, l', n, sz, argc, sp, hin⟩
      · exact .inl (hfail.undone h)
      · obtain ⟨top, -, hfits⟩ := hin.fits
        refine .inr ⟨?_, f, rfl, hin.loaded_iff.mpr (hfaith f top rfl hfits)⟩
        rw [hin.result]
        exact Int.natCast_nonneg argc
  refine ⟨hok, ?_⟩
  rintro f strs top rfl hst
  refine ⟨fun hwp => ?_, fun hf => hok fun _ _ hfile _ => Option.some.inj hfile ▸ hf⟩
  have hspec : Code.wp (exec p path (some f) argv) _ k := exec_image strs top h
  obtain ⟨r, k', hrun, ⟨-, hno⟩ | ⟨A, l', n, sz, argc, sp, hin⟩⟩ := Code.wp_exists hspec
  · exact absurd hst hno
  rcases Code.wp_ok hwp hrun with ⟨hr, -⟩ | ⟨-, g, hg, hloaded⟩
  · rw [hin.result] at hr
    omega
  · obtain rfl := Option.some.inj hg
    exact hin.loaded_iff.mp hloaded

/-- The arguments of `exec` arrive on the stack of the new program. Setting up the stack succeeds
exactly when they fit in a page, unless there was no memory for the stack. -/
theorem exec_passes_args {strs : List (List UInt8)} (hlen : argv.length < MAXARG) :
    (∀ trampoline trapframe s l A sz, User (loadLayout trampoline trapframe) s l A (npages sz) →
      Heap s l E → (∀ pa ∈ E, pa ∉ A.footprint (npages sz)) → Args s.mem E argv strs →
      Code.wp (buildStack A.root sz argv) (fun r _ => r.2 = none ∧ ¬ Plenty s l 6 ∨
        (r.2 ≠ none ↔ stackSize strs ≤ PGSIZE)) s) ∧
    ∀ k p l T path f top, InExec k p l T E → Args k.phys.mem E argv strs →
      Code.wp (exec p path (some f) argv) (fun r k' =>
        r = -1 ∧ ¬ Startable k l E f argv strs top ∨ Passed k' p strs r) k := by
  refine ⟨fun trampoline trapframe s l A sz hu hE hEA hargs => ?_,
    fun k p l T path f top h hargs => ?_⟩
  · apply Code.wp_mono (buildStack_spec strs hu (Filled.of_space s.mem A (npages sz)) hE hEA)
    intro r s' hres
    obtain ⟨l', A', -, -, -, hno | ⟨-, hstacked⟩⟩ := hres
    · exact .inl hno
    have hst := hstacked ⟨hargs, hlen.le⟩
    refine .inr ⟨fun hne => ?_, fun hroom hnone => ?_⟩
    · obtain ⟨⟨argc, sp⟩, hr⟩ := Option.ne_none_iff_exists'.mp hne
      exact (hst.pushed argc sp hr).1
    · exact absurd (hst.full hnone) (not_lt.mpr hroom)
  · apply Code.wp_mono (exec_image strs top h)
    intro r k' hres
    rcases hres with ⟨⟨hr, -⟩, hno⟩ | ⟨A, l', n, sz, argc, sp, hin⟩
    · exact .inl ⟨hr, hno⟩
    · exact .inr (hin.passed hargs hlen.le)

end results

/-! ### A small program -/

/-- A file of 120 bytes: the header, and one program header for a segment of one byte. The byte `high`
belongs to the offset of the segment and counts 4 GiB. -/
def oneSegment (high : UInt8) : Image where
  size := 120
  data i := match i with
    -- the magic number
    | 0 => 0x7f
    | 1 => 0x45
    | 2 => 0x4c
    | 3 => 0x46
    -- phoff and phnum
    | 32 => 64
    | 56 => 1
    -- type, offset, file size and memory size of the segment
    | 64 => 1
    | 76 => high
    | 96 => 1
    | 104 => 1
    | _ => 0
  small := by decide

section program

variable {k : Kern} {p : Slot}

/-- The fields of the program header. -/
theorem oneSegment_segment (high : UInt8) :
    (oneSegment high).segment 64 = ⟨high.toNat * 2 ^ 32, 0, 1, 1⟩ := by
  unfold Image.segment Image.field
  simp only [oneSegment, Bytes.load, Segment.mk.injEq]
  refine ⟨?_, rfl, rfl, rfl⟩
  show 0 + 256 * (0 + 256 * (0 + 256 * (0 + 256 * (high.toNat + 256 * 0)))) = high.toNat * 2 ^ 32
  omega

theorem oneSegment_table (high : UInt8) :
    (oneSegment high).phoff = 64 ∧ (oneSegment high).phnum = 1 ∧
      (oneSegment high).segmentsFrom 1 64 = [⟨high.toNat * 2 ^ 32, 0, 1, 1⟩] := by
  have htype : (oneSegment high).field 64 4 = ELF_PROG_LOAD := by
    unfold Image.field
    rfl
  refine ⟨?_, ?_, ?_⟩
  · unfold Image.phoff Image.field
    rfl
  · unfold Image.phnum Image.field
    rfl
  · rw [Image.segmentsFrom, if_pos htype, oneSegment_segment, Image.segmentsFrom]

theorem oneSegment_fits (high : UInt8) : (oneSegment high).Fits 1 := by
  obtain ⟨hoff, hnum, hsegs⟩ := oneSegment_table high
  have hsize : (oneSegment high).size = 120 := rfl
  refine ⟨by omega, ?_, ?_⟩
  · unfold Image.field
    simp [Bytes.load, oneSegment, ELF_MAGIC]
  rw [hoff, hnum]
  refine ⟨fun _ => by omega, fun _ g hg => ?_, fun g hg => ?_⟩
  · rw [Nat.mod_eq_of_lt (by decide), hsegs] at hg
    obtain rfl := Option.some.inj hg
    exact Nat.one_pos
  rw [Nat.mod_eq_of_lt (by decide), hsegs, List.mem_singleton] at hg
  subst hg
  refine ⟨le_rfl, (by decide : 0 + 1 < 2 ^ 64), le_rfl, rfl, fun _ => ?_⟩
  show high.toNat * 2 ^ 32 % 2 ^ 32 + 1 ≤ 120
  rw [Nat.mul_mod_left]
  decide

/-- The segment covers the first address, so the file is faithful if it begins below 4 GiB. -/
theorem oneSegment_faithful_iff (high : UInt8) : (oneSegment high).Faithful ↔ high = 0 := by
  obtain ⟨hoff, hnum, hsegs⟩ := oneSegment_table high
  have hall : (oneSegment high).segments = [⟨high.toNat * 2 ^ 32, 0, 1, 1⟩] := by
    rw [Image.segments, hoff, hnum, hsegs]
  constructor
  · intro h
    have hlt : high.toNat * 2 ^ 32 < 2 ^ 32 := h.segments 0 _ (by rw [hall]; rfl)
    exact UInt8.toNat_inj.mp (show high.toNat = 0 by omega)
  · rintro rfl
    refine ⟨fun _ => by rw [hoff]; decide, fun va g hg => ?_⟩
    rw [hall] at hg
    obtain rfl := List.mem_singleton.mp (List.mem_of_find?_eq_some hg)
    decide

/-- A running process can call `exec`. -/
theorem Good.inExec {m : ℕ} (h : Good k) (hp : Running (k.procs p)) (hst : Stocked k m) :
    ∃ l T, InExec k p l T ∅ ∧ Plenty k.phys l m := by
  obtain ⟨l, own, h⟩ := h
  obtain ⟨l', hchain, hpl⟩ := hst
  obtain rfl := hchain.unique h.parts.heap.chain
  refine ⟨l', own (.proc p), ⟨h.proc p, (h.shape p).active hp.1, fun _ hc => hc.elim, ?_, h.trampoline⟩,
    hpl⟩
  rw [Set.union_empty]
  exact h.parts.heap_of _

/-- Running code can put a string in a page of its own. -/
theorem InExec.argument {l : List ℕ} {T : Set ℕ} {m : ℕ} {str : List UInt8} (h : InExec k p l T ∅)
    (hpl : Plenty k.phys l (m + 1)) (hchars : ∀ c ∈ str, c ≠ 0) (hlen : str.length < PGSIZE) :
    ∃ s l' page, InExec (k.withPhys s) p l' T {page} ∧ Args s.mem {page} [page] [str] ∧
      Plenty s l' m := by
  have hheap := h.heap
  rw [Set.union_empty] at hheap
  obtain ⟨page, s1, -, ⟨-, -, -, hno⟩ | ⟨l1, rfl, heff, -, -, -, hst⟩⟩ :=
    Code.wp_exists (kalloc_spec (hheap.subset (Set.empty_subset _)))
  · exact absurd (hpl.mono (by omega)) hno
  have hal := (heff.heap.owned page (Set.mem_insert ..)).aligned
  rw [PGSIZE_eq] at hlen
  have hput := sameOff_copy (m := s1.mem) (strBytes str) 0 hal
    (by omega : 0 + (str.length + 1) ≤ 4096)
  rw [Nat.add_zero] at hput
  have hwrite := heff.heap.write (by rwa [← Set.singleton_def])
  have hall := (heff.trans hwrite).frame_union hheap fun pa _ hin => hin
  rw [← Set.singleton_def, Set.empty_union, Set.union_comm] at hall
  have hmem := h.memory.frame (heff.trans hwrite) fun pa _ hin => hin
  refine ⟨{ s1 with mem := s1.mem.copy page (str.length + 1) (strBytes str) 0 }, l1, page,
    ⟨hmem, h.active, ?_, hall.heap, h.trampoline⟩, .cons ⟨rfl, hchars, hlen, fun j hj => ?_⟩ .nil,
    (hst m hpl).of_same rfl rfl⟩
  · rintro pa rfl hT
    exact hheap.disjoint pa hT List.mem_cons_self
  · show s1.mem.copy page (str.length + 1) (strBytes str) 0 (page + j) = str.getD j 0
    rw [Bytes.copy_of_mem (by omega), strBytes, Nat.zero_add, Nat.add_sub_cancel_left]

/-- With enough memory `exec` installs the file. -/
theorem InExec.run {l : List ℕ} {T E : Set ℕ} {argv : List ℕ} {strs : List (List UInt8)} {high : UInt8}
    (h : InExec k p l T E) (hst : Startable k l E (oneSegment high) argv strs 1) :
    ∃ r k' A l' n sz argc sp, exec p [] (some (oneSegment high)) argv k = .ok r k' ∧
      Installed k l p T E [] (oneSegment high) argv strs r k' A l' n sz argc sp := by
  obtain ⟨r, k', hrun, ⟨-, hno⟩ | ⟨A, l', n, sz, argc, sp, hin⟩⟩ :=
    Code.wp_exists (exec_image strs 1 h)
  · exact absurd hst hno
  · exact ⟨r, k', A, l', n, sz, argc, sp, hrun, hin⟩

end program

/-- The first process can execute the small program. -/
theorem stock_startable (high : UInt8) : ∃ k l T, userinit (stock 32 fun _ => false) = .ok () k ∧
    InExec k k.initproc l T ∅ ∧ Startable k l ∅ (oneSegment high) [] [] 1 := by
  obtain ⟨k, hinit, hgood, hlive, hst, -⟩ := stock_first
  obtain ⟨l, T, h, hpl⟩ := hgood.inExec hlive.running hst
  exact ⟨k, l, T, hinit, h, oneSegment_fits high, hpl.mono (by decide), .nil, by decide, by decide⟩

/-- The first process executes the small program. -/
theorem exec_all_or_nothing_stock : ∃ k r k', userinit (stock 32 fun _ => false) = .ok () k ∧
    exec k.initproc [] (some (oneSegment 0)) [] k = .ok r k' ∧ 0 ≤ r ∧
    ExecOk k k.initproc (some (oneSegment 0)) r k' := by
  obtain ⟨k, l, T, hinit, h, hstart⟩ := stock_startable 0
  obtain ⟨r, k', A, l', n, sz, argc, sp, hrun, hin⟩ := h.run hstart
  refine ⟨k, r, k', hinit, hrun, by rw [hin.result]; exact Int.natCast_nonneg argc, ?_⟩
  have hfaith := (oneSegment_faithful_iff 0).mpr rfl
  exact Code.wp_ok (((exec_all_or_nothing h).2 (oneSegment 0) [] 1 rfl hstart).mpr hfaith) hrun

/-- The segment of this file begins at 4 GiB, where the file has nothing, but the program is installed
with the first byte of the file. -/
theorem exec_high_offset : ∃ k l T r k', userinit (stock 32 fun _ => false) = .ok () k ∧
    InExec k k.initproc l T ∅ ∧
    exec k.initproc [] (some (oneSegment 1)) [] k = .ok r k' ∧
    ¬ ExecOk k k.initproc (some (oneSegment 1)) r k' := by
  obtain ⟨k, l, T, hinit, h, hstart⟩ := stock_startable 1
  obtain ⟨r, k', A, l', n, sz, argc, sp, hrun, hin⟩ := h.run hstart
  refine ⟨k, l, T, r, k', hinit, h, hrun, ?_⟩
  rintro (⟨hr, -⟩ | ⟨-, f, hf, hloaded⟩)
  · rw [hin.result] at hr
    omega
  · obtain rfl := Option.some.inj hf
    have hfaith := hin.loaded_iff.mp hloaded
    exact absurd ((oneSegment_faithful_iff 1).mp hfaith) (by decide)

/-- The first process executes the small program with the argument `ls`. -/
theorem exec_passes_args_stock : ∃ k k' page, exec k.initproc [] (some (oneSegment 0)) [page] k = .ok 1 k' ∧
    Args k.phys.mem {page} [page] [[108, 115]] ∧ Passed k' k.initproc [[108, 115]] 1 := by
  obtain ⟨k, -, hgood, hlive, hst, -⟩ := stock_first
  obtain ⟨l, T, h, hpl⟩ := hgood.inExec hlive.running hst
  have hchars : ∀ c ∈ ([108, 115] : List UInt8), c ≠ 0 := by decide +kernel
  obtain ⟨s, l', page, h', hargs, hpl'⟩ := h.argument (m := 24) hpl hchars (by decide)
  have hfew : [page].length < MAXARG := (by decide : 1 < 32)
  have hstart : Startable (k.withPhys s) l' {page} (oneSegment 0) [page] [[108, 115]] 1 :=
    ⟨oneSegment_fits 0, hpl'.mono (by decide), hargs, hfew.le, by decide⟩
  have hspec := (exec_passes_args hfew).2 (k.withPhys s) k.initproc l' T [] (oneSegment 0) 1 h' hargs
  obtain ⟨r, k', hrun, ⟨-, hno⟩ | hpassed⟩ := Code.wp_exists hspec
  · exact absurd hstart hno
  · obtain rfl : r = 1 := hpassed.result
    exact ⟨k.withPhys s, k', page, hrun, hargs, hpassed⟩

end Xv6.Kernel
