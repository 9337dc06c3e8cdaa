import Xv6.Kernel.AddressSpace

/-!
# What processes see of their memory

A process sees the translation of its virtual addresses and the bytes behind them. `sbrk` moves the
end of this memory and `fork` copies it. Both are described here in terms of page tables and physical
memory alone, from any state that satisfies the invariant and with any calls of `kalloc` failing. One
request of `sbrk` is not what it seems: sizes are computed with 32 bits, so that a request to shrink
below zero wraps around and does nothing, with the old size as its result.
-/

namespace Xv6.Kernel

open Lib (Bytes Code Lts)
open Mem

/-- The physical page and the flags of a virtual address of process `p`. -/
def Kern.translate (k : Kern) (p : Slot) (va : ℕ) : Option (ℕ × ℕ) :=
  Mem.translate k.phys.mem (k.procs p).pagetable va

/-- The byte of process `p` at a virtual address that is mapped. -/
def Kern.byte (k : Kern) (p : Slot) (va : ℕ) : UInt8 :=
  k.phys.mem (userAddr k.phys.mem (k.procs p).pagetable va)

/-- The page is on the free list. -/
def IsFree (s : Phys) (pa : ℕ) : Prop := ∃ l, Chain s.mem s.freelist l ∧ pa ∈ l

/-- The page is a page-table page of process `p`. -/
def IsTable (k : Kern) (p : Slot) (pa : ℕ) : Prop :=
  ∃ path, path.length ≤ 2 ∧ follow k.phys.mem (k.procs p).pagetable path = some pa

section view

variable {k k' : Kern} {l l' : List ℕ} {p : Slot} {L : Layout} {A A' : PTab} {n va : ℕ}

theorem Heap.isFree {s : Phys} {T : Set ℕ} (h : Heap s l T) {pa : ℕ} : IsFree s pa ↔ pa ∈ l := by
  constructor
  · rintro ⟨l', hchain, hpa⟩
    rwa [hchain.unique h.chain] at hpa
  · intro hpa
    exact ⟨l, h.chain, hpa⟩

theorem byte_eq (hroot : (k.procs p).pagetable = A.root) (hu : User L k.phys l A n)
    (hva : va < 2 ^ 39) : k.byte p va = A.byte k.phys.mem (va / 4096) (va % 4096) := by
  rw [Kern.byte, userAddr, hroot, pteOf_rep hu.rep hva, PTab.byte]

theorem translate_eq (hroot : (k.procs p).pagetable = A.root) (hu : User L k.phys l A n)
    (hva : va < 2 ^ 39) : k.translate p va =
      if A.leaf (va / 4096) &&& PTE_V = 0 then none
      else some (PTE2PA (A.leaf (va / 4096)), PTE_FLAGS (A.leaf (va / 4096))) := by
  rw [Kern.translate, hroot, translate_rep hu.rep hva]

theorem translate_below (hroot : (k.procs p).pagetable = A.root) (hu : User L k.phys l A n)
    (hva : va / 4096 < n) :
    k.translate p va = some (PTE2PA (A.leaf (va / 4096)), PTE_FLAGS (A.leaf (va / 4096))) := by
  have hram := hu.le_ram
  rw [translate_eq hroot hu (by omega)]
  exact if_neg (hu.space.mapped.leaf _ (Nat.zero_le _) (by omega)).1

theorem translate_above (hroot : (k.procs p).pagetable = A.root) (hu : User L k.phys l A n)
    (hva : n ≤ va / 4096) (htop : va < TRAPFRAME) : k.translate p va = none := by
  have hlow : va / 4096 < topPage := by
    rw [TRAPFRAME_eq] at htop
    unfold topPage
    omega
  rw [TRAPFRAME_eq] at htop
  rw [translate_eq hroot hu (by omega), hu.space.rest _ hva, L.special_low _ hlow]
  rfl

theorem translate_congr (hroot : (k.procs p).pagetable = A.root) (hu : User L k.phys l A n)
    {n' : ℕ} {L' : Layout} (hroot' : (k'.procs p).pagetable = A'.root)
    (hu' : User L' k'.phys l' A' n') (hva : va < 2 ^ 39)
    (hleaf : A'.leaf (va / 4096) = A.leaf (va / 4096)) : k'.translate p va = k.translate p va := by
  rw [translate_eq hroot' hu' hva, translate_eq hroot hu hva, hleaf]

theorem isTable_iff (hroot : (k.procs p).pagetable = A.root) (hu : User L k.phys l A n) {pa : ℕ} :
    IsTable k p pa ↔ pa ∈ A.tables := by
  unfold IsTable
  rw [hroot]
  constructor
  · rintro ⟨path, hlen, hf⟩
    obtain ⟨hnode, hpos⟩ := (follow_some hu.rep hlen).mp hf
    exact ⟨hpos, path, hnode⟩
  · rintro ⟨hpos, path, hnode⟩
    have hlen : path.length ≤ 2 := by
      have := hu.rep.depth path (hnode ▸ hpos)
      omega
    exact ⟨path, hlen, (follow_some hu.rep hlen).mpr ⟨hnode, hpos⟩⟩

end view

/-! ### `sbrk` -/

/-- A request of process `p` was refused: all that is left of it are page-table pages. -/
structure Refused (k : Kern) (p : Slot) (k' : Kern) : Prop where
  procs : k'.procs = k.procs
  translate : ∀ va, va < MAXVA → k'.translate p va = k.translate p va
  byte : ∀ va, va < (k.procs p).sz → k'.byte p va = k.byte p va
  freed : ∀ pa, IsFree k.phys pa → IsFree k'.phys pa ∨ IsTable k' p pa

/-- The memory of process `p` grew by `n` bytes, or shrank. -/
structure BreakMoved (k : Kern) (p : Slot) (n : ℤ) (k' : Kern) : Prop where
  size : ((k'.procs p).sz : ℤ) = (k.procs p).sz + n
  mapped : ∀ va, va < (k'.procs p).sz → k'.translate p va ≠ none
  zero : ∀ va, va < TRAPFRAME → k.translate p va = none → k'.translate p va ≠ none → k'.byte p va = 0
  unmapped : ∀ va, (k'.procs p).sz ≤ PGROUNDDOWN va → va < TRAPFRAME → k'.translate p va = none
  freed : ∀ va pa flags, (k'.procs p).sz ≤ PGROUNDDOWN va → va < TRAPFRAME →
    k.translate p va = some (pa, flags) → IsFree k'.phys pa
  kept : ∀ va, va < min (k.procs p).sz (k'.procs p).sz →
    k'.translate p va = k.translate p va ∧ k'.byte p va = k.byte p va

/-- What `sys_sbrk` promises for a request of `n` bytes that returned `r`. -/
def SbrkOk (k : Kern) (p : Slot) (n r : ℤ) (k' : Kern) : Prop :=
  r = -1 ∧ Refused k p k' ∨ r = (k.procs p).sz ∧ BreakMoved k p n k'

section sbrk

variable {k : Kern} {s' : Phys} {l l' : List ℕ} {p : Slot} {L : Layout} {A A' : PTab} {n : ℤ} {sz' : ℕ}

theorem lt_npages {va sz : ℕ} (h : va < sz) : va / 4096 < npages sz := by
  unfold npages
  omega

theorem npages_le_div {va sz : ℕ} (h : sz ≤ PGROUNDDOWN va) : npages sz ≤ va / 4096 := by
  rw [PGROUNDDOWN_eq] at h
  unfold npages
  omega

theorem refused_of_resized (hroot : (k.procs p).pagetable = A.root)
    (hu : User L k.phys l A (npages (k.procs p).sz))
    (hres : Resized L k.phys l A (npages (k.procs p).sz) s' l' A' (npages (k.procs p).sz))
    (hkept : Kept k.phys.mem A s'.mem A' (npages (k.procs p).sz)) : Refused k p (k.withPhys s') := by
  have hroot' : ((k.withPhys s').procs p).pagetable = A'.root := hroot.trans hres.root_eq.symm
  have hu' : User L (k.withPhys s').phys l' A' (npages (k.procs p).sz) := hres.user
  refine ⟨rfl, fun va hva => ?_, fun va hva => ?_, fun pa hpa => ?_⟩
  · apply translate_congr hroot hu hroot' hu' (lt_of_lt_MAXVA hva)
    by_cases hlt : va / 4096 < npages (k.procs p).sz
    · exact hkept.leaf _ hlt
    · rw [hu'.space.rest _ (by omega), hu.space.rest _ (by omega)]
  · have hsz := User.sz_lt hu
    rw [byte_eq hroot' hu' (by omega), byte_eq hroot hu (by omega)]
    exact hkept.byte _ _ (lt_npages hva) (Nat.mod_lt _ (by decide))
  · rw [Heap.isFree hu.heap] at hpa
    rcases (hres.eff.pages pa).mpr (.inr hpa) with (hT | hpg) | hl'
    · exact .inr ((isTable_iff hroot' hu').mpr hT)
    · rw [PTab.pages_congr fun w _ h2 => hkept.leaf w (by omega)] at hpg
      exact absurd hpa (hu.heap.disjoint pa (.inr hpg))
    · exact .inl ((Heap.isFree hu'.heap).mpr hl')

theorem breakMoved_of_resized (hroot : (k.procs p).pagetable = A.root)
    (hu : User L k.phys l A (npages (k.procs p).sz))
    (hres : Resized L k.phys l A (npages (k.procs p).sz) s' l' A' (npages sz'))
    (hsum : (sz' : ℤ) = (k.procs p).sz + n)
    (hkept : Kept k.phys.mem A s'.mem A' (npages (min (k.procs p).sz sz')))
    (hnew : ∀ w, npages (k.procs p).sz ≤ w → w < npages sz' → Fresh s'.mem A' w)
    (hfreed : ∀ w, npages sz' ≤ w → w < npages (k.procs p).sz → PTE2PA (A.leaf w) ∈ l') :
    BreakMoved k p n ((k.withPhys s').setSlot p { k.procs p with sz := sz' }) := by
  have hsz := User.sz_lt hu
  have hsz' := User.sz_lt hres.user
  generalize hk' : (k.withPhys s').setSlot p { k.procs p with sz := sz' } = k'
  have hproc : k'.procs p = { k.procs p with sz := sz' } := by rw [← hk', setSlot_self]
  have hroot' : (k'.procs p).pagetable = A'.root := by
    rw [hproc]
    exact hroot.trans hres.root_eq.symm
  have hu' : User L k'.phys l' A' (npages sz') := by
    rw [← hk']
    exact hres.user
  have hmem : k'.phys.mem = s'.mem := by rw [← hk']; rfl
  have hsize : (k'.procs p).sz = sz' := by rw [hproc]
  refine ⟨by rw [hsize, hsum], fun va hva => ?_, fun va htop hnone hsome => ?_, fun va hva htop => ?_,
    fun va pa flags hva htop hpa => ?_, fun va hva => ?_⟩
  · rw [translate_below hroot' hu' (lt_npages (hsize ▸ hva))]
    exact Option.some_ne_none _
  · have hlt : va / 4096 < npages sz' := by
      by_contra hge
      exact hsome (translate_above hroot' hu' (by omega) htop)
    have hge : npages (k.procs p).sz ≤ va / 4096 := by
      by_contra hlt
      rw [translate_below hroot hu (by omega)] at hnone
      exact absurd hnone (Option.some_ne_none _)
    rw [TRAPFRAME_eq] at htop
    rw [byte_eq hroot' hu' (by omega), hmem]
    exact (hnew _ hge hlt).byte _ (Nat.mod_lt _ (by decide))
  · exact translate_above hroot' hu' (npages_le_div (hsize ▸ hva)) htop
  · have hge := npages_le_div (hsize ▸ hva)
    have hlt : va / 4096 < npages (k.procs p).sz := by
      by_contra hge
      rw [translate_above hroot hu (by omega) htop] at hpa
      exact absurd hpa (by simp)
    rw [translate_below hroot hu hlt, Option.some_inj, Prod.mk.injEq] at hpa
    rw [Heap.isFree hu'.heap, ← hpa.1]
    exact hfreed _ hge hlt
  · rw [hsize] at hva
    have hlt := lt_npages hva
    refine ⟨translate_congr hroot hu hroot' hu' (by omega) (hkept.leaf _ hlt), ?_⟩
    rw [byte_eq hroot' hu' (by omega), byte_eq hroot hu (by omega), hmem]
    exact hkept.byte _ _ hlt (Nat.mod_lt _ (by decide))

/-- Sizes of processes pass through `int` unchanged. -/
theorem sext32_eq {sz : ℕ} (h : sz < 2 ^ 31) : sext32 sz = sz := by
  rw [sext32, Nat.mod_eq_of_lt (by omega), if_pos h]

/-- A request to shrink below zero changes nothing and returns the size. -/
theorem sbrk_wraps (hsz : (k.procs p).sz < 2 ^ 31) (hlow : -2 ^ 31 ≤ n)
    (hneg : (k.procs p).sz + n < 0) :
    Code.wp (sys_sbrk p n) (fun r k' => r = (k.procs p).sz ∧ k' = k) k := by
  have hmod : (k.procs p).sz % 2 ^ 32 = (k.procs p).sz := Nat.mod_eq_of_lt (by omega)
  have hwrap : (k.procs p).sz ≤ (((k.procs p).sz + n) % 2 ^ 32).toNat := by omega
  simp only [sys_sbrk, growproc, uvmdealloc, Code.wp_bind, Code.wp_get, Code.wp_ite, Code.wp_pure, wp_vm,
    wp_setProc, hmod]
  refine ⟨fun hpos => absurd hpos (by omega), fun _ => ⟨fun _ => ⟨fun _ => ?_, fun hlt => ?_⟩,
    fun hc => absurd hc (by omega)⟩⟩
  · refine ⟨fun hc => absurd hc (by decide), fun _ => ⟨?_, setSlot_eq_self k p⟩⟩
    rw [sext32_eq hsz]
  · exact absurd hwrap (by omega)

/-- A size that has not changed is not the old one and a negative `n`. -/
theorem SbrkOk.nonneg (h : SbrkOk k p n (k.procs p).sz k) : 0 ≤ (k.procs p).sz + n := by
  rcases h with ⟨hr, -⟩ | ⟨-, hmoved⟩
  · omega
  · have hsize := hmoved.size
    omega

/-- `sbrk` moves the end of memory by exactly `n` bytes or changes nothing, for every size and with any
calls of `kalloc` failing, if and only if the request does not go below zero. -/
theorem sbrk_moves_break (h : Good k) (hp : Running (k.procs p)) (hlow : -2 ^ 31 ≤ n) (hhigh : n < 2 ^ 31) :
    Code.wp (sys_sbrk p n) (fun r k' => SbrkOk k p n r k') k ↔ 0 ≤ (k.procs p).sz + n := by
  obtain ⟨l, own, h⟩ := h
  obtain ⟨A, hroot, hu, -, -⟩ := h.space hp.1
  have hsz := User.sz_lt hu
  constructor
  · intro hok
    by_contra hneg
    have hwrap := sbrk_wraps (k := k) (p := p) (by omega) hlow (by omega)
    obtain ⟨r, k', hrun, rfl, rfl⟩ := Code.wp_exists hwrap
    exact hneg (Code.wp_ok hok hrun).nonneg
  intro hn
  simp only [sys_sbrk, Code.wp_bind, Code.wp_get, Code.wp_ite, Code.wp_pure]
  apply Code.wp_mono (growproc_moves hroot hu newFlags)
  intro r k' hres
  obtain ⟨s', l', A', ⟨rfl, rfl, hres, hkept⟩ | ⟨sz', rfl, rfl, hnew, hres, hkept, hfresh, hfreed⟩⟩ := hres
  · refine ⟨fun _ => .inl ⟨rfl, refused_of_resized hroot hu hres hkept⟩, fun hc => absurd ?_ hc⟩
    decide
  · refine ⟨fun hc => absurd hc (by decide), fun _ => .inr ⟨?_, ?_⟩⟩
    · rw [sext32_eq (by omega)]
    · exact breakMoved_of_resized hroot hu hres (hnew.sum hlow hhigh hn) hkept hfresh hfreed

end sbrk

theorem userinit_first {k : Kern} (h : Ready k) (hs : Supplied k .userinit) :
    ∃ k', userinit k = .ok () k' ∧ Good k' ∧ Live k' k'.initproc ∧
      (k'.procs k'.initproc).sz = 4096 ∧ ∀ m, Stocked k (m + 7) → Stocked k' m := by
  obtain ⟨_, k', hrun, hgood, hlive, hsz, hst⟩ := Code.wp_exists (userinit_spec h hs)
  exact ⟨k', hrun, hgood, hlive, hsz, hst⟩

/-- A machine with 32 free pages and its first process, which has used seven of them. -/
theorem stock_first : ∃ k, userinit (stock 32 fun _ => false) = .ok () k ∧ Good k ∧
    Live k k.initproc ∧ Stocked k 25 ∧ (k.procs k.initproc).sz = 4096 := by
  have hready := stock_ready (n := 32) (by decide) (by decide) fun _ => false
  have hstocked := stocked_stock (n := 32) (by decide) (by decide)
  obtain ⟨l, hchain, hpl⟩ := hstocked
  obtain ⟨k, hrun, hgood, hlive, hsz, hst⟩ := userinit_first hready ⟨l, hchain, hpl.mono (by decide)⟩
  exact ⟨k, hrun, hgood, hlive, hst 25 ⟨l, hchain, hpl⟩, hsz⟩

/-- What the first process gets from a call. -/
def firstReturns (x : Slot → KCode ℤ) : Option ℤ :=
  match userinit (stock 32 fun _ => false) with
  | .ok () k => Code.value (x k.initproc) k
  | .panic _ => none

theorem firstReturns_eq {x : Slot → KCode ℤ} {k k' : Kern} {r : ℤ}
    (hinit : userinit (stock 32 fun _ => false) = .ok () k) (hrun : x k.initproc k = .ok r k') :
    firstReturns x = some r := by
  rw [firstReturns, hinit]
  exact Code.value_ok hrun

/-- The first process asks for one more page and gets it. -/
theorem sbrk_moves_break_grows : ∃ k k', userinit (stock 32 fun _ => false) = .ok () k ∧
    sys_sbrk k.initproc 4096 k = .ok 4096 k' ∧ BreakMoved k k.initproc 4096 k' := by
  obtain ⟨k, hinit, hgood, hlive, -, hsz⟩ := stock_first
  obtain ⟨r, k', hrun, hok⟩ := Code.wp_exists
    ((sbrk_moves_break (n := 4096) hgood hlive.running (by decide) (by decide)).mpr (by omega))
  have hval : firstReturns (sys_sbrk · 4096) = some 4096 := by decide +kernel
  obtain rfl := Option.some.inj ((firstReturns_eq hinit hrun).symm.trans hval)
  exact ⟨k, k', hinit, hrun, (hok.resolve_left fun hc => absurd hc.1 (by decide)).2⟩

/-- The first process, with its one page, asks to shrink by two: it is told that this worked, and its
size is as before. -/
theorem sbrk_below_zero : ∃ k k', userinit (stock 32 fun _ => false) = .ok () k ∧
    (k.procs k.initproc).sz = 4096 ∧ sys_sbrk k.initproc (-8192) k = .ok 4096 k' ∧
    ¬ SbrkOk k k.initproc (-8192) 4096 k' := by
  obtain ⟨k, hinit, -, -, -, hsz⟩ := stock_first
  have hwrap := sbrk_wraps (k := k) (p := k.initproc) (n := -8192) (by omega) (by decide) (by omega)
  obtain ⟨r, k', hcall, rfl, rfl⟩ := Code.wp_exists hwrap
  rw [hsz] at hcall
  refine ⟨k', k', hinit, hsz, hcall, fun hok => ?_⟩
  have hnonneg := SbrkOk.nonneg (k := k') (p := k'.initproc) (by rw [hsz]; exact hok)
  omega

/-! ### `fork` -/

/-- A call of some live process. -/
def Called (k k' : Kern) : Prop := ∃ q c, Live k q ∧ Call.run q c k = .ok () k'

/-- Nothing that is written to the memory of `p`, by its program or by `copyout`, is seen by `q`. -/
def Unseen (k : Kern) (p q : Slot) : Prop :=
  ∀ va source src len, Code.wp (copyout (k.procs p).pagetable va source src len) (fun _ s' =>
    ∀ vb, vb < MAXVA → (k.withPhys s').translate q vb = k.translate q vb ∧
      (vb < PGROUNDUP (k.procs q).sz → (k.withPhys s').byte q vb = k.byte q vb)) k.phys

/-- A failed `fork` left all processes, the reference counts, the free pages and every byte of a page
that is in use as they were. -/
structure ForkFailed (k k' : Kern) : Prop where
  procs : ∀ q, (k.procs q).state ≠ .unused → k'.procs q = k.procs q
  ftable : k'.ftable = k.ftable
  iref : k'.iref = k.iref
  free : ∀ pa, IsFree k'.phys pa ↔ IsFree k.phys pa
  mem : ∀ x, ¬ IsFree k.phys (PGROUNDDOWN x) → k'.phys.mem x = k.phys.mem x

/-- The process `np` is a copy of `p` with memory of its own. -/
structure Copy (k : Kern) (p np : Slot) (k' : Kern) : Prop where
  slot : (k.procs np).state = .unused
  live : Live k' np
  sz : (k'.procs np).sz = (k.procs p).sz
  others : ∀ q, q ≠ np → k'.procs q = k.procs q
  parent : ∀ va, va < MAXVA → k'.translate p va = k.translate p va
  flags : ∀ va, va < PGROUNDUP (k.procs p).sz → ∃ pa pa' flags,
    k'.translate p va = some (pa, flags) ∧ k'.translate np va = some (pa', flags)
  bytes : ∀ va, va < PGROUNDUP (k.procs p).sz →
    k'.byte p va = k.byte p va ∧ k'.byte np va = k.byte p va
  disjoint : ∀ va vb pa pb fl fl', va < PGROUNDUP (k.procs p).sz → vb < PGROUNDUP (k.procs p).sz →
    k'.translate p va = some (pa, fl) → k'.translate np vb = some (pb, fl') → pa ≠ pb
  isolated : ∀ k'', Relation.ReflTransGen Called k' k'' → Running (k''.procs p) →
    Running (k''.procs np) → Unseen k'' p np ∧ Unseen k'' np p

section fork

variable {k k' : Kern} {l l' : List ℕ} {own : Party → Set ℕ} {p q np : Slot}

theorem Good.called (h : Good k) (hc : Called k k') : Good k' := by
  obtain ⟨q, c, hlive, hrun⟩ := hc
  refine Code.wp_ok (call_spec c h hlive ?_) hrun
  rintro status rfl rfl
  rw [exit_init] at hrun
  cases hrun

theorem Good.later (h : Good k) (hc : Relation.ReflTransGen Called k k') : Good k' := by
  induction hc with
  | refl => exact h
  | tail _ hstep ih => exact ih.called hstep

theorem lt_PGROUNDUP {L : Layout} {s : Phys} {A : PTab} {sz va : ℕ} (hu : User L s l A (npages sz))
    (h : va < PGROUNDUP sz) : va / 4096 < npages sz := by
  have hsz := User.sz_lt hu
  rw [PGROUNDUP_eq (by omega)] at h
  omega

/-- No process sees what another one writes to its memory. -/
theorem Good.unseen (h : Good k) (hp : Running (k.procs p)) (hq : Running (k.procs q)) (hne : p ≠ q) :
    Unseen k p q := by
  obtain ⟨l, own, h⟩ := h
  obtain ⟨A, hrootA, huA, -, hownA⟩ := h.space hp.1
  obtain ⟨B, hrootB, huB, -, hownB⟩ := h.space hq.1
  have hoff : ∀ pa ∈ B.footprint (npages (k.procs q).sz), pa ∉ A.footprint (npages (k.procs p).sz) := by
    intro pa hB hA
    have hinA : pa ∈ own (.proc p) := hownA ▸ .inr hA
    have hinB : pa ∈ own (.proc q) := hownB ▸ .inr hB
    exact hne (Party.proc.inj (h.parts.disjoint _ _ pa hinA hinB))
  intro va source src len
  rw [hrootA]
  apply Code.wp_mono (copyout_spec huA)
  intro _ s' hres vb hvb
  have hrootB' : ((k.withPhys s').procs q).pagetable = B.root := hrootB
  have huB' : User _ (k.withPhys s').phys l B _ := huB.frame hres.eff hoff
  have hkept := huB.kept hres.eff hoff
  have hvb := lt_of_lt_MAXVA hvb
  refine ⟨translate_congr hrootB huB hrootB' huB' hvb rfl, fun hlt => ?_⟩
  rw [byte_eq hrootB' huB' hvb, byte_eq hrootB huB hvb]
  exact hkept.byte _ _ (lt_PGROUNDUP huB hlt) (Nat.mod_lt _ (by decide))

theorem Undone.forkFailed {T : Set ℕ} (h : Undone k l k' l') (hh : Heap k.phys l T) :
    ForkFailed k k' := by
  refine ⟨h.procs, h.ftable, h.iref, fun pa => ?_, fun x hx => ?_⟩
  · rw [Heap.isFree h.eff.heap, Heap.isFree hh]
    have hpages := h.eff.pages pa
    simpa using hpages
  · rw [Heap.isFree hh] at hx
    exact h.eff.frame x (Set.notMem_empty _) hx

theorem Child.copy {A B : PTab} {LA LB : Layout} (h : Child k l p np k' A B l' LA LB)
    (hp : Running (k.procs p)) : Copy k p np k' := by
  have hne : p ≠ np := fun he => hp.1 (he ▸ h.slot)
  have hsame := h.others p hne
  have hroot' : (k'.procs p).pagetable = B.root := by rw [hsame, h.parent_root]
  have hram := h.user.le_ram
  have hlt : ∀ va, va < PGROUNDUP (k.procs p).sz → va / 4096 < npages (k.procs p).sz :=
    fun va hva => lt_PGROUNDUP h.user hva
  have hlive : Live k' np := h.state
  refine ⟨h.slot, hlive, h.sz, h.others, fun va hva => ?_, fun va hva => ?_, fun va hva => ?_, ?_,
    fun k'' hlater hp'' hnp'' => ?_⟩
  · exact translate_congr h.parent_root h.parent_before hroot' h.parent (lt_of_lt_MAXVA hva) rfl
  · have hw := hlt va hva
    refine ⟨_, PTE2PA (A.leaf (va / 4096)), _, translate_below hroot' h.parent hw, ?_⟩
    rw [translate_below h.root h.user hw, (h.copied _ hw).flags]
  · have hw := hlt va hva
    have hmod := Nat.mod_lt va (show 4096 > 0 by decide)
    rw [byte_eq hroot' h.parent (by omega), byte_eq h.parent_root h.parent_before (by omega),
      byte_eq h.root h.user (by omega)]
    exact ⟨h.kept.byte _ _ hw hmod, (h.copied _ hw).byte _ hmod⟩
  · intro va vb pa pb fl fl' hva hvb hpa hpb he
    obtain ⟨l'', own, hinv⟩ := h.good
    have hrunp : (k'.procs p).state ≠ .unused := by rw [hsame]; exact hp.1
    obtain ⟨B', hrootB, huB, -, hownB⟩ := hinv.space hrunp
    obtain ⟨A', hrootA, huA, -, hownA⟩ := hinv.space hlive.running.1
    rw [translate_below hrootB huB (by rw [hsame]; exact hlt va hva), Option.some_inj,
      Prod.mk.injEq] at hpa
    rw [translate_below hrootA huA (by rw [h.sz]; exact hlt vb hvb), Option.some_inj,
      Prod.mk.injEq] at hpb
    have hinB : pa ∈ own (.proc p) := by
      rw [hownB, ← hpa.1, hsame]
      exact .inr (.inr ⟨_, Nat.zero_le _, by have := hlt va hva; omega, rfl⟩)
    have hinA : pa ∈ own (.proc np) := by
      rw [hownA, he, ← hpb.1, h.sz]
      exact .inr (.inr ⟨_, Nat.zero_le _, by have := hlt vb hvb; omega, rfl⟩)
    exact hne (Party.proc.inj (hinv.parts.disjoint _ _ pa hinB hinA))
  · have hgood := h.good.later hlater
    exact ⟨hgood.unseen hp'' hnp'' hne, hgood.unseen hnp'' hp'' hne.symm⟩

/-- `fork` makes a copy that shares no memory with its parent, or it leaves everything as it was. -/
theorem fork_copies (h : Good k) (hp : Live k p) :
    Code.wp (fork p) (fun r k' => r = -1 ∧ ForkFailed k k' ∨
      ∃ np, r = (k'.procs np).pid ∧ Copy k p np k') k := by
  have hcwd := h.home hp
  obtain ⟨l, own, h⟩ := h
  apply Code.wp_mono (fork_copy h hp.running hcwd)
  intro r k' hres
  obtain ⟨hr, -, l', hundone⟩ | ⟨np, A, B, l', LA, LB, hr, hchild⟩ := hres
  · exact .inl ⟨hr, hundone.forkFailed h.parts.heap⟩
  · exact .inr ⟨np, hr, hchild.copy hp.running⟩

end fork

/-- The first process forks; its child has the number 2. -/
theorem fork_copies_first : ∃ k np k', userinit (stock 32 fun _ => false) = .ok () k ∧
    fork k.initproc k = .ok 2 k' ∧ (k'.procs np).pid = 2 ∧ Copy k k.initproc np k' := by
  obtain ⟨k, hinit, hgood, hlive, -⟩ := stock_first
  obtain ⟨r, k', hrun, hres⟩ := Code.wp_exists (fork_copies hgood hlive)
  have hval : firstReturns fork = some 2 := by decide +kernel
  obtain rfl := Option.some.inj ((firstReturns_eq hinit hrun).symm.trans hval)
  obtain ⟨np, hpid, hcopy⟩ := hres.resolve_left fun hc => absurd hc.1 (by decide)
  exact ⟨k, np, k', hinit, hrun, hpid.symm, hcopy⟩

end Xv6.Kernel
