import Xv6.Kernel.System

/-!
# Owners of pages and shapes of address spaces

What the invariant says about memory itself. `follow` and `leafEntry` read page tables the way the
hardware does. `Owner` lists what a page of RAM can be used for, and `Holds` reads off the state of
the kernel which uses a page has. In every reachable state a page of RAM is on the free list once or
has exactly one use, and the valid leaves of a user page table are the pages of user memory, the
trapframe and the trampoline.
-/

namespace Xv6.Kernel

open Lib (Bytes Code Lts)
open Mem

/-! ### Owners -/

/-- The uses of a page of RAM. -/
inductive Owner
  /-- A page-table page of the kernel's page table, by its path. -/
  | kernelTable (path : List Idx)
  | kernelStack (p : Slot)
  | trapframe (p : Slot)
  /-- A page-table page of a user page table, by its path. -/
  | table (p : Slot) (path : List Idx)
  /-- The page of a leaf of a user page table, by its indices. -/
  | leaf (p : Slot) (i j n : Idx)
  | pipe

/-- The entry for the trapframe or the trampoline. -/
def Special (i j n : Idx) : Prop :=
  vpn i j n = TRAPFRAME / PGSIZE ∨ vpn i j n = TRAMPOLINE / PGSIZE

/-- Whether the page `pa` has a use. -/
def Holds (k : Kern) (pa : ℕ) : Owner → Prop
  | .kernelTable path =>
    path.length ≤ 2 ∧ follow k.phys.mem k.kernel_pagetable path = some pa
  | .kernelStack p => k.kstack p = pa
  | .trapframe p => (k.procs p).trapframe = pa
  | .table p path =>
    (k.procs p).pagetable ≠ 0 ∧ path.length ≤ 2 ∧
      follow k.phys.mem (k.procs p).pagetable path = some pa
  | .leaf p i j n =>
    (k.procs p).pagetable ≠ 0 ∧ ¬ Special i j n ∧
      leafEntry k.phys.mem (k.procs p).pagetable i j n &&& PTE_V ≠ 0 ∧
      PTE2PA (leafEntry k.phys.mem (k.procs p).pagetable i j n) = pa
  | .pipe => ∃ w f, IsEnd k pa w f

/-- The party a use belongs to. -/
def Owner.party : Owner → Party
  | .kernelTable _ | .kernelStack _ => .kernel
  | .trapframe p | .table p _ | .leaf p _ _ _ => .proc p
  | .pipe => .pipes

/-- Every page of RAM is on the free list once, or has exactly one use; no two files are the same end
of a pipe; and a leaf that the user can access maps a page of RAM used for that leaf only. -/
structure OwnedOnce (k : Kern) : Prop where
  once : ∃ l, Chain k.phys.mem k.phys.freelist l ∧ ∀ pa, RamPage k.phys.kend pa →
    (l.count pa = 1 ∧ ∀ o, ¬ Holds k pa o) ∨ (l.count pa = 0 ∧ ∃! o, Holds k pa o)
  pipe : ∀ pa w f g, IsEnd k pa w f → IsEnd k pa w g → f = g
  user : ∀ p i j n, (k.procs p).pagetable ≠ 0 →
    leafEntry k.phys.mem (k.procs p).pagetable i j n &&& PTE_V ≠ 0 →
    leafEntry k.phys.mem (k.procs p).pagetable i j n &&& PTE_U ≠ 0 →
    RamPage k.phys.kend (PTE2PA (leafEntry k.phys.mem (k.procs p).pagetable i j n)) ∧
    ∀ o, Holds k (PTE2PA (leafEntry k.phys.mem (k.procs p).pagetable i j n)) o ↔ o = .leaf p i j n

section owners

variable {k : Kern} {l : List ℕ} {own : Party → Set ℕ} {extra : FileId → ℕ} {p : Slot} {pa : ℕ}

/-- The address space of a process with a page table. -/
theorem Inv.space_of_pagetable (h : Inv k l own extra) (hp : (k.procs p).pagetable ≠ 0) :
    ∃ A, (k.procs p).pagetable = A.root ∧
      User (procLayout k.trampoline (k.procs p).trapframe) k.phys l A (npages (k.procs p).sz) ∧
      (k.procs p).trapframe ∉ A.footprint (npages (k.procs p).sz) ∧
      own (.proc p) = insert (k.procs p).trapframe (A.footprint (npages (k.procs p).sz)) := by
  rcases h.proc p with hidle | hspace
  · exact absurd hidle.1 hp
  · exact hspace

theorem exists_vpn {v : ℕ} (hv : v < 67108864) : ∃ i j n, vpn i j n = v := by
  have hva : v * 4096 < MAXVA := by
    rw [MAXVA_eq]
    omega
  refine ⟨_, _, _, (vpn_idx (lt_of_lt_MAXVA hva)).trans ?_⟩
  exact Nat.mul_div_cancel v (by decide)

theorem special_iff {i j n : Idx} :
    Special i j n ↔ vpn i j n = topPage ∨ vpn i j n = trampolinePage := Iff.rfl

/-- Above user memory only the special entries are set. -/
theorem special_eq_zero {trampoline trapframe v : ℕ} (h1 : v ≠ topPage) (h2 : v ≠ trampolinePage) :
    (procLayout trampoline trapframe).special v = 0 := by
  rw [procLayout, layoutOf, Layout.add_special_of_ne h1, trampLayout, Layout.add_special_of_ne h2]
  rfl

theorem leaf_below {trampoline trapframe n : ℕ} {s : Phys} {A : PTab} {i j v : Idx}
    (hu : User (procLayout trampoline trapframe) s l A n) (hs : ¬ Special i j v)
    (hv : A.leaf (vpn i j v) &&& PTE_V ≠ 0) : vpn i j v < n := by
  by_contra hn
  rw [special_iff, not_or] at hs
  rw [hu.space.rest _ (Nat.not_lt.mp hn), special_eq_zero hs.1 hs.2] at hv
  exact hv (Nat.zero_and _)

variable {o o' : Owner}

/-- A use of a page makes it a page of the party. -/
theorem Inv.holds_party (h : Inv k l own extra) (hpa : pa ≠ 0) (ho : Holds k pa o) :
    pa ∈ own o.party := by
  obtain ⟨K, hK, hroot, -, -, hown⟩ := h.kernel
  cases o with
  | kernelTable path =>
    obtain ⟨hlen, hfollow⟩ := ho
    rw [← hroot, follow_some hK hlen] at hfollow
    show pa ∈ own .kernel
    rw [hown, ← hfollow.1]
    exact .inl (PTab.mem_tables (hfollow.1 ▸ hpa))
  | kernelStack p =>
    show pa ∈ own .kernel
    rw [hown]
    exact .inr ⟨p, ho⟩
  | trapframe p =>
    show pa ∈ own (.proc p)
    have htf : (k.procs p).trapframe = pa := ho
    rcases h.proc p with ⟨-, -, hT⟩ | ⟨A, -, -, -, hT⟩
    · rw [hT]
      exact ⟨htf.symm, hpa⟩
    · rw [hT, htf]
      exact Set.mem_insert ..
  | table p path =>
    obtain ⟨hpt, hlen, hfollow⟩ := ho
    obtain ⟨A, hrootA, hu, -, hownA⟩ := h.space_of_pagetable hpt
    rw [hrootA, follow_some hu.rep hlen] at hfollow
    show pa ∈ own (.proc p)
    rw [hownA, ← hfollow.1]
    exact .inr (.inl (PTab.mem_tables (hfollow.1 ▸ hpa)))
  | leaf p i j n =>
    obtain ⟨hpt, hs, hv, he⟩ := ho
    obtain ⟨A, hrootA, hu, -, hownA⟩ := h.space_of_pagetable hpt
    rw [hrootA, leafEntry_eq hu.rep] at hv he
    show pa ∈ own (.proc p)
    rw [hownA]
    have hlt := leaf_below hu hs hv
    exact .inr (.inr ⟨vpn i j n, Nat.zero_le _, by omega, he⟩)
  | pipe =>
    show pa ∈ own .pipes
    rw [h.pipes]
    exact ho

/-- The pages of the kernel have one use. -/
theorem Inv.holds_kernel (h : Inv k l own extra) (hpa : pa ∈ own .kernel) :
    ∃ o, Holds k pa o := by
  obtain ⟨K, hK, hroot, -, -, hown⟩ := h.kernel
  rw [hown] at hpa
  rcases hpa with ⟨hne, path, hpath⟩ | ⟨p, hp⟩
  · have hlen := hK.depth path (hpath ▸ hne)
    refine ⟨.kernelTable path, hlen, ?_⟩
    rw [← hroot, follow_some hK hlen]
    exact ⟨hpath, hne⟩
  · exact ⟨.kernelStack p, hp⟩

/-- The pages of a process have a use. -/
theorem Inv.holds_proc (h : Inv k l own extra) (hpa : pa ∈ own (.proc p)) : ∃ o, Holds k pa o := by
  rcases h.proc p with ⟨-, -, hT⟩ | ⟨A, hroot, hu, -, hT⟩
  · rw [hT] at hpa
    exact ⟨.trapframe p, hpa.1.symm⟩
  · have hpt : (k.procs p).pagetable ≠ 0 := hroot ▸ hu.rep.root_ne
    rw [hT] at hpa
    rcases hpa with hpa | ⟨hne, path, hpath⟩ | ⟨v, -, hv, he⟩
    · exact ⟨.trapframe p, hpa.symm⟩
    · have hlen := hu.rep.depth path (hpath ▸ hne)
      refine ⟨.table p path, hpt, hlen, ?_⟩
      rw [hroot, follow_some hu.rep hlen]
      exact ⟨hpath, hne⟩
    · have hram := hu.le_ram
      have htop : topPage = 67108862 := rfl
      have htramp : trampolinePage = 67108863 := rfl
      obtain ⟨i, j, n, rfl⟩ := exists_vpn (v := v) (by omega)
      have hleaf := hu.space.mapped.leaf _ (Nat.zero_le _) hv
      refine ⟨.leaf p i j n, hpt, ?_, ?_, ?_⟩
      · rw [special_iff]
        omega
      · rw [hroot, leafEntry_eq hu.rep]
        exact hleaf.1
      · rw [hroot, leafEntry_eq hu.rep]
        exact he

theorem Owner.party_kernel (h : o.party = .kernel) :
    (∃ path, o = .kernelTable path) ∨ ∃ p, o = .kernelStack p := by
  cases o with
  | kernelTable path => exact .inl ⟨path, rfl⟩
  | kernelStack p => exact .inr ⟨p, rfl⟩
  | _ => exact absurd h (by simp [Owner.party])

theorem Owner.party_proc (h : o.party = .proc p) :
    o = .trapframe p ∨ (∃ path, o = .table p path) ∨ ∃ i j n, o = .leaf p i j n := by
  cases o with
  | trapframe q =>
    obtain rfl : q = p := Party.proc.inj h
    exact .inl rfl
  | table q path =>
    obtain rfl : q = p := Party.proc.inj h
    exact .inr (.inl ⟨path, rfl⟩)
  | leaf q i j n =>
    obtain rfl : q = p := Party.proc.inj h
    exact .inr (.inr ⟨i, j, n, rfl⟩)
  | _ => exact absurd h (by simp [Owner.party])

theorem Owner.party_pipes (h : o.party = .pipes) : o = .pipe := by
  cases o with
  | pipe => rfl
  | _ => exact absurd h (by simp [Owner.party])

/-- A page of the kernel has one use only. -/
theorem Inv.kernel_inj (h : Inv k l own extra) (hpa : pa ≠ 0) (hk : o.party = .kernel)
    (hk' : o'.party = .kernel) (ho : Holds k pa o) (ho' : Holds k pa o') : o = o' := by
  obtain ⟨K, hK, hroot, hinj, hsep, -⟩ := h.kernel
  have hnode : ∀ {path}, Holds k pa (.kernelTable path) → K.node path = pa := by
    intro path hh
    have hfollow := hh.2
    rw [← hroot, follow_some hK hh.1] at hfollow
    exact hfollow.1
  have hne : ∀ {path q}, Holds k pa (.kernelTable path) → ¬ Holds k pa (.kernelStack q) := by
    intro path q hh hstack
    have hmem : K.node path ∈ K.tables := PTab.mem_tables (by rwa [hnode hh])
    rw [hnode hh, ← (show k.kstack q = pa from hstack)] at hmem
    exact hsep q hmem
  rcases Owner.party_kernel hk with ⟨path, rfl⟩ | ⟨q, rfl⟩ <;>
    rcases Owner.party_kernel hk' with ⟨path', rfl⟩ | ⟨q', rfl⟩
  · rw [hK.inj path path' (by rwa [hnode ho]) ((hnode ho).trans (hnode ho').symm)]
  · exact absurd ho' (hne ho)
  · exact absurd ho (hne ho')
  · rw [hinj ((show k.kstack q = pa from ho).trans (show k.kstack q' = pa from ho').symm)]

/-- A page of a process has one use only. -/
theorem Inv.proc_inj (h : Inv k l own extra) (hpa : pa ≠ 0) (hp : o.party = .proc p)
    (hp' : o'.party = .proc p) (ho : Holds k pa o) (ho' : Holds k pa o') : o = o' := by
  by_cases hpt : (k.procs p).pagetable = 0
  · -- without a page table the trapframe is the only use
    have honly : ∀ {o}, o.party = .proc p → Holds k pa o → o = .trapframe p := by
      intro o hp ho
      rcases Owner.party_proc hp with rfl | ⟨path, rfl⟩ | ⟨i, j, n, rfl⟩
      · rfl
      · exact absurd hpt ho.1
      · exact absurd hpt ho.1
    rw [honly hp ho, honly hp' ho']
  obtain ⟨A, hroot, hu, hfresh, -⟩ := h.space_of_pagetable hpt
  have htable : ∀ {path}, Holds k pa (.table p path) → A.node path = pa := by
    intro path hh
    have hfollow := hh.2.2
    rw [hroot, follow_some hu.rep hh.2.1] at hfollow
    exact hfollow.1
  have hleaf : ∀ {i j n}, Holds k pa (.leaf p i j n) → vpn i j n < npages (k.procs p).sz ∧
      PTE2PA (A.leaf (vpn i j n)) = pa := by
    intro i j n hh
    obtain ⟨-, hs, hv, he⟩ := hh
    rw [hroot, leafEntry_eq hu.rep] at hv he
    exact ⟨leaf_below hu hs hv, he⟩
  have htables : ∀ {path}, Holds k pa (.table p path) → pa ∈ A.tables := by
    intro path hh
    have hmem : A.node path ∈ A.tables := PTab.mem_tables (by rwa [htable hh])
    rwa [htable hh] at hmem
  have hpages : ∀ {i j n}, Holds k pa (.leaf p i j n) → pa ∈ A.pages 0 (npages (k.procs p).sz) := by
    intro i j n hh
    obtain ⟨hlt, he⟩ := hleaf hh
    exact ⟨vpn i j n, Nat.zero_le _, by omega, he⟩
  have htf : Holds k pa (.trapframe p) → pa ∉ A.footprint (npages (k.procs p).sz) := by
    intro hh
    rwa [← (show (k.procs p).trapframe = pa from hh)]
  have hsep : ∀ {path i j n}, Holds k pa (.table p path) → ¬ Holds k pa (.leaf p i j n) :=
    fun ht hl => hu.space.mapped.sep pa (hpages hl) (htables ht)
  rcases Owner.party_proc hp with rfl | ⟨path, rfl⟩ | ⟨i, j, n, rfl⟩ <;>
    rcases Owner.party_proc hp' with rfl | ⟨path', rfl⟩ | ⟨i', j', n', rfl⟩
  · rfl
  · exact absurd (.inl (htables ho')) (htf ho)
  · exact absurd (.inr (hpages ho')) (htf ho)
  · exact absurd (.inl (htables ho)) (htf ho')
  · rw [hu.rep.inj path path' (by rwa [htable ho]) ((htable ho).trans (htable ho').symm)]
  · exact absurd ho' (hsep ho)
  · exact absurd (.inr (hpages ho)) (htf ho')
  · exact absurd ho (hsep ho')
  · obtain ⟨hlt, he⟩ := hleaf ho
    obtain ⟨hlt', he'⟩ := hleaf ho'
    have hv := hu.space.mapped.inj _ _ (Nat.zero_le _) (by omega) (Nat.zero_le _) (by omega)
      (he.trans he'.symm)
    obtain ⟨rfl, rfl, rfl⟩ := vpn_inj hv
    rfl

/-- A page has at most one use. -/
theorem Inv.holds_inj (h : Inv k l own extra) (hpa : pa ≠ 0) (ho : Holds k pa o)
    (ho' : Holds k pa o') : o = o' := by
  have hparty : o.party = o'.party :=
    h.parts.disjoint _ _ pa (h.holds_party hpa ho) (h.holds_party hpa ho')
  cases hp : o.party with
  | kernel => exact h.kernel_inj hpa hp (hparty ▸ hp) ho ho'
  | proc q => exact h.proc_inj hpa hp (hparty ▸ hp) ho ho'
  | pipes => exact (Owner.party_pipes hp).trans (Owner.party_pipes (hparty ▸ hp)).symm

/-- The invariant gives every page of RAM its place. -/
theorem Inv.ownedOnce (h : Inv k l own extra) : OwnedOnce k where
  once := by
    refine ⟨l, h.parts.heap.chain, fun pa hram => ?_⟩
    have hpa := h.parts.heap.pos hram
    have hfree : ∀ o, Holds k pa o → pa ∉ l := fun o ho =>
      (h.parts.heap_of o.party).disjoint pa (h.holds_party hpa ho)
    by_cases hl : pa ∈ l
    · exact .inl ⟨List.count_eq_one_of_mem h.parts.heap.nodup hl, fun o ho => hfree o ho hl⟩
    · right
      refine ⟨List.count_eq_zero_of_not_mem hl, ?_⟩
      obtain ⟨o, ho⟩ : ∃ o, Holds k pa o := by
        obtain ⟨party, hparty⟩ := (h.parts.cover pa hram).resolve_left hl
        cases party with
        | kernel => exact h.holds_kernel hparty
        | proc p => exact h.holds_proc hparty
        | pipes =>
          rw [h.pipes] at hparty
          exact ⟨.pipe, hparty⟩
      exact ⟨o, ho, fun o' ho' => h.holds_inj hpa ho' ho⟩
  pipe := h.files.unique
  user p i j n hpt hv hU := by
    obtain ⟨A, hroot, hu, -, -⟩ := h.space_of_pagetable hpt
    have hram := hu.le_ram
    have htop : topPage = 67108862 := rfl
    have htramp : trampolinePage = 67108863 := rfl
    have hentry := leafEntry_eq hu.rep i j n
    rw [← hroot] at hentry
    have hlt : vpn i j n < npages (k.procs p).sz := by
      by_contra hn
      rw [hentry, hu.space.rest _ (Nat.not_lt.mp hn)] at hU
      exact hU (Layout.special_kernel _ _)
    have hpage : RamPage k.phys.kend (PTE2PA (leafEntry k.phys.mem (k.procs p).pagetable i j n)) := by
      rw [hentry]
      exact hu.heap.owned _ (.inr ⟨vpn i j n, Nat.zero_le _, by omega, rfl⟩)
    refine ⟨hpage, fun o => ?_⟩
    have hself : Holds k (PTE2PA (leafEntry k.phys.mem (k.procs p).pagetable i j n)) (.leaf p i j n) := by
      refine ⟨hpt, ?_, hv, rfl⟩
      rw [special_iff]
      omega
    constructor
    · intro ho
      exact h.holds_inj (h.parts.heap.pos hpage) ho hself
    · rintro rfl
      exact hself

end owners

/-! ### Runs -/

/-- Every state of a run satisfies the invariant, provided that `userinit` got its pages. -/
theorem good_of_reach {k : Kern} (h : (system.restrict Supplied).Reach k) : Good k := by
  induction h with
  | init hready => exact hready.1
  | @step k k' e _ hstep ih =>
    obtain ⟨hsupplied, hstep⟩ := hstep
    cases e with
    | userinit =>
      obtain ⟨hidle, hrun⟩ := hstep
      exact (Code.wp_ok (userinit_spec ⟨ih, hidle⟩ hsupplied) hrun).1
    | call p c =>
      obtain ⟨hlive, hrun⟩ := hstep
      refine Code.wp_ok (call_spec c ih hlive ?_) hrun
      rintro status rfl rfl
      rw [exit_init] at hrun
      exact absurd hrun (by simp)

/-- With enough pages the first process is set up. -/
theorem userinit_returns {k : Kern} (h : Ready k) (hs : Supplied k .userinit) :
    ∃ k', userinit k = .ok () k' ∧ (system.restrict Supplied).Reach k' := by
  obtain ⟨_, k', hrun, -⟩ := Code.wp_exists (userinit_spec h hs)
  have hstep : (system.restrict Supplied).step k .userinit k' := ⟨hs, h.2, hrun⟩
  exact ⟨k', hrun, .step (.init h) hstep⟩

/-- In every reachable state, each page of RAM is on the free list once or has exactly one owner. -/
theorem page_owned_once {k : Kern} (h : (system.restrict Supplied).Reach k) : OwnedOnce k := by
  obtain ⟨l, own, hinv⟩ := good_of_reach h
  exact hinv.ownedOnce

/-! ### Machines with few pages -/

/-- The pages of RAM of a machine with 65 pages for the kernel and `n` others. -/
def stockPage (n i : ℕ) : ℕ := PHYSTOP - (65 + n) * 4096 + i * 4096

/-- The `n` free pages, each linked to the next. -/
def stockMem (n : ℕ) : Bytes := fun x =>
  if stockPage n 65 ≤ x ∧ x < stockPage n (64 + n) ∧ x % 4096 < 8 then
    bytesOf (x / 4096 * 4096 + 4096) (x % 4096)
  else 0

/-- The free list. -/
def stockFree (n : ℕ) : List ℕ := (List.range' 65 n).map (stockPage n)

/-- A kernel before its first process, with 64 stacks, an empty page table and `n` free pages. -/
def stock (n : ℕ) (fail : ℕ → Bool) : Kern where
  phys := { mem := stockMem n, freelist := stockPage n 65, fail := fail, calls := 0,
            kend := stockPage n 0 }
  procs _ := Proc.empty
  ftable _ := File.empty
  iref _ := 0
  pipes _ := { readopen := false, writeopen := false }
  initproc := ⟨0, NPROC_pos⟩
  nextpid := 1
  kernel_pagetable := stockPage n 64
  kstack p := stockPage n p
  trampoline := KERNBASE

/-- Who owns the pages of the machine. -/
def stockOwn (n : ℕ) : Party → Set ℕ
  | .kernel => {stockPage n 64} ∪ Set.range fun p : Slot => stockPage n p
  | .proc _ => ∅
  | .pipes => ∅

section stock

variable {n : ℕ}

theorem stockPage_eq (i : ℕ) : stockPage n i = 2281701376 - (65 + n) * 4096 + i * 4096 := rfl

variable {i : ℕ}

theorem ramPage_stock (hn : n ≤ 1000) (h : i < 65 + n) :
    RamPage (stockPage n 0) (stockPage n i) := by
  rw [stockPage_eq, stockPage_eq]
  refine ⟨?_, ?_, ?_⟩
  · omega
  · omega
  · rw [PHYSTOP_eq]
    omega

theorem stockOwn_index {party : Party} {pa : ℕ} (h : pa ∈ stockOwn n party) :
    ∃ i, i < 65 ∧ pa = stockPage n i := by
  cases party with
  | kernel =>
    rcases h with h | ⟨p, rfl⟩
    · exact ⟨64, by decide, h⟩
    · exact ⟨p, by have := p.isLt; unfold NPROC at this; omega, rfl⟩
  | proc p => exact h.elim
  | pipes => exact h.elim

theorem mem_stockFree {pa : ℕ} : pa ∈ stockFree n ↔ ∃ i, 65 ≤ i ∧ i < 65 + n ∧ pa = stockPage n i := by
  simp only [stockFree, List.mem_map, List.mem_range'_1]
  constructor
  · rintro ⟨i, hi, rfl⟩
    exact ⟨i, hi.1, hi.2, rfl⟩
  · rintro ⟨i, h1, h2, rfl⟩
    exact ⟨i, ⟨h1, h2⟩, rfl⟩

theorem stockPage_inj {j : ℕ} (h : stockPage n i = stockPage n j) : i = j := by
  rw [stockPage_eq, stockPage_eq] at h
  omega

/-- The link of a free page is the next page, and zero at the end. -/
theorem load_stock (hn : n ≤ 1000) (h1 : 65 ≤ i) (h2 : i < 65 + n) :
    (stockMem n).load (stockPage n i) 8 = if i + 1 < 65 + n then stockPage n (i + 1) else 0 := by
  split
  · rename_i hlt
    have hstore : (stockMem n).load (stockPage n i) 8 =
        ((stockMem n).store (stockPage n i) 8 (stockPage n (i + 1))).load (stockPage n i) 8 := by
      apply Bytes.load_congr
      intro x hx1 hx2
      rw [Bytes.store, if_pos ⟨hx1, hx2⟩, stockMem, if_pos, bytesOf]
      · rw [stockPage_eq] at hx1 hx2 ⊢
        rw [stockPage_eq]
        congr 2
        · omega
        · congr 1
          omega
      · rw [stockPage_eq] at hx1 hx2 ⊢
        rw [stockPage_eq]
        omega
    rw [hstore, Bytes.load_store_of_lt]
    rw [stockPage_eq]
    omega
  · apply Bytes.load_zero
    intro x hx1 hx2
    refine if_neg fun hc => ?_
    rw [stockPage_eq] at hx1 hx2 hc
    rw [stockPage_eq] at hc
    omega

theorem chain_stock (hn : n ≤ 1000) (j i : ℕ) (hij : i + j = 65 + n) (hi : 65 ≤ i) :
    Chain (stockMem n) (if i < 65 + n then stockPage n i else 0)
      ((List.range' i j).map (stockPage n)) := by
  induction j generalizing i with
  | zero => exact if_neg (by omega)
  | succ j ih =>
    rw [List.range'_succ, List.map_cons]
    have hlt : i < 65 + n := by omega
    refine ⟨if_pos hlt, ?_, ?_⟩
    · rw [stockPage_eq]
      omega
    · rw [load_stock hn hi hlt]
      exact ih (i + 1) (by omega) (by omega)

theorem stock_parts (hpos : 0 < n) (hn : n ≤ 1000) (fail : ℕ → Bool) :
    Parts (stock n fail).phys (stockFree n) (stockOwn n) := by
  refine ⟨⟨?_, ?_, ?_, ?_, ?_, ?_⟩, ?_, ?_⟩
  · have hchain := chain_stock hn n 65 (by omega) le_rfl
    rwa [if_pos (by omega)] at hchain
  · have hnodup : (List.range' 65 n).Nodup := List.nodup_range'
    exact hnodup.map fun i j => stockPage_inj
  · intro pa hpa
    obtain ⟨i, -, h2, rfl⟩ := mem_stockFree.mp hpa
    exact ramPage_stock hn h2
  · rintro pa ⟨party, hpa⟩
    obtain ⟨i, hi, rfl⟩ := stockOwn_index hpa
    exact ramPage_stock hn (by omega)
  · rintro pa ⟨party, hpa⟩ hl
    obtain ⟨i, hi, rfl⟩ := stockOwn_index hpa
    obtain ⟨j, hj, -, he⟩ := mem_stockFree.mp hl
    have := stockPage_inj he
    omega
  · show KERNBASE ≤ stockPage n 0
    rw [stockPage_eq, show KERNBASE = 2147483648 from rfl]
    omega
  · intro i j pa hi hj
    cases i with
    | kernel =>
      cases j with
      | kernel => rfl
      | proc p => exact hj.elim
      | pipes => exact hj.elim
    | proc p => exact hi.elim
    | pipes => exact hi.elim
  · intro pa hpa
    obtain ⟨i, hi, rfl⟩ : ∃ i, i < 65 + n ∧ pa = stockPage n i := by
      have hal := hpa.aligned
      have hlow : stockPage n 0 ≤ pa := hpa.low
      have hhigh := hpa.high
      rw [stockPage_eq] at hlow
      rw [PHYSTOP_eq] at hhigh
      refine ⟨(pa - (2281701376 - (65 + n) * 4096)) / 4096, by omega, ?_⟩
      rw [stockPage_eq]
      omega
    by_cases hfree : 65 ≤ i
    · exact .inl (mem_stockFree.mpr ⟨i, hfree, hi, rfl⟩)
    · refine .inr ⟨.kernel, ?_⟩
      by_cases hroot : i = 64
      · exact .inl (by rw [hroot]; rfl)
      · exact .inr ⟨⟨i, by unfold NPROC; omega⟩, rfl⟩

/-- The kernel's page table is one empty page. -/
theorem rep_stock (hn : n ≤ 1000) : Rep (stockMem n) (PTab.single (stockPage n 64)) := by
  have hzero : stockMem n = (stockMem n).fill (stockPage n 64) 4096 0 := by
    funext x
    by_cases hx : stockPage n 64 ≤ x ∧ x < stockPage n 64 + 4096
    · rw [Bytes.fill_of_mem hx]
      refine if_neg fun hc => ?_
      rw [stockPage_eq] at hx hc
      omega
    · rw [Bytes.fill_of_not_mem hx]
  rw [hzero]
  apply rep_single
  · rw [stockPage_eq]
    omega
  · rw [stockPage_eq]
    omega

/-- The machine is ready for its first process, whichever calls of `kalloc` fail. -/
theorem stock_ready (hpos : 0 < n) (hn : n ≤ 1000) (fail : ℕ → Bool) : Ready (stock n fail) := by
  have hnone : ∀ pi w f, ¬ IsEnd (stock n fail) pi w f := fun pi w f hend => by
    exact absurd hend.1 (by decide : FdType.FD_NONE ≠ .FD_PIPE)
  have hroot : stockPage n 64 ≠ 0 := by
    rw [stockPage_eq]
    omega
  refine ⟨⟨stockFree n, stockOwn n, ?_⟩, fun p => rfl⟩
  refine ⟨stock_parts hpos hn fail, ⟨PTab.single (stockPage n 64), rep_stock hn, rfl, ?_, ?_, ?_⟩, ?_, ?_,
    ?_, ?_, ?_⟩
  · intro p q hpq
    exact Fin.ext (stockPage_inj hpq)
  · intro p hp
    have := p.isLt
    unfold NPROC at this
    rw [PTab.tables_single hroot] at hp
    have := stockPage_inj hp
    omega
  · rw [PTab.tables_single hroot]
    rfl
  · intro p
    exact .inl ⟨rfl, rfl, (Set.eq_empty_of_forall_notMem fun pa hpa => hpa.2 hpa.1).symm⟩
  · refine (Set.eq_empty_of_forall_notMem fun pi hpi => ?_).symm
    obtain ⟨w, f, hend⟩ := hpi
    exact hnone pi w f hend
  · intro p
    exact ⟨fun _ => ⟨rfl, rfl, rfl⟩, fun hc => absurd rfl hc, fun _ _ => rfl, nofun⟩
  · refine ⟨fun f => ?_, fun f _ => rfl, fun pi w f g hf => absurd hf (hnone pi w f), ?_⟩
    · have hrefs : Lib.refs (opened (stock n fail)) f = 0 :=
        Lib.refs_eq_zero.mpr fun i hi => absurd hi (by simp [opened, stock, Proc.empty])
      rw [hrefs]
      rfl
    · rintro pi ⟨w, f, hend⟩
      exact absurd hend (hnone pi w f)
  · exact (by decide : KERNBASE < PHYSTOP)

theorem stocked_stock (hpos : 0 < n) (hn : n ≤ 1000) : Stocked (stock n fun _ => false) n := by
  refine ⟨stockFree n, (stock_parts hpos hn _).heap.chain, ?_, fun _ _ => rfl⟩
  rw [stockFree, List.length_map, List.length_range']

end stock

/-! ### Scripts -/

instance (k : Kern) (p : Slot) : Decidable (Live k p) := inferInstanceAs (Decidable (_ = _))

/-- Processes make calls one after the other, each of them when it can. -/
def play : List (Slot × Call) → Kern → Option Kern
  | [], k => some k
  | (p, c) :: l, k =>
    if Live k p then
      match c.run p k with
      | .ok () k' => play l k'
      | .panic _ => none
    else none

theorem play_reach {l : List (Slot × Call)} {k k' : Kern} (h : (system.restrict Supplied).Reach k)
    (hplay : play l k = some k') : (system.restrict Supplied).Reach k' := by
  induction l generalizing k with
  | nil => exact Option.some.inj hplay ▸ h
  | cons x l ih =>
    obtain ⟨p, c⟩ := x
    rw [play] at hplay
    split_ifs at hplay with hlive
    cases hrun : c.run p k with
    | ok a k₁ =>
      rw [hrun] at hplay
      exact ih (h.step (l := .call p c) ⟨trivial, hlive, hrun⟩) hplay
    | panic msg =>
      rw [hrun] at hplay
      cases hplay

/-- On a machine with `n` free pages the calls can be made after `userinit`, and lead to a state that
passes the test. -/
def passes (n : ℕ) (l : List (Slot × Call)) (test : Kern → Bool) : Bool :=
  (userinit (stock n fun _ => false)).passes fun k => (play l k).any test

theorem exists_reach_of_passes {n : ℕ} {l : List (Slot × Call)} {test : Kern → Bool} (hn : 7 ≤ n)
    (hmax : n ≤ 1000) (h : passes n l test = true) :
    ∃ k, (system.restrict Supplied).Reach k ∧ test k = true := by
  have hpos : 0 < n := by omega
  obtain ⟨free, hchain, hpl⟩ := stocked_stock hpos hmax
  have hs : Supplied (stock n fun _ => false) .userinit := ⟨free, hchain, hpl.mono hn⟩
  obtain ⟨k, hrun, hreach⟩ := userinit_returns (stock_ready hpos hmax fun _ => false) hs
  have h := Lib.Res.passes_ok h hrun
  cases hplay : play l k with
  | none => simp [hplay] at h
  | some k' => exact ⟨k', play_reach hreach hplay, by simpa [hplay] using h⟩

/-- The first process makes a pipe, duplicates its read end and forks. -/
def pipeDupFork : List (Slot × Call) :=
  [(⟨0, NPROC_pos⟩, .pipe 0), (⟨0, NPROC_pos⟩, .dup 0), (⟨0, NPROC_pos⟩, .fork)]

theorem NFILE_pos : 0 < NFILE := by decide

theorem one_lt_NFILE : 1 < NFILE := by decide

/-- There are two processes then, and two descriptors for the read end of the pipe and one for its write
end in each. -/
def SharePipe (k : Kern) : Prop :=
  k.nextpid = 3 ∧ (k.ftable ⟨0, NFILE_pos⟩).type = .FD_PIPE ∧ (k.ftable ⟨0, NFILE_pos⟩).ref = 4 ∧
    (k.ftable ⟨1, one_lt_NFILE⟩).ref = 2

instance (k : Kern) : Decidable (SharePipe k) := inferInstanceAs (Decidable (_ ∧ _))

theorem sharePipe_reach : ∃ k, (system.restrict Supplied).Reach k ∧ SharePipe k := by
  have hpasses : passes 32 pipeDupFork (fun k => decide (SharePipe k)) = true := by decide +kernel
  obtain ⟨k, hreach, htest⟩ := exists_reach_of_passes (by decide) (by decide) hpasses
  exact ⟨k, hreach, of_decide_eq_true htest⟩

/-- Each page of two processes that share a pipe has its place. -/
theorem page_owned_once_forked : ∃ k, (system.restrict Supplied).Reach k ∧ SharePipe k ∧ OwnedOnce k := by
  obtain ⟨k, hreach, hshare⟩ := sharePipe_reach
  exact ⟨k, hreach, hshare, page_owned_once hreach⟩

/-! ### The file table -/

/-- **The file table is exact.** In every reachable state the count of a file is the number of
descriptors, of all processes, that refer to it; an end of a pipe is open exactly if a descriptor
refers to it, and there is one file for it at most; and only processes that have not exited have open
files. -/
theorem file_table_exact {k : Kern} (h : (system.restrict Supplied).Reach k) :
    (∀ f, (k.ftable f).ref = Lib.refs (opened k) f) ∧
    (∀ pi ∈ pipePages k, ∀ w, (k.pipes pi).isOpen w = true ↔
      ∃ p fd f, (k.procs p).ofile fd = some f ∧ IsEnd k pi w f) ∧
    (∀ pi w f g, IsEnd k pi w f → IsEnd k pi w g → f = g) ∧
    ∀ p fd f, (k.procs p).ofile fd = some f → Running (k.procs p) := by
  obtain ⟨l, own, hinv⟩ := good_of_reach h
  have hfiles := hinv.files
  have href f : (k.ftable f).ref = Lib.refs (opened k) f := (hfiles.ref_eq f).trans (add_zero _)
  refine ⟨href, fun pi hpi w => ?_, hfiles.unique, fun p fd f hf => ?_⟩
  · rw [hfiles.isOpen pi hpi w]
    constructor
    · rintro ⟨f, hf⟩
      -- a file without descriptors is free, so it is no end of a pipe
      by_contra hno
      have hzero : Lib.refs (opened k) f = 0 :=
        Lib.refs_eq_zero.mpr fun x hx => hno ⟨x.1, x.2, f, hx, hf⟩
      exact absurd ((hfiles.free f ((href f).trans hzero)).symm.trans hf.1) (by decide)
    · rintro ⟨-, -, f, -, hf⟩
      exact ⟨f, hf⟩
  · have hclosed := (hinv.shape p).closed
    constructor <;> intro hst <;> simp [hclosed, hst] at hf

/-- Two processes share a pipe: the counts are those of their descriptors. -/
theorem file_table_exact_forked : ∃ k, (system.restrict Supplied).Reach k ∧ SharePipe k ∧
    Lib.refs (opened k) ⟨0, by decide⟩ = 4 ∧ Lib.refs (opened k) ⟨1, by decide⟩ = 2 := by
  obtain ⟨k, hreach, hshare⟩ := sharePipe_reach
  have href := (file_table_exact hreach).1
  exact ⟨k, hreach, hshare, (href _).symm.trans hshare.2.2.1, (href _).symm.trans hshare.2.2.2⟩

end Xv6.Kernel
