import Xv6.Kernel.ExecSpec
import Xv6.Lib.Trans

/-!
# The kernel as a transition system

A run starts with the kernel before its first process, when memory is divided among the free list
and the kernel. Then `userinit` sets up the first process, and from then on every live process may
make any call at any time, with any calls of `kalloc` failing. Every state of a run satisfies the
invariant, provided that `userinit` got the pages it asked for: `uvminit` does not look at the result
of `mappages`.
-/

namespace Xv6.Kernel

open Lib (Bytes Code Lts)
open Mem

/-- The kernel before its first process. -/
def Ready (k : Kern) : Prop := Good k ∧ ∀ p, (k.procs p).state = .unused

/-- A process that can make a call. -/
def Live (k : Kern) (p : Slot) : Prop := (k.procs p).state = .runnable

/-- What happens in a run. -/
inductive Event
  | userinit
  | call (p : Slot) (c : Call)

/-- The kernel as a transition system. -/
def system : Lts Kern Event where
  init := Ready
  step k e k' :=
    match e with
    | .userinit => (∀ p, (k.procs p).state = .unused) ∧ Kernel.userinit k = .ok () k'
    | .call p c => Live k p ∧ c.run p k = .ok () k'

/-- The seven calls of `kalloc` that `userinit` makes succeed. -/
def Supplied (k : Kern) : Event → Prop
  | .userinit => ∃ l, Chain k.phys.mem k.phys.freelist l ∧ Plenty k.phys l 7
  | .call _ _ => True

/-- The next `m` calls of `kalloc` succeed. -/
def Stocked (k : Kern) (m : ℕ) : Prop :=
  ∃ l, Chain k.phys.mem k.phys.freelist l ∧ Plenty k.phys l m

section calls

variable {k : Kern} {p : Slot}

theorem Live.running (h : Live k p) : Running (k.procs p) := by
  rw [Running, h]
  decide

theorem Good.home (h : Good k) (hp : Live k p) : (k.procs p).cwd ≠ none := by
  obtain ⟨l, own, h⟩ := h
  exact (h.shape p).home hp

theorem store_spec {addr len : ℕ} {source : Bytes} (h : Good k) (hp : Live k p) :
    Code.wp (Call.run p (.store addr source len)) (fun _ k' => Good k') k := by
  obtain ⟨l, own, h⟩ := h
  rw [Call.run, Code.wp_bind, Code.wp_get, Code.wp_bind]
  apply Code.wp_mono (copyout_inv h hp.running.1)
  intro _ k' hres
  obtain ⟨-, l', own', h'⟩ := hres
  exact h'.good

/-- Every call by a live process returns and keeps the invariant, except that the first process must
not exit. -/
theorem call_spec (c : Call) (h : Good k) (hp : Live k p)
    (hexit : ∀ status, c = .exit status → p ≠ k.initproc) :
    Code.wp (c.run p) (fun _ k' => Good k') k := by
  have hrun := hp.running
  cases c with
  | fork =>
    rw [Call.run, Code.wp_bind]
    exact fork_spec h hrun (h.home hp)
  | exec namei path uargv =>
    rw [Call.run, Code.wp_bind]
    exact sys_exec_spec h hrun
  | sbrk n =>
    rw [Call.run, Code.wp_bind]
    exact sys_sbrk_spec h hrun
  | pipe fdarray =>
    rw [Call.run, Code.wp_bind]
    exact sys_pipe_spec h hrun
  | dup fd =>
    rw [Call.run, Code.wp_bind]
    exact sys_dup_spec h hrun
  | close fd =>
    rw [Call.run, Code.wp_bind]
    exact sys_close_spec h
  | openFile type ht readable writable =>
    rw [Call.run, Code.wp_bind]
    exact sys_open_spec h hrun ht
  | exit status => exact exit_spec h hrun (hexit status rfl) (h.home hp)
  | kill pid =>
    rw [Call.run, Code.wp_bind]
    exact kill_spec h
  | wait addr =>
    rw [Call.run, Code.wp_bind]
    exact wait_spec h hrun
  | store addr source len => exact store_spec h hp

/-- The first process exits with a panic. -/
theorem exit_init (k : Kern) (status : ℤ) :
    Call.run k.initproc (.exit status) k = .panic "init exiting" := by
  show (if k.initproc = k.initproc then _ else _ : KCode Unit) k = _
  rw [if_pos rfl]
  rfl

/-- A call by a live process panics only if the first process exits. -/
theorem call_panic {c : Call} {msg : String} (h : Good k) (hp : Live k p)
    (hpanic : c.run p k = .panic msg) : msg = "init exiting" := by
  by_cases hexit : ∀ status, c = .exit status → p ≠ k.initproc
  · exact absurd hpanic (Code.wp_not_panic (call_spec c h hp hexit))
  · push Not at hexit
    obtain ⟨status, rfl, rfl⟩ := hexit
    rw [exit_init] at hpanic
    injection hpanic with hmsg
    exact hmsg.symm

end calls

/-! ### The first process -/

section boot

variable {k : Kern}

theorem Inv.setInit {l : List ℕ} {own : Party → Set ℕ} {extra : FileId → ℕ}
    (h : Inv k l own extra) (p : Slot) : Inv { k with initproc := p } l own extra :=
  ⟨h.parts, h.kernel, h.proc, h.pipes, h.shape, h.files.congr ⟨rfl, rfl, rfl, rfl, rfl⟩ fun _ => rfl,
    h.trampoline⟩

/-- The end of `userinit`: the trapframe is filled in and the process may run. -/
theorem userinit_finish {l : List ℕ} {own : Party → Set ℕ} {p : Slot} (h : Inv k l own fun _ => 0)
    (hp : Running (k.procs p)) :
    Code.wp (do
      vm (store64 ((k.procs p).trapframe + 24) 0)
      vm (store64 ((k.procs p).trapframe + 48) PGSIZE)
      let ip : Option InodeId := some ⟨0, NINODE_pos⟩
      idup ip
      setProc p fun x => { x with name := safestrcpy initName 16, cwd := ip }
      setProc p fun x => { x with state := .runnable }) (fun _ k' =>
        (∃ own', Inv k' l own' fun _ => 0) ∧ k'.initproc = k.initproc ∧ Live k' p ∧
        (k'.procs p).sz = (k.procs p).sz ∧ ∀ m, Plenty k.phys l m → Plenty k'.phys l m) k := by
  have hal := (h.trapframe_page hp.1).aligned
  have h1 := h.writeTrapframe hp.1 (sameOff_store (v := 0) hal (by decide : 24 + 8 ≤ 4096))
  have h2 := h1.writeTrapframe hp.1 (sameOff_store (v := PGSIZE) hal (by decide : 48 + 8 ≤ 4096))
  simp only [Code.wp_bind, wp_vm, store64, idup, addRef, Code.wp_modify, wp_setProc, setSlot_self,
    setSlot_setSlot]
  refine ⟨⟨own, h2.withIref.setSlot ⟨rfl, rfl, rfl, rfl⟩
    (.runnable rfl ((h.shape p).active hp.1) (Option.some_ne_none _))⟩, rfl, ?_, rfl, fun _ hpl => hpl⟩
  rw [Live, setSlot_self]

/-- `userinit` sets up the first process, with one page, if it gets seven pages. -/
theorem userinit_spec (h : Ready k) (hs : Supplied k .userinit) :
    Code.wp userinit (fun _ k' => Good k' ∧ Live k' k'.initproc ∧
      (k'.procs k'.initproc).sz = PGSIZE ∧ ∀ m, Stocked k (m + 7) → Stocked k' m) k := by
  obtain ⟨⟨l, own, h⟩, hidle⟩ := h
  obtain ⟨l', hchain, hpl⟩ := hs
  obtain rfl := hchain.unique h.parts.heap.chain
  rw [userinit, Code.wp_bind]
  apply Code.wp_mono (allocproc_spec h)
  intro r k1 hres
  obtain ⟨-, l1, own1, h1, ⟨rfl, -, hno⟩ | ⟨np, rfl, -, hused, hsz, hof, -, -, hst⟩⟩ := hres
  · rcases hno with hno | hno
    · exact absurd (hidle k.initproc) (hno k.initproc)
    · exact absurd (hpl.mono (by decide)) hno
  have hpl1 := hst 3 hpl
  have hrun1 : Running (k1.procs np) := by
    rw [Running, hused]
    decide
  have h0 : npages (k1.procs np).sz = 0 := by
    rw [hsz]
    decide
  obtain ⟨A, hroot, hu, hfresh, hown⟩ := h1.space hrun1.1
  have hinit := uvminit_spec (s := k1.phys) (l := l1) (fun i => initcode.getD i 0)
    (h0 ▸ hu) (by decide : initcode.length < 4096) (isLeaf_iff.mpr (by decide)) hpl1
  rw [← hroot] at hinit
  simp only [Code.wp_bind, Code.wp_get, Code.wp_modify, wp_vm, wp_setProc, store64]
  apply Code.wp_mono hinit
  intro _ s2 hres
  obtain ⟨l2, A2, hres, hst2⟩ := hres
  have h1page : npages PGSIZE = 1 := by decide
  rw [← h0, ← h1page] at hres
  obtain ⟨own2, h2, -⟩ := (h1.setInit np).resize (p := np) hrun1.1 hroot hfresh hown hres
  have hfinish := userinit_finish h2 (by rw [setSlot_self]; exact hrun1)
  rw [setSlot_self] at hfinish
  have hdone := Code.wp_mono hfinish (Q := fun _ k' => Good k' ∧ Live k' k'.initproc ∧
    (k'.procs k'.initproc).sz = PGSIZE ∧ ∀ m, Stocked k (m + 7) → Stocked k' m) (by
      rintro _ k' ⟨⟨own3, h3⟩, hinit, hlive, hsize, hst3⟩
      obtain rfl : k'.initproc = np := hinit
      refine ⟨h3.good, hlive, hsize, fun m hstocked => ?_⟩
      obtain ⟨l', hchain, hm⟩ := hstocked
      obtain rfl := hchain.unique h.parts.heap.chain
      exact ⟨l2, h3.parts.heap.chain, hst3 m (hst2 m (hst (m + 3) hm))⟩)
  exact hdone

end boot

end Xv6.Kernel
