import Xv6.Sched.OneCpu

/-!
# The process tree and exactly-once reaping

`fork`, `exit` and `wait` under any interleaving. The tree invariant and the accounting of exits and reaps
are derived from `Effect` alone.

The second half records the calls of `exit` and the returns of `wait` along a run, and shows that
every exited process is returned by exactly one `wait`, or still lies in the table as a zombie with
its status.
-/

set_option linter.unusedSectionVars false

namespace Xv6.Sched

variable {C : Type} [DecidableEq C] {s s' : State C} {l : Label C} {p : Slot} {c : C} {addr i : ℕ}
  {havekids copied : Bool} {es fs : List Event}

/-! ### The threads in `exit` and `wait` -/

/-- The thread holds `wait_lock`. -/
def Point.holdsWait : Point → Bool
  | .exitLocked | .exitReparented | .waitScan _ _ _ => true
  | _ => false

/-- The thread is in `exit`. -/
def Point.exiting : Point → Bool
  | .exitLocked | .exitReparented => true
  | _ => false

/-- What is known about the threads that hold `wait_lock`. -/
structure Waits (s : State C) : Prop where
  /-- They hold it. -/
  held : ∀ p, (s.procs p).point.holdsWait → s.waitLock = some p
  /-- The first process does not exit. -/
  exiting : ∀ p, (s.procs p).point.exiting → p ≠ s.initproc
  /-- After `reparent` an exiting process has no children. -/
  orphaned : ∀ p q, (s.procs p).point = .exitReparented → (s.procs q).parent ≠ some p

/-! ### The holders of `wait_lock` -/

theorem Waits.congr (h : Waits s) (hpt : ∀ q, (s'.procs q).point = (s.procs q).point)
    (hpar : ∀ q, (s'.procs q).parent = (s.procs q).parent) (hw : s'.waitLock = s.waitLock)
    (hinit : s'.initproc = s.initproc) : Waits s' := by
  constructor <;> simp only [hpt, hpar, hw, hinit]
  · exact h.held
  · exact h.exiting
  · exact h.orphaned

/-- The same if only the record of `p` changes, and not in these fields. -/
theorem Waits.set (h : Waits s) {r : Proc} (hprocs : ∀ q, s'.procs q = if q = p then r else s.procs q)
    (hr : r.point = (s.procs p).point ∧ r.parent = (s.procs p).parent)
    (hw : s'.waitLock = s.waitLock) (hinit : s'.initproc = s.initproc) : Waits s' := by
  refine h.congr (fun q => ?_) (fun q => ?_) hw hinit <;> rw [hprocs q] <;> split_ifs with hq
  · rw [hq, hr.1]
  · rfl
  · rw [hq, hr.2]
  · rfl

theorem Point.holdsWait_of_exiting {pt : Point} (h : pt.exiting) : pt.holdsWait := by
  cases pt <;> simp_all [Point.exiting, Point.holdsWait]

/-- Nobody else holds it. -/
theorem Waits.alone (h : Waits s) (hp : (s.procs p).point.holdsWait) {q : Slot} (hq : q ≠ p) :
    (s.procs q).point.holdsWait = false := by
  by_contra hne
  have hheld := h.held q (by simpa using hne)
  exact hq (Option.some.inj (hheld.symm.trans (h.held p hp)))

/-- It is enough to look at `p` if nobody else holds `wait_lock`. -/
theorem Waits.of_alone (halone : ∀ q, q ≠ p → (s.procs q).point.holdsWait = false)
    (hheld : (s.procs p).point.holdsWait → s.waitLock = some p)
    (hexit : (s.procs p).point.exiting → p ≠ s.initproc)
    (horphaned : (s.procs p).point = .exitReparented → ∀ q, (s.procs q).parent ≠ some p) :
    Waits s := by
  have hp : ∀ q, (s.procs q).point.holdsWait → q = p := by
    intro q hq
    by_contra hne
    simp [halone q hne] at hq
  refine ⟨fun q hq => ?_, fun q hq => ?_, fun q r hq => ?_⟩
  · obtain rfl := hp q hq
    exact hheld hq
  · obtain rfl := hp q (Point.holdsWait_of_exiting hq)
    exact hexit hq
  · obtain rfl := hp q (by simp [hq, Point.holdsWait])
    exact horphaned hq r

/-- A thread that releases it leaves nobody holding it. -/
theorem Waits.leave (h : Waits s) (hp : (s.procs p).point.holdsWait)
    (hpt : ∀ q, q ≠ p → (s'.procs q).point = (s.procs q).point)
    (hp' : (s'.procs p).point.holdsWait = false) : Waits s' := by
  refine Waits.of_alone (p := p) (fun q hq => ?_) (fun hw => ?_) (fun he => ?_) fun he => ?_
  · rw [hpt q hq]
    exact h.alone hp hq
  · simp [hp'] at hw
  · simp [Point.holdsWait_of_exiting he] at hp'
  · simp [he, Point.holdsWait] at hp'

theorem Waits.take (h : Waits s) {pt : Point} (hfree : s.waitLock = none)
    (hexit : pt.exiting → p ≠ s.initproc) (hpt : pt ≠ .exitReparented) :
    Waits { s.goto p pt with waitLock := some p } := by
  refine Waits.of_alone (p := p) (fun q hq => ?_) (fun _ => rfl) (fun he => hexit ?_) fun he => ?_
  · by_contra hne
    have hheld := h.held q (by simpa [State.goto, hq] using hne)
    simp [hfree] at hheld
  · simpa [State.goto] using he
  · simp [State.goto, hpt] at he

theorem Waits.scan (h : Waits s) {j : ℕ} {k k' : Bool}
    (hpt : (s.procs p).point = .waitScan addr i k) : Waits (s.goto p (.waitScan addr j k')) := by
  have hw : (s.procs p).point.holdsWait := by simp [hpt, Point.holdsWait]
  refine Waits.of_alone (p := p) (fun q hq => ?_) (fun _ => h.held p hw) ?_ ?_
  · simpa [State.goto, hq] using h.alone hw hq
  · simp [State.goto, Point.exiting]
  · simp [State.goto]

/-- `reparent` leaves the exiting process without children. -/
theorem Waits.reparent (h : Waits s) (hpt : (s.procs p).point = .exitLocked) :
    Waits ({ s with procs := reparent s.initproc p s.procs }.goto p .exitReparented) := by
  have hw : (s.procs p).point.holdsWait := by simp [hpt, Point.holdsWait]
  have hne := h.exiting p (by simp [hpt, Point.exiting])
  refine Waits.of_alone (p := p) (fun q hq => ?_) (fun _ => h.held p hw) (fun _ => hne) fun _ q => ?_
  · have hrep : (Sched.reparent s.initproc p s.procs q).point = (s.procs q).point := by
      unfold Sched.reparent
      split <;> rfl
    simpa [State.goto, hq, hrep] using h.alone hw hq
  · have hpar : (Sched.reparent s.initproc p s.procs q).parent ≠ some p := by
      unfold Sched.reparent
      split
      · simpa using hne.symm
      · assumption
    by_cases hq : q = p
    · subst hq
      simpa [State.goto] using hpar
    · simpa [State.goto, hq] using hpar

theorem sched_procs (s : State C) (c : C) (p q : Slot) (r : Proc) :
    (sched s c p r).procs q = if q = p then r else s.procs q := by
  simp [sched]

theorem Waits.waitScan (h : Waits s) (hpt : (s.procs p).point = .waitScan addr i havekids)
    (hs : Sched.waitScan s c p addr i havekids copied = some s') : Waits s' := by
  have hw : (s.procs p).point.holdsWait := by simp [hpt, Point.holdsWait]
  have hleave : Waits { s.goto p .user with waitLock := none } :=
    h.leave hw (fun q hq => by simp [State.goto, hq]) (by simp [State.goto, Point.holdsWait])
  simp only [Sched.waitScan] at hs
  split at hs
  · rename_i hi
    split_ifs at hs with hkid hfree hz hcopy <;> cases hs
    · exact hleave
    · refine h.leave hw (fun q hq => ?_) (by simp [State.goto, Point.holdsWait])
      by_cases hqn : q = ⟨i, hi⟩
      · subst hqn
        simp [State.goto, hq, freeproc]
      · simp [State.goto, hq, hqn]
    · exact h.scan hpt
    · exact h.scan hpt
  · split_ifs at hs with hend hfree <;> cases hs
    · exact hleave
    · exact h.leave hw (fun q hq => by simp [sched_procs, hq]) (by simp [sched_procs, Point.holdsWait])

/-- `fork` by `p` changes the record of `np`. -/
theorem Waits.fork (h : Waits s) (p np : Slot) (r : Proc) {pt : Point}
    (hpt : pt.holdsWait = false) (hr : r.point.holdsWait → r.point = (s.procs np).point)
    (hpar : ∀ x, r.parent = some x → x = p ∨ (s.procs np).parent = some x) :
    Waits ((s.setProc np r).goto p pt) := by
  have hkeep : ∀ q, (((s.setProc np r).goto p pt).procs q).point.holdsWait →
      q ≠ p ∧ (((s.setProc np r).goto p pt).procs q).point = (s.procs q).point := by
    intro q hw
    have hq : q ≠ p := by
      rintro rfl
      simp [State.goto, hpt] at hw
    refine ⟨hq, ?_⟩
    by_cases hqn : q = np
    · subst hqn
      simp only [State.goto, State.setProc_procs, hq, if_false, if_true] at hw ⊢
      exact hr hw
    · simp [State.goto, hq, hqn]
  refine ⟨fun q hw => ?_, fun q he => ?_, fun q x he hx => ?_⟩
  · exact h.held q ((hkeep q hw).2 ▸ hw)
  · exact h.exiting q ((hkeep q (Point.holdsWait_of_exiting he)).2 ▸ he)
  · obtain ⟨hq, hsame⟩ := hkeep q (by simp [he, Point.holdsWait])
    have hold : q = p ∨ (s.procs x).parent = some q := by
      by_cases hxn : x = np
      · subst hxn
        exact hpar q (by by_cases hxp : x = p <;> simpa [State.goto, hxp] using hx)
      · right
        by_cases hxp : x = p <;> by_cases hpn : p = np <;> simp_all [State.goto]
    exact h.orphaned q x (hsame ▸ he) (hold.resolve_left hq)

theorem Waits.stepProcess (h : Waits s) (hs : Sched.stepProcess s c p l = some s') : Waits s' := by
  cases l <;> simp only [Sched.stepProcess, reduceCtorEq] at hs
  case yield | sleep =>
    split_ifs at hs
    cases hs
    exact h.set (fun q => sched_procs s c p q _) ⟨rfl, rfl⟩ rfl rfl
  case forkAlloc np =>
    split_ifs at hs
    cases hs
    have hf := h.fork p np (allocproc (s.procs np) s.nextpid)
      (show (Point.forkAlloc np).holdsWait = false from rfl)
      (by simp [allocproc, Point.holdsWait]) fun x hx => .inr hx
    exact hf.congr (fun _ => rfl) (fun _ => rfl) rfl rfl
  case forkFail =>
    split at hs <;> cases hs
    rename_i np hpt
    have hf := h.fork p np (freeproc (s.procs np)) (show Point.user.holdsWait = false from rfl)
      (by simp [freeproc]) (by simp [freeproc])
    exact hf.congr (fun _ => rfl) (fun _ => rfl) rfl rfl
  case forkRelease =>
    split at hs <;> cases hs
    rename_i np hpt
    have hf := h.fork p np (s.procs np) (show (Point.forkParent np).holdsWait = false from rfl)
      (fun _ => rfl) fun x hx => .inr hx
    refine hf.congr (fun q => ?_) (fun q => ?_) rfl rfl <;>
      by_cases hq : q = p <;> by_cases hqn : q = np <;> by_cases hpn : p = np <;>
        simp_all [State.goto]
  case forkParent =>
    split at hs <;> [skip; cases hs]
    rename_i np hpt
    split_ifs at hs
    cases hs
    exact h.fork _ _ _ rfl (fun _ => rfl) (by simp [eq_comm])
  case forkRunnable =>
    split at hs <;> [skip; cases hs]
    rename_i np hpt
    split_ifs at hs
    cases hs
    exact h.fork _ _ _ rfl (fun _ => rfl) fun x hx => .inr hx
  case exitLock =>
    split_ifs at hs with hg
    cases hs
    exact h.take hg.2.1 (fun _ => hg.2.2) (by simp)
  case exitReparent =>
    split_ifs at hs with hg
    cases hs
    exact h.reparent hg
  case exitZombie =>
    split_ifs at hs with hg
    cases hs
    exact h.leave (p := p) (by simp [hg.1, Point.holdsWait]) (fun q hq => by simp [sched_procs, hq])
      (by simp [sched_procs, Point.holdsWait])
  case waitLock =>
    split_ifs at hs with hg
    cases hs
    exact h.take hg.2 (by simp [Point.exiting]) (by simp)
  case waitScan =>
    split at hs <;> [skip; cases hs]
    rename_i addr i havekids hpt
    exact h.waitScan hpt hs
  case waitRelock =>
    split at hs <;> [skip; cases hs]
    split_ifs at hs with hg
    cases hs
    exact h.take hg (by simp [Point.exiting]) (by simp)

theorem Waits.step (h : Waits s) (hs : Sched.step l s = some s') : Waits s' := by
  unfold Sched.step at hs
  split at hs
  case h_1 c p =>
    split at hs <;> [skip; cases hs]
    split_ifs at hs <;> cases hs
    · exact h.set (fun q => s.setProc_procs p q _) ⟨rfl, rfl⟩ rfl rfl
    · exact h
  case h_2 c =>
    split at hs <;> cases hs
    rename_i p hmode
    exact h.set (fun q => s.setProc_procs p q _) (by split <;> exact ⟨rfl, rfl⟩) rfl rfl
  case h_3 c =>
    split at hs <;> cases hs
    exact h.congr (fun _ => rfl) (fun _ => rfl) rfl rfl
  case h_4 c ch p =>
    split_ifs at hs
    cases hs
    exact h.set (fun q => s.setProc_procs p q _) (by unfold wakeup1; split <;> exact ⟨rfl, rfl⟩) rfl rfl
  case h_5 c pid p =>
    split at hs <;> [skip; cases hs]
    split_ifs at hs
    cases hs
    exact h.set (fun q => s.setProc_procs p q _) (by unfold kill1; split <;> exact ⟨rfl, rfl⟩) rfl rfl
  case h_6 =>
    split at hs <;> [skip; cases hs]
    exact h.stepProcess hs

/-! ### The tree -/

/-- What holds of the process table between any two sections. -/
structure Tree (s : State C) : Prop where
  /-- A free slot has no parent. -/
  free : ∀ q, (s.rows q).kind = .free → (s.rows q).parent = none
  /-- Pids are positive and were handed out. -/
  pid : ∀ q, (s.rows q).kind ≠ .free → 0 < (s.rows q).pid ∧ (s.rows q).pid < s.nextpid
  /-- Pids are distinct. -/
  distinct : ∀ q r, (s.rows q).kind ≠ .free → (s.rows r).kind ≠ .free →
    (s.rows q).pid = (s.rows r).pid → q = r
  /-- A parent is alive. -/
  parent : ∀ q r, (s.rows q).parent = some r → (s.rows r).kind = .live
  /-- The first process is alive. -/
  init : (s.rows s.initproc).kind = .live
  /-- Pids start at 1. -/
  next : 0 < s.nextpid

theorem Tree.step (h : Tree s) (hw : Waits s) (he : Effect s l s')
    (hinit : s'.initproc = s.initproc) : Tree s' := by
  obtain ⟨hfree, hpids, hdist, hpar, hlive, hnext⟩ := h
  cases he with
  | quiet hev hrows hpid => constructor <;> simp only [hrows, hpid, hinit] <;> assumption
  | alloc np hev hnp hrows hpid =>
    have hne : s.initproc ≠ np := by
      rintro rfl
      simp [hnp] at hlive
    constructor <;> simp only [hrows, hpid, hinit, Function.update_apply]
    all_goals grind
  | abort np hev hnew hrows hpid =>
    constructor <;> simp only [hrows, hpid, hinit, Function.update_apply, Row.empty]
    all_goals grind
  | adopt p np hev hnew hp hrows hpid =>
    constructor <;> simp only [hrows, hpid, hinit, Function.update_apply]
    all_goals grind
  | ready np hev hnew hrows hpid =>
    constructor <;> simp only [hrows, hpid, hinit, Function.update_apply]
    all_goals grind
  | reparent p hev hexit hrows hpid =>
    constructor <;> simp only [hrows, hpid, hinit]
    all_goals grind
  | exit p status hev hp hexit hrows hpid =>
    have hne : p ≠ s.initproc := hw.exiting p (by simp [hexit, Point.exiting])
    have horph : ∀ q, (s.rows q).parent ≠ some p := fun q => hw.orphaned p q hexit
    constructor <;> simp only [hrows, hpid, hinit, Function.update_apply]
    all_goals grind
  | reap p np hev hchild hz hlock hrows hpid =>
    constructor <;> simp only [hrows, hpid, hinit, Function.update_apply, Row.empty]
    all_goals grind

/-! ### Exits and reaps -/

/-- The pids and statuses of the calls of `exit`. -/
def exits (es : List Event) : List (ℤ × ℤ) :=
  es.filterMap fun
    | .exited pid status => some (pid, status)
    | _ => none

/-- The pids and statuses that calls of `wait` returned. -/
def reaps (es : List Event) : List (ℤ × ℤ) :=
  es.filterMap fun
    | .waited _ pid status => some (pid, status)
    | _ => none

theorem exits_append (es fs : List Event) : exits (es ++ fs) = exits es ++ exits fs :=
  List.filterMap_append

theorem reaps_append (es fs : List Event) : reaps (es ++ fs) = reaps es ++ reaps fs :=
  List.filterMap_append

theorem Silent.exits (h : Silent s l) : exits (events s l) = [] := by
  refine List.filterMap_eq_nil_iff.mpr fun e he => ?_
  obtain ⟨p, rfl⟩ := h e he
  rfl

theorem Silent.reaps (h : Silent s l) : reaps (events s l) = [] := by
  refine List.filterMap_eq_nil_iff.mpr fun e he => ?_
  obtain ⟨p, rfl⟩ := h e he
  rfl

/-- The record agrees with the table. -/
structure Account (s : State C) (es : List Event) : Prop where
  /-- No pid exits twice. -/
  exit_once : ((exits es).map Prod.fst).Nodup
  /-- Nothing is reaped twice. -/
  reap_once : (reaps es).Nodup
  /-- What is reaped has exited, with that status. -/
  reap_exit : ∀ x ∈ reaps es, x ∈ exits es
  /-- A zombie has exited with its status and has not been reaped. -/
  zombie : ∀ q, (s.rows q).kind = .zombie →
    ((s.rows q).pid, (s.rows q).xstate) ∈ exits es ∧
    ((s.rows q).pid, (s.rows q).xstate) ∉ reaps es
  /-- What has exited and has not been reaped is a zombie with that status. -/
  lost : ∀ x ∈ exits es, x ∉ reaps es →
    ∃ q, (s.rows q).kind = .zombie ∧ (s.rows q).pid = x.1 ∧ (s.rows q).xstate = x.2
  /-- The pids of exited processes were handed out. -/
  old : ∀ x ∈ exits es, x.1 < s.nextpid
  /-- A process that has not exited is not in the record. -/
  live : ∀ q, (s.rows q).kind = .live ∨ (s.rows q).kind = .new →
    (s.rows q).pid ∉ (exits es).map Prod.fst

/-- A section that records nothing and leaves the zombies alone. -/
theorem Account.silent (h : Account s es) (hex : exits fs = []) (hre : reaps fs = [])
    (hz : ∀ q, (s'.rows q).kind = .zombie ↔ (s.rows q).kind = .zombie)
    (hsame : ∀ q, (s.rows q).kind = .zombie →
      (s'.rows q).pid = (s.rows q).pid ∧ (s'.rows q).xstate = (s.rows q).xstate)
    (hlive : ∀ q, (s'.rows q).kind = .live ∨ (s'.rows q).kind = .new →
      (s'.rows q).pid ∉ (exits es).map Prod.fst) (hnext : s.nextpid ≤ s'.nextpid) :
    Account s' (es ++ fs) := by
  have hexits : exits (es ++ fs) = exits es := by rw [exits_append, hex, List.append_nil]
  have hreaps : reaps (es ++ fs) = reaps es := by rw [reaps_append, hre, List.append_nil]
  constructor <;> simp only [hexits, hreaps]
  · exact h.exit_once
  · exact h.reap_once
  · exact h.reap_exit
  · intro q hq
    have hq' := (hz q).mp hq
    rw [(hsame q hq').1, (hsame q hq').2]
    exact h.zombie q hq'
  · intro x hx hnot
    obtain ⟨q, hq, hpid, hst⟩ := h.lost x hx hnot
    exact ⟨q, (hz q).mpr hq, (hsame q hq).1.trans hpid, (hsame q hq).2.trans hst⟩
  · exact fun x hx => (h.old x hx).trans_le hnext
  · exact hlive

/-- `exit` records a new zombie. -/
theorem Account.exit (h : Account s es) (ht : Tree s) {status : ℤ} (hp : (s.rows p).kind = .live)
    (hex : exits fs = [((s.rows p).pid, status)]) (hre : reaps fs = [])
    (hrows : s'.rows = Function.update s.rows p { s.rows p with kind := .zombie, xstate := status })
    (hpid : s'.nextpid = s.nextpid) : Account s' (es ++ fs) := by
  have hexits : exits (es ++ fs) = exits es ++ [((s.rows p).pid, status)] := by
    rw [exits_append, hex]
  have hreaps : reaps (es ++ fs) = reaps es := by rw [reaps_append, hre, List.append_nil]
  have hfresh := h.live p (.inl hp)
  have hrowp : s'.rows p = { s.rows p with kind := .zombie, xstate := status } := by simp [hrows]
  have hrow : ∀ q, q ≠ p → s'.rows q = s.rows q := fun q hq => by simp [hrows, hq]
  constructor <;> simp only [hexits, hreaps, hpid]
  · rw [List.map_append]
    refine List.Nodup.append h.exit_once (by simp) ?_
    simpa using hfresh
  · exact h.reap_once
  · exact fun x hx => List.mem_append_left _ (h.reap_exit x hx)
  · intro q hq
    by_cases hqp : q = p
    · subst hqp
      rw [hrowp]
      refine ⟨by simp, fun hr => hfresh ?_⟩
      exact List.mem_map_of_mem (h.reap_exit _ hr)
    · rw [hrow q hqp] at hq ⊢
      exact ⟨List.mem_append_left _ (h.zombie q hq).1, (h.zombie q hq).2⟩
  · intro x hx hnot
    rcases List.mem_append.mp hx with hold | hnew
    · obtain ⟨q, hq, hqx⟩ := h.lost x hold hnot
      have hqp : q ≠ p := by
        rintro rfl
        simp [hp] at hq
      exact ⟨q, by rwa [hrow q hqp], by rwa [hrow q hqp]⟩
    · obtain rfl : x = _ := by simpa using hnew
      exact ⟨p, by simp [hrowp], by simp [hrowp], by simp [hrowp]⟩
  · intro x hx
    rcases List.mem_append.mp hx with hold | hnew
    · exact h.old x hold
    · obtain rfl : x = _ := by simpa using hnew
      exact (ht.pid p (by simp [hp])).2
  · intro q hq
    by_cases hqp : q = p
    · subst hqp
      simp [hrowp] at hq
    · rw [hrow q hqp] at hq ⊢
      have hne : (s.rows q).pid ≠ (s.rows p).pid := fun he =>
        hqp (ht.distinct q p (by rcases hq with hq | hq <;> simp [hq]) (by simp [hp]) he)
      rw [List.map_append, List.mem_append]
      rintro (hold | hnew)
      · exact h.live q hq hold
      · exact hne (by simpa using hnew)

/-- `wait` records the zombie it frees. -/
theorem Account.reap (h : Account s es) (ht : Tree s) {np : Slot} (hz : (s.rows np).kind = .zombie)
    (hex : exits fs = []) (hre : reaps fs = [((s.rows np).pid, (s.rows np).xstate)])
    (hrows : s'.rows = Function.update s.rows np .empty) (hpid : s'.nextpid = s.nextpid) :
    Account s' (es ++ fs) := by
  have hexits : exits (es ++ fs) = exits es := by rw [exits_append, hex, List.append_nil]
  have hreaps : reaps (es ++ fs) = reaps es ++ [((s.rows np).pid, (s.rows np).xstate)] := by
    rw [reaps_append, hre]
  have hrow : ∀ q, q ≠ np → s'.rows q = s.rows q := fun q hq => by simp [hrows, hq]
  have hrownp : s'.rows np = .empty := by simp [hrows]
  obtain ⟨hin, hout⟩ := h.zombie np hz
  constructor <;> simp only [hexits, hreaps, hpid]
  · exact h.exit_once
  · refine List.Nodup.append h.reap_once (by simp) ?_
    simpa using hout
  · intro x hx
    rcases List.mem_append.mp hx with hold | hnew
    · exact h.reap_exit x hold
    · obtain rfl : x = _ := by simpa using hnew
      exact hin
  · intro q hq
    by_cases hqn : q = np
    · simp [hqn, hrownp, Row.empty] at hq
    · rw [hrow q hqn] at hq ⊢
      refine ⟨(h.zombie q hq).1, ?_⟩
      rw [List.mem_append]
      rintro (hold | hnew)
      · exact (h.zombie q hq).2 hold
      · have hpids := congrArg Prod.fst (List.mem_singleton.mp hnew)
        exact hqn (ht.distinct q np (by simp [hq]) (by simp [hz]) hpids)
  · intro x hx hnot
    rw [List.mem_append, not_or] at hnot
    obtain ⟨q, hq, hqp, hqs⟩ := h.lost x hx hnot.1
    have hqn : q ≠ np := by
      rintro rfl
      exact hnot.2 (by simp [hqp, hqs])
    exact ⟨q, by rwa [hrow q hqn], by rwa [hrow q hqn], by rwa [hrow q hqn]⟩
  · exact h.old
  · intro q hq
    by_cases hqn : q = np
    · simp [hqn, hrownp, Row.empty] at hq
    · rw [hrow q hqn] at hq ⊢
      exact h.live q hq

/-- A section that records nothing and changes one row, which was not a zombie and is none. -/
theorem Account.set (h : Account s es) {np : Slot} {r : Row} (hev : Silent s l)
    (hrows : s'.rows = Function.update s.rows np r) (hold : (s.rows np).kind ≠ .zombie)
    (hnew : r.kind ≠ .zombie)
    (hlive : r.kind = .live ∨ r.kind = .new → r.pid ∉ (exits es).map Prod.fst)
    (hnext : s.nextpid ≤ s'.nextpid) : Account s' (es ++ events s l) := by
  have hnp : s'.rows np = r := by simp [hrows]
  have hrow : ∀ q, q ≠ np → s'.rows q = s.rows q := fun q hq => by simp [hrows, hq]
  refine h.silent hev.exits hev.reaps (fun q => ?_) (fun q hq => ?_) (fun q hq => ?_) hnext
  · by_cases hqn : q = np
    · simp [hqn, hnp, hold, hnew]
    · rw [hrow q hqn]
  · rw [hrow q (by rintro rfl; exact hold hq)]
    exact ⟨rfl, rfl⟩
  · by_cases hqn : q = np
    · rw [hqn, hnp] at hq ⊢
      exact hlive hq
    · rw [hrow q hqn] at hq ⊢
      exact h.live q hq

theorem Account.step (h : Account s es) (ht : Tree s) (he : Effect s l s') :
    Account s' (es ++ events s l) := by
  cases he with
  | quiet hev hrows hpid =>
    exact h.silent hev.exits hev.reaps (by simp [hrows]) (by simp [hrows])
      (by simpa [hrows] using h.live) (by simp [hpid])
  | alloc np hev hnp hrows hpid =>
    refine h.set hev hrows (by simp [hnp]) (by simp) (fun _ hmem => ?_) (by omega)
    obtain ⟨x, hx, hxp⟩ := List.mem_map.mp hmem
    have hlt := h.old x hx
    simp only at hxp
    omega
  | abort np hev hnew hrows hpid =>
    exact h.set hev hrows (by simp [hnew]) (by simp [Row.empty]) (by simp [Row.empty]) hpid.ge
  | adopt p np hev hnew hp hrows hpid =>
    exact h.set hev hrows (by simp [hnew]) (by simp [hnew]) (fun _ => h.live np (.inr hnew)) hpid.ge
  | ready np hev hnew hrows hpid =>
    exact h.set hev hrows (by simp [hnew]) (by simp) (fun _ => h.live np (.inr hnew)) hpid.ge
  | reparent p hev hexit hrows hpid =>
    have hkeep : ∀ q, (s'.rows q).kind = (s.rows q).kind ∧ (s'.rows q).pid = (s.rows q).pid ∧
        (s'.rows q).xstate = (s.rows q).xstate := fun q => by
      by_cases hq : (s.rows q).parent = some p <;> simp [hrows, hq]
    refine h.silent hev.exits hev.reaps (fun q => by rw [(hkeep q).1])
      (fun q _ => (hkeep q).2) (fun q hq => ?_) (by simp [hpid])
    rw [(hkeep q).1] at hq
    rw [(hkeep q).2.1]
    exact h.live q hq
  | exit p status hev hp hexit hrows hpid =>
    exact h.exit ht hp (by simp [hev, exits]) (by simp [hev, reaps]) hrows hpid
  | reap p np hev hchild hz hlock hrows hpid =>
    exact h.reap ht hz (by simp [hev, exits]) (by simp [hev, reaps]) hrows hpid

/-! ### The result -/

/-- The zombie in slot `q` is still there after a step, with its pid and status. Its parent is the
one it had, or the first process if that parent is exiting. -/
def Kept (s s' : State C) (q : Slot) : Prop :=
  (s'.rows q).kind = .zombie ∧ (s'.rows q).pid = (s.rows q).pid ∧
    (s'.rows q).xstate = (s.rows q).xstate ∧
    ((s'.rows q).parent = (s.rows q).parent ∨
      ∃ p, (s.rows q).parent = some p ∧ (s.procs p).point = .exitLocked ∧
        (s'.rows q).parent = some s.initproc)

theorem Kept.of_row {q : Slot} (hq : (s.rows q).kind = .zombie) (h : s'.rows q = s.rows q) :
    Kept s s' q := by
  simp [Kept, h, hq]

/-- A zombie is kept until its parent's `wait` returns its pid and status. -/
theorem Effect.zombie (he : Effect s l s') {q : Slot} (hq : (s.rows q).kind = .zombie) :
    Kept s s' q ∨
      ∃ p, (s.rows q).parent = some p ∧
        events s l = [.waited p (s.rows q).pid (s.rows q).xstate] := by
  have hkeep : ∀ r x, (s.rows r).kind ≠ .zombie → s'.rows = Function.update s.rows r x →
      Kept s s' q := by
    intro r x hr hrows
    have hne : q ≠ r := by
      rintro rfl
      exact hr hq
    exact .of_row hq (by rw [hrows, Function.update_of_ne hne])
  cases he with
  | quiet hev hrows hpid => exact .inl (.of_row hq (by rw [hrows]))
  | alloc np hev hnp hrows hpid => exact .inl (hkeep np _ (by simp [hnp]) hrows)
  | abort np hev hnew hrows hpid => exact .inl (hkeep np _ (by simp [hnew]) hrows)
  | adopt p np hev hnew hp hrows hpid => exact .inl (hkeep np _ (by simp [hnew]) hrows)
  | ready np hev hnew hrows hpid => exact .inl (hkeep np _ (by simp [hnew]) hrows)
  | reparent p hev hexit hrows hpid =>
    by_cases hp : (s.rows q).parent = some p
    · left
      simp [Kept, hrows, hp, hq, hexit]
    · exact .inl (.of_row hq (by simp [hrows, hp]))
  | exit p status hev hp hexit hrows hpid => exact .inl (hkeep p _ (by simp [hp]) hrows)
  | reap p np hev hchild hz hlock hrows hpid =>
    by_cases hqn : q = np
    · subst hqn
      exact .inr ⟨p, hchild, hev⟩
    · exact .inl (.of_row hq (by rw [hrows, Function.update_of_ne hqn]))

/-- A `wait` whose `copyout` fails returns -1 and leaves the table alone, the zombie included. -/
theorem rows_of_copyout_fails {np : Slot} (hmode : (s.cpus c).mode = .process p)
    (hpt : (s.procs p).point = .waitScan addr np havekids) (hparent : (s.procs np).parent = some p)
    (hz : (s.procs np).state = .zombie) (haddr : addr ≠ 0)
    (hs : step (.waitScan c false) s = some s') :
    events s (.waitScan c false) = [.failed p] ∧ s'.rows = s.rows := by
  constructor
  · simp [events, hmode, hpt, waitEvents, hparent, hz, haddr]
  · have hscan : waitScan s c p addr np havekids false = some s' := by
      simpa [step, Label.cpu, hmode, stepProcess, hpt] using hs
    simp only [waitScan, np.isLt, dif_pos, Fin.eta, hparent, hz, if_true] at hscan
    split_ifs at hscan with hfree hcopy
    · cases hscan
      exact State.rows_goto s p _
    · simp [haddr] at hcopy

/-- The process tree and the accounting of exits in one state of a run, with the record of the calls
made so far. -/
structure ReapedOnce (s : State C) (es : List Event) : Prop where
  /-- A parent is neither `UNUSED` nor `ZOMBIE`. -/
  parent : s.waitLock = none → ∀ q r, (s.procs q).parent = some r →
    (s.procs r).state ≠ .unused ∧ (s.procs r).state ≠ .zombie
  /-- Pids are positive. -/
  pid_pos : ∀ q, (s.procs q).state ≠ .unused → 0 < (s.procs q).pid
  /-- Pids are distinct. -/
  pid_inj : ∀ q r, (s.procs q).state ≠ .unused → (s.procs r).state ≠ .unused →
    (s.procs q).pid = (s.procs r).pid → q = r
  /-- A pid exits at most once. -/
  exit_once : ((exits es).map Prod.fst).Nodup
  /-- It is returned by at most one `wait`. -/
  reap_once : ((reaps es).map Prod.fst).Nodup
  /-- What `wait` returned had exited, with that status. -/
  reap_exit : ∀ x ∈ reaps es, x ∈ exits es
  /-- What exited has been returned, or it is a zombie with its status. -/
  zombie : ∀ pid status, (pid, status) ∈ exits es ∧ (pid, status) ∉ reaps es ↔
    ∃ q, (s.procs q).state = .zombie ∧ (s.procs q).pid = pid ∧ (s.procs q).xstate = status
  /-- A step keeps a zombie, or is the `wait` by its parent that returns it. -/
  kept : ∀ q l s', (system C).step s l s' → (s.procs q).state = .zombie → Kept s s' q ∨
    ∃ p, (s.procs q).parent = some p ∧
      events s l = [.waited p (s.procs q).pid (s.procs q).xstate]
  /-- A `wait` whose `copyout` fails returns -1 and changes no row. -/
  failed : ∀ c p np addr havekids s', (s.cpus c).mode = .process p →
    (s.procs p).point = .waitScan addr (np : Slot) havekids → (s.procs np).parent = some p →
    (s.procs np).state = .zombie → addr ≠ 0 → (system C).step s (.waitScan c false) s' →
    events s (.waitScan c false) = [.failed p] ∧ s'.rows = s.rows

theorem kind_zombie_iff (s : State C) (q : Slot) :
    (s.rows q).kind = .zombie ↔ (s.procs q).state = .zombie := by
  cases h : (s.procs q).state <;> simp [State.rows, Proc.row, h, kindOf]

/-- Statuses are determined by pids, so that a list of exits without repetition is one of pids. -/
theorem Account.reap_pids (h : Account s es) : ((reaps es).map Prod.fst).Nodup := by
  refine h.reap_once.map_on fun x hx y hy hxy => ?_
  exact List.inj_on_of_nodup_map h.exit_once (h.reap_exit x hx) (h.reap_exit y hy) hxy

theorem ReapedOnce.of_inv (hi : Inv s) (ht : Tree s) (ha : Account s es) :
    ReapedOnce s es where
  parent _ q r hr := by
    have hlive := ht.parent q r hr
    rw [ne_eq, ne_eq, ← kind_free_iff, ← kind_zombie_iff, hlive]
    simp
  pid_pos q hq := (ht.pid q (by rwa [ne_eq, kind_free_iff])).1
  pid_inj q r hq hr := ht.distinct q r (by rwa [ne_eq, kind_free_iff])
    (by rwa [ne_eq, kind_free_iff])
  exit_once := ha.exit_once
  reap_once := ha.reap_pids
  reap_exit := ha.reap_exit
  zombie pid status := by
    constructor
    · rintro ⟨hin, hout⟩
      obtain ⟨q, hq, hpid, hst⟩ := ha.lost _ hin hout
      exact ⟨q, (kind_zombie_iff s q).mp hq, hpid, hst⟩
    · rintro ⟨q, hq, rfl, rfl⟩
      exact ha.zombie q ((kind_zombie_iff s q).mpr hq)
  kept q _ _ hs hq := (Effect.of_step hi hs).1.zombie ((kind_zombie_iff s q).mpr hq)
  failed _ _ _ _ _ _ hmode hpt hparent hz haddr hs :=
    rows_of_copyout_fails hmode hpt hparent hz haddr hs

theorem waits_boot (p : Slot) : Waits (boot C p) := by
  constructor <;> simp [boot, Point.holdsWait, Point.exiting]

theorem tree_boot (p : Slot) : Tree (boot C p) := by
  have hkind : ∀ q, ((boot C p).rows q).kind = if q = p then .live else .free := by
    intro q
    by_cases hq : q = p <;> simp [State.rows, boot, Proc.row, hq, kindOf]
  have hpid : ∀ q, ((boot C p).rows q).kind ≠ .free → q = p := by
    intro q hq
    by_contra hne
    exact hq (by rw [hkind, if_neg hne])
  constructor
  · intro q _
    rfl
  · intro q hq
    obtain rfl := hpid q hq
    simp [State.rows, boot, Proc.row]
  · intro q r hq hr _
    rw [hpid q hq, hpid r hr]
  · intro q r hr
    simp [State.rows, boot, Proc.row] at hr
  · exact (hkind p).trans (if_pos rfl)
  · simp [boot]

theorem account_boot (p : Slot) : Account (boot C p) [] := by
  constructor <;> try simp [exits, reaps]
  intro q
  by_cases hq : q = p <;> simp [State.rows, boot, Proc.row, hq, kindOf]

theorem account_reach {x : State C × List Event} (h : ((system C).record events).Reach x) :
    Waits x.1 ∧ Tree x.1 ∧ Account x.1 x.2 := by
  refine Lib.Lts.Reach.induct (I := fun x => Waits x.1 ∧ Tree x.1 ∧ Account x.1 x.2) ?_ ?_ h
  · rintro ⟨s, es⟩ ⟨⟨p, rfl⟩, rfl⟩
    exact ⟨waits_boot p, tree_boot p, account_boot p⟩
  · rintro ⟨s, es⟩ l ⟨s', es'⟩ hr ⟨hw, ht, ha⟩ ⟨hs, rfl⟩
    obtain ⟨he, hinit⟩ := Effect.of_step (inv_reach hr.of_record) hs
    exact ⟨hw.step hs, ht.step hw he hinit, ha.step ht he⟩

/-- **The process tree and exactly-once reaping.** For any set of CPUs and any interleaving of the
sections of `fork`, `exit`, `wait` and `reparent`: while `wait_lock` is free a parent is neither
`UNUSED` nor `ZOMBIE`; the pids in the table are positive and distinct; what exits stays a zombie
with its status until its parent's `wait` returns both, which happens at most once; and a `wait`
whose `copyout` fails returns -1 and leaves the zombie in the table. Pids are taken from `ℤ`, that
is, `nextpid` has not overflowed. -/
theorem exits_reaped_once {x : State C × List Event} (h : ((system C).record events).Reach x) :
    ReapedOnce x.1 x.2 := by
  obtain ⟨-, ht, ha⟩ := account_reach h
  exact .of_inv (inv_reach h.of_record) ht ha

/-- A run in which the first process forks, the child exits with status 7 and is reaped. -/
def forkExitWait : List (Label Unit) :=
  [.dispatch () ⟨0, NPROC_pos⟩, .resume (), .forkAlloc () ⟨1, one_lt_NPROC⟩, .forkRelease (),
    .forkParent (), .forkRunnable (), .yield (), .park (), .dispatch () ⟨1, one_lt_NPROC⟩, .resume (),
    .exitLock (), .exitReparent (), .exitZombie () 7, .park (), .dispatch () ⟨0, NPROC_pos⟩,
    .resume (), .waitLock () 4096, .waitScan () true, .waitScan () false, .waitLock () 4096,
    .waitScan () true, .waitScan () true]

/-- The child is reported by the second `wait`, the first one having failed in `copyout`. -/
theorem exits_reaped_once_second_wait : ∃ x, ((system Unit).record events).Reach x ∧
    x.2 = [.exited 2 7, .failed ⟨0, by decide⟩, .waited ⟨0, by decide⟩ 2 7] ∧
    ReapedOnce x.1 x.2 := by
  have hevents : (Lib.Lts.runRecord step events forkExitWait (boot Unit ⟨0, by decide⟩, [])).map Prod.snd =
      some [.exited 2 7, .failed ⟨0, by decide⟩, .waited ⟨0, by decide⟩ 2 7] := by decide +kernel
  obtain ⟨x, hrun, hx⟩ := Option.map_eq_some_iff.mp hevents
  have hreach : ((system Unit).record events).Reach x :=
    Lib.Lts.Reach.runRecord (.init ⟨⟨_, rfl⟩, rfl⟩) (fun _ _ _ _ hs => hs) hrun
  exact ⟨x, hreach, hx, exits_reaped_once hreach⟩

end Xv6.Sched
