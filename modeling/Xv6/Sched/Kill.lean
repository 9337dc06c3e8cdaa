import Xv6.Sched.Tree

/-!
# `kill` and the slots of the process table

`kill` searches all slots of the table for a pid, those that are not in use as well. `Mark` says what a
section can do to the state, the pid and the flag of one slot. An unused slot has pid 0, so that a pid
other than 0 is found only in a slot in use; and if `kill` is never called with pid 0, a process that
`fork` creates is killed only by a call of `kill` with its own pid.

With pid 0 `kill` finds the first unused slot, and the next process to get that slot starts killed:
`allocproc` does not clear the flag.
-/

set_option linter.unusedSectionVars false

namespace Xv6.Sched

variable {C : Type} [DecidableEq C] {s s' : State C} {l : Label C} {p q : Slot} {r r' : Proc}

/-! ### The whole of `kill` -/

/-- The loop of `kill(pid)` over some slots: its result, and the table. Source: `proc.c` `kill`. -/
def killFrom (pid : ℤ) : List Slot → (Slot → Proc) → ℤ × (Slot → Proc)
  | [], procs => (-1, procs)
  | p :: ps, procs =>
    if (procs p).pid = pid then (0, Function.update procs p (kill1 (procs p) pid))
    else killFrom pid ps procs

/-- `kill(pid)`, if nothing happens in between. Source: `proc.c` `kill`, `sysproc.c` `sys_kill`. -/
def kill (pid : ℤ) (procs : Slot → Proc) : ℤ × (Slot → Proc) :=
  killFrom pid (List.finRange NPROC) procs

/-- The loop finds the first slot with the pid. -/
theorem killFrom_cases (pid : ℤ) (ps : List Slot) (procs : Slot → Proc) :
    (∃ p ∈ ps, (procs p).pid = pid ∧
      killFrom pid ps procs = (0, Function.update procs p (kill1 (procs p) pid))) ∨
    (∀ p ∈ ps, (procs p).pid ≠ pid) ∧ killFrom pid ps procs = (-1, procs) := by
  induction ps with
  | nil => exact .inr ⟨by simp, rfl⟩
  | cons p ps ih =>
    unfold killFrom
    by_cases hp : (procs p).pid = pid
    · rw [if_pos hp]
      exact .inl ⟨p, List.mem_cons_self, hp, rfl⟩
    · rw [if_neg hp]
      rcases ih with ⟨q, hq, hpid, heq⟩ | ⟨hnone, heq⟩
      · exact .inl ⟨q, List.mem_cons_of_mem p hq, hpid, heq⟩
      · exact .inr ⟨by simpa [hp] using hnone, heq⟩

/-- What `kill(pid)` does to a table: it returns 0 if a process in use has that pid, and then only that
process is marked; otherwise it returns -1, and nothing changes. -/
structure KillsOnly (pid : ℤ) (procs : Slot → Proc) : Prop where
  found : (kill pid procs).1 = 0 ↔ ∃ p, (procs p).state ≠ .unused ∧ (procs p).pid = pid
  marks : (kill pid procs).1 = 0 → ∃ p, (procs p).state ≠ .unused ∧ (procs p).pid = pid ∧
    (kill pid procs).2 = Function.update procs p { procs p with
      killed := true
      state := if (procs p).state = .sleeping then .runnable else (procs p).state }
  fails : (kill pid procs).1 ≠ 0 → kill pid procs = (-1, procs)

/-- If unused slots have pid 0, any other pid is found in a slot in use. -/
theorem KillsOnly.of_idle {procs : Slot → Proc} {pid : ℤ} (hpid : pid ≠ 0)
    (hidle : ∀ p, (procs p).state = .unused → (procs p).pid = 0) : KillsOnly pid procs := by
  have hused : ∀ p, (procs p).pid = pid → (procs p).state ≠ .unused := by
    intro p hp hs
    exact hpid (hp.symm.trans (hidle p hs))
  rcases killFrom_cases pid (List.finRange NPROC) procs with ⟨p, -, hp, heq⟩ | ⟨hnone, heq⟩
  · have h0 : (kill pid procs).1 = 0 := by rw [kill, heq]
    refine ⟨⟨fun _ => ⟨p, hused p hp, hp⟩, fun _ => h0⟩, fun _ => ⟨p, hused p hp, hp, ?_⟩,
      fun h => absurd h0 h⟩
    rw [kill, heq, kill1, if_pos hp]
  · have h1 : kill pid procs = (-1, procs) := heq
    have hno : ¬ ∃ p, (procs p).state ≠ .unused ∧ (procs p).pid = pid := by
      rintro ⟨p, -, hp⟩
      exact hnone p (List.mem_finRange p) hp
    refine ⟨⟨fun h => ?_, fun h => absurd h hno⟩, fun h => ?_, fun _ => h1⟩
    · rw [h1] at h
      cases h
    · rw [h1] at h
      cases h

/-! ### What a section does to one slot -/

/-- The changes of a slot, as far as `kill` is concerned. -/
inductive Mark (s : State C) (l : Label C) (q : Slot) (r : Proc) : Prop
  /-- Nothing. -/
  | same (hidle : r.state = .unused ↔ (s.procs q).state = .unused)
      (hpid : r.pid = (s.procs q).pid) (hkilled : r.killed = (s.procs q).killed)
  /-- `allocproc` takes the slot, and leaves `p->killed`. -/
  | alloc (hfree : (s.procs q).state = .unused) (hused : r.state ≠ .unused)
      (hkilled : r.killed = (s.procs q).killed)
  /-- `freeproc`. -/
  | free (hidle : r.state = .unused) (hpid : r.pid = 0) (hkilled : r.killed = false)
  /-- `kill` with the pid of the slot. -/
  | kill (c : C) (hl : l = .kill c (s.procs q).pid q)
      (hidle : r.state = .unused ↔ (s.procs q).state = .unused)
      (hpid : r.pid = (s.procs q).pid)

theorem Mark.congr (h : Mark s l q r) (hstate : r'.state = r.state) (hpid : r'.pid = r.pid)
    (hkilled : r'.killed = r.killed) : Mark s l q r' := by
  cases h with
  | same h1 h2 h3 => exact .same (by rw [hstate, h1]) (hpid.trans h2) (hkilled.trans h3)
  | alloc h1 h2 h3 => exact .alloc h1 (by rwa [hstate]) (hkilled.trans h3)
  | free h1 h2 h3 => exact .free (hstate.trans h1) (hpid.trans h2) (hkilled.trans h3)
  | kill c h1 h2 h3 => exact .kill c h1 (by rw [hstate, h2]) (hpid.trans h3)

theorem Mark.refl (q : Slot) : Mark s l q (s.procs q) := .same Iff.rfl rfl rfl

theorem Mark.update (h : Mark s l p r) (q : Slot) :
    Mark s l q (Function.update s.procs p r q) := by
  by_cases hq : q = p
  · subst hq
    simpa using h
  · simpa [hq] using Mark.refl q

theorem Mark.goto {s₁ : State C} (h : ∀ q, Mark s l q (s₁.procs q)) (p : Slot) (pt : Point)
    (q : Slot) : Mark s l q ((s₁.goto p pt).procs q) := by
  by_cases hq : q = p
  · subst hq
    exact (h q).congr (by simp [State.goto, State.setProc]) (by simp [State.goto, State.setProc])
      (by simp [State.goto, State.setProc])
  · simpa [State.goto, State.setProc, hq] using h q

/-- A process in use changes its state to another that is in use. -/
theorem Mark.of_state (hold : (s.procs q).state ≠ .unused) (hnew : r.state ≠ .unused)
    (hpid : r.pid = (s.procs q).pid) (hkilled : r.killed = (s.procs q).killed) : Mark s l q r :=
  .same ⟨fun h => absurd h hnew, fun h => absurd h hold⟩ hpid hkilled

theorem Mark.freed (s : State C) (l : Label C) (q : Slot) :
    Mark s l q (freeproc (s.procs q)) := .free rfl rfl rfl

theorem Mark.of_waitScan (h : Inv s) {c : C} {addr i : ℕ} {havekids copied : Bool}
    (hmode : (s.cpus c).mode = .process p) (hs : waitScan s c p addr i havekids copied = some s')
    (q : Slot) : Mark s l q (s'.procs q) := by
  have hrun := h.process c p hmode
  simp only [waitScan] at hs
  split at hs
  · split_ifs at hs
    · cases hs
      exact .goto .refl p _ q
    · cases hs
      exact .goto (Mark.freed s l _).update p _ q
    · cases hs
      exact .goto .refl p _ q
    · cases hs
      exact .goto .refl p _ q
  · split_ifs at hs
    · cases hs
      exact .goto .refl p _ q
    · cases hs
      refine Mark.update ?_ q
      exact .of_state (by simp [hrun]) (by simp) rfl rfl

theorem Mark.of_stepProcess (h : Inv s) (hmode : (s.cpus l.cpu).mode = .process p)
    (hs : stepProcess s l.cpu p l = some s') (q : Slot) : Mark s l q (s'.procs q) := by
  have hrun := h.process _ p hmode
  have hlive : (s.procs p).state ≠ .unused := by simp [hrun]
  have hnew : ∀ np, (s.procs p).point.creating = some np → (s.procs np).state ≠ .unused := by
    intro np hnp
    simp [(h.creating p np hnp).1]
  cases l <;> simp only [stepProcess, reduceCtorEq] at hs
  case yield c | sleep c ch =>
    split_ifs at hs
    cases hs
    refine Mark.update ?_ q
    exact .of_state hlive (by simp) rfl rfl
  case forkAlloc c np =>
    split_ifs at hs with hg
    cases hs
    refine .goto (Mark.update ?_) p _ q
    exact .alloc hg.2.2 (by simp [allocproc]) rfl
  case forkFail c =>
    split at hs <;> cases hs
    exact .goto (Mark.freed s _ _).update p _ q
  case forkRelease c =>
    split at hs <;> cases hs
    exact .goto .refl p _ q
  case forkParent c =>
    split at hs <;> [skip; cases hs]
    split_ifs at hs
    cases hs
    refine .goto (Mark.update ?_) p _ q
    exact .same Iff.rfl rfl rfl
  case forkRunnable c =>
    split at hs <;> [skip; cases hs]
    rename_i np hpt
    split_ifs at hs
    cases hs
    refine .goto (Mark.update ?_) p _ q
    exact .of_state (hnew np (by simp [hpt, Point.creating])) (by simp) rfl rfl
  case exitLock c | waitLock c addr =>
    split_ifs at hs
    cases hs
    exact .goto .refl p _ q
  case exitReparent c =>
    split_ifs at hs
    cases hs
    refine .goto (fun q => ?_) p _ q
    simp only [Sched.reparent]
    split
    · exact .same Iff.rfl rfl rfl
    · exact .refl q
  case exitZombie c status =>
    split_ifs at hs
    cases hs
    refine Mark.update ?_ q
    exact .of_state hlive (by simp) rfl rfl
  case waitScan c copied =>
    split at hs <;> [skip; cases hs]
    exact .of_waitScan h hmode hs q
  case waitRelock c =>
    split at hs <;> [skip; cases hs]
    split_ifs at hs
    cases hs
    exact .goto .refl p _ q

/-- Every section changes a slot in one of these ways. -/
theorem Mark.of_step (h : Inv s) (hs : step l s = some s') (q : Slot) : Mark s l q (s'.procs q) := by
  unfold step at hs
  split at hs
  case h_1 c p =>
    split at hs <;> [skip; cases hs]
    split_ifs at hs with hfree hst
    · cases hs
      refine Mark.update ?_ q
      exact .of_state (by simp [hst]) (by simp) rfl rfl
    · cases hs
      exact .refl q
  case h_2 c =>
    split at hs <;> cases hs
    refine Mark.update ?_ q
    split
    · exact .same Iff.rfl rfl rfl
    · exact .refl _
  case h_3 c =>
    split at hs <;> cases hs
    exact .refl q
  case h_4 c ch p =>
    split_ifs at hs
    cases hs
    refine Mark.update ?_ q
    unfold wakeup1
    split
    · rename_i hsleep
      exact .of_state (by simp [hsleep.1]) (by simp) rfl rfl
    · exact .refl p
  case h_5 c pid p =>
    split at hs <;> [skip; cases hs]
    split_ifs at hs
    cases hs
    refine Mark.update ?_ q
    unfold kill1
    split
    · rename_i hpid
      refine .kill c (by rw [hpid]) ?_ rfl
      dsimp only
      split
      · rename_i hsl
        simp [hsl]
      · rfl
    · exact .refl p
  case h_6 =>
    split at hs <;> [skip; cases hs]
    rename_i hmode
    exact .of_stepProcess h hmode hs q

/-! ### Runs -/

theorem pid_of_unused (h : (system C).Reach s) :
    ∀ q, (s.procs q).state = .unused → (s.procs q).pid = 0 := by
  refine Lib.Lts.Reach.induct (I := fun s => ∀ q, (s.procs q).state = .unused → (s.procs q).pid = 0)
    ?_ ?_ h
  · rintro s ⟨p, rfl⟩ q hq
    by_cases hqp : q = p <;> simp_all [boot]
  · intro s l s' hr ih hs q hq
    cases Mark.of_step (inv_reach hr) hs q with
    | same hidle hpid _ => exact hpid.trans (ih q (hidle.mp hq))
    | alloc _ hused _ => exact absurd hq hused
    | free _ hpid _ => exact hpid
    | kill c _ hidle hpid => exact hpid.trans (ih q (hidle.mp hq))

/-- The pids with which `kill` is called. -/
def killEvents (_ : State C) : Label C → List ℤ
  | .kill _ pid _ => [pid]
  | _ => []

/-- `kill` is not called with pid 0. -/
def NotZero (l : Label C) : Prop := ∀ c q, l ≠ .kill c 0 q

/-- The flag of a slot is explained by the calls of `kill`. -/
structure Flags (s : State C) (pids : List ℤ) : Prop where
  /-- An unused slot is not marked. -/
  idle : ∀ q, (s.procs q).state = .unused → (s.procs q).killed = false
  /-- A process is marked only if `kill` was called with its pid. -/
  called : ∀ q, (s.procs q).killed → (s.procs q).pid ∈ pids

theorem Flags.step {pids : List ℤ} (hf : Flags s pids) (hr : (system C).Reach s) (hz : NotZero l)
    (hs : Sched.step l s = some s') : Flags s' (pids ++ killEvents s l) := by
  refine ⟨fun q hq => ?_, fun q hk => ?_⟩
  · cases Mark.of_step (inv_reach hr) hs q with
    | same hidle _ hkilled => exact hkilled.trans (hf.idle q (hidle.mp hq))
    | alloc _ hused _ => exact absurd hq hused
    | free _ _ hkilled => exact hkilled
    | kill c hl hidle _ =>
      -- only a pid other than 0 is looked for, and an unused slot has pid 0
      rw [pid_of_unused hr q (hidle.mp hq)] at hl
      exact absurd hl (hz c q)
  · cases Mark.of_step (inv_reach hr) hs q with
    | same _ hpid hkilled =>
      rw [hpid]
      exact List.mem_append_left _ (hf.called q (hkilled ▸ hk))
    | alloc hfree _ hkilled =>
      rw [hkilled, hf.idle q hfree] at hk
      cases hk
    | free _ _ hkilled =>
      rw [hkilled] at hk
      cases hk
    | kill c hl _ hpid =>
      rw [hpid, hl]
      simp [killEvents]

theorem flags_boot (p : Slot) : Flags (boot C p) [] := ⟨fun _ _ => rfl, fun _ h => by cases h⟩

/-- The system in which `kill` is never called with pid 0, with a record of the pids. -/
def killSystem (C : Type) [DecidableEq C] : Lib.Lts (State C × List ℤ) (Label C) :=
  ((system C).restrict fun _ l => NotZero l).record killEvents

theorem flags_reach {x : State C × List ℤ} (h : (killSystem C).Reach x) :
    (system C).Reach x.1 ∧ Flags x.1 x.2 := by
  refine Lib.Lts.Reach.induct (I := fun x => (system C).Reach x.1 ∧ Flags x.1 x.2) ?_ ?_ h
  · rintro ⟨s, pids⟩ ⟨⟨p, rfl⟩, rfl⟩
    exact ⟨.init ⟨p, rfl⟩, flags_boot p⟩
  · rintro ⟨s, pids⟩ l ⟨s', pids'⟩ - ⟨hr, hf⟩ ⟨⟨hz, hs⟩, rfl⟩
    exact ⟨hr.step hs, hf.step hr hz hs⟩

/-- **`kill` affects only live processes**, if its pid is not 0. On every reachable process table it
returns 0 iff a process in use has the pid, marks only that process, and otherwise returns -1 and
changes nothing. And if it is never called with pid 0, every process that `fork` creates starts
unmarked, unless `kill` was called with its own pid. -/
theorem kill_affects_live_only :
    (∀ s, (system C).Reach s → ∀ pid, pid ≠ 0 → KillsOnly pid s.procs) ∧
    ∀ x, (killSystem C).Reach x → ∀ c p np s', (x.1.cpus c).mode = .process p →
      (x.1.procs p).point = .forkRunnable np → step (.forkRunnable c) x.1 = some s' →
      (s'.procs np).killed = false ∨ (s'.procs np).pid ∈ x.2 := by
  refine ⟨fun s hr pid hpid => .of_idle hpid (pid_of_unused hr), ?_⟩
  intro x hx c p np s' _ _ hs
  obtain ⟨hr, hf⟩ := flags_reach hx
  have hz : NotZero (.forkRunnable c : Label C) := fun _ _ h => by cases h
  have hf' := hf.step hr hz hs
  have hev : killEvents x.1 (.forkRunnable c) = [] := rfl
  rw [hev, List.append_nil] at hf'
  cases hk : (s'.procs np).killed with
  | false => exact .inl rfl
  | true => exact .inr (hf'.called np hk)

/-- The first process forks and kills its child before the child runs. -/
def killChild : List (Label Unit) :=
  [.dispatch () ⟨0, NPROC_pos⟩, .resume (), .forkAlloc () ⟨1, one_lt_NPROC⟩, .forkRelease (),
    .kill () 2 ⟨0, NPROC_pos⟩, .kill () 2 ⟨1, one_lt_NPROC⟩, .forkParent ()]

/-- A pid that nobody has is not found at the start, and a child that starts marked was killed. -/
theorem kill_affects_live_only_child :
    KillsOnly 7 (boot Unit ⟨0, by decide⟩).procs ∧
    ∃ x s', (killSystem Unit).Reach x ∧ step (.forkRunnable ()) x.1 = some s' ∧
      (s'.procs ⟨1, by decide⟩).killed = true ∧
      ((s'.procs ⟨1, by decide⟩).killed = false ∨ (s'.procs ⟨1, by decide⟩).pid ∈ x.2) := by
  refine ⟨kill_affects_live_only.1 _ (.init ⟨_, rfl⟩) 7 (by decide), ?_⟩
  obtain ⟨x, hrun, hmode, hpt⟩ : ∃ x, Lib.Lts.runRecord step killEvents killChild
      (boot Unit ⟨0, by decide⟩, []) = some x ∧ (x.1.cpus ()).mode = .process ⟨0, by decide⟩ ∧
      (x.1.procs ⟨0, by decide⟩).point = .forkRunnable ⟨1, by decide⟩ :=
    ⟨_, rfl, by decide +kernel, by decide +kernel⟩
  obtain ⟨s', hs', hk⟩ : ∃ s', step (.forkRunnable ()) x.1 = some s' ∧
      (s'.procs ⟨1, by decide⟩).killed = true := by
    cases hrun
    exact ⟨_, rfl, by decide +kernel⟩
  have hx : (killSystem Unit).Reach x := by
    refine Lib.Lts.Reach.runRecord (.init ⟨⟨_, rfl⟩, rfl⟩) (fun l hl _ _ hs => ⟨?_, hs⟩) hrun
    rintro c q rfl
    simp [killChild] at hl
  exact ⟨x, s', hx, hs', hk, kill_affects_live_only.2 x hx () _ _ s' hmode hpt hs'⟩

/-- The first process calls `kill(0)`, which finds the unused slot 1, and then forks. -/
def killZero : List (Label Unit) :=
  [.dispatch () ⟨0, NPROC_pos⟩, .resume (), .kill () 0 ⟨0, NPROC_pos⟩, .kill () 0 ⟨1, one_lt_NPROC⟩,
    .forkAlloc () ⟨1, one_lt_NPROC⟩, .forkRelease (), .forkParent ()]

/-- `kill(0)` returns 0 although no process has pid 0, and the child of a later `fork` starts killed
although `kill` was never called with its pid. -/
theorem kill_zero_marks_unused :
    ((kill 0 (boot Unit ⟨0, by decide⟩).procs).1 = 0 ∧
      ¬ ∃ p, ((boot Unit ⟨0, by decide⟩).procs p).state ≠ .unused ∧
        ((boot Unit ⟨0, by decide⟩).procs p).pid = 0) ∧
    ∃ x s', ((system Unit).record killEvents).Reach x ∧ step (.forkRunnable ()) x.1 = some s' ∧
      (s'.procs ⟨1, by decide⟩).state = .runnable ∧ (s'.procs ⟨1, by decide⟩).killed = true ∧
      (s'.procs ⟨1, by decide⟩).pid ∉ x.2 := by
  refine ⟨⟨by decide +kernel, by decide +kernel⟩, ?_⟩
  obtain ⟨x, hrun⟩ : ∃ x, Lib.Lts.runRecord step killEvents killZero
      (boot Unit ⟨0, by decide⟩, []) = some x := ⟨_, rfl⟩
  have hx : ((system Unit).record killEvents).Reach x :=
    Lib.Lts.Reach.runRecord (.init ⟨⟨_, rfl⟩, rfl⟩) (fun _ _ _ _ hs => hs) hrun
  cases hrun
  exact ⟨_, _, hx, rfl, by decide +kernel, by decide +kernel, by decide +kernel⟩

end Xv6.Sched
