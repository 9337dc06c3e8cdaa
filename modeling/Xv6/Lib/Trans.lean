import Mathlib.Logic.Function.Basic
import Mathlib.Order.Notation

/-!
# Labelled transition systems and their invariants

A system is a set of initial states with a labelled step relation. `Reach` is the set of states a
run can visit, and `Reach.induct` the one rule every safety result of the development goes through:
what holds initially and survives each step holds in every reachable state. `Lts.restrict` keeps
only the steps that meet a condition on the state they start in, so that a result about the runs
that avoid a defect is again a result about reachable states.
-/

namespace Xv6.Lib

/-- A labelled transition system. -/
structure Lts (σ ℓ : Type*) where
  /-- The states a run may start in. -/
  init : σ → Prop
  /-- `step s l s'`: the step labelled `l` leads from `s` to `s'`. -/
  step : σ → ℓ → σ → Prop

namespace Lts

variable {σ τ ℓ κ : Type*}

/-- The states some run visits. -/
inductive Reach (M : Lts σ ℓ) : σ → Prop
  | init {s : σ} : M.init s → Reach M s
  | step {s s' : σ} {l : ℓ} : Reach M s → M.step s l s' → Reach M s'

/-- The invariant rule: an initial property that every step preserves holds in every reachable
state. The step may use that its source is reachable. -/
theorem Reach.induct {M : Lts σ ℓ} {I : σ → Prop} (hinit : ∀ s, M.init s → I s)
    (hstep : ∀ s l s', M.Reach s → I s → M.step s l s' → I s') {s : σ} (h : M.Reach s) : I s := by
  induction h with
  | init h0 => exact hinit _ h0
  | step hr hs ih => exact hstep _ _ _ hr ih hs

/-- The system whose steps are those of `M` that meet the condition `G` on their source state. -/
def restrict (M : Lts σ ℓ) (G : σ → ℓ → Prop) : Lts σ ℓ where
  init := M.init
  step s l s' := G s l ∧ M.step s l s'

variable {M : Lts σ ℓ} {s : σ} {obs : σ → ℓ → List κ} {x : σ × List κ} {init : σ → Prop}
  {next : ℓ → σ → Option σ} {G : σ → ℓ → Prop} {ls : List ℓ}

/-- The system together with the list of events its steps have made so far. -/
def record (M : Lts σ ℓ) (obs : σ → ℓ → List κ) : Lts (σ × List κ) ℓ where
  init x := M.init x.1 ∧ x.2 = []
  step x l y := M.step x.1 l y.1 ∧ y.2 = x.2 ++ obs x.1 l

/-- Recording events does not change what is reachable. -/
theorem Reach.of_record (h : (M.record obs).Reach x) : M.Reach x.1 := by
  induction h with
  | init h0 => exact .init h0.1
  | step _ hs ih => exact ih.step hs.1

/-- The simulation rule: if every step of `M` is matched, with the same label and the same events, by a
step of `N` between related states, then every run of `M` is one of `N` with the same events. -/
theorem Reach.simulate {N : Lts τ ℓ} {R : σ → τ → Prop} {obs' : τ → ℓ → List κ}
    (hinit : ∀ s, M.init s → ∃ t, N.init t ∧ R s t)
    (hstep : ∀ s t l s', R s t → M.step s l s' → ∃ t', N.step t l t' ∧ R s' t' ∧ obs' t l = obs s l)
    (h : (M.record obs).Reach x) : ∃ t, (N.record obs').Reach (t, x.2) ∧ R x.1 t := by
  induction h with
  | init h0 =>
    obtain ⟨t, ht, hR⟩ := hinit _ h0.1
    exact ⟨t, .init ⟨ht, h0.2⟩, hR⟩
  | step _ hs ih =>
    obtain ⟨t, ht, hR⟩ := ih
    obtain ⟨t', hstep', hR', hobs⟩ := hstep _ _ _ _ hR hs.1
    exact ⟨t', ht.step ⟨hstep', by rw [hs.2, hobs]⟩, hR'⟩

/-- A system whose steps are computed by a partial function. -/
def ofFun (init : σ → Prop) (next : ℓ → σ → Option σ) : Lts σ ℓ where
  init := init
  step s l s' := next l s = some s'

/-- The run of such a system along a list of labels. -/
def run (next : ℓ → σ → Option σ) : List ℓ → σ → Option σ
  | [], s => some s
  | l :: ls, s => (next l s).bind (run next ls)

/-- What every step of a run keeps holds at its end. -/
theorem run_induct {P : σ → Prop} {s' : σ} (hs : P s)
    (hstep : ∀ l ∈ ls, ∀ s s', P s → next l s = some s' → P s')
    (hrun : run next ls s = some s') : P s' := by
  induction ls generalizing s with
  | nil =>
    cases hrun
    exact hs
  | cons l ls ih =>
    obtain ⟨s₁, h₁, hrest⟩ := Option.bind_eq_some_iff.mp hrun
    have hs₁ : P s₁ := hstep l List.mem_cons_self s s₁ hs h₁
    exact ih hs₁ (fun l' hl' => hstep l' (List.mem_cons_of_mem l hl')) hrest

/-- If its labels meet the condition, a run leads to a reachable state. -/
theorem Reach.run {s' : σ} (hs : ((ofFun init next).restrict G).Reach s) (hG : ∀ l ∈ ls, ∀ s, G s l)
    (hrun : Lts.run next ls s = some s') : ((ofFun init next).restrict G).Reach s' :=
  run_induct hs (fun l hl s _ hr h => hr.step ⟨hG l hl s, h⟩) hrun

theorem Reach.run_all {s' : σ} (hs : (ofFun init next).Reach s)
    (hrun : Lts.run next ls s = some s') : (ofFun init next).Reach s' :=
  run_induct hs (fun _ _ _ _ hr h => hr.step h) hrun

/-- A condition restricts what is reachable. -/
theorem Reach.of_restrict (h : (M.restrict G).Reach s) : M.Reach s := by
  induction h with
  | init h0 => exact .init h0
  | step _ hs ih => exact ih.step hs.2

/-- The run of such a system along a list of labels, with the events it makes. -/
def runRecord (next : ℓ → σ → Option σ) (obs : σ → ℓ → List κ) :
    List ℓ → σ × List κ → Option (σ × List κ) :=
  run fun l x => (next l x.1).map fun s => (s, x.2 ++ obs x.1 l)

/-- It leads to a reachable state, if its steps are those of `M`. -/
theorem Reach.runRecord {y : σ × List κ} (hx : (M.record obs).Reach x)
    (hM : ∀ l ∈ ls, ∀ s s', next l s = some s' → M.step s l s')
    (hrun : Lts.runRecord next obs ls x = some y) : (M.record obs).Reach y := by
  refine run_induct hx (fun l hl x y hr h => ?_) hrun
  obtain ⟨s, hs, rfl⟩ := Option.map_eq_some_iff.mp h
  exact hr.step ⟨hM l hl _ _ hs, rfl⟩

end Lts

end Xv6.Lib
