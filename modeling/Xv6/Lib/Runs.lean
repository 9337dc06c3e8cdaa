import Mathlib.Order.Basic
import Xv6.Lib.Prog

/-!
# The runs of one program

What one thread does, apart from the others. With operations that are computed, `run` executes the
program while no other thread runs. With operations that are a relation, `Reaches` is what the program may
come to, and `Ensures` is the logic for its end: `Q` holds when it returns, it panics only as `E` allows, by
itself or in an operation, and if `live` is asked for, it does not wait for ever. Every run is finite, so
that such a program returns or panics.

`Affords` bounds what a program takes of a resource, such as room in a log, on whichever path it goes.
-/

namespace Xv6.Lib

namespace Prog

variable {S : Sig} {α β : Type}

/-! ### One thread alone -/

/-- How a program ends that one thread executes while no other runs. -/
inductive Outcome (α σ : Type)
  /-- It returns. -/
  | returned (a : α) (s : σ)
  /-- It panics. -/
  | panicked (msg : String) (s : σ)
  /-- It waits for ever. -/
  | blocked (s : σ)

section alone

variable {σ : Type}

/-- Executes the program, with the operations `step`. -/
def run (step : (o : S.Op) → σ → Option (S.Ret o × σ)) : Prog S α → σ → Outcome α σ
  | ret a, s => .returned a s
  | panic msg, s => .panicked msg s
  | op o k, s =>
    match step o s with
    | none => .blocked s
    | some (r, s') => (k r).run step s'

/-- A program that meets its specification returns, unless that is not `total`. -/
theorem run_of_wp {T G : Type} [DecidableEq T] {sem : Sem T S σ} {I : σ → (T → G) → Prop} {t : T}
    {total : Prop} {p : Prog S α} {Q : α → G → Prop} {s : σ} {γ : T → G}
    (step : (o : S.Op) → σ → Option (S.Ret o × σ))
    (hsem : ∀ o s r s', sem t o s r s' ↔ step o s = some (r, s'))
    (h : wp sem I t total p Q (γ t)) (hI : I s γ) :
    (∃ a s' g, p.run step s = .returned a s' ∧ I s' (Function.update γ t g) ∧ Q a g) ∨
      ¬ total ∧ ∀ a s', p.run step s ≠ .returned a s' := by
  induction p generalizing s γ with
  | ret a => exact .inl ⟨a, s, γ t, rfl, by rwa [Function.update_eq_self], h⟩
  | panic msg => exact .inr ⟨h, fun a s' hrun => by cases hrun⟩
  | op o k ih =>
    rw [run]
    cases hstep : step o s with
    | none =>
      refine .inr ⟨fun ht => ?_, fun a s' hrun => by cases hrun⟩
      obtain ⟨r, s', hs⟩ := h.1 ht s γ hI rfl
      rw [hsem, hstep] at hs
      cases hs
    | some x =>
      obtain ⟨g, hI', hwp⟩ := h.2 s γ hI rfl x.1 x.2 ((hsem _ _ _ _).mpr hstep)
      simpa only [Function.update_idem] using
        ih x.1 (γ := Function.update γ t g) (by rwa [Function.update_self]) hI'

end alone

/-! ### With others -/

section runs

variable {σ : Type} {sem : (o : S.Op) → σ → S.Ret o → σ → Prop} {A : σ → Prop}

/-- What is left of a program, and the state, after some of its operations. -/
inductive Reaches (sem : (o : S.Op) → σ → S.Ret o → σ → Prop) (p : Prog S α) (s : σ) :
    Prog S α → σ → Prop
  | refl : Reaches sem p s p s
  | step {o : S.Op} {k : S.Ret o → Prog S α} {s₁ s₂ : σ} {r : S.Ret o}
      (h : Reaches sem p s (op o k) s₁) (hs : sem o s₁ r s₂) : Reaches sem p s (k r) s₂

variable {p : Prog S α} {Q R : α → σ → Prop} {s s' : σ}

/-- Every run of the program that ends either returns with `Q`, or panics as `E` allows in that state; and
no run waits for ever, if `live`. The operations panic as `fails` says. -/
def Ensures (sem : (o : S.Op) → σ → S.Ret o → σ → Prop) (fails : S.Op → σ → String → Prop)
    (live : Prop) (E : String → σ → Prop) : Prog S α → (α → σ → Prop) → σ → Prop
  | ret a, Q, s => Q a s
  | panic msg, _, s => E msg s
  | op o k, Q, s => (live → (∃ msg, fails o s msg) ∨ ∃ r s', sem o s r s') ∧
      (∀ msg, fails o s msg → E msg s) ∧
      ∀ r s', sem o s r s' → Ensures sem fails live E (k r) Q s'

variable {fails : S.Op → σ → String → Prop} {live : Prop} {E F : String → σ → Prop}

/-- Weaker postconditions, and more panics allowed. -/
theorem Ensures.weaken (h : Ensures sem fails live E p Q s) (hEF : ∀ msg s', E msg s' → F msg s')
    (hQR : ∀ a s', Q a s' → R a s') : Ensures sem fails live F p R s := by
  induction p generalizing s with
  | ret a => exact hQR a s h
  | panic msg => exact hEF msg s h
  | op o k ih => exact ⟨h.1, fun msg hf => hEF msg s (h.2.1 msg hf), fun r s' hs => ih r (h.2.2 r s' hs)⟩

theorem Ensures.mono (h : Ensures sem fails live E p Q s) (hQR : ∀ a s', Q a s' → R a s') :
    Ensures sem fails live E p R s :=
  h.weaken (fun _ _ => id) hQR

/-- Two statements about the same runs. -/
theorem Ensures.and (h : Ensures sem fails live E p Q s) (h' : Ensures sem fails live E p R s) :
    Ensures sem fails live E p (fun a s' => Q a s' ∧ R a s') s := by
  induction p generalizing s with
  | ret a => exact ⟨h, h'⟩
  | panic msg => exact h
  | op o k ih => exact ⟨h.1, h.2.1, fun r s' hs => ih r (h.2.2 r s' hs) (h'.2.2 r s' hs)⟩

theorem ensures_bind {f : α → Prog S β} {R : β → σ → Prop}
    (h : Ensures sem fails live E p (fun a s' => Ensures sem fails live E (f a) R s') s) :
    Ensures sem fails live E (p >>= f) R s := by
  induction p generalizing s with
  | ret a => exact h
  | panic msg => exact h
  | op o k ih => exact ⟨h.1, h.2.1, fun r s' hs => ih r (h.2.2 r s' hs)⟩

theorem ensures_when {c : Bool} {p : Prog S Unit} {Q : Unit → σ → Prop}
    (h : c = true → Ensures sem fails live E p Q s) (hskip : c = false → Q () s) :
    Ensures sem fails live E (when c p) Q s := by
  cases c with
  | true => exact h rfl
  | false => exact hskip rfl

variable {step : (o : S.Op) → σ → Option (S.Ret o × σ)} {q : Prog S α} {a : α}

theorem ensures_ite {c : Prop} [Decidable c] (hp : c → Ensures sem fails live E p Q s)
    (hq : ¬ c → Ensures sem fails live E q Q s) :
    Ensures sem fails live E (if c then p else q) Q s := by
  split
  · exact hp ‹_›
  · exact hq ‹_›

/-- What is ensured of a program is ensured of what is left of it. -/
theorem Ensures.reaches (h : Ensures sem fails live E p Q s) (hr : Reaches sem p s q s') :
    Ensures sem fails live E q Q s' := by
  induction hr with
  | refl => exact h
  | step _ hs ih => exact ih.2.2 _ _ hs

/-- An execution whose operations are among those of the relation. -/
theorem Reaches.of_run (hstep : ∀ o s r s', step o s = some (r, s') → sem o s r s') {s₀ : σ}
    {p₀ : Prog S α} (h : Reaches sem p₀ s₀ p s) (hrun : p.run step s = .returned a s') :
    Reaches sem p₀ s₀ (.ret a) s' := by
  induction p generalizing s with
  | ret b =>
    cases hrun
    exact h
  | panic msg => cases hrun
  | op o k ih =>
    rw [Prog.run] at hrun
    cases hs : step o s with
    | none =>
      rw [hs] at hrun
      cases hrun
    | some x =>
      rw [hs] at hrun
      exact ih x.1 (h.step (hstep _ _ _ _ hs)) hrun

/-- The result of such an execution. -/
theorem Ensures.run (hstep : ∀ o s r s', step o s = some (r, s') → sem o s r s')
    (h : Ensures sem fails live E p Q s) (hrun : p.run step s = .returned a s') : Q a s' :=
  h.reaches (Reaches.of_run hstep .refl hrun)

end runs

/-! ### Allowances -/

section allowances

variable {A : Type} [Preorder A] {pay : S.Op → A → Option A} {p : Prog S α} {a b c : A}

/-- The program keeps to an allowance: it starts with `a`, each operation takes its part as `pay` says, and
at least `b` is left when the program returns. -/
def Affords (pay : S.Op → A → Option A) : Prog S α → A → A → Prop
  | ret _, a, b => b ≤ a
  | panic _, _, _ => True
  | op o k, a, b => ∃ a', pay o a = some a' ∧ ∀ r, Affords pay (k r) a' b

/-- Who has more can pay the same, and has no less left. -/
class Steady (pay : S.Op → A → Option A) : Prop where
  more : ∀ o a a' b, pay o a = some b → a ≤ a' → ∃ b', pay o a' = some b' ∧ b ≤ b'

variable [Steady pay]

theorem Affords.mono (h : Affords pay p a b) {a' : A} (hle : a ≤ a') : Affords pay p a' b := by
  induction p generalizing a a' with
  | ret x => exact le_trans h hle
  | panic msg => trivial
  | op o k ih =>
    obtain ⟨x, hx, hk⟩ := h
    obtain ⟨x', hx', hle'⟩ := Steady.more o a a' x hx hle
    exact ⟨x', hx', fun r => ih r (hk r) hle'⟩

theorem Affords.bind {f : α → Prog S β} (h : Affords pay p a b) (hf : ∀ x, Affords pay (f x) b c) :
    Affords pay (p >>= f) a c := by
  induction p generalizing a with
  | ret x => exact (hf x).mono h
  | panic msg => trivial
  | op o k ih =>
    obtain ⟨a', ha', hk⟩ := h
    exact ⟨a', ha', fun r => ih r (hk r)⟩

omit [Steady pay]

theorem affords_when {x : Bool} {p : Prog S Unit} (h : Affords pay p a b) (hle : b ≤ a) :
    Affords pay (when x p) a b := by
  cases x with
  | true => exact h
  | false => exact hle

theorem affords_ite {x : Prop} [Decidable x] {q : Prog S α} (hp : Affords pay p a b)
    (hq : Affords pay q a b) : Affords pay (if x then p else q) a b := by
  split
  · exact hp
  · exact hq

end allowances

end Prog

end Xv6.Lib
