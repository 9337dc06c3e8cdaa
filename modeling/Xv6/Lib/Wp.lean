import Mathlib.Logic.Basic

/-!
# Stateful code that can panic

`Code σ α` is code that runs on a state `σ` and either returns a value with a new state or panics,
which ends the run. `wp x Q s` says that `x`, started in `s`, returns (so it does not panic) with a
value and a state that satisfy `Q`. The `simp` lemmas compute `wp` through sequencing, tests and the
primitive operations; `wp_mono` is the rule that applies the specification of a called function.
-/

namespace Xv6.Lib

/-- The result of running code: a value with the state it leaves, or a panic with its message. -/
inductive Res (σ α : Type) : Type
  | ok (a : α) (s : σ)
  | panic (msg : String)

/-- The code returned, in a state that passes a test. -/
def Res.passes {σ α : Type} (r : Res σ α) (test : σ → Bool) : Bool :=
  match r with
  | .ok _ s => test s
  | .panic _ => false

theorem Res.passes_ok {σ α : Type} {r : Res σ α} {test : σ → Bool} {a : α} {s : σ}
    (h : r.passes test = true) (hr : r = .ok a s) : test s = true := by
  subst hr
  exact h

theorem Res.exists_of_passes {σ α : Type} {r : Res σ α} {test : σ → Bool}
    (h : r.passes test = true) : ∃ a s, r = .ok a s ∧ test s = true := by
  cases r with
  | ok a s => exact ⟨a, s, rfl, h⟩
  | panic msg => cases h

/-- Code over a state `σ` that returns an `α` or panics. -/
def Code (σ α : Type) : Type := σ → Res σ α

namespace Code

variable {σ τ α β γ : Type}

/-- Runs `x` and then `f` on its value; a panic of `x` is final. -/
def bind (x : Code σ α) (f : α → Code σ β) : Code σ β := fun s =>
  match x s with
  | .ok a s' => f a s'
  | .panic msg => .panic msg

instance : Monad (Code σ) where
  pure a := fun s => .ok a s
  bind := bind

/-- Reads the state. -/
def get : Code σ σ := fun s => .ok s s

/-- Replaces the state by a function of it. -/
def modify (f : σ → σ) : Code σ Unit := fun s => .ok () (f s)

/-- Reads a component of the state. -/
def gets (f : σ → α) : Code σ α := fun s => .ok (f s) s

/-- Stops the run with a message. -/
def panic (msg : String) : Code σ α := fun _ => .panic msg

/-- Runs code on a component of a larger state. -/
def zoom (get : σ → τ) (set : σ → τ → σ) (x : Code τ α) : Code σ α := fun s =>
  match x (get s) with
  | .ok a t => .ok a (set s t)
  | .panic msg => .panic msg

/-- Weakest precondition: `x` started in `s` returns, and what it returns satisfies `Q`. -/
def wp (x : Code σ α) (Q : α → σ → Prop) (s : σ) : Prop :=
  match x s with
  | .ok a s' => Q a s'
  | .panic _ => False

/-- Like `wp`, with a condition `E` on the message of a panic instead of none at all. -/
def wpe (x : Code σ α) (Q : α → σ → Prop) (E : String → Prop) (s : σ) : Prop :=
  match x s with
  | .ok a s' => Q a s'
  | .panic msg => E msg

/-- What code returns, if it does. -/
def value (x : Code σ α) (s : σ) : Option α :=
  match x s with
  | .ok a _ => some a
  | .panic _ => none

section rules

variable {x : Code σ α} {f : α → Code σ β} {P Q : α → σ → Prop} {R : β → σ → Prop} {s : σ}

@[simp] theorem wp_pure {a : α} : wp (pure a : Code σ α) Q s ↔ Q a s := Iff.rfl

@[simp] theorem wp_bind : wp (x >>= f) R s ↔ wp x (fun a s' => wp (f a) R s') s := by
  show wp (bind x f) R s ↔ _
  unfold wp bind
  cases x s <;> rfl

@[simp] theorem wp_get {Q : σ → σ → Prop} : wp (get : Code σ σ) Q s ↔ Q s s := Iff.rfl

@[simp] theorem wp_gets {g : σ → α} : wp (gets g) Q s ↔ Q (g s) s := Iff.rfl

@[simp] theorem wp_modify {g : σ → σ} {Q : Unit → σ → Prop} :
    wp (modify g) Q s ↔ Q () (g s) := Iff.rfl

@[simp] theorem wp_panic {msg : String} : wp (panic msg : Code σ α) Q s ↔ False := Iff.rfl

@[simp] theorem wp_ite {c : Prop} [Decidable c] {y : Code σ α} :
    wp (if c then x else y) Q s ↔ (c → wp x Q s) ∧ (¬ c → wp y Q s) := by
  by_cases hc : c <;> simp [hc]

@[simp] theorem wp_zoom {get : σ → τ} {set : σ → τ → σ} {y : Code τ α} :
    wp (zoom get set y) Q s ↔ wp y (fun a t => Q a (set s t)) (get s) := by
  unfold wp zoom
  cases y (get s) <;> rfl

theorem wp_mono (h : wp x P s) (hPQ : ∀ a s', P a s' → Q a s') : wp x Q s := by
  unfold wp at h ⊢
  cases hx : x s with
  | ok a s' => rw [hx] at h; exact hPQ a s' h
  | panic msg => rw [hx] at h; exact h

/-- Two specifications of the same code hold together. -/
theorem wp_and (h : wp x P s) (h' : wp x Q s) : wp x (fun a s' => P a s' ∧ Q a s') s := by
  unfold wp at h h' ⊢
  cases hx : x s with
  | ok a s' =>
    rw [hx] at h h'
    exact ⟨h, h'⟩
  | panic msg =>
    rw [hx] at h
    exact h.elim

/-- A specification together with one that needs an assumption. -/
theorem wp_imp {p : Prop} (h : wp x P s) (h' : p → wp x Q s) :
    wp x (fun a s' => P a s' ∧ (p → Q a s')) s := by
  by_cases hp : p
  · exact wp_mono (wp_and h (h' hp)) fun a s' hres => ⟨hres.1, fun _ => hres.2⟩
  · exact wp_mono h fun a s' hres => ⟨hres, fun hc => absurd hc hp⟩

/-- What `wp` says about a run that returned. -/
theorem wp_ok (h : wp x Q s) {a : α} {s' : σ} (hx : x s = .ok a s') : Q a s' := by
  unfold wp at h
  rw [hx] at h
  exact h

theorem value_ok {a : α} {s' : σ} (hx : x s = .ok a s') : value x s = some a := by
  rw [value, hx]

/-- Code with a specification does not panic. -/
theorem wp_not_panic (h : wp x Q s) {msg : String} : x s ≠ .panic msg := by
  intro hx
  unfold wp at h
  rw [hx] at h
  exact h

/-- A run that satisfies `wp` returns. -/
theorem wp_exists (h : wp x Q s) : ∃ a s', x s = .ok a s' ∧ Q a s' := by
  unfold wp at h
  cases hx : x s with
  | ok a s' => rw [hx] at h; exact ⟨a, s', rfl, h⟩
  | panic msg => rw [hx] at h; exact h.elim

end rules

section panics

variable {x : Code σ α} {f : α → Code σ β} {P Q : α → σ → Prop} {R : β → σ → Prop} {s : σ}
  {D E : String → Prop}

theorem wp_iff_wpe : wp x Q s ↔ wpe x Q (fun _ => False) s := Iff.rfl

@[simp] theorem wpe_pure {a : α} : wpe (pure a : Code σ α) Q E s ↔ Q a s := Iff.rfl

@[simp] theorem wpe_bind : wpe (x >>= f) R E s ↔ wpe x (fun a s' => wpe (f a) R E s') E s := by
  show wpe (bind x f) R E s ↔ _
  unfold wpe bind
  cases x s <;> rfl

@[simp] theorem wpe_gets {g : σ → α} : wpe (gets g) Q E s ↔ Q (g s) s := Iff.rfl

@[simp] theorem wpe_modify {g : σ → σ} {Q : Unit → σ → Prop} :
    wpe (modify g) Q E s ↔ Q () (g s) := Iff.rfl

@[simp] theorem wpe_panic {msg : String} : wpe (panic msg : Code σ α) Q E s ↔ E msg := Iff.rfl

@[simp] theorem wpe_ite {c : Prop} [Decidable c] {y : Code σ α} :
    wpe (if c then x else y) Q E s ↔ (c → wpe x Q E s) ∧ (¬ c → wpe y Q E s) := by
  by_cases hc : c <;> simp [hc]

theorem wpe_mono (h : wpe x P D s) (hPQ : ∀ a s', P a s' → Q a s') (hDE : ∀ msg, D msg → E msg) :
    wpe x Q E s := by
  unfold wpe at h ⊢
  cases hx : x s with
  | ok a s' => rw [hx] at h; exact hPQ a s' h
  | panic msg => rw [hx] at h; exact hDE msg h

theorem wpe_of_wp (h : wp x P s) (hPQ : ∀ a s', P a s' → Q a s') : wpe x Q E s :=
  wpe_mono (wp_iff_wpe.mp h) hPQ fun _ hf => hf.elim

theorem wpe_ok (h : wpe x Q E s) {a : α} {s' : σ} (hx : x s = .ok a s') : Q a s' := by
  unfold wpe at h
  rw [hx] at h
  exact h

theorem wpe_panics (h : wpe x Q E s) {msg : String} (hx : x s = .panic msg) : E msg := by
  unfold wpe at h
  rw [hx] at h
  exact h

end panics

end Code

end Xv6.Lib
