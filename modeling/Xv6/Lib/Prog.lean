import Mathlib.Logic.Function.Basic

/-!
# Programs over operations, and a logic for their interleavings

A program is a tree of operations: it performs one, gets its result and goes on, until it returns or
panics. Several threads run programs over one shared state, one operation at a time; what an
operation does is a relation (`Sem`), and an operation that cannot happen in a state is blocked.

`wp` is the logic. A thread's knowledge is a ghost value `g`, an invariant `I` relates the state to
the ghost values of all threads, and `wp I t total p Q g` says: whatever state that satisfies the invariant
thread `t` meets before each operation of `p`, after it the invariant holds again for some new ghost
value of `t` alone, and when `p` returns, `Q` holds of the result and the ghost value. Since no
operation changes the ghost value of another thread, what a thread knows is stable. If `total` is asked
for, no operation of `p` is blocked, and `p` does not panic.
-/

namespace Xv6.Lib

/-- Operations, each with the type of its result. -/
structure Sig where
  /-- The operations. -/
  Op : Type
  /-- The type of an operation's result. -/
  Ret : Op → Type

/-- The operations of two signatures. -/
def Sig.sum (A B : Sig) : Sig where
  Op := A.Op ⊕ B.Op
  Ret
    | .inl a => A.Ret a
    | .inr b => B.Ret b

/-- Programs over the operations of `S` that return an `α`. -/
inductive Prog (S : Sig) (α : Type) : Type
  | ret (a : α)
  | panic (msg : String)
  | op (o : S.Op) (k : S.Ret o → Prog S α)

/-- What an operation does: `sem t o s r s'` when thread `t` can perform `o` in `s`, with result `r`
and new state `s'`. -/
abbrev Sem (T : Type) (S : Sig) (σ : Type) : Type := T → (o : S.Op) → σ → S.Ret o → σ → Prop

namespace Prog

variable {S : Sig} {α β : Type}

/-- Runs `p` and then `f` on its value. -/
def bind : Prog S α → (α → Prog S β) → Prog S β
  | ret a, f => f a
  | panic msg, _ => panic msg
  | op o k, f => op o fun r => (k r).bind f

instance : Monad (Prog S) where
  pure := ret
  bind := bind

/-- The program that performs one operation. -/
def call (o : S.Op) : Prog S (S.Ret o) := op o ret

/-- Runs `p` if the condition holds. -/
def when (c : Bool) (p : Prog S Unit) : Prog S Unit := if c then p else ret ()

@[simp] theorem pure_eq (a : α) : (pure a : Prog S α) = ret a := rfl

@[simp] theorem ret_bind (a : α) (f : α → Prog S β) : (ret a >>= f) = f a := rfl

@[simp] theorem panic_bind (msg : String) (f : α → Prog S β) :
    (panic msg >>= f) = panic msg := rfl

@[simp] theorem op_bind (o : S.Op) (k : S.Ret o → Prog S α) (f : α → Prog S β) :
    (op o k >>= f) = op o fun r => k r >>= f := rfl

@[simp] theorem call_bind (o : S.Op) (f : S.Ret o → Prog S β) : (call o >>= f) = op o f := rfl

section logic

variable {T σ G : Type} [DecidableEq T] {sem : Sem T S σ} {I : σ → (T → G) → Prop} {t : T} {g : G}
  {total : Prop} {p : Prog S α} {Q R : α → G → Prop}

/-- What thread `t`, knowing `g`, may rely on after the operation `o`: performed in any state that
satisfies the invariant, it restores the invariant and leaves `t` with a result and a ghost value
that satisfy `R`. -/
def Does (sem : Sem T S σ) (I : σ → (T → G) → Prop) (t : T) (o : S.Op) (g : G)
    (R : S.Ret o → G → Prop) : Prop :=
  ∀ s γ, I s γ → γ t = g → ∀ r s', sem t o s r s' →
    ∃ g', I s' (Function.update γ t g') ∧ R r g'

/-- Thread `t`, knowing `g`, can perform `o` in any state that satisfies the invariant. -/
def Enabled (sem : Sem T S σ) (I : σ → (T → G) → Prop) (t : T) (o : S.Op) (g : G) : Prop :=
  ∀ s γ, I s γ → γ t = g → ∃ r s', sem t o s r s'

/-- Every operation of `p` keeps the invariant, and `Q` holds when `p` returns; with `total` it does. -/
def wp (sem : Sem T S σ) (I : σ → (T → G) → Prop) (t : T) (total : Prop) :
    Prog S α → (α → G → Prop) → G → Prop
  | ret a, Q, g => Q a g
  | panic _, _, _ => ¬ total
  | op o k, Q, g => (total → Enabled sem I t o g) ∧
      Does sem I t o g fun r g' => wp sem I t total (k r) Q g'

theorem Does.mono {o : S.Op} {R R' : S.Ret o → G → Prop} (h : Does sem I t o g R)
    (hR : ∀ r g', R r g' → R' r g') : Does sem I t o g R' := by
  intro s γ hI hg r s' hs
  obtain ⟨g', hI', hr⟩ := h s γ hI hg r s' hs
  exact ⟨g', hI', hR r g' hr⟩

theorem wp_mono (h : wp sem I t total p Q g) (hQR : ∀ a g', Q a g' → R a g') :
    wp sem I t total p R g := by
  induction p generalizing g with
  | ret a => exact hQR a g h
  | panic msg => exact h
  | op o k ih => exact ⟨h.1, h.2.mono fun r g' hr => ih r hr⟩

/-- Sequencing, with the intermediate condition given. -/
theorem wp_seq {f : α → Prog S β} {R : β → G → Prop} (h : wp sem I t total p Q g)
    (hf : ∀ a g', Q a g' → wp sem I t total (f a) R g') : wp sem I t total (p >>= f) R g := by
  induction p generalizing g with
  | ret a => exact hf a g h
  | panic msg => exact h
  | op o k ih => exact ⟨h.1, h.2.mono fun r g' hr => ih r hr⟩

theorem wp_when {c : Bool} {p : Prog S Unit} {Q : Unit → G → Prop}
    (h : c = true → wp sem I t total p Q g) (hskip : c = false → Q () g) :
    wp sem I t total (when c p) Q g := by
  cases c with
  | true => exact h rfl
  | false => exact hskip rfl

/-- As `wp`, and `A` holds of the ghost value of `t` at every point of `p`. -/
def wpWhile (sem : Sem T S σ) (I : σ → (T → G) → Prop) (t : T) (A : G → Prop) :
    Prog S α → (α → G → Prop) → G → Prop
  | ret a, Q, g => A g ∧ Q a g
  | panic _, _, g => A g
  | op o k, Q, g => A g ∧ Does sem I t o g fun r g' => wpWhile sem I t A (k r) Q g'

theorem wpWhile.now {A : G → Prop} (h : wpWhile sem I t A p Q g) : A g := by
  cases p with
  | ret a => exact h.1
  | panic msg => exact h
  | op o k => exact h.1

theorem wpWhile_true (h : wp sem I t total p Q g) : wpWhile sem I t (fun _ => True) p Q g := by
  induction p generalizing g with
  | ret a => exact ⟨trivial, h⟩
  | panic msg => trivial
  | op o k ih => exact ⟨trivial, h.2.mono fun r g' hr => ih r hr⟩

end logic

end Prog

end Xv6.Lib
