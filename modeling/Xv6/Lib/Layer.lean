import Xv6.Lib.Prog
import Xv6.Lib.Trans

/-!
# Clients of a layer

A layer offers the operations of a signature `H`. It implements each by a program over primitive
operations `L` on a memory `σ`, executed one at a time with those of the other threads. Its clients
are programs over `H` and over operations `X` of their own, on a state `U` that the layer does not
see. A thread at rest may start any program among the layer's `calls`; a thread whose operation
cannot happen yet may go to sleep or be woken (`wait`), and performs it later; a crash loses memory
and clients and starts the layer again.

A `Protocol` is what the layer asks of its clients, as a typestate: in which ghost states a call is
allowed and to which it leads. `Layer.Sound.reach` is the rule for the whole system: if the
layer's code keeps an invariant under the protocol, and the clients follow the protocol, then the
invariant holds in every reachable state.
-/

namespace Xv6.Lib

variable {T σ U G : Type} {H X L : Sig}

/-- What a thread is doing. -/
inductive Thread (H X L : Sig) : Type
  /-- Running client code. -/
  | client (q : Prog (H.sum X) Unit)
  /-- In the layer's code for `o`, of which `p` is left; the client goes on with `k`. -/
  | code (o : H.Op) (p : Prog L (H.Ret o)) (k : H.Ret o → Prog (H.sum X) Unit)

/-- A layer and the clients it may have. -/
structure Layer (T σ U : Type) (H X L : Sig) where
  /-- The code of each operation. -/
  impl : (o : H.Op) → Prog L (H.Ret o)
  /-- What the primitive operations do. -/
  sem : Sem T L σ
  /-- What a thread does to the memory that waits for an operation to become possible. -/
  wait : T → L.Op → σ → σ → Prop
  /-- What the clients' own operations do. -/
  xsem : Sem T X U
  /-- The programs a thread may start. -/
  calls : T → Prog (H.sum X) Unit → Prop
  /-- The layer accepts new calls. -/
  up : σ → Prop
  /-- The memory after a crash. -/
  reboot : σ → σ
  /-- What each thread runs when the system starts. -/
  first : T → Prog (H.sum X) Unit
  /-- The memories the system may start with. -/
  minit : σ → Prop
  /-- The client states the system may start with. -/
  uinit : U → Prop

/-- The state of the whole system. -/
structure Pool (T σ U : Type) (H X L : Sig) where
  /-- The memory of the layer. -/
  mem : σ
  /-- The state of the clients. -/
  loc : U
  /-- The threads. -/
  th : T → Thread H X L

/-- The steps of the system. -/
inductive Label (T : Type) (H X : Sig) : Type
  /-- A thread at rest starts a program. -/
  | start (t : T)
  /-- A client calls the layer. -/
  | call (t : T) (o : H.Op)
  /-- A primitive operation of the layer's code. -/
  | code (t : T)
  /-- A thread waits for its next primitive operation. -/
  | wait (t : T)
  /-- The layer returns from a call. -/
  | ret (t : T) (o : H.Op) (r : H.Ret o)
  /-- An operation of the client's own. -/
  | loc (t : T) (x : X.Op)
  /-- Memory and clients are lost. -/
  | crash

namespace Layer

variable [DecidableEq T] (Y : Layer T σ U H X L)

/-- One step of the system. -/
inductive Step : Pool T σ U H X L → Label T H X → Pool T σ U H X L → Prop
  | start {s : Pool T σ U H X L} {t : T} {q : Prog (H.sum X) Unit}
      (hrest : s.th t = .client (.ret ())) (hq : Y.calls t q) (hup : Y.up s.mem) :
      Step s (.start t) { s with th := Function.update s.th t (.client q) }
  | call {s : Pool T σ U H X L} {t : T} {o : H.Op} {k : H.Ret o → Prog (H.sum X) Unit}
      (hth : s.th t = .client (.op (.inl o) k)) :
      Step s (.call t o) { s with th := Function.update s.th t (.code o (Y.impl o) k) }
  | code {s : Pool T σ U H X L} {t : T} {o : H.Op} {l : L.Op} {p : L.Ret l → Prog L (H.Ret o)}
      {k : H.Ret o → Prog (H.sum X) Unit} {r : L.Ret l} {m : σ}
      (hth : s.th t = .code o (.op l p) k) (hsem : Y.sem t l s.mem r m) :
      Step s (.code t) { s with mem := m, th := Function.update s.th t (.code o (p r) k) }
  | wait {s : Pool T σ U H X L} {t : T} {o : H.Op} {l : L.Op} {p : L.Ret l → Prog L (H.Ret o)}
      {k : H.Ret o → Prog (H.sum X) Unit} {m : σ}
      (hth : s.th t = .code o (.op l p) k) (hwait : Y.wait t l s.mem m) :
      Step s (.wait t) { s with mem := m }
  | ret {s : Pool T σ U H X L} {t : T} {o : H.Op} {r : H.Ret o}
      {k : H.Ret o → Prog (H.sum X) Unit} (hth : s.th t = .code o (.ret r) k) :
      Step s (.ret t o r) { s with th := Function.update s.th t (.client (k r)) }
  | loc {s : Pool T σ U H X L} {t : T} {x : X.Op} {k : X.Ret x → Prog (H.sum X) Unit}
      {r : X.Ret x} {u : U} (hth : s.th t = .client (.op (.inr x) k))
      (hsem : Y.xsem t x s.loc r u) :
      Step s (.loc t x) { s with loc := u, th := Function.update s.th t (.client (k r)) }
  | crash {s : Pool T σ U H X L} {u : U} (hu : Y.uinit u) :
      Step s .crash ⟨Y.reboot s.mem, u, fun t => .client (Y.first t)⟩

/-- The system of a layer and its clients. -/
def lts : Lts (Pool T σ U H X L) (Label T H X) where
  init s := Y.minit s.mem ∧ Y.uinit s.loc ∧ s.th = fun t => .client (Y.first t)
  step := Y.Step

end Layer

/-! ### Protocols -/

/-- What a layer asks of its clients. -/
structure Protocol (H : Sig) (G : Type) where
  /-- The call is allowed. -/
  ok : (o : H.Op) → G → Prop
  /-- The result and the ghost state a call may lead to. -/
  next : (o : H.Op) → G → H.Ret o → G → Prop
  /-- What holds of the ghost state until the call returns. -/
  during : H.Op → G → Prop

namespace Protocol

variable (P : Protocol H G) {α : Type}

/-- A client program makes only allowed calls, and `Q` holds when it returns. -/
def Follows : Prog (H.sum X) α → (α → G → Prop) → G → Prop
  | .ret a, Q, g => Q a g
  | .panic _, _, _ => True
  | .op (.inl o) k, Q, g => P.ok o g ∧ ∀ r g', P.next o g r g' → Follows (k r) Q g'
  | .op (.inr _) k, Q, g => ∀ r, Follows (k r) Q g

variable {P} {Q : α → G → Prop} {g : G}

theorem follows_inl {o : H.Op} {k : H.Ret o → Prog (H.sum X) α} :
    P.Follows (.op (.inl o) k) Q g ↔
      P.ok o g ∧ ∀ r g', P.next o g r g' → P.Follows (k r) Q g' := Iff.rfl

theorem follows_inr {x : X.Op} {k : X.Ret x → Prog (H.sum X) α} :
    P.Follows (.op (.inr x) k) Q g ↔ ∀ r, P.Follows (k r) Q g := Iff.rfl

end Protocol

/-! ### The invariant of the system -/

namespace Layer

variable [DecidableEq T] {Y : Layer T σ U H X L} {P : Protocol H G} {I : σ → (T → G) → Prop}
  {rest : G → Prop}

/-- What is known about a thread with ghost value `g`. In the layer's code it also remembers the
ghost state in which the call was made. -/
def Fine (Y : Layer T σ U H X L) (P : Protocol H G) (I : σ → (T → G) → Prop) (rest : G → Prop)
    (t : T) (g : G) : Thread H X L → Prop
  | .client q => P.Follows q (fun _ g' => rest g') g
  | .code o p k => ∃ g₀, P.ok o g₀ ∧ Prog.wpWhile Y.sem I t (P.during o) p (P.next o g₀) g ∧
      ∀ r g', P.next o g₀ r g' → P.Follows (k r) (fun _ g' => rest g') g'

/-- The layer's code keeps the invariant `I` under the protocol `P`, and the clients follow it. -/
structure Sound (Y : Layer T σ U H X L) (P : Protocol H G) (I : σ → (T → G) → Prop)
    (rest : G → Prop) : Prop where
  /-- The system starts in the invariant. -/
  init : ∀ m, Y.minit m → ∃ γ, I m γ ∧ ∀ t, P.Follows (Y.first t) (fun _ g => rest g) (γ t)
  /-- A crash leads to the invariant. -/
  crash : ∀ m γ, I m γ →
    ∃ γ', I (Y.reboot m) γ' ∧ ∀ t, P.Follows (Y.first t) (fun _ g => rest g) (γ' t)
  /-- The code of each call meets the protocol. -/
  code : ∀ t o g, P.ok o g → Prog.wpWhile Y.sem I t (P.during o) (Y.impl o) (P.next o g) g
  /-- Waiting keeps the invariant. -/
  wait : ∀ t l m m' γ, I m γ → Y.wait t l m m' → I m' γ
  /-- A program that is started follows the protocol. -/
  start : ∀ m γ t q, I m γ → rest (γ t) → Y.up m → Y.calls t q →
    ∃ g, I m (Function.update γ t g) ∧ P.Follows q (fun _ g' => rest g') g

/-- The invariant with what is known about every thread. -/
def Holds (Y : Layer T σ U H X L) (P : Protocol H G) (I : σ → (T → G) → Prop) (rest : G → Prop)
    (s : Pool T σ U H X L) (γ : T → G) : Prop :=
  I s.mem γ ∧ ∀ t, Y.Fine P I rest t (γ t) (s.th t)

variable {s : Pool T σ U H X L} {γ : T → G} {t : T}

/-- Only thread `t` moves: the others keep their program and their ghost value. -/
theorem fine_update {g : G} {h : Thread H X L} (hall : ∀ u, Y.Fine P I rest u (γ u) (s.th u))
    (hg : Y.Fine P I rest t g h) (u : T) :
    Y.Fine P I rest u (Function.update γ t g u) (Function.update s.th t h u) := by
  by_cases hu : u = t
  · subst hu
    simpa using hg
  · simpa [Function.update_of_ne hu] using hall u

/-- The same when the ghost value of `t` stays. -/
theorem fine_thread (t : T) {h : Thread H X L} (hall : ∀ u, Y.Fine P I rest u (γ u) (s.th u))
    (hg : Y.Fine P I rest t (γ t) h) (u : T) :
    Y.Fine P I rest u (γ u) (Function.update s.th t h u) := by
  simpa using fine_update hall hg u

theorem Sound.step (hY : Y.Sound P I rest) {s' : Pool T σ U H X L} {l : Label T H X}
    (h : Y.Holds P I rest s γ) (hs : Y.Step s l s') : ∃ γ', Y.Holds P I rest s' γ' := by
  obtain ⟨hI, hall⟩ := h
  cases hs with
  | @start t q hrest hq hup =>
    have hat := hall t
    rw [hrest] at hat
    obtain ⟨g, hI', hfol⟩ := hY.start s.mem γ t q hI hat hup hq
    exact ⟨_, hI', fine_update hall hfol⟩
  | @call t o k hth =>
    have hat := hall t
    rw [hth] at hat
    obtain ⟨hok, hnext⟩ := Protocol.follows_inl.mp hat
    exact ⟨γ, hI, fine_thread t hall ⟨γ t, hok, hY.code t o _ hok, hnext⟩⟩
  | @code t o l p k r m hth hsem =>
    have hat := hall t
    rw [hth] at hat
    obtain ⟨g₀, hok, hwp, hk⟩ := hat
    obtain ⟨g', hI', hwp'⟩ := hwp.2 s.mem γ hI rfl r m hsem
    exact ⟨_, hI', fine_update hall ⟨g₀, hok, hwp', hk⟩⟩
  | wait hth hwait => exact ⟨γ, hY.wait _ _ _ _ γ hI hwait, hall⟩
  | @ret t o r k hth =>
    have hat := hall t
    rw [hth] at hat
    obtain ⟨g₀, hok, hwp, hk⟩ := hat
    exact ⟨γ, hI, fine_thread t hall (hk r (γ t) hwp.2)⟩
  | @loc t x k r u hth hsem =>
    have hat := hall t
    rw [hth] at hat
    exact ⟨γ, hI, fine_thread t hall (Protocol.follows_inr.mp hat r)⟩
  | crash hu =>
    obtain ⟨γ', hI', hfol⟩ := hY.crash s.mem γ hI
    exact ⟨γ', hI', hfol⟩

/-- What is known about a thread in the layer's code. -/
theorem Holds.during (h : Y.Holds P I rest s γ) {o : H.Op} {p : Prog L (H.Ret o)}
    {k : H.Ret o → Prog (H.sum X) Unit} (hth : s.th t = .code o p k) : P.during o (γ t) := by
  have hat := h.2 t
  rw [hth] at hat
  obtain ⟨g₀, hok, hwp, hk⟩ := hat
  exact hwp.now

/-- What is known about a thread that returns from a call. -/
theorem Holds.returned (h : Y.Holds P I rest s γ) {o : H.Op} {r : H.Ret o}
    {k : H.Ret o → Prog (H.sum X) Unit} (hth : s.th t = .code o (.ret r) k) :
    ∃ g₀, P.ok o g₀ ∧ P.next o g₀ r (γ t) := by
  have hat := h.2 t
  rw [hth] at hat
  obtain ⟨g₀, hok, hwp, -⟩ := hat
  exact ⟨g₀, hok, hwp.2⟩

/-- The invariant holds in every reachable state. -/
theorem Sound.reach (hY : Y.Sound P I rest) (hr : Y.lts.Reach s) : ∃ γ, Y.Holds P I rest s γ := by
  induction hr with
  | init h0 =>
    obtain ⟨hm, -, hth⟩ := h0
    obtain ⟨γ, hI, hfol⟩ := hY.init _ hm
    refine ⟨γ, hI, fun t => ?_⟩
    rw [hth]
    exact hfol t
  | step _ hs ih =>
    obtain ⟨γ, hγ⟩ := ih
    exact hY.step hγ hs

/-! ### Running a layer

Where the primitive operations are computed, so is the next step of a thread. -/

section run

variable (Y) (exec : T → (l : L.Op) → σ → Option (L.Ret l × σ))

/-- The next step of thread `t`, if it is one of the layer, or a call or a return. -/
def advance (s : Pool T σ U H X L) (t : T) : Option (Pool T σ U H X L) :=
  match s.th t with
  | .client (.op (.inl o) k) => some { s with th := Function.update s.th t (.code o (Y.impl o) k) }
  | .code o (.op l p) k => (exec t l s.mem).map fun x =>
    { s with mem := x.2, th := Function.update s.th t (.code o (p x.1) k) }
  | .code _ (.ret r) k => some { s with th := Function.update s.th t (.client (k r)) }
  | _ => none

/-- Many such steps, each by the thread that the list names. -/
def advances : List T → Pool T σ U H X L → Option (Pool T σ U H X L) :=
  Lts.run fun t s => Y.advance exec s t

variable {exec}

theorem advance_step (hexec : ∀ t l m r m', exec t l m = some (r, m') → Y.sem t l m r m')
    {s s' : Pool T σ U H X L} {t : T} (h : Y.advance exec s t = some s') :
    ∃ l, Y.lts.step s l s' := by
  unfold advance at h
  split at h
  · rename_i o k hth
    cases h
    exact ⟨_, .call hth⟩
  · rename_i o l p k hth
    obtain ⟨⟨r, m⟩, hx, rfl⟩ := Option.map_eq_some_iff.mp h
    exact ⟨_, .code hth (hexec t l s.mem r m hx)⟩
  · rename_i o r k hth
    cases h
    exact ⟨_, .ret hth⟩
  · cases h

theorem Reach.advances (hexec : ∀ t l m r m', exec t l m = some (r, m') → Y.sem t l m r m')
    {ts : List T} {s s' : Pool T σ U H X L} (hr : Y.lts.Reach s)
    (h : Y.advances exec ts s = some s') : Y.lts.Reach s' := by
  refine Lts.run_induct hr (fun t _ s s' hr hs => ?_) h
  obtain ⟨l, hl⟩ := Y.advance_step hexec hs
  exact hr.step hl

end run

end Layer

end Xv6.Lib
