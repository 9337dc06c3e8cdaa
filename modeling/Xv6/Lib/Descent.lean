import Mathlib.Data.Nat.Notation

/-!
# Recursive descent

Parsers that walk over their input by a cursor, as a set of functions that call each other. Such a function
takes a bound on the depth of its calls: with a bound that is too small it gives `none`, and what it really
does is what it does with every bound that is large enough, `Gives`. Two inputs that answer the same to
every question of a parser lead it to the same result; `Alike` is this relation between parsers.
-/

namespace Xv6.Lib

/-- Parsers over the cursor `σ`: no result for lack of depth, an error, or a value and the cursor
behind it. -/
abbrev Parser (ε σ α : Type) : Type := StateT σ (ExceptT ε Option) α

namespace Parser

variable {ε σ τ α β α' β' : Type}

/-- The bound on the depth is used up. -/
def stop : Parser ε σ α := fun _ => none

/-- The parser ends with the error. -/
def fail (e : ε) : Parser ε σ α := fun _ => some (.error e)

@[simp] theorem stop_apply (s : σ) : (stop : Parser ε σ α) s = none := rfl

@[simp] theorem fail_apply (e : ε) (s : σ) : (fail e : Parser ε σ α) s = some (.error e) := rfl

@[simp] theorem pure_apply (a : α) (s : σ) : (pure a : Parser ε σ α) s = some (.ok (a, s)) := rfl

variable {x : Parser ε σ α} {f : α → Parser ε σ β} {s s' : σ} {a : α} {r : Except ε (α × σ)}
  {X Y : ℕ → Parser ε σ α} {F : ℕ → α → Parser ε σ β} {R : σ → τ → Prop} {P : α → β → Prop}

theorem bind_ok (h : x s = some (.ok (a, s'))) : (x >>= f) s = f a s' := by
  show (StateT.bind x f) s = f a s'
  unfold StateT.bind
  rw [h]
  rfl

theorem bind_error {e : ε} (h : x s = some (.error e)) : (x >>= f) s = some (.error e) := by
  show (StateT.bind x f) s = some (.error e)
  unfold StateT.bind
  rw [h]
  rfl

theorem bind_none (h : x s = none) : (x >>= f) s = none := by
  show (StateT.bind x f) s = none
  unfold StateT.bind
  rw [h]
  rfl

/-- A sequence succeeds only if both of its parts do. -/
theorem of_bind_ok {s'' : σ} {b : β} (h : (x >>= f) s = some (.ok (b, s''))) :
    ∃ a s', x s = some (.ok (a, s')) ∧ f a s' = some (.ok (b, s'')) := by
  rcases hx : x s with _ | e | ⟨a, s'⟩
  · rw [bind_none hx] at h
    cases h
  · rw [bind_error hx] at h
    cases h
  · rw [bind_ok hx] at h
    exact ⟨a, s', rfl, h⟩

/-! ### The result at every large enough depth -/

/-- What the parser gives for every bound that is large enough. -/
def Gives (X : ℕ → Parser ε σ α) (s : σ) (r : Except ε (α × σ)) : Prop :=
  ∃ N, ∀ n ≥ N, X n s = some r

/-- A parser that does not depend on the bound. -/
theorem Gives.const (h : x s = some r) : Gives (fun _ => x) s r :=
  ⟨0, fun _ _ => h⟩

theorem Gives.pure (a : α) (s : σ) :
    Gives (fun _ => (Pure.pure a : Parser ε σ α)) s (.ok (a, s)) :=
  .const rfl

theorem Gives.bind {r : Except ε (β × σ)} (hx : Gives X s (.ok (a, s')))
    (hf : Gives (fun n => F n a) s' r) : Gives (fun n => X n >>= F n) s r := by
  obtain ⟨N, hN⟩ := hx
  obtain ⟨M, hM⟩ := hf
  refine ⟨max N M, fun n hn => ?_⟩
  show (X n >>= F n) s = some r
  rw [bind_ok (hN n (by omega))]
  exact hM n (by omega)

theorem Gives.map (f : α → β) (hx : Gives X s (.ok (a, s'))) :
    Gives (fun n => X n >>= fun a => Pure.pure (f a)) s (.ok (f a, s')) :=
  hx.bind (.pure (f a) s')

theorem Gives.bind_error {e : ε} (hx : Gives X s (.error e)) :
    Gives (fun n => X n >>= F n) s (.error e) := by
  obtain ⟨N, hN⟩ := hx
  exact ⟨N, fun n hn => Parser.bind_error (hN n hn)⟩

/-- A parser that goes on as the other from another cursor. -/
theorem Gives.congr (h : ∀ n, X n s = Y n s') (hY : Gives Y s' r) : Gives X s r := by
  obtain ⟨N, hN⟩ := hY
  exact ⟨N, fun n hn => (h n).trans (hN n hn)⟩

/-- A parser that spends one of its bound and goes on as the other from another cursor. -/
theorem Gives.next (h : ∀ n, X (n + 1) s = Y n s') (hY : Gives Y s' r) : Gives X s r := by
  obtain ⟨N, hN⟩ := hY
  refine ⟨N + 1, fun n hn => ?_⟩
  obtain ⟨m, rfl⟩ : ∃ m, n = m + 1 := ⟨n - 1, by omega⟩
  rw [h m]
  exact hN m (by omega)

/-- A parser has at most one result. -/
theorem Gives.unique {r' : Except ε (α × σ)} (h : Gives X s r) (h' : Gives X s r') : r = r' := by
  obtain ⟨N, hN⟩ := h
  obtain ⟨M, hM⟩ := h'
  have hr := hN (max N M) (by omega)
  have hr' := hM (max N M) (by omega)
  rw [hr] at hr'
  exact Option.some.inj hr'

/-- Some bound shows what a result is like. -/
theorem Gives.at_depth (h : Gives X s r) : ∃ n, X n s = some r := by
  obtain ⟨N, hN⟩ := h
  exact ⟨N, hN N (Nat.le_refl N)⟩

/-- The parser ends, with a value or with an error. -/
def Ends (X : ℕ → Parser ε σ α) (s : σ) : Prop :=
  ∃ r, Gives X s r

/-- A sequence ends if its first part does, and the second does behind every value of the first. -/
theorem Ends.bind (hx : Ends X s)
    (hf : ∀ a s', Gives X s (.ok (a, s')) → Ends (fun n => F n a) s') :
    Ends (fun n => X n >>= F n) s := by
  obtain ⟨e | ⟨a, s'⟩, hr⟩ := hx
  · exact ⟨_, hr.bind_error⟩
  · obtain ⟨r, hr'⟩ := hf a s' hr
    exact ⟨r, hr.bind hr'⟩

theorem Ends.congr (h : ∀ n, X n s = Y n s') (hY : Ends Y s') : Ends X s := by
  obtain ⟨r, hr⟩ := hY
  exact ⟨r, hr.congr h⟩

theorem Ends.next (h : ∀ n, X (n + 1) s = Y n s') (hY : Ends Y s') : Ends X s := by
  obtain ⟨r, hr⟩ := hY
  exact ⟨r, hr.next h⟩

/-- A parser that does not depend on the bound ends. -/
theorem Ends.const (h : x s = some r) : Ends (fun _ => x) s :=
  ⟨r, .const h⟩

/-! ### A larger bound -/

/-- What the first parser gives, the second gives as well. -/
def Le (x y : Parser ε σ α) : Prop := ∀ s r, x s = some r → y s = some r

theorem Le.refl (x : Parser ε σ α) : Le x x := fun _ _ h => h

theorem stop_le (x : Parser ε σ α) : Le stop x := fun _ _ h => (nomatch h)

theorem Le.bind {y : Parser ε σ α} {g : α → Parser ε σ β} (hxy : Le x y)
    (hfg : ∀ a, Le (f a) (g a)) : Le (x >>= f) (y >>= g) := by
  intro s r h
  rcases hx : x s with _ | e | ⟨a, s'⟩
  · rw [bind_none hx] at h
    cases h
  · rw [Parser.bind_error hx] at h
    rw [Parser.bind_error (hxy s _ hx), h]
  · rw [bind_ok hx] at h
    rw [bind_ok (hxy s _ hx)]
    exact hfg a s' r h

/-- A parser that gives at each bound what it gave at the one before gives what it gives at one. -/
theorem Gives.of_le (hX : ∀ n, Le (X n) (X (n + 1))) {n : ℕ} (h : X n s = some r) :
    Gives X s r := by
  refine ⟨n, fun m hm => ?_⟩
  induction hm with
  | refl => exact h
  | step _ ih => exact hX _ s r ih

/-! ### Two inputs -/

/-- Two results that agree: both missing, the same error, or related values and related cursors. -/
inductive SameResult (P : α → β → Prop) (R : σ → τ → Prop) :
    Option (Except ε (α × σ)) → Option (Except ε (β × τ)) → Prop
  | none : SameResult P R none none
  | error (e : ε) : SameResult P R (some (.error e)) (some (.error e))
  | ok {a : α} {b : β} {s : σ} {t : τ} : P a b → R s t →
      SameResult P R (some (.ok (a, s))) (some (.ok (b, t)))

/-- From related cursors the two parsers come to results that agree. -/
def Alike (R : σ → τ → Prop) (P : α → β → Prop) (x : Parser ε σ α) (y : Parser ε τ β) : Prop :=
  ∀ s t, R s t → SameResult P R (x s) (y t)

theorem Alike.pure {b : β} (h : P a b) :
    Alike R P (Pure.pure a : Parser ε σ α) (Pure.pure b : Parser ε τ β) :=
  fun _ _ hR => .ok h hR

theorem Alike.stop : Alike R P (stop : Parser ε σ α) (stop : Parser ε τ β) :=
  fun _ _ _ => .none

theorem Alike.fail (e : ε) : Alike R P (fail e : Parser ε σ α) (fail e : Parser ε τ β) :=
  fun _ _ _ => .error e

theorem Alike.bind {Q : α' → β' → Prop} {y : Parser ε τ β} {f : α → Parser ε σ α'}
    {g : β → Parser ε τ β'} (hx : Alike R P x y) (hf : ∀ a b, P a b → Alike R Q (f a) (g b)) :
    Alike R Q (x >>= f) (y >>= g) := by
  intro s t hR
  have hxy := hx s t hR
  generalize hr : x s = r at hxy
  generalize hq : y t = q at hxy
  cases hxy with
  | none =>
    rw [bind_none hr, bind_none hq]
    exact .none
  | error e =>
    rw [Parser.bind_error hr, Parser.bind_error hq]
    exact .error e
  | ok hP hR' =>
    rw [bind_ok hr, bind_ok hq]
    exact hf _ _ hP _ _ hR'

end Parser

end Xv6.Lib
