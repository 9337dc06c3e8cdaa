import Mathlib.Data.List.Forall2
import Mathlib.Data.List.TakeWhile
import Xv6.User.ShGrammar

/-!
# The shell reads its command line

`parsecmd` accepts exactly the lines of the grammar and builds the commands they stand for. The parser runs
over the bytes of the line as it does over its tokens, because `peek` and `gettoken` answer the same on
both. Each word of the command it builds ends at a byte that belongs to no word, so that `nulterminate`
cuts no word short, and the fully parenthesised text of a command is read back as that command.
-/

namespace Xv6.User

open Xv6.Lib Xv6.Lib.Parser

set_option linter.unusedSectionVars false

/-! ### A larger bound on the depth -/

section Depth

variable {σ ω : Type} (I : Input σ ω)

theorem parseredirs_le (n : ℕ) (rs : List (Redir × ω)) :
    Le (I.parseredirs n rs) (I.parseredirs (n + 1) rs) := by
  induction n generalizing rs with
  | zero => exact stop_le _
  | succ n ih =>
    rw [Input.parseredirs, Input.parseredirs]
    refine (Le.refl _).bind fun b => ?_
    cases b with
    | false => exact Le.refl _
    | true =>
      refine (Le.refl _).bind fun tok => (Le.refl _).bind fun file => ?_
      dsimp only
      split
      · exact Le.refl _
      · split
        · exact ih _
        · exact ih _

theorem parseargs_le (n : ℕ) (argv : List ω) (rs : List (Redir × ω)) :
    Le (I.parseargs n argv rs) (I.parseargs (n + 1) argv rs) := by
  induction n generalizing argv rs with
  | zero => exact stop_le _
  | succ n ih =>
    rw [Input.parseargs, Input.parseargs]
    refine (Le.refl _).bind fun b => ?_
    cases b with
    | true => exact Le.refl _
    | false =>
      refine (Le.refl _).bind fun tok => ?_
      dsimp only
      split
      · exact Le.refl _
      split
      · exact Le.refl _
      split
      · exact Le.refl _
      · exact (parseredirs_le I n rs).bind fun rs => ih _ rs

theorem parsebacks_le (n : ℕ) (c : Cmd ω) :
    Le (I.parsebacks n c) (I.parsebacks (n + 1) c) := by
  induction n generalizing c with
  | zero => exact stop_le _
  | succ n ih =>
    rw [Input.parsebacks, Input.parsebacks]
    refine (Le.refl _).bind fun b => ?_
    cases b with
    | true => exact (Le.refl _).bind fun _ => ih _
    | false => exact Le.refl _

theorem parser_le (n : ℕ) :
    Le (I.parseline n) (I.parseline (n + 1)) ∧ Le (I.parsepipe n) (I.parsepipe (n + 1)) ∧
    Le (I.parseblock n) (I.parseblock (n + 1)) ∧ Le (I.parseexec n) (I.parseexec (n + 1)) := by
  induction n with
  | zero => exact ⟨stop_le _, stop_le _, stop_le _, stop_le _⟩
  | succ n ih =>
    obtain ⟨hline, hpipe, hblock, hexec⟩ := ih
    refine ⟨?_, ?_, ?_, ?_⟩
    · rw [Input.parseline, Input.parseline]
      refine hpipe.bind fun c => (parsebacks_le I n c).bind fun c => (Le.refl _).bind fun b => ?_
      cases b with
      | true => exact (Le.refl _).bind fun _ => hline.bind fun _ => Le.refl _
      | false => exact Le.refl _
    · rw [Input.parsepipe, Input.parsepipe]
      refine hexec.bind fun c => (Le.refl _).bind fun b => ?_
      cases b with
      | true => exact (Le.refl _).bind fun _ => hpipe.bind fun _ => Le.refl _
      | false => exact Le.refl _
    · rw [Input.parseblock, Input.parseblock]
      refine (Le.refl _).bind fun b => ?_
      cases b with
      | false => exact Le.refl _
      | true =>
        refine (Le.refl _).bind fun _ => hline.bind fun c => (Le.refl _).bind fun b => ?_
        cases b with
        | false => exact Le.refl _
        | true => exact (Le.refl _).bind fun _ => (parseredirs_le I n []).bind fun _ => Le.refl _
    · rw [Input.parseexec, Input.parseexec]
      refine (Le.refl _).bind fun b => ?_
      cases b with
      | true => exact hblock
      | false => exact (parseredirs_le I n []).bind fun rs => parseargs_le I n [] rs

end Depth

/-! ### Two inputs that answer the same -/

section Alike

variable {σ τ ω υ : Type}

/-- The same command over related words. -/
inductive CmdRel (W : ω → υ → Prop) : Cmd ω → Cmd υ → Prop
  | exec {a : List ω} {b : List υ} : List.Forall₂ W a b → CmdRel W (.exec a) (.exec b)
  | redir {c : Cmd ω} {d : Cmd υ} {f : ω} {g : υ} (r : Redir) : CmdRel W c d → W f g →
      CmdRel W (.redir c f r) (.redir d g r)
  | pipe {c c' : Cmd ω} {d d' : Cmd υ} : CmdRel W c d → CmdRel W c' d' →
      CmdRel W (.pipe c c') (.pipe d d')
  | list {c c' : Cmd ω} {d d' : Cmd υ} : CmdRel W c d → CmdRel W c' d' →
      CmdRel W (.list c c') (.list d d')
  | back {c : Cmd ω} {d : Cmd υ} : CmdRel W c d → CmdRel W (.back c) (.back d)

/-- The same redirections over related words. -/
abbrev RedirsRel (W : ω → υ → Prop) : List (Redir × ω) → List (Redir × υ) → Prop :=
  List.Forall₂ fun a b => a.1 = b.1 ∧ W a.2 b.2

theorem CmdRel.redircmds {W : ω → υ → Prop} {c : Cmd ω} {d : Cmd υ} {rs : List (Redir × ω)}
    {us : List (Redir × υ)} (hc : CmdRel W c d) (h : RedirsRel W rs us) :
    CmdRel W (redircmds c rs) (redircmds d us) := by
  induction h generalizing c d with
  | nil => exact hc
  | @cons a b _ _ hab _ ih =>
    obtain ⟨r, f⟩ := a
    obtain ⟨r', g⟩ := b
    obtain ⟨rfl, hw⟩ : r = r' ∧ W f g := hab
    exact ih (.redir r hc hw)

/-- From related cursors the two inputs answer the same, and the words they find are related. -/
structure Input.Same (I : Input σ ω) (J : Input τ υ) (R : σ → τ → Prop) (W : ω → υ → Prop) :
    Prop where
  peek : ∀ toks, toks ⊆ symbols → ∀ s t, R s t →
    (I.peek toks s).1 = (J.peek toks t).1 ∧ R (I.peek toks s).2 (J.peek toks t).2
  ret : ∀ s t, R s t → (I.gettoken s).ret = (J.gettoken t).ret
  word : ∀ s t, R s t → (I.gettoken s).ret = ch 'a' → W (I.gettoken s).word (J.gettoken t).word
  next : ∀ s t, R s t → R (I.gettoken s).next (J.gettoken t).next

namespace Input.Same

variable {I : Input σ ω} {J : Input τ υ} {R : σ → τ → Prop} {W : ω → υ → Prop}
  {rs : List (Redir × ω)} {us : List (Redir × υ)} {toks : List UInt8}

theorem peeks (h : I.Same J R W) (hsub : toks ⊆ symbols) :
    Alike R Eq (I.peeks toks) (J.peeks toks) := by
  intro s t hR
  obtain ⟨heq, hR'⟩ := h.peek toks hsub s t hR
  exact .ok heq hR'

theorem token (h : I.Same J R W) :
    Alike R (fun a b => a.1 = b.1 ∧ (a.1 = ch 'a' → W a.2 b.2)) I.token J.token :=
  fun s t hR => .ok ⟨h.ret s t hR, h.word s t hR⟩ (h.next s t hR)

/-- A question and what is done after each answer. -/
theorem ask (h : I.Same J R W) (hsub : toks ⊆ symbols) {α β : Type} {P : α → β → Prop}
    {f : Bool → Parser Panic σ α} {g : Bool → Parser Panic τ β} (hfg : ∀ b, Alike R P (f b) (g b)) :
    Alike R P (I.peeks toks >>= f) (J.peeks toks >>= g) := by
  refine (h.peeks hsub).bind ?_
  rintro b _ rfl
  exact hfg b

/-- A token and what is done with it. -/
theorem take (h : I.Same J R W) {α β : Type} {P : α → β → Prop}
    {f : UInt8 × ω → Parser Panic σ α} {g : UInt8 × υ → Parser Panic τ β}
    (hfg : ∀ tok w u, (tok = ch 'a' → W w u) → Alike R P (f (tok, w)) (g (tok, u))) :
    Alike R P (I.token >>= f) (J.token >>= g) := by
  refine h.token.bind ?_
  rintro ⟨tok, w⟩ ⟨_, u⟩ ⟨rfl, hw⟩
  exact hfg tok w u hw

theorem parseredirs (h : I.Same J R W) (n : ℕ) (hrs : RedirsRel W rs us) :
    Alike R (RedirsRel W) (I.parseredirs n rs) (J.parseredirs n us) := by
  induction n generalizing rs us with
  | zero => exact .stop
  | succ n ih =>
    unfold Input.parseredirs
    refine h.ask (by decide) fun b => ?_
    cases b with
    | false => exact .pure hrs
    | true =>
      refine h.take fun tok _ _ _ => h.take fun ret w u hw => ?_
      show Alike R _ (if ret ≠ ch 'a' then _ else _) (if ret ≠ ch 'a' then _ else _)
      by_cases ha : ret = ch 'a'
      · rw [if_neg (not_not.mpr ha), if_neg (not_not.mpr ha)]
        cases Redir.ofToken tok with
        | none => exact ih hrs
        | some r => exact ih (List.rel_append hrs (.cons ⟨rfl, hw ha⟩ .nil))
      · rw [if_pos ha, if_pos ha]
        exact .fail _

theorem parseargs (h : I.Same J R W) (n : ℕ) {a : List ω} {b : List υ} (hab : List.Forall₂ W a b)
    (hrs : RedirsRel W rs us) : Alike R (CmdRel W) (I.parseargs n a rs) (J.parseargs n b us) := by
  induction n generalizing a b rs us with
  | zero => exact .stop
  | succ n ih =>
    have hdone := (CmdRel.exec hab).redircmds hrs
    unfold Input.parseargs
    refine h.ask (by decide) fun stop => ?_
    cases stop with
    | true => exact .pure hdone
    | false =>
      refine h.take fun tok w u hw => ?_
      show Alike R _ (if tok = 0 then _ else if tok ≠ ch 'a' then _ else _)
        (if tok = 0 then _ else if tok ≠ ch 'a' then _ else _)
      by_cases h0 : tok = 0
      · rw [if_pos h0, if_pos h0]
        exact .pure hdone
      rw [if_neg h0, if_neg h0]
      by_cases ha : tok = ch 'a'
      swap
      · rw [if_pos ha, if_pos ha]
        exact .fail _
      rw [if_neg (not_not.mpr ha), if_neg (not_not.mpr ha)]
      have hwords : List.Forall₂ W (a ++ [w]) (b ++ [u]) := List.rel_append hab (.cons (hw ha) .nil)
      rw [hwords.length_eq]
      by_cases hmax : (b ++ [u]).length ≥ MAXARGS
      · rw [if_pos hmax, if_pos hmax]
        exact .fail _
      · rw [if_neg hmax, if_neg hmax]
        exact (h.parseredirs n hrs).bind fun rs us hrs => ih hwords hrs

theorem parsebacks (h : I.Same J R W) (n : ℕ) {c : Cmd ω} {d : Cmd υ} (hcd : CmdRel W c d) :
    Alike R (CmdRel W) (I.parsebacks n c) (J.parsebacks n d) := by
  induction n generalizing c d with
  | zero => exact .stop
  | succ n ih =>
    unfold Input.parsebacks
    refine h.ask (by decide) fun b => ?_
    cases b with
    | true => exact h.take fun _ _ _ _ => ih (.back hcd)
    | false => exact .pure hcd

/-- On two inputs that answer the same the parser does the same. -/
theorem parser (h : I.Same J R W) (n : ℕ) :
    Alike R (CmdRel W) (I.parseline n) (J.parseline n) ∧
    Alike R (CmdRel W) (I.parsepipe n) (J.parsepipe n) ∧
    Alike R (CmdRel W) (I.parseblock n) (J.parseblock n) ∧
    Alike R (CmdRel W) (I.parseexec n) (J.parseexec n) := by
  induction n with
  | zero => exact ⟨.stop, .stop, .stop, .stop⟩
  | succ n ih =>
    obtain ⟨hline, hpipe, hblock, hexec⟩ := ih
    refine ⟨?_, ?_, ?_, ?_⟩
    · unfold Input.parseline
      refine hpipe.bind fun c d hcd => (h.parsebacks n hcd).bind fun c d hcd => ?_
      refine h.ask (by decide) fun b => ?_
      cases b with
      | true => exact h.take fun _ _ _ _ => hline.bind fun _ _ hr => .pure (.list hcd hr)
      | false => exact .pure hcd
    · unfold Input.parsepipe
      refine hexec.bind fun c d hcd => h.ask (by decide) fun b => ?_
      cases b with
      | true => exact h.take fun _ _ _ _ => hpipe.bind fun _ _ hr => .pure (.pipe hcd hr)
      | false => exact .pure hcd
    · unfold Input.parseblock
      refine h.ask (by decide) fun b => ?_
      cases b with
      | false => exact .fail _
      | true =>
        refine h.take fun _ _ _ _ => hline.bind fun c d hcd => h.ask (by decide) fun b => ?_
        cases b with
        | false => exact .fail _
        | true =>
          exact h.take fun _ _ _ _ =>
            (h.parseredirs n .nil).bind fun _ _ hrs => .pure (hcd.redircmds hrs)
    · unfold Input.parseexec
      refine h.ask (by decide) fun b => ?_
      cases b with
      | true => exact hblock
      | false => exact (h.parseredirs n .nil).bind fun _ _ hrs => h.parseargs n .nil hrs

end Input.Same

end Alike

/-! ### The tokens of a line -/

/-- The token a symbol stands for by itself. -/
def Tok.ofSymbol (c : UInt8) : Option Tok :=
  if c = ch '<' then some .lt
  else if c = ch '>' then some .gt
  else if c = ch '|' then some .bar
  else if c = ch '&' then some .amp
  else if c = ch ';' then some .semi
  else if c = ch '(' then some .lparen
  else if c = ch ')' then some .rparen
  else none

/-- The tokens of a line: its symbols, `>>` as one of them, and its longest runs of bytes that are neither
white space nor symbols. -/
def tokens : List UInt8 → List Tok
  | [] => []
  | c :: cs =>
    if strchr whitespace c then tokens cs
    else if c = ch '>' ∧ cs.head? = some (ch '>') then .gtgt :: tokens cs.tail
    else
      match Tok.ofSymbol c with
      | some t => t :: tokens cs
      | none => .word (c :: cs.takeWhile wordChar) :: tokens (cs.dropWhile wordChar)
termination_by l => l.length
decreasing_by
  · simp
  · exact Nat.lt_succ_of_le (List.tail_sublist cs).length_le
  · simp
  · exact Nat.lt_succ_of_le (List.dropWhile_sublist _).length_le

section Tokens

variable {c : UInt8} {cs : List UInt8}

theorem mem_symbols (h : strchr symbols c) :
    c = ch '<' ∨ c = ch '|' ∨ c = ch '>' ∨ c = ch '&' ∨ c = ch ';' ∨ c = ch '(' ∨ c = ch ')' := by
  simpa [strchr, symbols] using h

theorem ofSymbol_of_word (h : strchr symbols c = false) : Tok.ofSymbol c = none := by
  simp only [strchr, symbols, List.contains_cons, List.contains_nil, Bool.or_eq_false_iff,
    beq_eq_false_iff_ne] at h
  simp [Tok.ofSymbol, h]

theorem tokens_white (h : strchr whitespace c) : tokens (c :: cs) = tokens cs := by
  rw [tokens, if_pos h]

theorem tokens_gtgt : tokens (ch '>' :: ch '>' :: cs) = .gtgt :: tokens cs := by
  rw [tokens, if_neg (by decide), if_pos ⟨rfl, rfl⟩]
  rfl

theorem tokens_symbol {t : Tok} (h : strchr symbols c) (ht : Tok.ofSymbol c = some t)
    (hgt : ¬(c = ch '>' ∧ cs.head? = some (ch '>'))) : tokens (c :: cs) = t :: tokens cs := by
  have hwhite : ¬strchr whitespace c := by
    obtain rfl | rfl | rfl | rfl | rfl | rfl | rfl := mem_symbols h <;> decide
  rw [tokens, if_neg hwhite, if_neg hgt, ht]

theorem tokens_word (h : wordChar c) :
    tokens (c :: cs) = .word (c :: cs.takeWhile wordChar) :: tokens (cs.dropWhile wordChar) := by
  simp only [wordChar, Bool.and_eq_true, Bool.not_eq_true'] at h
  have hgt : c ≠ ch '>' := by
    rintro rfl
    exact absurd h.2 (by decide)
  rw [tokens, if_neg (by simp [h.1]), if_neg (fun hc => hgt hc.1), ofSymbol_of_word h.2]

/-- White space is between the tokens. -/
theorem tokens_dropWhile (l : List UInt8) :
    tokens (l.dropWhile (strchr whitespace)) = tokens l := by
  induction l with
  | nil => rfl
  | cons c cs ih =>
    by_cases h : strchr whitespace c
    · rw [List.dropWhile_cons_of_pos h, ih, tokens_white h]
    · rw [List.dropWhile_cons_of_neg h]

end Tokens

/-! ### The bytes under a cursor -/

section Bytes

variable {buf : List UInt8} {p : UInt8 → Bool} {s : ℕ} {c : UInt8} {cs : List UInt8}

theorem charAt_of_drop (h : buf.drop s = c :: cs) : charAt buf s = c := by
  rw [charAt, List.getD_eq_getElem?_getD, ← List.head?_drop, h]
  rfl

theorem charAt_length : charAt buf buf.length = 0 := by
  simp [charAt]

theorem drop_of_charAt (h : charAt buf s = c) (h0 : c ≠ 0) : ∃ cs, buf.drop s = c :: cs := by
  cases hd : buf.drop s with
  | nil =>
    rw [charAt, List.getD_eq_getElem?_getD, ← List.head?_drop, hd] at h
    exact absurd h.symm h0
  | cons d cs =>
    rw [charAt_of_drop hd] at h
    exact ⟨cs, by rw [h]⟩

theorem drop_succ (h : buf.drop s = c :: cs) : buf.drop (s + 1) = cs := by
  rw [← List.drop_drop, h]
  rfl

theorem lt_of_drop (h : buf.drop s = c :: cs) : s < buf.length := by
  by_contra hs
  rw [List.drop_eq_nil_of_le (by omega)] at h
  cases h

theorem skipFor_eq (p : UInt8 → Bool) (n : ℕ) (hs : s + n = buf.length) :
    skipFor p buf n s = s + ((buf.drop s).takeWhile p).length := by
  induction n generalizing s with
  | zero =>
    rw [List.drop_eq_nil_of_le (by omega)]
    rfl
  | succ n ih =>
    obtain ⟨c, cs, hd⟩ : ∃ c cs, buf.drop s = c :: cs :=
      ⟨buf.get ⟨s, by omega⟩, buf.drop (s + 1), List.drop_eq_getElem_cons (by omega)⟩
    rw [skipFor, charAt_of_drop hd, hd]
    by_cases hp : p c
    · rw [if_pos hp, ih (by omega), drop_succ hd, List.takeWhile_cons_of_pos hp, List.length_cons]
      omega
    · rw [if_neg hp, List.takeWhile_cons_of_neg hp]
      rfl

theorem skip_eq (p : UInt8 → Bool) (hs : s ≤ buf.length) :
    skip p buf s = s + ((buf.drop s).takeWhile p).length :=
  skipFor_eq p _ (by omega)

theorem skip_le (p : UInt8 → Bool) (hs : s ≤ buf.length) : skip p buf s ≤ buf.length := by
  have hle : ((buf.drop s).takeWhile p).length ≤ (buf.drop s).length :=
    (List.takeWhile_sublist p).length_le
  rw [List.length_drop] at hle
  rw [skip_eq p hs]
  omega

theorem drop_takeWhile (p : UInt8 → Bool) (l : List UInt8) :
    l.drop (l.takeWhile p).length = l.dropWhile p := by
  calc l.drop (l.takeWhile p).length
      = (l.takeWhile p ++ l.dropWhile p).drop (l.takeWhile p).length := by
        rw [List.takeWhile_append_dropWhile]
    _ = l.dropWhile p := List.drop_left

theorem drop_skip (p : UInt8 → Bool) (hs : s ≤ buf.length) :
    buf.drop (skip p buf s) = (buf.drop s).dropWhile p := by
  rw [skip_eq p hs, ← List.drop_drop]
  exact drop_takeWhile p (buf.drop s)

/-- A word stands between the two indices: a longest run of bytes that may be part of a word. -/
def IsWord (buf : List UInt8) (p : ℕ × ℕ) (w : List UInt8) : Prop :=
  (buf.drop p.1).takeWhile wordChar = w ∧ p.2 = p.1 + w.length

theorem tokenAt_symbol (hchar : charAt buf s = c) (hsym : strchr symbols c)
    (hgt : ¬(c = ch '>' ∧ charAt buf (s + 1) = ch '>')) : tokenAt buf s = (c, s + 1) := by
  unfold tokenAt
  rw [hchar]
  obtain rfl | rfl | rfl | rfl | rfl | rfl | rfl := mem_symbols hsym
  case inr.inr.inl =>
    have hnext : charAt buf (s + 1) ≠ ch '>' := fun h => hgt ⟨rfl, h⟩
    simp [hnext]
    decide
  all_goals rfl

theorem tokenAt_gtgt (hchar : charAt buf s = ch '>') (hnext : charAt buf (s + 1) = ch '>') :
    tokenAt buf s = (ch '+', s + 2) := by
  unfold tokenAt
  rw [hchar, hnext]
  rfl

theorem tokenAt_word (hchar : charAt buf s = c) (h0 : c ≠ 0) (hword : wordChar c) :
    tokenAt buf s = (ch 'a', skip wordChar buf s) := by
  have hsym : strchr symbols c = false := by
    simp only [wordChar, Bool.and_eq_true, Bool.not_eq_true'] at hword
    exact hword.2
  simp only [strchr, symbols, List.contains_cons, List.contains_nil, Bool.or_eq_false_iff,
    beq_eq_false_iff_ne] at hsym
  simp [tokenAt, hchar, h0, hsym]

/-- What stands at a byte that is not white space: the first of the tokens from there on. -/
theorem tokenAt_spec (hs : buf.drop s = c :: cs) (hwhite : strchr whitespace c = false)
    (h0 : c ≠ 0) :
    ∃ t e, tokenAt buf s = (t.code, e) ∧ e ≤ buf.length ∧
      tokens (c :: cs) = t :: tokens (buf.drop e) ∧
      (t.symbol = if strchr symbols c then some c else none) ∧
      (t.code = ch 'a' → IsWord buf (s, e) t.text) := by
  have hlt := lt_of_drop hs
  have hchar := charAt_of_drop hs
  have hnext := drop_succ hs
  by_cases hsym : strchr symbols c
  swap
  · have hword : wordChar c := by simp [wordChar, hwhite, hsym]
    refine ⟨.word (c :: cs.takeWhile wordChar), skip wordChar buf s, tokenAt_word hchar h0 hword,
      skip_le _ (Nat.le_of_lt hlt), ?_, by rw [if_neg hsym]; rfl, fun _ => ⟨?_, ?_⟩⟩
    · rw [tokens_word hword, drop_skip _ (Nat.le_of_lt hlt), hs, List.dropWhile_cons_of_pos hword]
    · show (buf.drop s).takeWhile wordChar = c :: cs.takeWhile wordChar
      rw [hs, List.takeWhile_cons_of_pos hword]
    · show skip wordChar buf s = s + (c :: cs.takeWhile wordChar).length
      rw [skip_eq _ (Nat.le_of_lt hlt), hs, List.takeWhile_cons_of_pos hword]
  rw [if_pos hsym]
  by_cases hgt : c = ch '>' ∧ charAt buf (s + 1) = ch '>'
  · obtain ⟨rfl, hgg⟩ := hgt
    obtain ⟨ds, hds⟩ := drop_of_charAt hgg (by decide)
    obtain rfl : cs = ch '>' :: ds := hnext.symm.trans hds
    refine ⟨.gtgt, s + 2, tokenAt_gtgt hchar hgg, lt_of_drop hds, ?_, rfl, fun h => ?_⟩
    · rw [tokens_gtgt, drop_succ hds]
    · exact absurd h (by decide)
  · obtain ⟨t, ht, htsym, htcode⟩ : ∃ t, Tok.ofSymbol c = some t ∧ t.symbol = some c ∧ t.code = c := by
      obtain rfl | rfl | rfl | rfl | rfl | rfl | rfl := mem_symbols hsym
      all_goals exact ⟨_, rfl, rfl, rfl⟩
    have hgt' : ¬(c = ch '>' ∧ cs.head? = some (ch '>')) := by
      rintro ⟨rfl, hhead⟩
      obtain ⟨ds, rfl⟩ := List.head?_eq_some_iff.mp hhead
      exact hgt ⟨rfl, charAt_of_drop hnext⟩
    refine ⟨t, s + 1, ?_, hlt, ?_, htsym, fun h => ?_⟩
    · rw [tokenAt_symbol hchar hsym hgt, htcode]
    · rw [tokens_symbol hsym ht hgt', hnext]
    · rw [htcode] at h
      subst h
      exact absurd hsym (by decide)

end Bytes

/-- The cursor `s` stands before the tokens. -/
def Before (buf : List UInt8) (s : ℕ) (ts : List Tok) : Prop :=
  s ≤ buf.length ∧ tokens (buf.drop s) = ts

variable {ts : List Tok} {buf : List UInt8} {s : ℕ}

theorem Before.skip_white (h : Before buf s ts) :
    Before buf (skip (strchr whitespace) buf s) ts := by
  refine ⟨skip_le _ h.1, ?_⟩
  rw [drop_skip _ h.1, tokens_dropWhile]
  exact h.2

theorem Before.cases (h0 : 0 ∉ buf) (h : Before buf s ts) :
    skip (strchr whitespace) buf s = buf.length ∧ ts = [] ∨
    ∃ t e us, ts = t :: us ∧ Before buf e us ∧
      tokenAt buf (skip (strchr whitespace) buf s) = (t.code, e) ∧
      charAt buf (skip (strchr whitespace) buf s) ≠ 0 ∧
      (t.symbol = if strchr symbols (charAt buf (skip (strchr whitespace) buf s))
        then some (charAt buf (skip (strchr whitespace) buf s)) else none) ∧
      (t.code = ch 'a' → IsWord buf (skip (strchr whitespace) buf s, e) t.text) := by
  have hq := h.skip_white
  have hdrop := drop_skip (strchr whitespace) h.1
  generalize skip (strchr whitespace) buf s = q at *
  cases hcs : buf.drop q with
  | nil =>
    refine .inl ⟨Nat.le_antisymm hq.1 (List.drop_eq_nil_iff.mp hcs), ?_⟩
    rw [← hq.2, hcs, tokens]
  | cons c cs =>
    have hwhite : strchr whitespace c = false := by
      have hhead := List.head?_dropWhile_not (strchr whitespace) (buf.drop s)
      rw [← hdrop, hcs] at hhead
      simpa using hhead
    have hc0 : c ≠ 0 := by
      rintro rfl
      exact h0 (List.mem_of_mem_drop (hcs ▸ List.mem_cons_self))
    obtain ⟨t, e, hat, hle, htoks, hsym, hword⟩ := tokenAt_spec hcs hwhite hc0
    rw [← hcs, hq.2] at htoks
    rw [charAt_of_drop hcs]
    exact .inr ⟨t, e, _, htoks, ⟨hle, rfl⟩, hat, hc0, hsym, hword⟩

theorem lineInput_same (h0 : 0 ∉ buf) :
    (lineInput buf).Same tokenInput (Before buf) (IsWord buf) where
  peek toks hsub s ts hR := by
    refine ⟨?_, hR.skip_white⟩
    show (decide (charAt buf (skip (strchr whitespace) buf s) ≠ 0) &&
      strchr toks (charAt buf (skip (strchr whitespace) buf s))) = starts toks ts
    obtain ⟨hq, rfl⟩ | ⟨t, e, us, rfl, -, -, hne, hsym, -⟩ := hR.cases h0
    · simp [hq, charAt_length, starts]
    · generalize charAt buf (skip (strchr whitespace) buf s) = c at *
      by_cases hs : strchr symbols c
      · rw [if_pos hs] at hsym
        simp [starts, hsym, hne]
      · have htoks : strchr toks c = false := by
          simp only [strchr, List.contains_iff_mem] at hs
          simpa [strchr] using fun hc => hs (hsub hc)
        rw [if_neg hs] at hsym
        simp [starts, hsym, htoks]
  ret s ts hR := by
    show (tokenAt buf (skip (strchr whitespace) buf s)).1 = _
    obtain ⟨hq, rfl⟩ | ⟨t, e, us, rfl, -, hat, -⟩ := hR.cases h0
    · simp [hq, tokenAt, charAt_length, tokenInput]
    · rw [hat]
      rfl
  word s ts hR ha := by
    replace ha : (tokenAt buf (skip (strchr whitespace) buf s)).1 = ch 'a' := ha
    show IsWord buf (_, (tokenAt buf (skip (strchr whitespace) buf s)).2) _
    obtain ⟨hq, rfl⟩ | ⟨t, e, us, rfl, -, hat, -, -, hword⟩ := hR.cases h0
    · simp only [hq, tokenAt, charAt_length, if_true] at ha
      exact absurd ha (by decide)
    · rw [hat] at ha ⊢
      exact hword ha
  next s ts hR := by
    show Before buf (skip (strchr whitespace) buf
      (tokenAt buf (skip (strchr whitespace) buf s)).2) _
    obtain ⟨hq, rfl⟩ | ⟨t, e, us, rfl, he, hat, -⟩ := hR.cases h0
    · have hend : (tokenAt buf (skip (strchr whitespace) buf s)).2 = buf.length := by
        simp [hq, tokenAt, charAt_length]
      rw [hend]
      refine Before.skip_white ⟨Nat.le_refl _, ?_⟩
      rw [List.drop_length, tokens]
      rfl
    · rw [hat]
      exact he.skip_white

/-! ### Words as strings -/

section Nul

variable {buf : List UInt8}

/-- Where the words of the command end. -/
def ends : Cmd (ℕ × ℕ) → List ℕ
  | .exec argv => argv.map Prod.snd
  | .redir cmd file _ => ends cmd ++ [file.2]
  | .pipe left right => ends left ++ ends right
  | .list left right => ends left ++ ends right
  | .back cmd => ends cmd

theorem nulterminate_eq (c : Cmd (ℕ × ℕ)) (buf : List UInt8) :
    nulterminate c buf = (ends c).foldl (fun b e => b.set e 0) buf := by
  induction c generalizing buf with
  | exec argv => rw [nulterminate, ends, List.foldl_map]
  | redir c f r ih => rw [nulterminate, ends, ih, List.foldl_append]; rfl
  | pipe l r ihl ihr => rw [nulterminate, ends, ihl, ihr, List.foldl_append]
  | list l r ihl ihr => rw [nulterminate, ends, ihl, ihr, List.foldl_append]
  | back c ih => rw [nulterminate, ends, ih]

theorem charAt_set (buf : List UInt8) (e i : ℕ) :
    charAt (buf.set e 0) i = if i = e then 0 else charAt buf i := by
  by_cases hi : i = e
  · subst hi
    by_cases hlt : i < buf.length
    · simp [charAt, hlt]
    · rw [if_pos rfl, List.set_eq_of_length_le (Nat.le_of_not_lt hlt)]
      simp [charAt, List.getElem?_eq_none (Nat.le_of_not_lt hlt)]
  · simp [charAt, hi, Ne.symm hi]

theorem charAt_foldl_set (es : List ℕ) (buf : List UInt8) (i : ℕ) :
    charAt (es.foldl (fun b e => b.set e 0) buf) i = if i ∈ es then 0 else charAt buf i := by
  induction es generalizing buf with
  | nil => simp
  | cons e es ih =>
    rw [List.foldl_cons, ih, charAt_set]
    by_cases hi : i ∈ es
    · rw [if_pos hi, if_pos (List.mem_cons_of_mem e hi)]
    · rw [if_neg hi]
      by_cases he : i = e
      · rw [if_pos he, if_pos (he ▸ List.mem_cons_self)]
      · rw [if_neg he, if_neg (by simp [he, hi])]

variable {w : List UInt8} {es : List ℕ} {d : Cmd (List UInt8)}

/-- The bytes of a string and the NUL byte behind it. -/
theorem cstring_eq {q : ℕ} (h0 : 0 ∉ w) (h : ∀ j ≤ w.length, charAt buf (q + j) = charAt w j) :
    cstring buf q = w := by
  induction w generalizing q with
  | nil =>
    have hq : charAt buf q = 0 := h 0 (Nat.le_refl 0)
    unfold cstring
    cases hd : buf.drop q with
    | nil => rfl
    | cons c cs =>
      rw [charAt_of_drop hd] at hq
      simp [hq]
  | cons c w ih =>
    have hc0 : c ≠ 0 := fun hc => h0 (hc ▸ List.mem_cons_self)
    have hq : charAt buf q = c := h 0 (Nat.zero_le _)
    obtain ⟨cs, hd⟩ := drop_of_charAt hq hc0
    have htail : cstring buf (q + 1) = w := by
      refine ih (fun hw => h0 (List.mem_cons_of_mem c hw)) fun j hj => ?_
      have hsucc := h (j + 1) (by rw [List.length_cons]; omega)
      rw [Nat.add_right_comm, Nat.add_assoc, hsucc]
      rfl
    unfold cstring at htail ⊢
    rw [drop_succ hd] at htail
    rw [hd, List.takeWhile_cons_of_pos (by simpa using hc0), htail]

/-- No word goes on at this index. -/
def WordEnd (buf : List UInt8) (e : ℕ) : Prop := ∀ c cs, buf.drop e = c :: cs → wordChar c = false

variable {c : Cmd (ℕ × ℕ)} {b : List (List UInt8)} {a : List (ℕ × ℕ)} {p : ℕ × ℕ}

theorem IsWord.word_end (h : IsWord buf p w) : WordEnd buf p.2 := by
  intro c cs hd
  have hhead := List.head?_dropWhile_not wordChar (buf.drop p.1)
  rw [← drop_takeWhile, h.1, List.drop_drop, ← h.2, hd] at hhead
  simpa using hhead

/-- Inside a word stand its bytes. -/
theorem IsWord.inside (h : IsWord buf p w) {j : ℕ} (hj : j < w.length) :
    ∃ cs, buf.drop (p.1 + j) = charAt w j :: cs ∧ wordChar (charAt w j) = true := by
  obtain ⟨c, cs, hd⟩ : ∃ c cs, w.drop j = c :: cs :=
    ⟨w.get ⟨j, hj⟩, w.drop (j + 1), List.drop_eq_getElem_cons hj⟩
  rw [charAt_of_drop hd, ← List.drop_drop, ← List.takeWhile_append_dropWhile (p := wordChar)
    (l := buf.drop p.1), h.1, List.drop_append_of_le_length (Nat.le_of_lt hj), hd]
  refine ⟨cs ++ (buf.drop p.1).dropWhile wordChar, rfl, ?_⟩
  refine List.mem_takeWhile_imp (l := buf.drop p.1) ?_
  rw [h.1]
  exact List.mem_of_mem_drop (hd ▸ List.mem_cons_self)

/-- Once NUL bytes stand behind words only, the word that ends at one of them is a string. -/
theorem IsWord.cstring (h : IsWord buf p w) (h0 : 0 ∉ buf) (hes : ∀ e ∈ es, WordEnd buf e)
    (hp : p.2 ∈ es) : cstring (es.foldl (fun b e => b.set e 0) buf) p.1 = w := by
  have hw0 : 0 ∉ w := fun hw =>
    h0 (List.mem_of_mem_drop (List.takeWhile_subset _ (h.1.symm ▸ hw)))
  refine cstring_eq hw0 fun j hj => ?_
  rw [charAt_foldl_set]
  obtain hlt | rfl := Nat.lt_or_eq_of_le hj
  · obtain ⟨cs, hd, hword⟩ := h.inside hlt
    have hnot : p.1 + j ∉ es := by
      intro hmem
      rw [hes _ hmem _ _ hd] at hword
      cases hword
    rw [if_neg hnot, charAt_of_drop hd]
  · rw [← h.2, if_pos hp, charAt_length]

theorem words_end (h : List.Forall₂ (IsWord buf) a b) : ∀ e ∈ a.map Prod.snd, WordEnd buf e := by
  induction h with
  | nil => exact fun e he => absurd he List.not_mem_nil
  | cons hw _ ih =>
    intro e he
    obtain rfl | he := List.mem_cons.mp he
    · exact hw.word_end
    · exact ih e he

theorem CmdRel.ends_word (h : CmdRel (IsWord buf) c d) : ∀ e ∈ ends c, WordEnd buf e := by
  induction h with
  | exec hab => exact words_end hab
  | redir r _ hw ih =>
    intro e he
    obtain he | he := List.mem_append.mp he
    · exact ih e he
    · rw [List.mem_singleton.mp he]
      exact hw.word_end
  | pipe _ _ ihl ihr => exact fun e he => (List.mem_append.mp he).elim (ihl e) (ihr e)
  | list _ _ ihl ihr => exact fun e he => (List.mem_append.mp he).elim (ihl e) (ihr e)
  | back _ ih => exact ih

theorem words_strings (h : List.Forall₂ (IsWord buf) a b) (h0 : 0 ∉ buf)
    (hes : ∀ e ∈ es, WordEnd buf e) (hsub : a.map Prod.snd ⊆ es) :
    List.Forall₂ (fun p w => cstring (es.foldl (fun b e => b.set e 0) buf) p.1 = w) a b := by
  induction h with
  | nil => exact .nil
  | cons hw _ ih =>
    rw [List.map_cons, List.cons_subset] at hsub
    exact .cons (hw.cstring h0 hes hsub.1) (ih hsub.2)

/-- With NUL bytes behind words only, and behind all words of the command, these are strings. -/
theorem CmdRel.strings (h : CmdRel (IsWord buf) c d) (h0 : 0 ∉ buf) (hes : ∀ e ∈ es, WordEnd buf e)
    (hsub : ends c ⊆ es) :
    CmdRel (fun p w => cstring (es.foldl (fun b e => b.set e 0) buf) p.1 = w) c d := by
  induction h with
  | exec hab => exact .exec (words_strings hab h0 hes hsub)
  | redir r _ hw ih =>
    refine .redir r (ih (List.append_subset.mp hsub).1) ?_
    exact hw.cstring h0 hes (hsub (by simp [ends]))
  | pipe _ _ ihl ihr =>
    obtain ⟨hl, hr⟩ := List.append_subset.mp hsub
    exact .pipe (ihl hl) (ihr hr)
  | list _ _ ihl ihr =>
    obtain ⟨hl, hr⟩ := List.append_subset.mp hsub
    exact .list (ihl hl) (ihr hr)
  | back _ ih => exact .back (ih hsub)

/-- Behind `nulterminate` the words of a command are strings. -/
theorem CmdRel.terminated (h : CmdRel (IsWord buf) c d) (h0 : 0 ∉ buf) :
    CmdRel (fun p w => cstring (nulterminate c buf) p.1 = w) c d := by
  rw [nulterminate_eq]
  exact h.strings h0 h.ends_word (List.Subset.refl _)

end Nul

/-! ### Printing -/

/-- The bytes of a word: at least one, and neither NUL nor white space nor symbols. -/
def WordBytes (w : List UInt8) : Prop := w ≠ [] ∧ ∀ c ∈ w, wordChar c = true ∧ c ≠ 0

/-- A word. -/
abbrev Word : Type := { w : List UInt8 // WordBytes w }

/-- The bytes of a token. -/
def Tok.bytes : Tok → List UInt8
  | word w => w
  | lt => [ch '<']
  | gt => [ch '>']
  | gtgt => [ch '>', ch '>']
  | bar => [ch '|']
  | amp => [ch '&']
  | semi => [ch ';']
  | lparen => [ch '(']
  | rparen => [ch ')']

/-- The tokens as text, each with a blank behind it. -/
def render (ts : List Tok) : List UInt8 := ts.flatMap fun t => t.bytes ++ [ch ' ']

namespace Cmd

/-- The command over the bytes of its words. -/
def texts : Cmd Word → Cmd (List UInt8)
  | exec argv => .exec (argv.map Subtype.val)
  | redir c f r => .redir c.texts f.1 r
  | pipe l r => .pipe l.texts r.texts
  | list l r => .list l.texts r.texts
  | back c => .back c.texts

/-- The tokens of a command, with parentheses around every command inside it. -/
def toks : Cmd Word → List Tok
  | exec argv => argv.map fun w => .word w.1
  | redir c f r => .lparen :: c.toks ++ [.rparen, r.tok, .word f.1]
  | pipe l r => .lparen :: l.toks ++ .rparen :: .bar :: .lparen :: r.toks ++ [.rparen]
  | list l r => .lparen :: l.toks ++ .rparen :: .semi :: .lparen :: r.toks ++ [.rparen]
  | back c => .lparen :: c.toks ++ [.rparen, .amp]

/-- The text of a command. -/
def print (c : Cmd Word) : List UInt8 := render c.toks

/-- No simple command has `MAXARGS` words. -/
def Fits : Cmd Word → Prop
  | exec argv => argv.length < MAXARGS
  | redir c _ _ => c.Fits
  | pipe l r => l.Fits ∧ r.Fits
  | list l r => l.Fits ∧ r.Fits
  | back c => c.Fits

end Cmd

theorem tokens_bytes {t : Tok} (ht : ∀ w, t = .word w → WordBytes w) (cs : List UInt8) :
    tokens (t.bytes ++ ch ' ' :: cs) = t :: tokens cs := by
  have hblank : tokens (ch ' ' :: cs) = tokens cs := tokens_white (by decide)
  have hsymbol : ∀ {c : UInt8} {t : Tok}, strchr symbols c → Tok.ofSymbol c = some t →
      tokens (c :: ch ' ' :: cs) = t :: tokens cs := by
    intro c t hc ht
    have hne : ¬(c = ch '>' ∧ (ch ' ' :: cs).head? = some (ch '>')) := fun h =>
      absurd (Option.some.inj h.2) (by decide)
    rw [tokens_symbol hc ht hne, hblank]
  cases t with
  | word w =>
    obtain ⟨hne, hw⟩ := ht w rfl
    obtain _ | ⟨c, w⟩ := w
    · exact absurd rfl hne
    have hall : ∀ c ∈ w, wordChar c = true := fun c hc => (hw c (List.mem_cons_of_mem _ hc)).1
    have hstop : wordChar (ch ' ') = false := by decide
    show tokens (c :: (w ++ ch ' ' :: cs)) = _
    rw [tokens_word (hw c List.mem_cons_self).1, List.takeWhile_append_of_pos hall,
      List.dropWhile_append_of_pos hall, List.takeWhile_cons_of_neg (by simp [hstop]),
      List.dropWhile_cons_of_neg (by simp [hstop]), List.append_nil, hblank]
  | gtgt => exact tokens_gtgt.trans (congrArg _ hblank)
  | _ => exact hsymbol (by decide) rfl

theorem tokens_render (h : ∀ w, .word w ∈ ts → WordBytes w) : tokens (render ts) = ts := by
  induction ts with
  | nil => exact tokens.eq_1
  | cons t ts ih =>
    have ht : ∀ w, t = .word w → WordBytes w := fun w hw => h w (hw ▸ List.mem_cons_self)
    rw [render, List.flatMap_cons, List.append_assoc, List.singleton_append, tokens_bytes ht]
    exact congrArg _ (ih fun w hw => h w (List.mem_cons_of_mem t hw))

theorem render_ne_zero (h : ∀ w, .word w ∈ ts → WordBytes w) : 0 ∉ render ts := by
  intro h0
  obtain ⟨t, ht, h0⟩ := List.mem_flatMap.mp h0
  obtain h0 | h0 := List.mem_append.mp h0
  · cases t with
    | word w => exact ((h _ ht).2 0 h0).2 rfl
    | _ => exact absurd h0 (by decide)
  · exact absurd h0 (by decide)

theorem Cmd.toks_words (c : Cmd Word) : ∀ w, .word w ∈ c.toks → WordBytes w := by
  induction c with
  | exec argv =>
    intro t ht
    obtain ⟨w, -, hw⟩ := List.mem_map.mp ht
    cases hw
    exact w.2
  | redir c f r ih =>
    intro w hw
    have hr : Tok.word w ≠ r.tok := by cases r <;> simp [Redir.tok]
    simp only [toks, List.cons_append, List.mem_cons, List.mem_append, reduceCtorEq, hr, false_or,
      List.not_mem_nil, or_false, Tok.word.injEq] at hw
    obtain hw | rfl := hw
    · exact ih w hw
    · exact f.2
  | pipe l r ihl ihr =>
    simpa [toks, or_imp, forall_and] using ⟨ihl, ihr⟩
  | list l r ihl ihr =>
    simpa [toks, or_imp, forall_and] using ⟨ihl, ihr⟩
  | back c ih => simpa [toks] using ih

/-- Words by themselves are a simple command. -/
theorem gen_words (ws : List (List UInt8)) (h : ws.length < MAXARGS) :
    Gen .exec (ws.map .word) (.exec ws) := by
  have hgen := Gen.simple [] (ws.map fun w => (w, [])) (by simpa using h)
  have htoks : argToks (ws.map fun w => (w, [])) = ws.map .word := by
    clear h hgen
    induction ws with
    | nil => rfl
    | cons w ws ih => simp [ih]
  have hredirs : (ws.map fun w => ((w, []) : Arg)).flatMap Prod.snd = [] := by simp
  have hwords : (ws.map fun w => ((w, []) : Arg)).map Prod.fst = ws := by
    simp [Function.comp_def]
  rwa [simpleCmd, hredirs, hwords, htoks] at hgen

/-- The text of a command is a line that stands for it. -/
theorem Cmd.gen_toks {c : Cmd Word} (h : c.Fits) : Gen .line c.toks c.texts := by
  induction c with
  | exec argv =>
    have hgen := Gen.line 0 (.single (gen_words (argv.map Subtype.val) (by simpa [Fits] using h)))
    simpa [toks, texts, backs, Function.comp_def] using hgen
  | redir c f r ih =>
    have hgen := Gen.line 0 (.single (.block [(r, f.1)] (ih h)))
    simpa [toks, texts, backs, redircmds] using hgen
  | pipe l r ihl ihr =>
    have hgen := Gen.line 0 (.pipe (.block [] (ihl h.1)) (.single (.block [] (ihr h.2))))
    simpa [toks, texts, backs, redircmds] using hgen
  | list l r ihl ihr =>
    have hgen := Gen.list 0 (.single (.block [] (ihl h.1))) (.line 0 (.single (.block [] (ihr h.2))))
    simpa [toks, texts, backs, redircmds] using hgen
  | back c ih =>
    have hgen := Gen.line 1 (.single (.block [] (ih h)))
    simpa [toks, texts, backs, redircmds] using hgen

/-! ### The command line -/

/-- `parsecmd` ends on every line. It gives a command exactly if the tokens of the line are one of the
grammar, and then the words of that command are strings in the buffer. -/
theorem parsecmd_line (h0 : 0 ∉ buf) :
    (∃ N e, (∀ n ≥ N, parsecmd n buf = some (.error e)) ∧ ¬∃ c, Gen .line (tokens buf) c) ∨
    ∃ N d c, (∀ n ≥ N, parsecmd n buf = some (.ok (d, nulterminate d buf))) ∧
      Gen .line (tokens buf) c ∧
      CmdRel (fun p w => cstring (nulterminate d buf) p.1 = w) d c := by
  obtain ⟨r, hr⟩ := (parser_ends (tokens buf)).2
  obtain ⟨n, hn⟩ := hr.at_depth
  have hsame := ((lineInput_same h0).parser n).1 0 (tokens buf) ⟨Nat.zero_le _, rfl⟩
  rw [hn] at hsame
  generalize hline : (lineInput buf).parseline n 0 = q at hsame
  have hmono := fun n => (parser_le (lineInput buf) n).1
  cases hsame with
  | error e =>
    obtain ⟨N, hN⟩ := Gives.of_le hmono hline
    refine .inl ⟨N, e, fun m hm => ?_, ?_⟩
    · rw [parsecmd, hN m hm]
    · rintro ⟨c, hc⟩
      cases hr.unique (parseline_iff.mpr hc)
  | @ok d c s rest hrel hbefore =>
    obtain ⟨N, hN⟩ := Gives.of_le hmono hline
    obtain ⟨hend, rfl⟩ | ⟨t, e, us, rfl, -, -, hne, -⟩ := hbefore.cases h0
    · refine .inr ⟨N, d, c, fun m hm => ?_, parseline_iff.mp hr, hrel.terminated h0⟩
      rw [parsecmd, hN m hm]
      exact if_neg (not_not.mpr hend)
    · refine .inl ⟨N, .syntaxError, fun m hm => ?_, ?_⟩
      · rw [parsecmd, hN m hm]
        refine if_pos fun hend => hne ?_
        rw [show skip (strchr whitespace) buf s = buf.length from hend, charAt_length]
      · rintro ⟨c', hc'⟩
        cases hr.unique (parseline_iff.mpr hc')

/-- The parser of the shell accepts exactly its grammar, and reads back what is printed. On every line
`parsecmd` ends, and it succeeds if and only if the tokens of the line are a line of the grammar; then it
has built the command of that line, each of its arguments and file names a string in the buffer. From
the fully parenthesised text of any command it builds that command. -/
theorem parsecmd_grammar :
    (∀ buf : List UInt8, 0 ∉ buf →
      ∃ N r, (∀ n ≥ N, parsecmd n buf = some r) ∧
        ((∃ x, r = .ok x) ↔ ∃ c, Gen .line (tokens buf) c) ∧
        ∀ d buf', r = .ok (d, buf') →
          ∃ c, Gen .line (tokens buf) c ∧ CmdRel (fun p w => cstring buf' p.1 = w) d c) ∧
    ∀ c : Cmd Word, c.Fits →
      ∃ N d buf', (∀ n ≥ N, parsecmd n c.print = some (.ok (d, buf'))) ∧
        CmdRel (fun p w => cstring buf' p.1 = w) d c.texts := by
  refine ⟨fun buf h0 => ?_, fun c hc => ?_⟩
  · obtain ⟨N, e, hN, hno⟩ | ⟨N, d, c, hN, hgen, hrel⟩ := parsecmd_line h0
    · refine ⟨N, .error e, hN, ⟨?_, fun h => absurd h hno⟩, fun d b h => (nomatch h)⟩
      rintro ⟨x, hx⟩
      cases hx
    · refine ⟨N, _, hN, ⟨fun _ => ⟨c, hgen⟩, fun _ => ⟨_, rfl⟩⟩, ?_⟩
      intro d' buf' h
      cases h
      exact ⟨c, hgen, hrel⟩
  · have hgen : Gen .line (tokens c.print) c.texts := by
      rw [Cmd.print, tokens_render c.toks_words]
      exact c.gen_toks hc
    obtain ⟨N, e, -, hno⟩ | ⟨N, d, c', hN, hgen', hrel⟩ :=
      parsecmd_line (show 0 ∉ c.print from render_ne_zero c.toks_words)
    · exact absurd ⟨_, hgen⟩ hno
    · have heq := (parseline_iff.mpr hgen).unique (parseline_iff.mpr hgen')
      cases heq
      exact ⟨N, d, _, hN, hrel⟩

/-- `echo hi | wc > out`, with words of one byte. -/
def sampleCmd : Cmd Word :=
  .pipe (.exec [⟨[ch 'e'], by decide +kernel, by decide +kernel⟩,
      ⟨[ch 'h'], by decide +kernel, by decide +kernel⟩])
    (.redir (.exec [⟨[ch 'w'], by decide +kernel, by decide +kernel⟩])
      ⟨[ch 'o'], by decide +kernel, by decide +kernel⟩ .output)

/-- The sample is printed without a NUL byte, its text is a line of the grammar that ends, and it is read
back. -/
theorem parsecmd_grammar_sample :
    (0 ∉ sampleCmd.print ∧
      ∃ N r, (∀ n ≥ N, parsecmd n sampleCmd.print = some r) ∧
        ((∃ x, r = .ok x) ↔ ∃ c, Gen .line (tokens sampleCmd.print) c) ∧
        ∀ d buf', r = .ok (d, buf') →
          ∃ c, Gen .line (tokens sampleCmd.print) c ∧
            CmdRel (fun p w => cstring buf' p.1 = w) d c) ∧
    sampleCmd.Fits ∧
      ∃ N d buf', (∀ n ≥ N, parsecmd n sampleCmd.print = some (.ok (d, buf'))) ∧
        CmdRel (fun p w => cstring buf' p.1 = w) d sampleCmd.texts := by
  have h0 : 0 ∉ sampleCmd.print := by decide
  have hfits : sampleCmd.Fits := ⟨by simp [Cmd.Fits, MAXARGS], by simp [Cmd.Fits, MAXARGS]⟩
  exact ⟨⟨h0, parsecmd_grammar.1 _ h0⟩, hfits, parsecmd_grammar.2 _ hfits⟩

/-- In `a>>b&` the NUL bytes replace the first `>` and the `&`. -/
example :
    parsecmd 8 [ch 'a', ch '>', ch '>', ch 'b', ch '&'] =
      some (.ok (.back (.redir (.exec [(0, 1)]) (3, 4) .append),
        [ch 'a', 0, ch '>', ch 'b', 0])) := by
  decide

end Xv6.User
