import Mathlib.Data.List.Basic
import Xv6.User.Sh

/-!
# The grammar of the shell

The command line as a list of tokens, and the grammar of such lists:

    line  := pipe '&'* [';' line]
    pipe  := exec ['|' pipe]
    exec  := '(' line ')' redir* | redir* (word redir*)*
    redir := ('<' | '>' | '>>') word

with fewer than `MAXARGS` words in each simple command. `Gen` is the grammar together with the command each
phrase stands for. Run over a list of tokens, the parser of the shell ends, finds a phrase whenever it
succeeds, and finds every phrase that is followed by what may follow it.
-/

namespace Xv6.User

open Xv6.Lib Xv6.Lib.Parser

set_option linter.unusedSectionVars false

/-- A token of the command line. -/
inductive Tok
  | word (w : List UInt8)
  | lt
  | gt
  | gtgt
  | bar
  | amp
  | semi
  | lparen
  | rparen
  deriving DecidableEq, Repr

namespace Tok

/-- What `gettoken` returns for it. -/
def code : Tok → UInt8
  | word _ => ch 'a'
  | lt => ch '<'
  | gt => ch '>'
  | gtgt => ch '+'
  | bar => ch '|'
  | amp => ch '&'
  | semi => ch ';'
  | lparen => ch '('
  | rparen => ch ')'

/-- Its first byte, if that is a symbol. -/
def symbol : Tok → Option UInt8
  | word _ => none
  | lt => ch '<'
  | gt => ch '>'
  | gtgt => ch '>'
  | bar => ch '|'
  | amp => ch '&'
  | semi => ch ';'
  | lparen => ch '('
  | rparen => ch ')'

/-- The word, if it is one. -/
def text : Tok → List UInt8
  | word w => w
  | _ => []

@[simp] theorem code_word (w : List UInt8) : (word w).code = ch 'a' := rfl

@[simp] theorem text_word (w : List UInt8) : (word w).text = w := rfl

theorem code_ne_zero (t : Tok) : t.code ≠ 0 := by
  cases t <;> exact of_decide_eq_true rfl

theorem eq_word_of_code {t : Tok} (h : t.code = ch 'a') : t = word t.text := by
  cases t <;> first | rfl | exact absurd h (by decide)

end Tok

/-- The token a redirection starts with. -/
def Redir.tok : Redir → Tok
  | .input => .lt
  | .output => .gt
  | .append => .gtgt

/-- The list starts with a token that starts with one of these symbols. -/
def starts (toks : List UInt8) : List Tok → Bool
  | [] => false
  | t :: _ => t.symbol.any (strchr toks)

/-- A list of tokens as the input of the parser. -/
def tokenInput : Input (List Tok) (List UInt8) where
  peek toks ts := (starts toks ts, ts)
  gettoken
    | [] => ⟨0, [], []⟩
    | t :: ts => ⟨t.code, t.text, ts⟩

section Reading

variable {α : Type} {ts : List Tok}

theorem peeks_eq (toks : List UInt8) :
    tokenInput.peeks toks ts = some (.ok (starts toks ts, ts)) := rfl

theorem token_nil : tokenInput.token [] = some (.ok ((0, []), [])) := rfl

theorem token_cons (t : Tok) : tokenInput.token (t :: ts) = some (.ok ((t.code, t.text), ts)) := rfl

@[simp] theorem peeks_bind (toks : List UInt8) (f : Bool → Parser Panic (List Tok) α) :
    (tokenInput.peeks toks >>= f) ts = f (starts toks ts) ts :=
  bind_ok (peeks_eq toks)

@[simp] theorem token_bind_nil (f : UInt8 × List UInt8 → Parser Panic (List Tok) α) :
    (tokenInput.token >>= f) [] = f (0, []) [] :=
  bind_ok token_nil

@[simp] theorem token_bind_cons (t : Tok) (f : UInt8 × List UInt8 → Parser Panic (List Tok) α) :
    (tokenInput.token >>= f) (t :: ts) = f (t.code, t.text) ts :=
  bind_ok (token_cons t)

end Reading

variable {ts : List Tok} {p : Phrase} {t : Tok}

theorem starts_mono {us vs : List UInt8} (h : us ⊆ vs) (hs : starts us ts) : starts vs ts := by
  cases ts with
  | nil => cases hs
  | cons t ts =>
    cases ht : t.symbol with
    | none => simp [starts, ht] at hs
    | some c =>
      simp only [starts, ht, Option.any_some, strchr, List.contains_iff_mem] at hs ⊢
      exact h hs

theorem starts_disjoint {us vs : List UInt8} (h : ∀ c ∈ us, c ∉ vs) (hs : ts = [] ∨ starts us ts) :
    starts vs ts = false := by
  obtain rfl | hs := hs
  · rfl
  cases ts with
  | nil => rfl
  | cons t ts =>
    cases ht : t.symbol with
    | none => simp [starts, ht]
    | some c =>
      simp only [starts, ht, Option.any_some, strchr, List.contains_iff_mem] at hs
      simpa [starts, ht, strchr] using h c hs

/-! ### The grammar -/

/-- The tokens of redirections. -/
def redirToks (rs : List (Redir × List UInt8)) : List Tok :=
  rs.flatMap fun r => [r.1.tok, .word r.2]

/-- A word of a simple command and the redirections behind it. -/
abbrev Arg : Type := List UInt8 × List (Redir × List UInt8)

/-- The tokens of words, each with the redirections behind it. -/
def argToks (args : List Arg) : List Tok :=
  args.flatMap fun a => .word a.1 :: redirToks a.2

/-- The command for a simple command. -/
def simpleCmd (rs : List (Redir × List UInt8)) (args : List Arg) : Cmd (List UInt8) :=
  redircmds (.exec (args.map Prod.fst)) (rs ++ args.flatMap Prod.snd)

/-- The command with so many `&` behind it. -/
def backs : ℕ → Cmd (List UInt8) → Cmd (List UInt8)
  | 0, c => c
  | k + 1, c => backs k (.back c)

/-- The phrases of the grammar. -/
inductive Phrase
  | line
  | pipe
  | exec

/-- The grammar, with the command each phrase stands for. -/
inductive Gen : Phrase → List Tok → Cmd (List UInt8) → Prop
  | line {ts : List Tok} {c : Cmd (List UInt8)} (k : ℕ) : Gen .pipe ts c →
      Gen .line (ts ++ List.replicate k .amp) (backs k c)
  | list {ts us : List Tok} {c d : Cmd (List UInt8)} (k : ℕ) : Gen .pipe ts c → Gen .line us d →
      Gen .line (ts ++ List.replicate k .amp ++ .semi :: us) (.list (backs k c) d)
  | single {ts : List Tok} {c : Cmd (List UInt8)} : Gen .exec ts c → Gen .pipe ts c
  | pipe {ts us : List Tok} {c d : Cmd (List UInt8)} : Gen .exec ts c → Gen .pipe us d →
      Gen .pipe (ts ++ .bar :: us) (.pipe c d)
  | block {ts : List Tok} {c : Cmd (List UInt8)} (rs : List (Redir × List UInt8)) : Gen .line ts c →
      Gen .exec (.lparen :: ts ++ .rparen :: redirToks rs) (redircmds c rs)
  | simple (rs : List (Redir × List UInt8)) (args : List Arg) : args.length < MAXARGS →
      Gen .exec (redirToks rs ++ argToks args) (simpleCmd rs args)

/-- What may follow a phrase inside a larger one. -/
def Phrase.follow : Phrase → List UInt8
  | .line => [ch ')']
  | .pipe => [ch ')', ch '&', ch ';']
  | .exec => [ch ')', ch '&', ch ';', ch '|']

/-- The tokens behind a phrase: none, or those of the larger phrase it is in. -/
def Closes (p : Phrase) (rest : List Tok) : Prop := rest = [] ∨ starts p.follow rest

/-- The function that parses the phrase. -/
def Phrase.parser : Phrase → ℕ → Parser Panic (List Tok) (Cmd (List UInt8))
  | .line => tokenInput.parseline
  | .pipe => tokenInput.parsepipe
  | .exec => tokenInput.parseexec

@[simp] theorem redirToks_nil : redirToks [] = [] := rfl

@[simp] theorem redirToks_cons (r : Redir × List UInt8) (rs : List (Redir × List UInt8)) :
    redirToks (r :: rs) = r.1.tok :: .word r.2 :: redirToks rs := rfl

@[simp] theorem argToks_nil : argToks [] = [] := rfl

@[simp] theorem argToks_cons (a : Arg) (args : List Arg) :
    argToks (a :: args) = .word a.1 :: (redirToks a.2 ++ argToks args) := rfl

@[simp] theorem ofToken_tok (r : Redir) : Redir.ofToken r.tok.code = some r := by
  cases r <;> rfl

/-- The tokens a redirection can start with. -/
theorem exists_redir_of_starts (h : starts [ch '<', ch '>'] (t :: ts)) :
    ∃ r : Redir, t = r.tok := by
  cases t
  case lt => exact ⟨.input, rfl⟩
  case gt => exact ⟨.output, rfl⟩
  case gtgt => exact ⟨.append, rfl⟩
  all_goals exact absurd h (by simp [starts, Tok.symbol, strchr]; try decide)

@[simp] theorem starts_redir (r : Redir) (ts : List Tok) :
    starts [ch '<', ch '>'] (r.tok :: ts) = true := by
  cases r <;> rfl

/-- A symbol that starts only one token tells what the token is. -/
theorem eq_cons_of_starts (ht : t ∈ [Tok.bar, Tok.amp, Tok.semi, Tok.lparen, Tok.rparen])
    (h : starts t.symbol.toList ts) : ∃ us, ts = t :: us := by
  obtain _ | ⟨u, us⟩ := ts
  · cases h
  simp only [List.mem_cons, List.not_mem_nil, or_false] at ht
  refine ⟨us, ?_⟩
  obtain rfl | rfl | rfl | rfl | rfl := ht <;> cases u <;>
    first | rfl | exact absurd h Bool.false_ne_true

/-! ### A parser that succeeds has read a phrase -/

variable {n : ℕ} {rest : List Tok} {c : Cmd (List UInt8)}

theorem parseredirs_sound {rs rs' : List (Redir × List UInt8)}
    (h : tokenInput.parseredirs n rs ts = some (.ok (rs', rest))) :
    ∃ new, rs' = rs ++ new ∧ ts = redirToks new ++ rest := by
  induction n generalizing rs ts with
  | zero => cases h
  | succ n ih =>
    simp only [Input.parseredirs, peeks_bind] at h
    by_cases hs : starts [ch '<', ch '>'] ts
    · rw [if_pos hs] at h
      obtain _ | ⟨t, _ | ⟨u, ts⟩⟩ := ts
      · cases hs
      · simp only [token_bind_cons, token_bind_nil] at h
        cases h
      obtain ⟨r, rfl⟩ := exists_redir_of_starts hs
      simp only [token_bind_cons, ofToken_tok] at h
      split at h
      · cases h
      · rename_i hu
        have hword := Tok.eq_word_of_code (not_not.mp hu)
        obtain ⟨new, rfl, rfl⟩ := ih h
        refine ⟨(r, u.text) :: new, by simp, ?_⟩
        rw [redirToks_cons, hword]
        rfl
    · rw [if_neg hs] at h
      cases h
      exact ⟨[], by simp, rfl⟩

theorem parseargs_sound {argv : List (List UInt8)} {rs : List (Redir × List UInt8)}
    (hlen : argv.length < MAXARGS) (h : tokenInput.parseargs n argv rs ts = some (.ok (c, rest))) :
    ∃ args : List Arg, ts = argToks args ++ rest ∧ argv.length + args.length < MAXARGS ∧
      c = redircmds (.exec (argv ++ args.map Prod.fst)) (rs ++ args.flatMap Prod.snd) := by
  induction n generalizing argv rs ts with
  | zero => cases h
  | succ n ih =>
    have hdone : (pure (redircmds (.exec argv) rs) : Parser Panic _ _) ts = some (.ok (c, rest)) →
        ∃ args : List Arg, ts = argToks args ++ rest ∧ argv.length + args.length < MAXARGS ∧
          c = redircmds (.exec (argv ++ args.map Prod.fst)) (rs ++ args.flatMap Prod.snd) := by
      intro h
      cases h
      exact ⟨[], rfl, hlen, by simp⟩
    simp only [Input.parseargs, peeks_bind] at h
    split at h
    · exact hdone h
    obtain _ | ⟨t, ts⟩ := ts
    · exact hdone h
    simp only [token_bind_cons] at h
    split_ifs at h with h0 ha hmax
    · exact absurd h0 t.code_ne_zero
    · cases h
    · cases h
    obtain ⟨rs', us, hr, hrec⟩ := of_bind_ok h
    obtain ⟨new, rfl, rfl⟩ := parseredirs_sound hr
    obtain ⟨args, rfl, hargs, rfl⟩ := ih (by omega) hrec
    rw [List.length_append, List.length_singleton] at hargs
    refine ⟨(t.text, new) :: args, ?_, by rw [List.length_cons]; omega, by simp⟩
    rw [argToks_cons, Tok.eq_word_of_code (not_not.mp ha)]
    simp [Tok.text]

theorem parsebacks_sound {c' : Cmd (List UInt8)}
    (h : tokenInput.parsebacks n c ts = some (.ok (c', rest))) :
    ∃ k, ts = List.replicate k .amp ++ rest ∧ c' = backs k c := by
  induction n generalizing c ts with
  | zero => cases h
  | succ n ih =>
    simp only [Input.parsebacks, peeks_bind] at h
    by_cases hs : starts [ch '&'] ts
    · rw [if_pos hs] at h
      obtain ⟨us, rfl⟩ := eq_cons_of_starts (t := .amp) (by decide) hs
      obtain ⟨k, rfl, rfl⟩ := ih h
      exact ⟨k + 1, rfl, rfl⟩
    · rw [if_neg hs] at h
      cases h
      exact ⟨0, rfl, rfl⟩

theorem parsepipe_step
    (hexec : ∀ {ts rest c}, tokenInput.parseexec n ts = some (.ok (c, rest)) →
      ∃ pre, ts = pre ++ rest ∧ Gen .exec pre c)
    (hpipe : ∀ {ts rest c}, tokenInput.parsepipe n ts = some (.ok (c, rest)) →
      ∃ pre, ts = pre ++ rest ∧ Gen .pipe pre c)
    (h : tokenInput.parsepipe (n + 1) ts = some (.ok (c, rest))) :
    ∃ pre, ts = pre ++ rest ∧ Gen .pipe pre c := by
  rw [Input.parsepipe] at h
  obtain ⟨left, us, he, h1⟩ := of_bind_ok h
  obtain ⟨pre, rfl, hpre⟩ := hexec he
  rw [peeks_bind] at h1
  by_cases hs : starts [ch '|'] us
  · rw [if_pos hs] at h1
    obtain ⟨us, rfl⟩ := eq_cons_of_starts (t := .bar) (by decide) hs
    rw [token_bind_cons] at h1
    obtain ⟨right, vs, hp, h2⟩ := of_bind_ok h1
    cases h2
    obtain ⟨post, rfl, hpost⟩ := hpipe hp
    exact ⟨pre ++ .bar :: post, by simp, .pipe hpre hpost⟩
  · rw [if_neg hs] at h1
    cases h1
    exact ⟨pre, rfl, .single hpre⟩

theorem parseline_step
    (hpipe : ∀ {ts rest c}, tokenInput.parsepipe n ts = some (.ok (c, rest)) →
      ∃ pre, ts = pre ++ rest ∧ Gen .pipe pre c)
    (hline : ∀ {ts rest c}, tokenInput.parseline n ts = some (.ok (c, rest)) →
      ∃ pre, ts = pre ++ rest ∧ Gen .line pre c)
    (h : tokenInput.parseline (n + 1) ts = some (.ok (c, rest))) :
    ∃ pre, ts = pre ++ rest ∧ Gen .line pre c := by
  rw [Input.parseline] at h
  obtain ⟨left, us, hp, h1⟩ := of_bind_ok h
  obtain ⟨pre, rfl, hpre⟩ := hpipe hp
  obtain ⟨cmd, vs, hb, h2⟩ := of_bind_ok h1
  obtain ⟨k, rfl, rfl⟩ := parsebacks_sound hb
  rw [peeks_bind] at h2
  by_cases hs : starts [ch ';'] vs
  · rw [if_pos hs] at h2
    obtain ⟨vs, rfl⟩ := eq_cons_of_starts (t := .semi) (by decide) hs
    rw [token_bind_cons] at h2
    obtain ⟨right, ws, hl, h3⟩ := of_bind_ok h2
    cases h3
    obtain ⟨post, rfl, hpost⟩ := hline hl
    exact ⟨pre ++ List.replicate k .amp ++ .semi :: post, by simp, .list k hpre hpost⟩
  · rw [if_neg hs] at h2
    cases h2
    exact ⟨pre ++ List.replicate k .amp, by simp, .line k hpre⟩

theorem parseblock_step
    (hline : ∀ {ts rest c}, tokenInput.parseline n ts = some (.ok (c, rest)) →
      ∃ pre, ts = pre ++ rest ∧ Gen .line pre c)
    (h : tokenInput.parseblock (n + 1) ts = some (.ok (c, rest))) :
    ∃ pre, ts = pre ++ rest ∧ Gen .exec pre c := by
  rw [Input.parseblock, peeks_bind] at h
  by_cases hs : starts [ch '('] ts
  swap
  · rw [if_pos (by simpa using hs)] at h
    cases h
  rw [if_neg (by simpa using hs)] at h
  obtain ⟨us, rfl⟩ := eq_cons_of_starts (t := .lparen) (by decide) hs
  rw [token_bind_cons] at h
  obtain ⟨cmd, vs, hl, h1⟩ := of_bind_ok h
  obtain ⟨pre, rfl, hpre⟩ := hline hl
  rw [peeks_bind] at h1
  by_cases hs' : starts [ch ')'] vs
  swap
  · rw [if_pos (by simpa using hs')] at h1
    cases h1
  rw [if_neg (by simpa using hs')] at h1
  obtain ⟨vs, rfl⟩ := eq_cons_of_starts (t := .rparen) (by decide) hs'
  rw [token_bind_cons] at h1
  obtain ⟨rs, ws, hr, h2⟩ := of_bind_ok h1
  cases h2
  obtain ⟨_, rfl, rfl⟩ := parseredirs_sound hr
  exact ⟨.lparen :: pre ++ .rparen :: redirToks rs, by simp, .block rs hpre⟩

theorem parseexec_step
    (hblock : ∀ {ts rest c}, tokenInput.parseblock n ts = some (.ok (c, rest)) →
      ∃ pre, ts = pre ++ rest ∧ Gen .exec pre c)
    (h : tokenInput.parseexec (n + 1) ts = some (.ok (c, rest))) :
    ∃ pre, ts = pre ++ rest ∧ Gen .exec pre c := by
  rw [Input.parseexec, peeks_bind] at h
  split at h
  · exact hblock h
  obtain ⟨rs, us, hr, h1⟩ := of_bind_ok h
  obtain ⟨_, rfl, rfl⟩ := parseredirs_sound hr
  obtain ⟨args, rfl, hlen, rfl⟩ := parseargs_sound (by decide) h1
  refine ⟨redirToks rs ++ argToks args, by simp, ?_⟩
  exact .simple rs args (by simpa using hlen)

/-- What a function of the parser has read, when it succeeds, is a phrase, and what it built is the
command of that phrase. -/
theorem parser_sound (n : ℕ) :
    (∀ {ts rest c}, tokenInput.parseline n ts = some (.ok (c, rest)) →
      ∃ pre, ts = pre ++ rest ∧ Gen .line pre c) ∧
    (∀ {ts rest c}, tokenInput.parsepipe n ts = some (.ok (c, rest)) →
      ∃ pre, ts = pre ++ rest ∧ Gen .pipe pre c) ∧
    (∀ {ts rest c}, tokenInput.parseblock n ts = some (.ok (c, rest)) →
      ∃ pre, ts = pre ++ rest ∧ Gen .exec pre c) ∧
    ∀ {ts rest c}, tokenInput.parseexec n ts = some (.ok (c, rest)) →
      ∃ pre, ts = pre ++ rest ∧ Gen .exec pre c := by
  induction n with
  | zero => exact ⟨fun h => (nomatch h), fun h => (nomatch h), fun h => (nomatch h), fun h => (nomatch h)⟩
  | succ n ih =>
    obtain ⟨hline, hpipe, hblock, hexec⟩ := ih
    exact ⟨parseline_step hpipe hline, parsepipe_step hexec hpipe, parseblock_step hline,
      parseexec_step hblock⟩

/-! ### A phrase is found -/

theorem parseredirs_complete (hrest : starts [ch '<', ch '>'] rest = false)
    (rs new : List (Redir × List UInt8)) :
    Gives (fun n => tokenInput.parseredirs n rs) (redirToks new ++ rest) (.ok (rs ++ new, rest)) := by
  induction new generalizing rs with
  | nil =>
    refine Gives.next (Y := fun _ => pure rs) (fun n => ?_) (by simpa using Gives.pure _ rest)
    simp [Input.parseredirs, hrest]
  | cons r new ih =>
    refine Gives.next (fun n => ?_) (by simpa using ih (rs ++ [r]))
    simp [Input.parseredirs]

theorem parseargs_word (n : ℕ) (argv : List (List UInt8)) (rs : List (Redir × List UInt8))
    (w : List UInt8) (ts : List Tok) :
    tokenInput.parseargs (n + 1) argv rs (.word w :: ts) =
      (if (argv ++ [w]).length ≥ MAXARGS then .fail .tooManyArgs
      else tokenInput.parseredirs n rs >>= fun rs => tokenInput.parseargs n (argv ++ [w]) rs :
        Parser Panic _ _) ts := by
  have hs : starts [ch '|', ch ')', ch '&', ch ';'] (.word w :: ts) = false := rfl
  have hword : ch 'a' ≠ 0 := by decide
  rw [Input.parseargs, peeks_bind, hs, if_neg Bool.false_ne_true, token_bind_cons]
  show (if ch 'a' = 0 then _ else if ch 'a' ≠ ch 'a' then _ else _ : Parser Panic _ _) ts = _
  rw [if_neg hword, if_neg (by simp)]
  rfl

theorem parseargs_complete (hrest : Closes .exec rest) (argv : List (List UInt8))
    (rs : List (Redir × List UInt8)) (args : List Arg)
    (hlen : argv.length + args.length < MAXARGS) :
    Gives (fun n => tokenInput.parseargs n argv rs) (argToks args ++ rest)
      (.ok (redircmds (.exec (argv ++ args.map Prod.fst)) (rs ++ args.flatMap Prod.snd), rest)) := by
  induction args generalizing argv rs with
  | nil =>
    refine Gives.next (Y := fun _ => pure (redircmds (.exec argv) rs)) (fun n => ?_)
      (by simpa using Gives.pure _ rest)
    obtain rfl | hs := hrest
    · simp [Input.parseargs, starts]
    · have hs' : starts [ch '|', ch ')', ch '&', ch ';'] rest := starts_mono (by decide) hs
      simp [Input.parseargs, hs']
  | cons a args ih =>
    rw [List.length_cons] at hlen
    -- behind the redirections of this word stands the next word, or what follows the command
    have hredir : starts [ch '<', ch '>'] (argToks args ++ rest) = false := by
      cases args with
      | nil => exact starts_disjoint (by decide +kernel) hrest
      | cons b args => rfl
    have htail := ih (argv ++ [a.1]) (rs ++ a.2) (by simp; omega)
    refine Gives.next (fun n => ?_) ((parseredirs_complete hredir rs a.2).bind
      (F := fun n rs => tokenInput.parseargs n (argv ++ [a.1]) rs) (by simpa using htail))
    rw [argToks_cons, List.cons_append, parseargs_word, if_neg (by simp; omega), List.append_assoc]

theorem parsebacks_complete (hrest : starts [ch '&'] rest = false) (k : ℕ) (c : Cmd (List UInt8)) :
    Gives (fun n => tokenInput.parsebacks n c) (List.replicate k .amp ++ rest)
      (.ok (backs k c, rest)) := by
  induction k generalizing c with
  | zero =>
    refine Gives.next (Y := fun _ => pure c) (fun n => ?_) (.pure c rest)
    simp [Input.parsebacks, hrest]
  | succ k ih =>
    refine Gives.next (fun n => ?_) (ih (.back c))
    rfl

/-- A simple command does not start with a parenthesis. -/
theorem starts_simple (hrest : Closes .exec rest) (rs : List (Redir × List UInt8))
    (args : List Arg) : starts [ch '('] (redirToks rs ++ argToks args ++ rest) = false := by
  cases rs with
  | cons r rs => obtain ⟨_ | _ | _, f⟩ := r <;> rfl
  | nil =>
    cases args with
    | cons a args => rfl
    | nil => exact starts_disjoint (by decide +kernel) hrest

/-- `parseblock` behind the opening parenthesis. -/
theorem parseblock_lparen (n : ℕ) (ts : List Tok) :
    tokenInput.parseblock (n + 1) (.lparen :: ts) = (do
      let cmd ← tokenInput.parseline n
      if !(← tokenInput.peeks [ch ')']) then .fail .missingParen
      else
        let _ ← tokenInput.token
        let rs ← tokenInput.parseredirs n []
        pure (redircmds cmd rs) : Parser Panic _ _) ts := by
  rw [Input.parseblock, peeks_bind]
  exact token_bind_cons _ _

/-- What follows the `&` of a line may follow a pipe. -/
theorem closes_amps (k : ℕ) (hrest : Closes .pipe rest) :
    Closes .pipe (List.replicate k .amp ++ rest) := by
  cases k with
  | zero => exact hrest
  | succ k => exact .inr rfl

/-- Every phrase is found where it stands, with its command, if what follows may follow it. -/
theorem parser_complete (h : Gen p ts c) (rest : List Tok) (hrest : Closes p rest) :
    Gives p.parser (ts ++ rest) (.ok (c, rest)) := by
  induction h generalizing rest with
  | @line ts c k _ ih =>
    have hamp : starts [ch '&'] rest = false := starts_disjoint (by decide +kernel) hrest
    have hsemi : starts [ch ';'] rest = false := starts_disjoint (by decide +kernel) hrest
    have hpipe := ih _ (closes_amps k (hrest.imp_right (starts_mono (by decide))))
    rw [List.append_assoc]
    refine Gives.next (fun n => by rfl) (hpipe.bind ((parsebacks_complete hamp k c).bind ?_))
    refine Gives.congr (fun n => ?_) (Gives.pure (backs k c) rest)
    rw [peeks_bind, hsemi]
    rfl
  | @list ts us c d k _ _ ih ih' =>
    have hpipe := ih (List.replicate k .amp ++ (.semi :: us ++ rest)) (closes_amps k (.inr rfl))
    have hbacks : Gives (fun n => tokenInput.parsebacks n c)
        (List.replicate k .amp ++ (.semi :: us ++ rest)) (.ok (backs k c, .semi :: us ++ rest)) :=
      parsebacks_complete rfl k c
    rw [List.append_assoc, List.append_assoc]
    refine Gives.next (fun n => by rfl) (hpipe.bind (hbacks.bind ?_))
    exact Gives.congr (fun n => by rfl) ((ih' rest hrest).map (Cmd.list (backs k c)))
  | @single ts c _ ih =>
    have hbar : starts [ch '|'] rest = false := starts_disjoint (by decide +kernel) hrest
    have hexec := ih rest (hrest.imp_right (starts_mono (by decide)))
    refine Gives.next (fun n => by rfl)
      (hexec.bind (Gives.congr (fun n => ?_) (Gives.pure c rest)))
    rw [peeks_bind, hbar]
    rfl
  | @pipe ts us c d _ _ ih ih' =>
    have hexec := ih (.bar :: us ++ rest) (.inr rfl)
    rw [List.append_assoc]
    refine Gives.next (fun n => by rfl) (hexec.bind ?_)
    exact Gives.congr (fun n => by rfl) ((ih' rest hrest).map (Cmd.pipe c))
  | @block ts c rs _ ih =>
    have hline := ih (.rparen :: (redirToks rs ++ rest)) (.inr rfl)
    have hredir : starts [ch '<', ch '>'] rest = false := starts_disjoint (by decide +kernel) hrest
    have hredirs := (parseredirs_complete hredir [] rs).map (redircmds c)
    have hblock : Gives tokenInput.parseblock (.lparen :: (ts ++ .rparen :: (redirToks rs ++ rest)))
        (.ok (redircmds c rs, rest)) :=
      Gives.next (fun n => parseblock_lparen n _) (hline.bind (Gives.congr (fun n => by rfl) hredirs))
    rw [List.cons_append, List.cons_append, List.append_assoc, List.cons_append]
    exact Gives.next (fun n => by rfl) hblock
  | simple rs args hlen =>
    have hparen := starts_simple hrest rs args
    have hredir : starts [ch '<', ch '>'] (argToks args ++ rest) = false := by
      cases args with
      | nil => exact starts_disjoint (by decide +kernel) hrest
      | cons b args => rfl
    have hargs := parseargs_complete hrest [] rs args (by simpa using hlen)
    refine Gives.next (fun n => ?_) ((parseredirs_complete hredir [] rs).bind hargs)
    show tokenInput.parseexec (n + 1) _ = _
    rw [Input.parseexec, peeks_bind, hparen, if_neg Bool.false_ne_true, List.append_assoc]

/-! ### The parser ends -/

theorem parseredirs_ends (rs : List (Redir × List UInt8)) (ts : List Tok) :
    Ends (fun n => tokenInput.parseredirs n rs) ts := by
  induction hn : ts.length using Nat.strongRecOn generalizing rs ts with
  | _ len ih =>
    subst hn
    by_cases hs : starts [ch '<', ch '>'] ts
    · obtain _ | ⟨t, _ | ⟨u, ts⟩⟩ := ts
      · cases hs
      · refine Ends.next (Y := fun _ => .fail .missingFile) (fun n => ?_) (.const (s := []) rfl)
        simp [Input.parseredirs, hs]
        rfl
      obtain ⟨r, rfl⟩ := exists_redir_of_starts hs
      by_cases hu : u.code = ch 'a'
      · refine Ends.next (fun n => ?_) (ih ts.length (by simp only [List.length_cons]; omega)
          (rs ++ [(r, u.text)]) ts rfl)
        simp [Input.parseredirs, hu]
      · refine Ends.next (Y := fun _ => .fail .missingFile) (fun n => ?_) (.const (s := ts) rfl)
        simp [Input.parseredirs, hu]
    · refine Ends.next (Y := fun _ => pure rs) (fun n => ?_) (.const (s := ts) rfl)
      simp [Input.parseredirs, hs]

theorem parseargs_ends (argv : List (List UInt8)) (rs : List (Redir × List UInt8))
    (ts : List Tok) : Ends (fun n => tokenInput.parseargs n argv rs) ts := by
  induction hn : ts.length using Nat.strongRecOn generalizing argv rs ts with
  | _ len ih =>
    subst hn
    have hdone : Ends (fun _ => (pure (redircmds (.exec argv) rs) : Parser Panic _ _)) ts :=
      .const rfl
    by_cases hs : starts [ch '|', ch ')', ch '&', ch ';'] ts
    · refine Ends.next (fun n => ?_) hdone
      simp [Input.parseargs, hs]
    obtain _ | ⟨t, ts⟩ := ts
    · refine Ends.next (fun n => ?_) hdone
      simp [Input.parseargs, hs]
    by_cases ha : t.code = ch 'a'
    swap
    · refine Ends.next (Y := fun _ => .fail .syntaxError) (fun n => ?_) (.const (s := ts) rfl)
      simp [Input.parseargs, hs, ha, t.code_ne_zero]
    rw [Tok.eq_word_of_code ha]
    by_cases hmax : (argv ++ [t.text]).length ≥ MAXARGS
    · refine Ends.next (Y := fun _ => .fail .tooManyArgs) (fun n => ?_) (.const (s := ts) rfl)
      rw [parseargs_word, if_pos hmax]
    have hrec : Ends (fun n => tokenInput.parseredirs n rs >>=
        fun rs => tokenInput.parseargs n (argv ++ [t.text]) rs) ts := by
      refine (parseredirs_ends rs ts).bind fun rs' rest hr => ?_
      obtain ⟨n, hr⟩ := hr.at_depth
      obtain ⟨new, -, rfl⟩ := parseredirs_sound hr
      exact ih rest.length (by simp only [List.length_append, List.length_cons]; omega) _ _ rest rfl
    refine Ends.next (fun n => ?_) hrec
    rw [parseargs_word, if_neg hmax]

theorem parsebacks_ends (c : Cmd (List UInt8)) (ts : List Tok) :
    Ends (fun n => tokenInput.parsebacks n c) ts := by
  induction hn : ts.length using Nat.strongRecOn generalizing c ts with
  | _ len ih =>
    subst hn
    by_cases hs : starts [ch '&'] ts
    · obtain ⟨us, rfl⟩ := eq_cons_of_starts (t := .amp) (by decide) hs
      exact Ends.next (fun n => by rfl) (ih us.length (by simp) (.back c) us rfl)
    · refine Ends.next (Y := fun _ => pure c) (fun n => ?_) (.const (s := ts) rfl)
      simp [Input.parsebacks, hs]

/-- A phrase that was read leaves no more tokens than there were. -/
theorem length_le_of_gives (h : Gives p.parser ts (.ok (c, rest))) : rest.length ≤ ts.length := by
  obtain ⟨n, h⟩ := h.at_depth
  obtain ⟨pre, rfl⟩ : ∃ pre, ts = pre ++ rest := by
    cases p with
    | line => exact ((parser_sound n).1 h).imp fun _ h => h.1
    | pipe => exact ((parser_sound n).2.1 h).imp fun _ h => h.1
    | exec => exact ((parser_sound n).2.2.2 h).imp fun _ h => h.1
  simp

section Ending

variable {ts : List Tok}

/-- `parseexec` ends if `parseline` ends on shorter lists. -/
theorem parseexec_ends (hline : ∀ us, us.length < ts.length → Ends tokenInput.parseline us) :
    Ends tokenInput.parseexec ts := by
  by_cases hs : starts [ch '('] ts
  · obtain ⟨us, rfl⟩ := eq_cons_of_starts (t := .lparen) (by decide) hs
    refine Ends.next (Y := tokenInput.parseblock) (fun n => by rfl) ?_
    refine Ends.next (fun n => parseblock_lparen n us) ((hline us (by simp)).bind fun c vs _ => ?_)
    by_cases hs' : starts [ch ')'] vs
    · obtain ⟨vs, rfl⟩ := eq_cons_of_starts (t := .rparen) (by decide) hs'
      exact Ends.congr (fun n => by rfl)
        ((parseredirs_ends [] vs).bind (F := fun _ rs => pure (redircmds c rs)) fun _ _ _ => .const rfl)
    · refine Ends.congr (Y := fun _ => .fail .missingParen) (fun n => ?_) (.const (s := vs) rfl)
      simp [hs']
  · refine Ends.next (fun n => ?_) ((parseredirs_ends [] ts).bind fun rs us _ => parseargs_ends [] rs us)
    rw [Input.parseexec, peeks_bind, if_neg hs]

theorem parsepipe_ends (hexec : Ends tokenInput.parseexec ts)
    (hpipe : ∀ us, us.length < ts.length → Ends tokenInput.parsepipe us) :
    Ends tokenInput.parsepipe ts := by
  refine Ends.next (fun n => by rfl) (hexec.bind fun c us hc => ?_)
  have hle := length_le_of_gives (p := .exec) hc
  by_cases hs : starts [ch '|'] us
  · obtain ⟨us, rfl⟩ := eq_cons_of_starts (t := .bar) (by decide) hs
    rw [List.length_cons] at hle
    exact Ends.congr (fun n => by rfl)
      ((hpipe us (by omega)).bind (F := fun _ d => pure (Cmd.pipe c d)) fun _ _ _ => .const rfl)
  · refine Ends.congr (Y := fun _ => pure c) (fun n => ?_) (.const (s := us) rfl)
    simp [hs]

theorem parseline_ends (hpipe : Ends tokenInput.parsepipe ts)
    (hline : ∀ us, us.length < ts.length → Ends tokenInput.parseline us) :
    Ends tokenInput.parseline ts := by
  refine Ends.next (fun n => by rfl)
    (hpipe.bind fun c us hc => (parsebacks_ends c us).bind fun d vs hd => ?_)
  have hle := length_le_of_gives (p := .pipe) hc
  obtain ⟨n, hd⟩ := hd.at_depth
  obtain ⟨k, rfl, -⟩ := parsebacks_sound hd
  rw [List.length_append] at hle
  by_cases hs : starts [ch ';'] vs
  · obtain ⟨vs, rfl⟩ := eq_cons_of_starts (t := .semi) (by decide) hs
    rw [List.length_cons] at hle
    exact Ends.congr (fun n => by rfl)
      ((hline vs (by omega)).bind (F := fun _ e => pure (Cmd.list d e)) fun _ _ _ => .const rfl)
  · refine Ends.congr (Y := fun _ => pure d) (fun n => ?_) (.const (s := vs) rfl)
    simp [hs]

end Ending

theorem parser_ends (ts : List Tok) : Ends tokenInput.parsepipe ts ∧ Ends tokenInput.parseline ts := by
  induction hn : ts.length using Nat.strongRecOn generalizing ts with
  | _ len ih =>
    subst hn
    have hexec : Ends tokenInput.parseexec ts :=
      parseexec_ends fun us hlt => (ih us.length hlt us rfl).2
    have hpipe := parsepipe_ends hexec fun us hlt => (ih us.length hlt us rfl).1
    exact ⟨hpipe, parseline_ends hpipe fun us hlt => (ih us.length hlt us rfl).2⟩

/-- The parser reads all of a list, with the command `c`, exactly if the list is a line that stands for
`c`. -/
theorem parseline_iff : Gives tokenInput.parseline ts (.ok (c, [])) ↔ Gen .line ts c := by
  constructor
  · intro h
    obtain ⟨n, h⟩ := h.at_depth
    obtain ⟨pre, hts, hpre⟩ := (parser_sound n).1 h
    rw [hts, List.append_nil]
    exact hpre
  · intro h
    have hfound := parser_complete h [] (.inl rfl)
    rwa [List.append_nil] at hfound

end Xv6.User
