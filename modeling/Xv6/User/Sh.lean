import Xv6.Params
import Xv6.Lib.Descent

/-!
# The parser of the shell

`sh.c`: `parsecmd` and the functions under it. The command line is a buffer of bytes that ends with a NUL
byte, and a cursor is an index into it, at most the index `es` of that byte. The tree the parser builds
points into the buffer: a word is the pair of the indices where it starts and where it ends, and
`nulterminate` writes a NUL byte behind each word once the whole line is parsed.

The functions that look at the buffer, `peek` and `gettoken`, are collected in `Input`, and the others are
written over any such input. A panic is an error. The loops and the recursion take a bound on their depth.
-/

namespace Xv6.User

open Xv6.Lib

/-! ### Bytes and tokens -/

/-- A character of the source. -/
abbrev ch (c : Char) : UInt8 := c.toUInt8

/-- Source: `sh.c`. -/
def whitespace : List UInt8 := [ch ' ', ch '\t', ch '\r', ch '\n', ch '\x0b']

/-- Source: `sh.c`. -/
def symbols : List UInt8 := [ch '<', ch '|', ch '>', ch '&', ch ';', ch '(', ch ')']

/-- Is the byte one of those of the string? A NUL byte never is. Source: `ulib.c` `strchr`. -/
def strchr (s : List UInt8) (c : UInt8) : Bool := s.contains c

/-- The byte may be part of a word. -/
def wordChar (c : UInt8) : Bool := !strchr whitespace c && !strchr symbols c

/-- The byte at an index of the buffer; the NUL byte at its end is not in the list. -/
def charAt (buf : List UInt8) (s : ℕ) : UInt8 := buf.getD s 0

/-- `while(s < es && p(*s)) s++`, with `es - s` for the bound. -/
def skipFor (p : UInt8 → Bool) (buf : List UInt8) : ℕ → ℕ → ℕ
  | 0, s => s
  | n + 1, s => if p (charAt buf s) then skipFor p buf n (s + 1) else s

/-- `while(s < es && p(*s)) s++`. -/
def skip (p : UInt8 → Bool) (buf : List UInt8) (s : ℕ) : ℕ := skipFor p buf (buf.length - s) s

/-- What `gettoken` returns and leaves in its arguments: the kind of the token, the word if it is one,
and the new cursor. -/
structure Got (σ ω : Type) where
  ret : UInt8
  word : ω
  next : σ

/-- The token at `s`: what it is and where it ends. Source: `sh.c` `gettoken`, the `switch`. -/
def tokenAt (buf : List UInt8) (s : ℕ) : UInt8 × ℕ :=
  let c := charAt buf s
  if c = 0 then (c, s)
  else if c ∈ [ch '|', ch '(', ch ')', ch ';', ch '&', ch '<'] then (c, s + 1)
  else if c = ch '>' then
    if charAt buf (s + 1) = ch '>' then (ch '+', s + 2) else (c, s + 1)
  else (ch 'a', skip wordChar buf s)

/-- Source: `sh.c` `gettoken`. -/
def gettoken (buf : List UInt8) (s : ℕ) : Got ℕ (ℕ × ℕ) :=
  let q := skip (strchr whitespace) buf s
  let (ret, eq) := tokenAt buf q
  ⟨ret, (q, eq), skip (strchr whitespace) buf eq⟩

/-- Source: `sh.c` `peek`. -/
def peek (buf : List UInt8) (toks : List UInt8) (s : ℕ) : Bool × ℕ :=
  let s := skip (strchr whitespace) buf s
  (charAt buf s ≠ 0 && strchr toks (charAt buf s), s)

/-! ### Commands -/

/-- The three redirections. -/
inductive Redir
  | input
  | output
  | append
  deriving DecidableEq, Repr

/-- The `mode` of the `redircmd`. -/
def Redir.mode : Redir → ℕ
  | .input => O_RDONLY
  | .output => O_WRONLY ||| O_CREATE ||| O_TRUNC
  | .append => O_WRONLY ||| O_CREATE

/-- The `fd` of the `redircmd`. -/
def Redir.fd : Redir → ℕ
  | .input => 0
  | .output => 1
  | .append => 1

/-- The `switch` of `parseredirs`: the redirection a token stands for. -/
def Redir.ofToken (tok : UInt8) : Option Redir :=
  if tok = ch '<' then some .input
  else if tok = ch '>' then some .output
  else if tok = ch '+' then some .append
  else none

/-- The commands `struct cmd` is the head of. Source: `sh.c`. -/
inductive Cmd (ω : Type)
  | exec (argv : List ω)
  | redir (cmd : Cmd ω) (file : ω) (r : Redir)
  | pipe (left right : Cmd ω)
  | list (left right : Cmd ω)
  | back (cmd : Cmd ω)
  deriving DecidableEq, Repr

/-- Source: `sh.c`. -/
def MAXARGS : ℕ := 10

/-- What the parser prints before it exits. -/
inductive Panic
  | syntaxError
  | missingFile
  | parseblock
  | missingParen
  | tooManyArgs
  deriving DecidableEq, Repr

/-- The text of the message. Source: `sh.c`. -/
def Panic.text : Panic → String
  | .syntaxError => "syntax"
  | .missingFile => "missing file for redirection"
  | .parseblock => "parseblock"
  | .missingParen => "syntax - missing )"
  | .tooManyArgs => "too many args"

variable {σ ω : Type}

/-- `redircmd` for one redirection after the other. -/
def redircmds (cmd : Cmd ω) (rs : List (Redir × ω)) : Cmd ω :=
  rs.foldl (fun c r => .redir c r.2 r.1) cmd

/-! ### The parser -/

/-- The functions that look at the command line. -/
structure Input (σ ω : Type) where
  /-- Is the next byte behind white space one of these? -/
  peek : List UInt8 → σ → Bool × σ
  gettoken : σ → Got σ ω

namespace Input

variable (I : Input σ ω)

/-- `peek` as a parser. -/
def peeks (toks : List UInt8) : Parser Panic σ Bool := fun s => some (.ok (I.peek toks s))

/-- `gettoken` as a parser. -/
def token : Parser Panic σ (UInt8 × ω) :=
  fun s => let t := I.gettoken s; some (.ok ((t.ret, t.word), t.next))

/-- The loop of `parseredirs`. The caller's command is not an argument: in `parseexec` it is an `execcmd`
that gets its arguments later, so the redirections are collected. Source: `sh.c` `parseredirs`. -/
def parseredirs : ℕ → List (Redir × ω) → Parser Panic σ (List (Redir × ω))
  | 0, _ => .stop
  | n + 1, rs => do
    if ← I.peeks [ch '<', ch '>'] then
      let (tok, _) ← I.token
      let (ret, file) ← I.token
      if ret ≠ ch 'a' then .fail .missingFile
      else
        match Redir.ofToken tok with
        | some r => parseredirs n (rs ++ [(r, file)])
        | none => parseredirs n rs
    else pure rs

/-- The loop of `parseexec` over the arguments. Source: `sh.c` `parseexec`. -/
def parseargs : ℕ → List ω → List (Redir × ω) → Parser Panic σ (Cmd ω)
  | 0, _, _ => .stop
  | n + 1, argv, rs => do
    if ← I.peeks [ch '|', ch ')', ch '&', ch ';'] then pure (redircmds (.exec argv) rs)
    else
      let (tok, word) ← I.token
      if tok = 0 then pure (redircmds (.exec argv) rs)
      else if tok ≠ ch 'a' then .fail .syntaxError
      else if (argv ++ [word]).length ≥ MAXARGS then .fail .tooManyArgs
      else do
        let rs ← I.parseredirs n rs
        parseargs n (argv ++ [word]) rs

/-- The loop of `parseline` over the `&`. Source: `sh.c` `parseline`. -/
def parsebacks : ℕ → Cmd ω → Parser Panic σ (Cmd ω)
  | 0, _ => .stop
  | n + 1, cmd => do
    if ← I.peeks [ch '&'] then
      let _ ← I.token
      parsebacks n (.back cmd)
    else pure cmd

mutual

/-- Source: `sh.c` `parseline`. -/
def parseline : ℕ → Parser Panic σ (Cmd ω)
  | 0 => .stop
  | n + 1 => do
    let cmd ← parsepipe n
    let cmd ← I.parsebacks n cmd
    if ← I.peeks [ch ';'] then
      let _ ← I.token
      let right ← parseline n
      pure (.list cmd right)
    else pure cmd

/-- Source: `sh.c` `parsepipe`. -/
def parsepipe : ℕ → Parser Panic σ (Cmd ω)
  | 0 => .stop
  | n + 1 => do
    let cmd ← parseexec n
    if ← I.peeks [ch '|'] then
      let _ ← I.token
      let right ← parsepipe n
      pure (.pipe cmd right)
    else pure cmd

/-- Source: `sh.c` `parseblock`. -/
def parseblock : ℕ → Parser Panic σ (Cmd ω)
  | 0 => .stop
  | n + 1 => do
    if !(← I.peeks [ch '(']) then .fail .parseblock
    else
      let _ ← I.token
      let cmd ← parseline n
      if !(← I.peeks [ch ')']) then .fail .missingParen
      else
        let _ ← I.token
        let rs ← I.parseredirs n []
        pure (redircmds cmd rs)

/-- Source: `sh.c` `parseexec`. -/
def parseexec : ℕ → Parser Panic σ (Cmd ω)
  | 0 => .stop
  | n + 1 => do
    if ← I.peeks [ch '('] then parseblock n
    else
      let rs ← I.parseredirs n []
      I.parseargs n [] rs

end

end Input

/-- The command line as an input. -/
def lineInput (buf : List UInt8) : Input ℕ (ℕ × ℕ) where
  peek := peek buf
  gettoken := gettoken buf

/-- Writes a NUL byte behind every word. Source: `sh.c` `nulterminate`. -/
def nulterminate : Cmd (ℕ × ℕ) → List UInt8 → List UInt8
  | .exec argv, buf => argv.foldl (fun b a => b.set a.2 0) buf
  | .redir cmd file _, buf => (nulterminate cmd buf).set file.2 0
  | .pipe left right, buf => nulterminate right (nulterminate left buf)
  | .list left right, buf => nulterminate right (nulterminate left buf)
  | .back cmd, buf => nulterminate cmd buf

/-- The command and the buffer it points into, or a panic; no result if the bound on the depth is too
small. Source: `sh.c` `parsecmd`. -/
def parsecmd (n : ℕ) (buf : List UInt8) : Option (Except Panic (Cmd (ℕ × ℕ) × List UInt8)) :=
  match (lineInput buf).parseline n 0 with
  | none => none
  | some (.error e) => some (.error e)
  | some (.ok (cmd, s)) =>
    let s := (peek buf [] s).2
    if s ≠ buf.length then some (.error .syntaxError)
    else some (.ok (cmd, nulterminate cmd buf))

/-- The string at an index of the buffer. -/
def cstring (buf : List UInt8) (q : ℕ) : List UInt8 := (buf.drop q).takeWhile (· ≠ 0)

end Xv6.User
