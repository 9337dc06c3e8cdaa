import Mathlib.Data.List.Induction
import Mathlib.Logic.Relation
import Xv6.Lib.Trans
import Xv6.User.ShParser

/-!
# Running commands

`runcmd` of `sh.c`, with the descriptor tables of the processes. The code of a process is the list
of the system calls it has still to make; `runcmd` of a command puts those of its `case` there, and
behind `pipe` come those that use the two descriptors it has returned. Every fork, and every call of
`pipe` and `open` that finds a free descriptor, succeeds. A process that has reached `exec` stays
there.

Processes and pipes are named by who created them: a process by the numbers of the forks that lead
to it from the first one, a pipe by its creator and the number of its call. No code looks at the
names.

A redirection closes a descriptor and opens a file, which gets the lowest free one. The redirections
of a command are nested in each other, the last one in the text outermost (`redircmds`), so `runcmd`
opens their files from right to left, and it is the first one for a descriptor that has the last
word (`nexts_redircmds`).
-/

namespace Xv6.User

open Xv6.Lib Xv6.Lib.Parser

/-! ### Descriptors -/

/-- The name of a process. -/
abbrev Pid := List ℕ

/-- An open file. -/
inductive File (ω : Type)
  /-- One that the shell was started with. -/
  | given (i : ℕ)
  /-- One that `open` has returned. -/
  | opened (name : ω) (mode : ℕ)
  /-- The read end of the `k`-th pipe of a process. -/
  | readEnd (p : Pid) (k : ℕ)
  /-- The write end. -/
  | writeEnd (p : Pid) (k : ℕ)
  deriving DecidableEq

/-- `p->ofile`. -/
abbrev Fds (ω : Type) := List (Option (File ω))

variable {ω : Type}

/-- The lowest free descriptor is taken. Source: `sysfile.c` `fdalloc`. -/
def fdalloc : Fds ω → File ω → Option (ℕ × Fds ω)
  | [], _ => none
  | none :: t, f => some (0, some f :: t)
  | some g :: t, f => (fdalloc t f).map fun r => (r.1 + 1, some g :: r.2)

/-- Source: `sysfile.c` `sys_close`. -/
def sys_close (t : Fds ω) (fd : ℕ) : Fds ω := t.set fd none

/-- The new descriptor and the table; none if the call fails. Source: `sysfile.c` `sys_dup`. -/
def sys_dup (t : Fds ω) (fd : ℕ) : Option (ℕ × Fds ω) := (t.getD fd none).bind (fdalloc t)

/-- The two descriptors and the table; none if the call fails. Source: `sysfile.c` `sys_pipe`. -/
def sys_pipe (t : Fds ω) (rf wf : File ω) : Option (ℕ × ℕ × Fds ω) :=
  (fdalloc t rf).bind fun r => (fdalloc r.2 wf).map fun w => (r.1, w.1, w.2)

/-- The table with just the three files that the shell was started with. -/
def stdFds : Fds ω :=
  [some (.given 0), some (.given 1), some (.given 2)] ++ List.replicate (NOFILE - 3) none

/-! ### Processes -/

/-- What a process does next. -/
inductive Act (ω : Type)
  | runcmd (c : Cmd ω)
  | close (fd : ℕ)
  | dup (fd : ℕ)
  /-- `open`; if it fails the process exits. -/
  | opens (file : ω) (r : Redir)
  /-- `pipe`, and then the rest of its `case`; if it fails the process exits. -/
  | pipe (left right : Cmd ω)
  /-- `if(fork1() == 0)`, with what the child does. -/
  | fork (child : List (Act ω))
  | wait
  | exec (argv : List ω)
  | exit (status : ℕ)

/-- The `switch` of `runcmd`. Source: `sh.c` `runcmd`. -/
def Cmd.body : Cmd ω → List (Act ω)
  | .exec [] => [.exit 1]
  | .exec (a :: as) => [.exec (a :: as), .exit 0]
  | .redir cmd file r => [.close r.fd, .opens file r, .runcmd cmd]
  | .list left right => [.fork [.runcmd left], .wait, .runcmd right]
  | .pipe left right => [.pipe left right]
  | .back cmd => [.fork [.runcmd cmd], .exit 0]

/-- The case of a pipe, behind the call that has returned `p[0]` and `p[1]`. -/
def pipeBody (left right : Cmd ω) (p0 p1 : ℕ) : List (Act ω) :=
  [.fork [.close 1, .dup p1, .close p0, .close p1, .runcmd left],
    .fork [.close 0, .dup p0, .close p0, .close p1, .runcmd right],
    .close p0, .close p1, .wait, .wait, .exit 0]

/-- A process. -/
structure Proc (ω : Type) where
  /-- What it has still to do; nothing if it has exited. -/
  code : List (Act ω)
  /-- Its descriptors. -/
  fds : Fds ω
  /-- How many children it has had. -/
  forks : ℕ
  /-- How many pipes it has created. -/
  pipes : ℕ

/-- What a step of the process does to the process itself; none if it has to wait, has reached
`exec` or has exited. -/
def Proc.next (me : Pid) (p : Proc ω) : Option (Proc ω) :=
  match p.code with
  | [] => none
  | .runcmd c :: _ => some { p with code := c.body }
  | .close fd :: rest => some { p with code := rest, fds := sys_close p.fds fd }
  | .dup fd :: rest =>
    some { p with code := rest, fds := ((sys_dup p.fds fd).map Prod.snd).getD p.fds }
  | .opens file r :: rest =>
    match fdalloc p.fds (.opened file r.mode) with
    | some (_, t) => some { p with code := rest, fds := t }
    | none => some { p with code := [.exit 1] }
  | .pipe left right :: _ =>
    match sys_pipe p.fds (.readEnd me p.pipes) (.writeEnd me p.pipes) with
    | some (p0, p1, t) =>
      some { p with code := pipeBody left right p0 p1, fds := t, pipes := p.pipes + 1 }
    | none => some { p with code := [.exit 1] }
  | .fork _ :: rest => some { p with code := rest, forks := p.forks + 1 }
  | .wait :: _ => none
  | .exec _ :: _ => none
  | .exit _ :: _ => some { p with code := [], fds := p.fds.map fun _ => none }

/-- The process gets from one state to the other by itself. -/
def Nexts (me : Pid) : Proc ω → Proc ω → Prop :=
  Relation.ReflTransGen fun p q => p.next me = some q

/-- All processes. -/
abbrev Procs (ω : Type) := Pid → Option (Proc ω)

/-- A step of one of the processes. Source: `proc.c` `fork`, `wait`. -/
inductive Procs.Step : Procs ω → Pid → Procs ω → Prop
  | go {s : Procs ω} {i : Pid} {p p' : Proc ω} : s i = some p →
      (∀ c rest, p.code ≠ .fork c :: rest) → p.next i = some p' →
      Step s i (Function.update s i (some p'))
  /-- The child gets a copy of the descriptors. -/
  | fork {s : Procs ω} {i : Pid} {p p' : Proc ω} {c rest : List (Act ω)} : s i = some p →
      p.code = .fork c :: rest → p.next i = some p' →
      Step s i (Function.update (Function.update s i (some p')) (i ++ [p.forks])
        (some ⟨c, p.fds, 0, 0⟩))
  /-- A child has exited. -/
  | reap {s : Procs ω} {i : Pid} {p q : Proc ω} {k : ℕ} {rest : List (Act ω)} : s i = some p →
      p.code = .wait :: rest → s (i ++ [k]) = some q → q.code = [] →
      Step s i (Function.update (Function.update s i (some { p with code := rest })) (i ++ [k])
        none)
  /-- There is no child. -/
  | childless {s : Procs ω} {i : Pid} {p : Proc ω} {rest : List (Act ω)} : s i = some p →
      p.code = .wait :: rest → (∀ k, s (i ++ [k]) = none) →
      Step s i (Function.update s i (some { p with code := rest }))

/-- A process that is about to run a command, with these descriptors. -/
def shell (c : Cmd ω) (t : Fds ω) : Lts (Procs ω) Pid where
  init s := s = fun i => if i = [] then some ⟨[.runcmd c], t, 0, 0⟩ else none
  step := Procs.Step

/-! ### Redirections -/

/-- The table with the file of a redirection. -/
def redirect (r : Redir × ω) (t : Fds ω) : Fds ω := t.set r.1.fd (some (.opened r.2 r.1.mode))

/-- A closed descriptor 0 or 1 is the one that `open` gets. -/
theorem fdalloc_close (r : Redir) (f a b : File ω) (t : Fds ω) :
    fdalloc (sys_close (some a :: some b :: t) r.fd) f =
      some (r.fd, (some a :: some b :: t).set r.fd (some f)) := by
  cases r <;> rfl

theorem nexts_redir (me : Pid) (c : Cmd ω) (r : Redir × ω) (a b : File ω) (t : Fds ω) (k m : ℕ) :
    Nexts me ⟨[.runcmd (.redir c r.2 r.1)], some a :: some b :: t, k, m⟩
      ⟨[.runcmd c], redirect r (some a :: some b :: t), k, m⟩ := by
  have hrun : Proc.next me ⟨[.runcmd (.redir c r.2 r.1)], some a :: some b :: t, k, m⟩ =
      some ⟨[.close r.1.fd, .opens r.2 r.1, .runcmd c], some a :: some b :: t, k, m⟩ := rfl
  have hclose : Proc.next me
      ⟨[.close r.1.fd, .opens r.2 r.1, .runcmd c], some a :: some b :: t, k, m⟩ =
      some ⟨[.opens r.2 r.1, .runcmd c], sys_close (some a :: some b :: t) r.1.fd, k, m⟩ := rfl
  have hopen : Proc.next me
      ⟨[.opens r.2 r.1, .runcmd c], sys_close (some a :: some b :: t) r.1.fd, k, m⟩ =
      some ⟨[.runcmd c], redirect r (some a :: some b :: t), k, m⟩ := by
    simp only [Proc.next, fdalloc_close]
    rfl
  exact .head hrun (.head hclose (.single hopen))

/-- Descriptors 0 and 1 are open. -/
def Fds.Std (t : Fds ω) : Prop := ∃ a b t', t = some a :: some b :: t'

theorem Fds.Std.redirect {t : Fds ω} (h : t.Std) (r : Redir × ω) : (redirect r t).Std := by
  obtain ⟨a, b, t', rfl⟩ := h
  obtain ⟨r, f⟩ := r
  cases r
  · exact ⟨_, b, t', rfl⟩
  · exact ⟨a, _, t', rfl⟩
  · exact ⟨a, _, t', rfl⟩

/-- `runcmd` opens the files of the redirections from right to left and gets to the command. -/
theorem nexts_redircmds (me : Pid) (c : Cmd ω) (rs : List (Redir × ω)) {t : Fds ω} (ht : t.Std)
    (k m : ℕ) :
    Nexts me ⟨[.runcmd (redircmds c rs)], t, k, m⟩ ⟨[.runcmd c], rs.foldr redirect t, k, m⟩ := by
  induction rs using List.reverseRecOn generalizing t with
  | nil => exact .refl
  | append_singleton rs r ih =>
    -- the last redirection is the outermost command
    have houter : redircmds c (rs ++ [r]) = .redir (redircmds c rs) r.2 r.1 := by
      rw [redircmds, List.foldl_append]
      rfl
    rw [houter, List.foldr_append, List.foldr_cons, List.foldr_nil]
    obtain ⟨a, b, t', rfl⟩ := ht
    exact (nexts_redir me (redircmds c rs) r a b t' k m).trans
      (ih (Fds.Std.redirect ⟨a, b, t', rfl⟩ r))

/-- What a descriptor refers to then: the file of the first redirection for it. -/
theorem foldr_redirect (rs : List (Redir × ω)) {t : Fds ω} {d : ℕ} (hd : d < t.length) :
    (rs.foldr redirect t)[d]? = match rs.find? fun r => r.1.fd = d with
      | some r => some (some (.opened r.2 r.1.mode))
      | none => t[d]? := by
  induction rs with
  | nil => rfl
  | cons r rs ih =>
    have hlen : (rs.foldr redirect t).length = t.length := by
      clear ih hd
      induction rs with
      | nil => rfl
      | cons r rs ih => rw [List.foldr_cons, redirect, List.length_set, ih]
    rw [List.foldr_cons, redirect, List.getElem?_set, List.find?_cons]
    by_cases hr : r.1.fd = d
    · simp [hr, hlen, hd]
    · simp [hr, ih]

/-- The tokens of a simple or parenthesised command, its redirections in the order of the text, and
the command inside. -/
inductive Redirected : List Tok → List (Redir × List UInt8) → Cmd (List UInt8) → Prop
  | simple (rs : List (Redir × List UInt8)) (args : List Arg) : args.length < MAXARGS →
      Redirected (redirToks rs ++ argToks args) (rs ++ args.flatMap Prod.snd)
        (.exec (args.map Prod.fst))
  | block {ts : List Tok} {c : Cmd (List UInt8)} (rs : List (Redir × List UInt8)) :
      Gen .line ts c → Redirected (.lparen :: ts ++ .rparen :: redirToks rs) rs c

/-- The parser nests the redirections around the command. -/
theorem Redirected.gen {ts : List Tok} {rs : List (Redir × List UInt8)} {c : Cmd (List UInt8)}
    (h : Redirected ts rs c) : Gen .exec ts (redircmds c rs) := by
  cases h with
  | simple rs args hlen => exact .simple rs args hlen
  | block rs hgen => exact .block rs hgen

/-- The ways to open a file differ. -/
theorem mode_inj {r r' : Redir} (h : r.mode = r'.mode) : r = r' := by
  revert h
  cases r <;> cases r' <;> decide

/-- Descriptor `d` refers to what the last redirection for it has opened. -/
def Fds.Last (rs : List (Redir × ω)) (t t' : Fds ω) (d : ℕ) : Prop :=
  match (rs.filter fun r => r.1.fd = d).getLast? with
  | some r => t'[d]? = some (some (.opened r.2 r.1.mode))
  | none => t'[d]? = t[d]?

/-- The file of the first redirection is that of the last one only if they are the same. -/
theorem last_iff (rs : List (Redir × ω)) {t : Fds ω} {d : ℕ} (hd : d < t.length) :
    Fds.Last rs t (rs.foldr redirect t) d ↔
      (rs.filter fun r => r.1.fd = d).head? = (rs.filter fun r => r.1.fd = d).getLast? := by
  unfold Fds.Last
  rw [foldr_redirect rs hd, ← List.head?_filter]
  cases hrs : rs.filter fun r => r.1.fd = d with
  | nil => simp
  | cons r l =>
    have hne : r :: l ≠ [] := List.cons_ne_nil r l
    rw [List.getLast?_eq_some_getLast hne]
    simp only [List.head?_cons, Option.some.injEq, File.opened.injEq]
    refine ⟨fun ⟨hname, hmode⟩ => Prod.ext (mode_inj hmode) hname, fun h => ?_⟩
    rw [← h]
    exact ⟨rfl, rfl⟩

/-- For every simple or parenthesised command with redirections at any place among its words: the
parser builds a command with which `runcmd`, started with descriptors 0, 1 and 2 open, gets to the
command inside. There each descriptor refers to the file of the last redirection for it, as opened by
that redirection, and is as it was if there is none, if and only if the first and the last redirection
of each descriptor are the same. -/
theorem runcmd_redirections {ts : List Tok} {rs : List (Redir × List UInt8)}
    {c : Cmd (List UInt8)} (h : Redirected ts rs c) {t : Fds (List UInt8)}
    (hopen : ∀ d < 3, ∃ f, t[d]? = some (some f)) (me : Pid) (k m : ℕ) :
    (∀ rest, Closes .exec rest →
      Gives tokenInput.parseexec (ts ++ rest) (.ok (redircmds c rs, rest))) ∧
      ∃ t', Nexts me ⟨[.runcmd (redircmds c rs)], t, k, m⟩ ⟨[.runcmd c], t', k, m⟩ ∧
        ((∀ d < 3, t.Last rs t' d) ↔ ∀ d < 3, (rs.filter fun r => r.1.fd = d).head? =
          (rs.filter fun r => r.1.fd = d).getLast?) := by
  refine ⟨fun rest hrest => parser_complete h.gen rest hrest, rs.foldr redirect t, ?_, ?_⟩
  · obtain ⟨a, ha⟩ := hopen 0 (by decide)
    obtain ⟨b, hb⟩ := hopen 1 (by decide)
    obtain _ | ⟨x, _ | ⟨y, t'⟩⟩ := t
    · cases ha
    · cases hb
    · obtain rfl : x = some a := Option.some.inj ha
      obtain rfl : y = some b := Option.some.inj hb
      exact nexts_redircmds me c rs ⟨a, b, t', rfl⟩ k m
  · refine forall₂_congr fun d hd => last_iff rs ?_
    obtain ⟨f, hf⟩ := hopen d hd
    exact (List.getElem?_eq_some_iff.mp hf).1

/-- `c <x >y <x`. -/
theorem runcmd_redirections_same :
    Redirected [.word [ch 'c'], .lt, .word [ch 'x'], .gt, .word [ch 'y'], .lt, .word [ch 'x']]
        [(.input, [ch 'x']), (.output, [ch 'y']), (.input, [ch 'x'])] (.exec [[ch 'c']]) ∧
      ∃ t', Nexts [] ⟨[.runcmd (redircmds (.exec [[ch 'c']])
          [(.input, [ch 'x']), (.output, [ch 'y']), (.input, [ch 'x'])])], stdFds, 0, 0⟩
          ⟨[.runcmd (.exec [[ch 'c']])], t', 0, 0⟩ ∧
        t'[0]? = some (some (.opened [ch 'x'] O_RDONLY)) ∧
        t'[1]? = some (some (.opened [ch 'y'] (O_WRONLY ||| O_CREATE ||| O_TRUNC))) := by
  have h : Redirected
      [.word [ch 'c'], .lt, .word [ch 'x'], .gt, .word [ch 'y'], .lt, .word [ch 'x']]
      [(.input, [ch 'x']), (.output, [ch 'y']), (.input, [ch 'x'])] (.exec [[ch 'c']]) :=
    .simple [] [([ch 'c'], [(.input, [ch 'x']), (.output, [ch 'y']), (.input, [ch 'x'])])] (by decide)
  have hopen : ∀ d < 3, ∃ f, (stdFds : Fds (List UInt8))[d]? = some (some f)
    | 0, _ => ⟨.given 0, rfl⟩
    | 1, _ => ⟨.given 1, rfl⟩
    | 2, _ => ⟨.given 2, rfl⟩
  obtain ⟨-, t', hnexts, hiff⟩ := runcmd_redirections h hopen [] 0 0
  have hlast := hiff.mpr (by decide)
  exact ⟨h, t', hnexts, hlast 0 (by decide), hlast 1 (by decide)⟩

/-- `cat <x <y`: `cat` reads `x`, not `y`. -/
theorem runcmd_first_redirection :
    Redirected [.word [ch 'c'], .lt, .word [ch 'x'], .lt, .word [ch 'y']]
        [(.input, [ch 'x']), (.input, [ch 'y'])] (.exec [[ch 'c']]) ∧
      ∃ t', Nexts [] ⟨[.runcmd (redircmds (.exec [[ch 'c']])
          [(.input, [ch 'x']), (.input, [ch 'y'])])], stdFds, 0, 0⟩
          ⟨[.runcmd (.exec [[ch 'c']])], t', 0, 0⟩ ∧
        t'[0]? = some (some (.opened [ch 'x'] O_RDONLY)) ∧
        t'[0]? ≠ some (some (.opened [ch 'y'] O_RDONLY)) := by
  refine ⟨.simple [] [([ch 'c'], [(.input, [ch 'x']), (.input, [ch 'y'])])] (by decide), _,
    nexts_redircmds [] _ [(.input, [ch 'x']), (.input, [ch 'y'])] ⟨_, _, _, rfl⟩ 0 0, rfl, ?_⟩
  intro h
  have hname := File.opened.inj (Option.some.inj (Option.some.inj h))
  exact absurd hname.1 (by decide)

end Xv6.User
