import Xv6.User.ShRun

/-!
# Pipelines

`runcmd` of a tree of pipes that is nested to the right, as `parsepipe` builds it: `c₀ | c₁ | … |
cₙ`. The process that runs the tree from stage `j` on creates a pipe, forks a process for stage `j`
and one for the rest of the tree, closes its ends of the pipe and waits. The processes take their
steps in any order.

The proof says for each process through which states it goes on its way (`levelTrace`,
`stageTrace`); these depend on no other process. A process goes on its way until it waits or is
about to run the command of its stage, and, if that is a simple command, until its redirections are
made and it has reached `exec`. When all have come so far, their descriptors are those of a pipeline
(`pipeline_plumbing`), but for those that a stage has redirected: in `a >x | b` nobody has the write
end of the pipe.
-/

namespace Xv6.User

open Xv6.Lib

variable {ω : Type}

/-! ### Stages -/

/-- The stages of a tree of pipes. -/
def Cmd.stages : Cmd ω → List (Cmd ω)
  | .pipe left right => left :: right.stages
  | c => [c]

/-- The tree from stage `j` on. -/
def Cmd.from : ℕ → Cmd ω → Cmd ω
  | 0, c => c
  | j + 1, .pipe _ right => right.from j
  | _ + 1, c => c

/-- The process that runs the tree from stage `j` on. -/
def level (j : ℕ) : Pid := List.replicate j 1

/-- The process of a stage that is not the last one. -/
def stagePid (j : ℕ) : Pid := level j ++ [0]

/-- The read end of the pipe behind stage `j`. -/
def rd (j : ℕ) : File ω := .readEnd (level j) 0

/-- The write end of the pipe behind stage `j`. -/
def wr (j : ℕ) : File ω := .writeEnd (level j) 0

/-- Where stage `j` reads from. -/
def input : ℕ → File ω
  | 0 => .given 0
  | j + 1 => rd j

/-- A table with so many descriptors. -/
def tbl (a b c d e : Option (File ω)) : Fds ω :=
  [a, b, c, d, e, none, none, none, none, none, none, none, none, none, none, none]

/-- A table with descriptors 0, 1 and 2. -/
abbrev std (a b : File ω) : Fds ω := tbl (some a) (some b) (some (.given 2)) none none

/-- A simple command with a word, with any redirections. -/
def Cmd.simple : Cmd ω → Bool
  | .exec (_ :: _) => true
  | .redir cmd _ _ => cmd.simple
  | _ => false

/-- The file that the redirections of a command give to a descriptor: that of the innermost one. -/
def Cmd.target : Cmd ω → ℕ → Option (File ω)
  | .redir cmd file r, d =>
    (cmd.target d).or (if r.fd = d then some (.opened file r.mode) else none)
  | _, _ => none

/-- The way of a process from the beginning of a simple command to its `exec`. -/
def execTrace : Cmd ω → Fds ω → List (Proc ω)
  | .redir cmd file r, t =>
    ⟨[.runcmd (.redir cmd file r)], t, 0, 0⟩ ::
    ⟨[.close r.fd, .opens file r, .runcmd cmd], t, 0, 0⟩ ::
    ⟨[.opens file r, .runcmd cmd], sys_close t r.fd, 0, 0⟩ :: execTrace cmd (redirect (r, file) t)
  | c, t => [⟨[.runcmd c], t, 0, 0⟩, ⟨c.body, t, 0, 0⟩]

/-- The way of a process with the command of a stage: to the `exec` of a simple command; any other
command it is only about to run. -/
def startTrace (c : Cmd ω) (t : Fds ω) : List (Proc ω) :=
  if c.simple then execTrace c t else [⟨[.runcmd c], t, 0, 0⟩]

/-- The way of the process of a stage that is not the last one. -/
def stageTrace (j : ℕ) (c : Cmd ω) : List (Proc ω) :=
  [⟨[.close 1, .dup 4, .close 3, .close 4, .runcmd c],
      tbl (some (input j)) (some (.given 1)) (some (.given 2)) (some (rd j)) (some (wr j)), 0, 0⟩,
    ⟨[.dup 4, .close 3, .close 4, .runcmd c],
      tbl (some (input j)) none (some (.given 2)) (some (rd j)) (some (wr j)), 0, 0⟩,
    ⟨[.close 3, .close 4, .runcmd c],
      tbl (some (input j)) (some (wr j)) (some (.given 2)) (some (rd j)) (some (wr j)), 0, 0⟩,
    ⟨[.close 4, .runcmd c],
      tbl (some (input j)) (some (wr j)) (some (.given 2)) none (some (wr j)), 0, 0⟩] ++
  startTrace c (std (input j) (wr j))

/-- The beginning of the way of the process that runs the rest of a tree. -/
def levelEntry (c : Cmd ω) : ℕ → List (Proc ω)
  | 0 => []
  | j + 1 =>
    [⟨[.close 0, .dup 3, .close 3, .close 4, .runcmd c],
        tbl (some (input j)) (some (.given 1)) (some (.given 2)) (some (rd j)) (some (wr j)), 0,
        0⟩,
      ⟨[.dup 3, .close 3, .close 4, .runcmd c],
        tbl none (some (.given 1)) (some (.given 2)) (some (rd j)) (some (wr j)), 0, 0⟩,
      ⟨[.close 3, .close 4, .runcmd c],
        tbl (some (rd j)) (some (.given 1)) (some (.given 2)) (some (rd j)) (some (wr j)), 0, 0⟩,
      ⟨[.close 4, .runcmd c],
        tbl (some (rd j)) (some (.given 1)) (some (.given 2)) none (some (wr j)), 0, 0⟩]

/-- How it goes on: with a pipe, or with the last stage. -/
def levelMain (j : ℕ) : Cmd ω → List (Proc ω)
  | .pipe left right =>
    let t := std (input j) (.given 1)
    let t' := tbl (some (input j)) (some (.given 1)) (some (.given 2)) (some (rd j)) (some (wr j))
    [⟨[.runcmd (.pipe left right)], t, 0, 0⟩,
      ⟨[.pipe left right], t, 0, 0⟩,
      ⟨pipeBody left right 3 4, t', 0, 1⟩,
      ⟨(pipeBody left right 3 4).tail, t', 1, 1⟩,
      ⟨[.close 3, .close 4, .wait, .wait, .exit 0], t', 2, 1⟩,
      ⟨[.close 4, .wait, .wait, .exit 0],
        tbl (some (input j)) (some (.given 1)) (some (.given 2)) none (some (wr j)), 2, 1⟩,
      ⟨[.wait, .wait, .exit 0], t, 2, 1⟩]
  | c => startTrace c (std (input j) (.given 1))

/-- The way of the process that runs the tree from stage `j` on. -/
def levelTrace (j : ℕ) (c : Cmd ω) : List (Proc ω) := levelEntry c j ++ levelMain j c

/-! ### Each process on its way -/

/-- One state of a way leads to the next. -/
def Follows (me : Pid) (l : List (Proc ω)) : Prop := l.IsChain fun p q => p.next me = some q

theorem execTrace_eq (c : Cmd ω) (t : Fds ω) :
    ∃ p l, execTrace c t = ⟨[.runcmd c], t, 0, 0⟩ :: p :: l := by
  unfold execTrace
  split <;> exact ⟨_, _, rfl⟩

theorem execTrace_follows (me : Pid) (c : Cmd ω) {t : Fds ω} (ht : t.Std) :
    Follows me (execTrace c t) := by
  induction c generalizing t with
  | redir cmd file r ih =>
    have hin := ih (ht.redirect (r, file))
    obtain ⟨p, l, hl⟩ := execTrace_eq cmd (redirect (r, file) t)
    rw [execTrace]
    rw [hl] at hin ⊢
    obtain ⟨a, b, t, rfl⟩ := ht
    refine .cons_cons rfl (.cons_cons rfl (.cons_cons ?_ hin))
    simp only [Proc.next, fdalloc_close]
    rfl
  | exec argv => exact .cons_cons rfl (.singleton _)
  | pipe l r => exact .cons_cons rfl (.singleton _)
  | list l r => exact .cons_cons rfl (.singleton _)
  | back c => exact .cons_cons rfl (.singleton _)

theorem startTrace_follows (me : Pid) (c : Cmd ω) {t : Fds ω} (ht : t.Std) :
    Follows me (startTrace c t) := by
  unfold startTrace
  split
  · exact execTrace_follows me c ht
  · exact .singleton _

theorem startTrace_eq (c : Cmd ω) (t : Fds ω) :
    ∃ l, startTrace c t = ⟨[.runcmd c], t, 0, 0⟩ :: l := by
  unfold startTrace
  split
  · obtain ⟨p, l, hl⟩ := execTrace_eq c t
    exact ⟨p :: l, hl⟩
  · exact ⟨[], rfl⟩

theorem std_std (a b : File ω) : (std a b).Std := ⟨a, b, _, rfl⟩

theorem stageTrace_follows (j : ℕ) (c : Cmd ω) : Follows (stagePid j) (stageTrace j c) := by
  have hstart := startTrace_follows (stagePid j) c (std_std (input j) (wr j))
  obtain ⟨l, hl⟩ := startTrace_eq c (std (input j) (wr j))
  rw [hl] at hstart
  rw [stageTrace, hl]
  simp only [List.cons_append, List.nil_append, Follows, List.isChain_cons_cons]
  exact ⟨rfl, rfl, rfl, rfl, hstart⟩

theorem levelMain_follows (j : ℕ) (c : Cmd ω) : Follows (level j) (levelMain j c) := by
  unfold levelMain
  split
  · simp only [Follows, List.isChain_cons_cons]
    exact ⟨rfl, rfl, rfl, rfl, rfl, rfl, .singleton _⟩
  · exact startTrace_follows _ _ (std_std _ _)

theorem levelMain_eq (j : ℕ) (c : Cmd ω) :
    ∃ l, levelMain j c = ⟨[.runcmd c], std (input j) (.given 1), 0, 0⟩ :: l := by
  unfold levelMain
  split
  · exact ⟨_, rfl⟩
  · exact startTrace_eq _ _

theorem levelTrace_follows (j : ℕ) (c : Cmd ω) : Follows (level j) (levelTrace j c) := by
  have hmain := levelMain_follows j c
  obtain ⟨l, hl⟩ := levelMain_eq j c
  cases j with
  | zero => exact hmain
  | succ j =>
    rw [levelTrace, hl]
    rw [hl] at hmain
    simp only [levelEntry, List.cons_append, List.nil_append, Follows, List.isChain_cons_cons]
    exact ⟨rfl, rfl, rfl, rfl, hmain⟩

theorem Follows.mem_of_next {me : Pid} {l : List (Proc ω)} (h : Follows me l) {p q : Proc ω}
    (hp : p ∈ l) (hq : p.next me = some q) : q ∈ l ∨ l.getLast? = some p := by
  induction l with
  | nil => cases hp
  | cons a l ih =>
    cases l with
    | nil =>
      obtain rfl := List.mem_singleton.mp hp
      exact .inr rfl
    | cons b l =>
      rw [Follows, List.isChain_cons_cons] at h
      rcases List.mem_cons.mp hp with rfl | hp
      · obtain rfl := Option.some.inj (h.1.symm.trans hq)
        exact .inl (List.mem_cons_of_mem _ List.mem_cons_self)
      · rcases ih h.2 hp with hmem | hlast
        · exact .inl (List.mem_cons_of_mem _ hmem)
        · exact .inr (by rw [List.getLast?_cons_cons]; exact hlast)

/-! ### Where a process is on its way -/

/-- The steps by which a pipeline is set up: no process goes on with the command of a stage, but
with a simple one. -/
def Plumbing (s : Procs ω) (i : Pid) : Prop :=
  ∀ p c rest, s i = some p → p.code = .runcmd c :: rest →
    c.simple ∨ (∃ l r, c = .pipe l r) ∧ i.getLast? ≠ some 0

/-- The process has come to the end of its way: it waits, has reached `exec`, or is about to run the
command of a stage that is not a simple one. -/
def Proc.Arrived (i : Pid) (p : Proc ω) : Prop :=
  (∃ rest, p.code = .wait :: rest) ∨ (∃ argv rest, p.code = .exec argv :: rest) ∨
    ∃ c, p.code = [.runcmd c] ∧ ¬ c.simple ∧ ((∃ l r, c = .pipe l r) → i.getLast? = some 0)

/-- The words of a simple command. -/
def Cmd.argv : Cmd ω → List ω
  | .exec argv => argv
  | .redir cmd _ _ => cmd.argv
  | _ => []

/-- What the process of a stage has still to do at the end of its way. -/
def Cmd.atEnd (c : Cmd ω) : List (Act ω) :=
  if c.simple then [.exec c.argv, .exit 0] else [.runcmd c]

/-- The file that descriptor `d` refers to then, if it was `f` at the beginning. -/
def Cmd.file (c : Cmd ω) (d : ℕ) (f : File ω) : File ω :=
  if c.simple then (c.target d).getD f else f

/-- The process of a stage has come to the end of its way. -/
structure Proc.AtStage (c : Cmd ω) (a b : File ω) (p : Proc ω) : Prop where
  code : p.code = c.atEnd
  fds : p.fds = std (c.file 0 a) (c.file 1 b)

/-- A call on the way of a process that concerns no other one. -/
def Act.Setup : Act ω → Prop
  | .runcmd c => c.simple
  | .close _ => True
  | .dup _ => True
  | .opens _ _ => True
  | _ => False

/-- The next call is such a one. -/
def Proc.Setup (p : Proc ω) : Prop := ∃ x rest, p.code = x :: rest ∧ x.Setup

section Ways

variable {c : Cmd ω} {t : Fds ω} {a b : File ω} {i : Pid} {j : ℕ} {s : Procs ω} {p q : Proc ω}

theorem Proc.Setup.head {x : Act ω} {rest : List (Act ω)} (h : p.Setup)
    (hcode : p.code = x :: rest) : x.Setup := by
  obtain ⟨y, rest', hcode', hy⟩ := h
  obtain ⟨rfl, -⟩ := List.cons.inj (hcode.symm.trans hcode')
  exact hy

theorem Proc.Setup.not_arrived (h : p.Setup) : ¬ p.Arrived i := by
  rintro (⟨_, hwait⟩ | ⟨_, _, hexec⟩ | ⟨c, hrun, hc, -⟩)
  · exact h.head hwait
  · exact h.head hexec
  · exact hc (h.head hrun)

/-- A redirection of descriptor 0 or 1. -/
theorem redirect_std (r : Redir) (file : ω) (a b : File ω) :
    redirect (r, file) (std a b) =
      std (if r.fd = 0 then .opened file r.mode else a)
        (if r.fd = 1 then .opened file r.mode else b) := by
  cases r <;> rfl

theorem target_getD (c : Cmd ω) (file : ω) (r : Redir) (d : ℕ) (f : File ω) :
    ((Cmd.redir c file r).target d).getD f =
      (c.target d).getD (if r.fd = d then .opened file r.mode else f) := by
  rw [Cmd.target]
  cases c.target d with
  | none => split <;> rfl
  | some g => rfl

theorem mem_execTrace (hc : c.simple) (hp : p ∈ execTrace c (std a b)) :
    p.Setup ∨ p.code = [.exec c.argv, .exit 0] ∧
      p.fds = std ((c.target 0).getD a) ((c.target 1).getD b) := by
  induction c generalizing a b with
  | redir cmd file r ih =>
    rw [execTrace, redirect_std] at hp
    rcases List.mem_cons.mp hp with rfl | hp
    · exact .inl ⟨_, _, rfl, hc⟩
    rcases List.mem_cons.mp hp with rfl | hp
    · exact .inl ⟨_, _, rfl, trivial⟩
    rcases List.mem_cons.mp hp with rfl | hp
    · exact .inl ⟨_, _, rfl, trivial⟩
    rcases ih hc hp with h | ⟨hcode, hfds⟩
    · exact .inl h
    · exact .inr ⟨hcode, by rw [target_getD, target_getD]; exact hfds⟩
  | exec argv =>
    rcases List.mem_pair.mp hp with rfl | rfl
    · exact .inl ⟨_, _, rfl, hc⟩
    · obtain _ | ⟨x, l⟩ := argv
      · cases hc
      · exact .inr ⟨rfl, rfl⟩
  | pipe l r => cases hc
  | list l r => cases hc
  | back c => cases hc

theorem mem_startTrace (hp : p ∈ startTrace c (std a b)) : p.Setup ∨ p.AtStage c a b := by
  unfold startTrace at hp
  split at hp
  · next hc =>
      refine (mem_execTrace hc hp).imp_right fun h => ⟨?_, ?_⟩
      · rw [Cmd.atEnd, if_pos hc, h.1]
      · rw [Cmd.file, Cmd.file, if_pos hc, if_pos hc, h.2]
  · next hc =>
      obtain rfl := List.mem_singleton.mp hp
      refine .inr ⟨?_, ?_⟩
      · rw [Cmd.atEnd, if_neg hc]
      · rw [Cmd.file, Cmd.file, if_neg hc, if_neg hc]

theorem mem_stageTrace (hp : p ∈ stageTrace j c) :
    p.Setup ∨ p.AtStage c (input j) (wr j) := by
  rcases List.mem_append.mp hp with hp | hp
  · simp only [List.mem_cons, List.not_mem_nil, or_false] at hp
    rcases hp with rfl | rfl | rfl | rfl <;> exact .inl ⟨_, _, rfl, trivial⟩
  · exact mem_startTrace hp

/-- Where the process that runs a pipe from stage `j` on forks and waits. -/
inductive AtPipe (j : ℕ) (l r : Cmd ω) : Proc ω → Prop
  | forkLeft : AtPipe j l r ⟨pipeBody l r 3 4,
      tbl (some (input j)) (some (.given 1)) (some (.given 2)) (some (rd j)) (some (wr j)), 0, 1⟩
  | forkRight : AtPipe j l r ⟨(pipeBody l r 3 4).tail,
      tbl (some (input j)) (some (.given 1)) (some (.given 2)) (some (rd j)) (some (wr j)), 1, 1⟩
  | wait : AtPipe j l r ⟨[.wait, .wait, .exit 0], std (input j) (.given 1), 2, 1⟩

/-- Where the process that runs the tree from stage `j` on can be. -/
inductive AtLevel (j : ℕ) : Cmd ω → Proc ω → Prop
  | setup {c : Cmd ω} {p : Proc ω} : p.Setup → AtLevel j c p
  | stage {c : Cmd ω} {p : Proc ω} : (¬ ∃ l r, c = .pipe l r) → p.AtStage c (input j) (.given 1) →
      AtLevel j c p
  | begin (l r : Cmd ω) {p : Proc ω} : p.code = [.runcmd (.pipe l r)] → AtLevel j (.pipe l r) p
  | pipe (l r : Cmd ω) {p : Proc ω} : p.code = [.pipe l r] → AtLevel j (.pipe l r) p
  | busy (l r : Cmd ω) {p : Proc ω} : AtPipe j l r p → AtLevel j (.pipe l r) p

theorem mem_levelTrace (hp : p ∈ levelTrace j c) : AtLevel j c p := by
  rcases List.mem_append.mp hp with hp | hp
  · cases j with
    | zero => cases hp
    | succ j =>
      simp only [levelEntry, List.mem_cons, List.not_mem_nil, or_false] at hp
      rcases hp with rfl | rfl | rfl | rfl <;> exact .setup ⟨_, _, rfl, trivial⟩
  · unfold levelMain at hp
    split at hp
    · simp only [List.mem_cons, List.not_mem_nil, or_false] at hp
      rcases hp with rfl | rfl | rfl | rfl | rfl | rfl | rfl
      · exact .begin _ _ rfl
      · exact .pipe _ _ rfl
      · exact .busy _ _ .forkLeft
      · exact .busy _ _ .forkRight
      · exact .setup ⟨_, _, rfl, trivial⟩
      · exact .setup ⟨_, _, rfl, trivial⟩
      · exact .busy _ _ .wait
    · next hne =>
        rcases mem_startTrace hp with h | h
        · exact .setup h
        · exact .stage (fun ⟨l, r, e⟩ => hne l r e) h

/-! ### To the end of the way -/

theorem execTrace_end (hc : c.simple) (hlast : (execTrace c t).getLast? = some p) :
    p.next i ≠ some q := by
  induction c generalizing t with
  | redir cmd file r ih =>
    obtain ⟨x, l, hl⟩ := execTrace_eq cmd (redirect (r, file) t)
    rw [execTrace, hl] at hlast
    simp only [List.getLast?_cons_cons] at hlast
    exact ih hc (t := redirect (r, file) t) (by rw [hl, List.getLast?_cons_cons, hlast])
  | exec argv =>
    obtain rfl := Option.some.inj hlast
    obtain _ | ⟨x, l⟩ := argv
    · cases hc
    · exact fun h => by cases h
  | pipe l r => cases hc
  | list l r => cases hc
  | back c => cases hc

theorem startTrace_end (hs : s i = some p) (hG : Plumbing s i)
    (hi : (∃ l r, c = .pipe l r) → i.getLast? = some 0)
    (hlast : (startTrace c t).getLast? = some p) : p.next i ≠ some q := by
  unfold startTrace at hlast
  split at hlast
  · next hc => exact execTrace_end hc hlast
  · next hc =>
      obtain rfl := Option.some.inj hlast
      rcases hG _ c [] hs rfl with hsimple | ⟨hpipe, hne⟩
      · exact absurd hsimple hc
      · exact absurd (hi hpipe) hne

theorem getLast?_stagePid (j : ℕ) : (stagePid j).getLast? = some 0 := List.getLast?_concat ..

/-- The process of a stage stays on its way. -/
theorem stageTrace_next (hs : s (stagePid j) = some p) (hG : Plumbing s (stagePid j))
    (hp : p ∈ stageTrace j c) (hq : p.next (stagePid j) = some q) : q ∈ stageTrace j c := by
  refine ((stageTrace_follows j c).mem_of_next hp hq).resolve_right fun hlast => ?_
  obtain ⟨l, hl⟩ := startTrace_eq c (std (input j) (wr j))
  refine startTrace_end (c := c) (t := std (input j) (wr j)) hs hG
    (fun _ => getLast?_stagePid j) ?_ hq
  rw [stageTrace, List.getLast?_append_of_ne_nil _ (by rw [hl]; simp)] at hlast
  exact hlast

/-- So does the process that runs the rest of a tree. -/
theorem levelTrace_next (hs : s (level j) = some p) (hG : Plumbing s (level j))
    (hp : p ∈ levelTrace j c) (hq : p.next (level j) = some q) : q ∈ levelTrace j c := by
  refine ((levelTrace_follows j c).mem_of_next hp hq).resolve_right fun hlast => ?_
  obtain ⟨l, hl⟩ := levelMain_eq j c
  rw [levelTrace, List.getLast?_append_of_ne_nil _ (by rw [hl]; simp)] at hlast
  unfold levelMain at hlast
  split at hlast
  · obtain rfl := Option.some.inj hlast
    cases hq
  · next hne =>
      exact startTrace_end hs hG (fun ⟨l, r, e⟩ => absurd e (hne l r)) hlast hq

end Ways

/-! ### Stages and processes -/

theorem level_append (j : ℕ) : level j ++ [1] = level (j + 1) := List.replicate_succ'.symm

theorem level_injective : Function.Injective level := fun j k h => by
  simpa [level] using congrArg List.length h

theorem level_ne_stagePid (j k : ℕ) : level j ≠ stagePid k := fun h => by
  have h0 : 0 ∈ level j := h ▸ List.mem_append_right _ List.mem_cons_self
  exact absurd (List.eq_of_mem_replicate h0) Nat.zero_ne_one

theorem stagePid_injective : Function.Injective stagePid := fun _ _ h =>
  level_injective (List.append_cancel_right h)

theorem stagePid_ne_level (j k : ℕ) : stagePid j ≠ level k := (level_ne_stagePid k j).symm

theorem getLast?_level (j : ℕ) : (level j).getLast? ≠ some 0 := fun h =>
  absurd (List.eq_of_mem_replicate (List.mem_of_getLast? h)) Nat.zero_ne_one

theorem wr_injective : Function.Injective (wr : ℕ → File ω) := fun _ _ h =>
  level_injective (File.writeEnd.inj h).1

section Stages

variable {c l r : Cmd ω} {j k : ℕ}

@[simp] theorem from_zero (c : Cmd ω) : c.from 0 = c := by
  cases c <;> rfl

theorem stages_pos (c : Cmd ω) : 0 < c.stages.length := by
  cases c <;> exact Nat.succ_pos _

theorem from_pipe (h : c.from j = .pipe l r) :
    c.stages[j]? = some l ∧ c.from (j + 1) = r ∧ j + 1 < c.stages.length := by
  induction j generalizing c with
  | zero =>
    obtain rfl : c = .pipe l r := by rwa [from_zero] at h
    refine ⟨rfl, from_zero r, ?_⟩
    exact Nat.succ_lt_succ (stages_pos r)
  | succ j ih =>
    cases c with
    | pipe a b =>
      obtain ⟨h1, h2, h3⟩ := ih (c := b) h
      exact ⟨h1, h2, Nat.succ_lt_succ h3⟩
    | exec _ | redir _ _ _ | list _ _ | back _ => cases h

/-- Every stage is the left side of a pipe, but the last one, which is all that is left of the tree.
-/
theorem stages_from (h : c.stages[j]? = some l) :
    (j + 1 < c.stages.length ∧ ∃ r, c.from j = .pipe l r) ∨
      (j + 1 = c.stages.length ∧ c.from j = l ∧ ¬ ∃ a b, l = .pipe a b) := by
  induction j generalizing c with
  | zero =>
    cases c with
    | pipe a b =>
      obtain rfl := Option.some.inj h
      exact .inl ⟨(from_pipe (c := .pipe a b) (from_zero _)).2.2, b, rfl⟩
    | exec _ | redir _ _ _ | list _ _ | back _ =>
      obtain rfl := Option.some.inj h
      exact .inr ⟨rfl, rfl, fun ⟨_, _, e⟩ => by cases e⟩
  | succ j ih =>
    cases c with
    | pipe a b =>
      rcases ih (c := b) h with ⟨hlt, hr⟩ | ⟨he, hr⟩
      · exact .inl ⟨Nat.succ_lt_succ hlt, hr⟩
      · exact .inr ⟨congrArg Nat.succ he, hr⟩
    | exec _ | redir _ _ _ | list _ _ | back _ => cases h

end Stages

/-! ### All of them -/

/-- Every process is on its way, and a process that has forked has its children. -/
structure Piping (c : Cmd ω) (s : Procs ω) : Prop where
  root : s (level 0) ≠ none
  bound : ∀ j, s (level j) ≠ none → j < c.stages.length
  levels : ∀ j p, s (level j) = some p → p ∈ levelTrace j (c.from j)
  stages : ∀ j p, s (stagePid j) = some p → ∃ l r, c.from j = .pipe l r ∧ p ∈ stageTrace j l
  other : ∀ i, (∀ j, i ≠ level j ∧ i ≠ stagePid j) → s i = none
  left : ∀ j p, s (level j) = some p → 1 ≤ p.forks → s (stagePid j) ≠ none
  right : ∀ j p, s (level j) = some p → 2 ≤ p.forks → s (level (j + 1)) ≠ none

section Piping

variable {c : Cmd ω} {s : Procs ω} {i : Pid} {j : ℕ} {p q : Proc ω}

/-- A process is one that runs a tree or one of a stage. -/
theorem Piping.which (h : Piping c s) (hs : s i = some p) :
    (∃ j, i = level j ∧ p ∈ levelTrace j (c.from j)) ∨
      ∃ j l r, i = stagePid j ∧ c.from j = .pipe l r ∧ p ∈ stageTrace j l := by
  by_contra hno
  push Not at hno
  have hnone := h.other i fun j => ⟨fun e => ?_, fun e => ?_⟩
  · rw [hnone] at hs
    cases hs
  · exact hno.1 j e (h.levels j p (e ▸ hs))
  · obtain ⟨l, r, hfrom, hmem⟩ := h.stages j p (e ▸ hs)
    exact hno.2 j l r e hfrom hmem

/-- Every process has a call to make. It is a fork or a wait only in a process that runs a pipe. -/
theorem Piping.head (h : Piping c s) (hs : s i = some p) :
    (∃ x rest, p.code = x :: rest ∧ x ≠ .wait ∧ ∀ d, x ≠ .fork d) ∨
      ∃ j l r, i = level j ∧ c.from j = .pipe l r ∧ AtPipe j l r p := by
  have hsetup (hx : p.Setup) : ∃ x rest, p.code = x :: rest ∧ x ≠ .wait ∧ ∀ d, x ≠ .fork d := by
    obtain ⟨x, rest, hcode, hx⟩ := hx
    exact ⟨x, rest, hcode, by rintro rfl; exact hx, by rintro d rfl; exact hx⟩
  have hend {d : Cmd ω} {a b : File ω} (hat : p.AtStage d a b) :
      ∃ x rest, p.code = x :: rest ∧ x ≠ .wait ∧ ∀ d, x ≠ .fork d := by
    rw [hat.code, Cmd.atEnd]
    split <;> exact ⟨_, _, rfl, by simp, by simp⟩
  rcases h.which hs with ⟨j, rfl, hmem⟩ | ⟨j, l, r, -, -, hmem⟩
  · generalize hfrom : c.from j = e at hmem
    cases mem_levelTrace hmem with
    | setup hx => exact .inl (hsetup hx)
    | stage _ hat => exact .inl (hend hat)
    | begin l r hcode | pipe l r hcode => exact .inl ⟨_, _, hcode, by simp, by simp⟩
    | busy l r hat => exact .inr ⟨j, l, r, rfl, hfrom, hat⟩
  · exact .inl ((mem_stageTrace hmem).elim hsetup hend)

theorem update_ne_none {k : Pid} (h : s k ≠ none) : Function.update s i (some q) k ≠ none := by
  rw [Function.update_apply]
  split
  · exact Option.some_ne_none q
  · exact h

theorem update_eq_some {k : Pid} (h : Function.update s i (some q) k = some p) :
    k = i ∧ q = p ∨ s k = some p := by
  rw [Function.update_apply] at h
  split at h
  · exact .inl ⟨‹_›, Option.some.inj h⟩
  · exact .inr h

/-- The process of a stage begins or goes on. -/
theorem Piping.setStage {l r : Cmd ω} (h : Piping c s) (hfrom : c.from j = .pipe l r)
    (hq : q ∈ stageTrace j l) : Piping c (Function.update s (stagePid j) (some q)) where
  root := update_ne_none h.root
  bound k hk := by
    rw [Function.update_of_ne (level_ne_stagePid k j)] at hk
    exact h.bound k hk
  levels k p hk := by
    rw [Function.update_of_ne (level_ne_stagePid k j)] at hk
    exact h.levels k p hk
  stages k p hk := by
    rcases update_eq_some hk with ⟨e, rfl⟩ | hk
    · obtain rfl := stagePid_injective e
      exact ⟨l, r, hfrom, hq⟩
    · exact h.stages k p hk
  other i hi := by
    rw [Function.update_of_ne (hi j).2]
    exact h.other i hi
  left k p hk hf := by
    rw [Function.update_of_ne (level_ne_stagePid k j)] at hk
    exact update_ne_none (h.left k p hk hf)
  right k p hk hf := by
    rw [Function.update_of_ne (level_ne_stagePid k j)] at hk
    exact update_ne_none (h.right k p hk hf)

/-- The process that runs the rest of a tree begins or goes on. -/
theorem Piping.setLevel (h : Piping c s) (hj : j < c.stages.length) (hq : q ∈ levelTrace j (c.from j))
    (hleft : 1 ≤ q.forks → s (stagePid j) ≠ none)
    (hright : 2 ≤ q.forks → s (level (j + 1)) ≠ none) :
    Piping c (Function.update s (level j) (some q)) where
  root := update_ne_none h.root
  bound k hk := by
    rw [Function.update_apply] at hk
    split at hk
    · next e =>
        obtain rfl := level_injective e
        exact hj
    · exact h.bound k hk
  levels k p hk := by
    rcases update_eq_some hk with ⟨e, rfl⟩ | hk
    · obtain rfl := level_injective e
      exact hq
    · exact h.levels k p hk
  stages k p hk := by
    rw [Function.update_of_ne (stagePid_ne_level k j)] at hk
    exact h.stages k p hk
  other i hi := by
    rw [Function.update_of_ne (hi j).1]
    exact h.other i hi
  left k p hk hf := by
    rcases update_eq_some hk with ⟨e, rfl⟩ | hk
    · obtain rfl := level_injective e
      exact update_ne_none (hleft hf)
    · exact update_ne_none (h.left k p hk hf)
  right k p hk hf := by
    rcases update_eq_some hk with ⟨e, rfl⟩ | hk
    · obtain rfl := level_injective e
      exact update_ne_none (hright hf)
    · exact update_ne_none (h.right k p hk hf)

/-- A step that is no fork leaves the number of forks alone. -/
theorem Proc.next_forks (hp : ∀ d rest, p.code ≠ .fork d :: rest) (hq : p.next i = some q) :
    q.forks = p.forks := by
  unfold Proc.next at hq
  split at hq
  all_goals try split at hq
  all_goals first
    | cases hq
      rfl
    | next d rest hcode => exact absurd hcode (hp d rest)
    | cases hq

theorem Piping.go (h : Piping c s) (hG : Plumbing s i) (hs : s i = some p)
    (hp : ∀ d rest, p.code ≠ .fork d :: rest) (hq : p.next i = some q) :
    Piping c (Function.update s i (some q)) := by
  rcases h.which hs with ⟨j, rfl, hmem⟩ | ⟨j, l, r, rfl, hfrom, hmem⟩
  · have hforks := Proc.next_forks hp hq
    have hj := h.bound j (hs ▸ Option.some_ne_none p)
    refine h.setLevel hj (levelTrace_next hs hG hmem hq) (fun hf => ?_) (fun hf => ?_)
    · exact h.left j p hs (hforks ▸ hf)
    · exact h.right j p hs (hforks ▸ hf)
  · exact h.setStage hfrom (stageTrace_next hs hG hmem hq)

/-- The two forks of a process that runs the rest of a tree. -/
theorem Piping.fork {d rest : List (Act ω)} (h : Piping c s) (hG : Plumbing s i) (hs : s i = some p)
    (hcode : p.code = .fork d :: rest) (hq : p.next i = some q) :
    Piping c (Function.update (Function.update s i (some q)) (i ++ [p.forks])
      (some ⟨d, p.fds, 0, 0⟩)) := by
  rcases h.head hs with ⟨x, rest', hx, -, hfork⟩ | ⟨j, l, r, rfl, hfrom, hat⟩
  · exact absurd (List.cons.inj (hx.symm.trans hcode)).1 (hfork d)
  have hnext := levelTrace_next hs hG (h.levels j p hs) hq
  have hj := h.bound j (hs ▸ Option.some_ne_none p)
  cases hat with
  | wait => cases hcode
  | forkLeft =>
    cases hcode
    cases hq
    -- the child first, so that the parent has it
    change Piping c (Function.update _ (stagePid j) _)
    rw [Function.update_comm (level_ne_stagePid j j)]
    have hchild := h.setStage hfrom (q := ⟨_, _, 0, 0⟩) List.mem_cons_self
    refine hchild.setLevel hj hnext (fun _ => ?_) (fun hf => absurd hf (Nat.not_succ_le_self 1))
    rw [Function.update_self]
    exact Option.some_ne_none _
  | forkRight =>
    cases hcode
    cases hq
    have hne : level j ≠ level (j + 1) := fun e => absurd (level_injective e) (by omega)
    change Piping c (Function.update _ (level j ++ [1]) _)
    rw [level_append, Function.update_comm hne]
    have hchild := h.setLevel (j := j + 1) (q := ⟨_, _, 0, 0⟩) (from_pipe hfrom).2.2
      (by rw [(from_pipe hfrom).2.1]; exact List.mem_cons_self)
      (fun hf => absurd hf (Nat.not_succ_le_zero 0))
      (fun hf => absurd hf (Nat.not_succ_le_zero 1))
    refine hchild.setLevel hj hnext (fun _ => ?_) (fun _ => ?_)
    · exact update_ne_none (h.left j _ hs (Nat.le_refl 1))
    · rw [Function.update_self]
      exact Option.some_ne_none _

theorem Piping.step {s' : Procs ω} (h : Piping c s) (hG : Plumbing s i) (hstep : Procs.Step s i s') :
    Piping c s' := by
  cases hstep with
  | go hs hp hq => exact h.go hG hs hp hq
  | fork hs hcode hq => exact h.fork hG hs hcode hq
  | reap hs hcode hs' hnil =>
    rcases h.head hs' with ⟨x, rest, hx, -⟩ | ⟨j, l, r, -, -, hat⟩
    · cases hnil.symm.trans hx
    · cases hat <;> cases hnil
  | childless hs hcode hnone =>
    -- a process that waits has its children
    rcases h.head hs with ⟨x, rest, hx, hwait, -⟩ | ⟨j, l, r, rfl, -, hat⟩
    · exact absurd (List.cons.inj (hx.symm.trans hcode)).1 hwait
    · cases hat with
      | wait => exact absurd (hnone 0) (h.left j _ hs (Nat.le_succ 1))
      | forkLeft | forkRight => cases hcode

theorem Piping.init (hs : (shell c stdFds).init s) : Piping c s := by
  have hnone : ∀ i, i ≠ [] → s i = none := fun i hi => by rw [hs]; exact if_neg hi
  have hlevel : ∀ j p, s (level j) = some p → j = 0 ∧ p = ⟨[.runcmd c], stdFds, 0, 0⟩ := by
    intro j p hp
    cases j with
    | zero =>
      rw [hs] at hp
      exact ⟨rfl, (Option.some.inj hp).symm⟩
    | succ j =>
      rw [hnone (level (j + 1)) (List.cons_ne_nil _ _)] at hp
      cases hp
  have hstage : ∀ j, s (stagePid j) = none := fun j =>
    hnone _ (List.append_ne_nil_of_right_ne_nil _ (List.cons_ne_nil _ _))
  refine ⟨?_, fun j hj => ?_, fun j p hp => ?_, fun j p hp => ?_, fun i hi => hnone i (hi 0).1,
    fun j p hp hf => ?_, fun j p hp hf => ?_⟩
  · rw [hs]
    exact Option.some_ne_none _
  · obtain ⟨p, hp⟩ := Option.ne_none_iff_exists'.mp hj
    obtain ⟨rfl, -⟩ := hlevel j p hp
    exact stages_pos c
  · obtain ⟨rfl, rfl⟩ := hlevel j p hp
    obtain ⟨l, hl⟩ := levelMain_eq 0 c
    change _ ∈ levelMain 0 (c.from 0)
    rw [from_zero, hl]
    exact List.mem_cons_self
  · rw [hstage j] at hp
    cases hp
  · obtain ⟨-, rfl⟩ := hlevel j p hp
    exact absurd hf (Nat.not_succ_le_zero 0)
  · obtain ⟨-, rfl⟩ := hlevel j p hp
    exact absurd hf (Nat.not_succ_le_zero 1)

theorem Piping.reach (h : ((shell c stdFds).restrict Plumbing).Reach s) : Piping c s := by
  refine h.induct (M := (shell c stdFds).restrict Plumbing) (fun _ hs => Piping.init hs) ?_
  intro s i s' _ hI hstep
  exact hI.step hstep.1 hstep.2

end Piping

/-! ### The pipeline -/

/-- The process of stage `k`. -/
def Cmd.worker (c : Cmd ω) (k : ℕ) : Pid :=
  if k + 1 < c.stages.length then stagePid k else level k

/-- Where stage `k` writes to. -/
def Cmd.output (c : Cmd ω) (k : ℕ) : File ω :=
  if k + 1 < c.stages.length then wr k else .given 1

/-- The processes and their descriptors are those of a pipeline. -/
structure Plumbed (c : Cmd ω) (s : Procs ω) : Prop where
  /-- Each stage has a process, at its `exec`, or about to run a command that is not a simple one.
  It reads from the pipe of the stage before it and writes to its own one, but for its redirections,
  and has no other descriptors than 0, 1 and 2. -/
  stage : ∀ k d, c.stages[k]? = some d → ∃ p, s (c.worker k) = some p ∧
    p.AtStage d (input k) (c.output k)
  /-- The write end of a pipe is open in its stage only, as descriptor 1. -/
  writer : ∀ i p k n, s i = some p → p.fds[n]? = some (some (wr k)) → i = c.worker k ∧ n = 1
  /-- The shell processes wait. -/
  waits : ∀ i p, s i = some p → (∀ k < c.stages.length, i ≠ c.worker k) →
    ∃ rest, p.code = .wait :: rest

section Plumbed

variable {c d : Cmd ω} {s : Procs ω} {i : Pid} {j k : ℕ} {p q : Proc ω}

/-- The process of a stage at the end of its way. -/
theorem Piping.stage_arrived {l r : Cmd ω} (h : Piping c s) (hfrom : c.from j = .pipe l r)
    (hs : s (stagePid j) = some p) (hp : p.Arrived (stagePid j)) :
    p.AtStage l (input j) (wr j) := by
  obtain ⟨l', r', hfrom', hmem⟩ := h.stages j p hs
  obtain ⟨rfl, rfl⟩ := Cmd.pipe.inj (hfrom.symm.trans hfrom')
  exact (mem_stageTrace hmem).resolve_left fun hx => hx.not_arrived hp

/-- A process that runs the rest of a tree: it waits, or the rest is the last stage. -/
theorem Piping.level_arrived (h : Piping c s) (hs : s (level j) = some p) (hp : p.Arrived (level j)) :
    ((∃ l r, c.from j = .pipe l r) ∧
      p = ⟨[.wait, .wait, .exit 0], std (input j) (.given 1), 2, 1⟩) ∨
    ((¬ ∃ l r, c.from j = .pipe l r) ∧ p.AtStage (c.from j) (input j) (.given 1)) := by
  have hmem := h.levels j p hs
  generalize c.from j = e at hmem
  cases mem_levelTrace hmem with
  | setup hx => exact absurd hp hx.not_arrived
  | stage hne hat => exact .inr ⟨hne, hat⟩
  | busy l r hat =>
    cases hat with
    | wait => exact .inl ⟨⟨l, r, rfl⟩, rfl⟩
    | forkLeft | forkRight => rcases hp with ⟨_, hx⟩ | ⟨_, _, hx⟩ | ⟨d, hx, -⟩ <;> cases hx
  | begin l r hcode =>
    rcases hp with ⟨_, hx⟩ | ⟨_, _, hx⟩ | ⟨d, hx, -, hlast⟩
    · rw [hcode] at hx; cases hx
    · rw [hcode] at hx; cases hx
    · rw [hcode] at hx
      obtain rfl := Act.runcmd.inj (List.cons.inj hx).1
      exact absurd (hlast ⟨l, r, rfl⟩) (getLast?_level j)
  | pipe l r hcode =>
    rcases hp with ⟨_, hx⟩ | ⟨_, _, hx⟩ | ⟨d, hx, -⟩ <;> rw [hcode] at hx <;> cases hx

/-- Every process that runs the rest of a tree is there. -/
theorem Piping.exists_level (h : Piping c s) (harr : ∀ i p, s i = some p → p.Arrived i)
    (hj : j < c.stages.length) : s (level j) ≠ none := by
  induction j with
  | zero => exact h.root
  | succ j ih =>
    obtain ⟨p, hp⟩ := Option.ne_none_iff_exists'.mp (ih (Nat.lt_of_succ_lt hj))
    have hstage := List.getElem?_eq_getElem (Nat.lt_of_succ_lt hj)
    rcases stages_from hstage with ⟨-, r, hfrom⟩ | ⟨hlast, -⟩
    · rcases h.level_arrived hp (harr _ p hp) with ⟨-, rfl⟩ | ⟨hne, -⟩
      · exact h.right j _ hp (Nat.le_refl 2)
      · exact absurd ⟨_, r, hfrom⟩ hne
    · exact absurd hlast (Nat.ne_of_lt hj)

theorem worker_of_lt (h : k + 1 < c.stages.length) : c.worker k = stagePid k := if_pos h

theorem worker_last (h : k + 1 = c.stages.length) : c.worker k = level k :=
  if_neg (Nat.not_lt.mpr h.ge)

theorem Piping.worker (h : Piping c s) (harr : ∀ i p, s i = some p → p.Arrived i)
    (hd : c.stages[k]? = some d) :
    ∃ p, s (c.worker k) = some p ∧ p.AtStage d (input k) (c.output k) := by
  have hk := (List.getElem?_eq_some_iff.mp hd).1
  obtain ⟨p, hp⟩ := Option.ne_none_iff_exists'.mp (h.exists_level harr hk)
  rcases stages_from hd with ⟨hlt, r, hfrom⟩ | ⟨hlast, rfl, hne⟩
  · rcases h.level_arrived hp (harr _ p hp) with ⟨-, rfl⟩ | ⟨hne, -⟩
    · obtain ⟨q, hq⟩ := Option.ne_none_iff_exists'.mp (h.left k _ hp (Nat.le_succ 1))
      rw [worker_of_lt hlt, Cmd.output, if_pos hlt]
      exact ⟨q, hq, h.stage_arrived hfrom hq (harr _ q hq)⟩
    · exact absurd ⟨d, r, hfrom⟩ hne
  · rcases h.level_arrived hp (harr _ p hp) with ⟨hpipe, -⟩ | ⟨-, hat⟩
    · exact absurd hpipe hne
    · rw [worker_last hlast, Cmd.output, if_neg (Nat.not_lt.mpr hlast.ge)]
      exact ⟨p, hp, hat⟩

theorem std_getElem? {a b f : File ω} {n : ℕ} (h : (std a b)[n]? = some (some f)) :
    (n = 0 ∧ f = a) ∨ (n = 1 ∧ f = b) ∨ f = .given 2 := by
  match n with
  | 0 => exact .inl ⟨rfl, (Option.some.inj (Option.some.inj h)).symm⟩
  | 1 => exact .inr (.inl ⟨rfl, (Option.some.inj (Option.some.inj h)).symm⟩)
  | 2 => exact .inr (.inr (Option.some.inj (Option.some.inj h)).symm)
  | n + 3 =>
    have hmem : some f ∈ List.replicate 13 none := List.mem_of_getElem? (i := n) h
    cases List.eq_of_mem_replicate hmem

theorem target_ne_wr (c : Cmd ω) (n k : ℕ) : c.target n ≠ some (wr k) := by
  induction c with
  | redir cmd file r ih =>
    intro h
    rw [Cmd.target, Option.or_eq_some_iff] at h
    rcases h with h | ⟨-, h⟩
    · exact ih h
    · split at h <;> cases h
  | exec argv => exact fun h => by cases h
  | pipe l r => exact fun h => by cases h
  | list l r => exact fun h => by cases h
  | back c => exact fun h => by cases h

/-- No redirection gives a process the end of a pipe. -/
theorem file_eq_wr {n : ℕ} {f : File ω} (h : c.file n f = wr k) : f = wr k := by
  unfold Cmd.file at h
  split at h
  · cases hc : c.target n with
    | none => rwa [hc] at h
    | some g =>
      rw [hc] at h
      exact absurd (hc.trans (congrArg some h)) (target_ne_wr c n k)
  · exact h

theorem input_ne_wr (j k : ℕ) : (input j : File ω) ≠ wr k := by
  cases j <;> exact fun h => by cases h

/-- Only the process of a stage has the write end of its pipe. -/
theorem Piping.writer {n : ℕ} (h : Piping c s) (hs : s i = some p) (harr : p.Arrived i)
    (hn : p.fds[n]? = some (some (wr k))) : i = c.worker k ∧ n = 1 := by
  rcases h.which hs with ⟨j, rfl, -⟩ | ⟨j, l, r, rfl, hfrom, -⟩
  · rcases h.level_arrived hs harr with ⟨-, rfl⟩ | ⟨-, hat⟩
    · rcases std_getElem? hn with ⟨-, e⟩ | ⟨-, e⟩ | e
      · exact absurd e.symm (input_ne_wr j k)
      · cases e
      · cases e
    · rw [hat.fds] at hn
      rcases std_getElem? hn with ⟨-, e⟩ | ⟨-, e⟩ | e
      · exact absurd (file_eq_wr e.symm) (input_ne_wr j k)
      · cases file_eq_wr e.symm
      · cases e
  · have hat := h.stage_arrived hfrom hs harr
    rw [hat.fds] at hn
    rcases std_getElem? hn with ⟨-, e⟩ | ⟨rfl, e⟩ | e
    · exact absurd (file_eq_wr e.symm) (input_ne_wr j k)
    · obtain rfl := wr_injective (file_eq_wr e.symm)
      exact ⟨(worker_of_lt (from_pipe hfrom).2.2).symm, rfl⟩
    · cases e

/-- A process that is not that of a stage waits. -/
theorem Piping.waits (h : Piping c s) (hs : s i = some p) (harr : p.Arrived i)
    (hi : ∀ k < c.stages.length, i ≠ c.worker k) : ∃ rest, p.code = .wait :: rest := by
  rcases h.which hs with ⟨j, rfl, -⟩ | ⟨j, l, r, rfl, hfrom, -⟩
  · rcases h.level_arrived hs harr with ⟨-, rfl⟩ | ⟨hne, -⟩
    · exact ⟨_, rfl⟩
    · have hj := h.bound j (hs ▸ Option.some_ne_none p)
      rcases stages_from (List.getElem?_eq_getElem hj) with ⟨-, r, hfrom⟩ | ⟨hlast, -⟩
      · exact absurd ⟨_, r, hfrom⟩ hne
      · exact absurd (worker_last hlast).symm (hi j hj)
  · have hlt := (from_pipe hfrom).2.2
    exact absurd (worker_of_lt hlt).symm (hi j (Nat.lt_of_succ_lt hlt))

/-- With simple commands there is nothing to be held back. -/
theorem Piping.plumbing (h : Piping c s) (hc : ∀ d ∈ c.stages, d.simple) (i : Pid) : Plumbing s i := by
  intro p e rest hs hcode
  have hend : ∀ d a b, d.simple → ¬ p.AtStage d a b := by
    intro d a b hd hat
    have hexec := hat.code
    rw [hcode, Cmd.atEnd, if_pos hd] at hexec
    cases hexec
  rcases h.which hs with ⟨j, rfl, hmem⟩ | ⟨j, l, r, rfl, hfrom, hmem⟩
  · have hj := h.bound j (hs ▸ Option.some_ne_none p)
    have hlast := stages_from (List.getElem?_eq_getElem hj)
    generalize hfrom : c.from j = d at hmem hlast
    cases mem_levelTrace hmem with
    | setup hx => exact .inl (hx.head hcode)
    | stage hne hat =>
      rcases hlast with ⟨-, r, hpipe⟩ | ⟨-, hd, -⟩
      · exact absurd ⟨_, r, hpipe⟩ hne
      · exact absurd hat (hend _ _ _ (hd ▸ hc _ (List.getElem_mem hj)))
    | begin l r hcode' =>
      rw [hcode] at hcode'
      obtain rfl := Act.runcmd.inj (List.cons.inj hcode').1
      exact .inr ⟨⟨l, r, rfl⟩, getLast?_level j⟩
    | pipe l r hcode' => rw [hcode] at hcode'; cases hcode'
    | busy l r hat => cases hat <;> cases hcode
  · rcases mem_stageTrace hmem with hx | hat
    · exact .inl (hx.head hcode)
    · exact absurd hat (hend _ _ _ (hc _ (List.mem_of_getElem? (from_pipe hfrom).1)))

theorem reach_plumbing (hc : ∀ d ∈ c.stages, d.simple) (h : (shell c stdFds).Reach s) :
    ((shell c stdFds).restrict Plumbing).Reach s := by
  induction h with
  | init h0 => exact .init h0
  | step _ hstep ih => exact ih.step ⟨(Piping.reach ih).plumbing hc _, hstep⟩

/-- For every tree of pipes, run from a shell with descriptors 0, 1 and 2, and every order of the
steps of its processes: once each process waits, has reached `exec` or is about to run the command
of a stage that is not a simple one, the processes and descriptors are those of a pipeline. A run
that goes no further than that is any run, if all stages are simple commands. -/
theorem pipeline_plumbing (c : Cmd ω) :
    ((∀ d ∈ c.stages, d.simple) → ∀ s, (shell c stdFds).Reach s →
      ((shell c stdFds).restrict Plumbing).Reach s) ∧
    ∀ s, ((shell c stdFds).restrict Plumbing).Reach s →
      (∀ i p, s i = some p → p.Arrived i) → Plumbed c s := by
  refine ⟨fun hc s hs => reach_plumbing hc hs, fun s hs harr => ?_⟩
  have h := Piping.reach hs
  exact ⟨fun k d hd => h.worker harr hd, fun i p k n hp hn => h.writer hp (harr i p hp) hn,
    fun i p hp hi => h.waits hp (harr i p hp) hi⟩

end Plumbed

/-! ### A run -/

/-- The step of a process that does not wait. -/
def advance (i : Pid) (s : Procs ω) : Option (Procs ω) :=
  (s i).bind fun p => (p.next i).map fun q =>
    match p.code with
    | .fork d :: _ =>
      Function.update (Function.update s i (some q)) (i ++ [p.forks]) (some ⟨d, p.fds, 0, 0⟩)
    | _ => Function.update s i (some q)

theorem advance_step {i : Pid} {s s' : Procs ω} (h : advance i s = some s') : Procs.Step s i s' := by
  obtain ⟨p, hp, h⟩ := Option.bind_eq_some_iff.mp h
  obtain ⟨q, hq, rfl⟩ := Option.map_eq_some_iff.mp h
  split
  · next d rest hcode => exact .fork hp hcode hq
  · next hne => exact .go hp (fun d rest => hne d rest) hq

theorem reach_advance {c : Cmd ω} {t : Fds ω} {s s' : Procs ω} {is : List Pid}
    (hs : (shell c t).Reach s) (hrun : Lts.run advance is s = some s') : (shell c t).Reach s' :=
  Lts.run_induct hs (fun _ _ _ _ hr h => hr.step (advance_step h)) hrun

/-- `a >x | b`. -/
def writerToFile : Cmd (List UInt8) :=
  .pipe (.redir (.exec [[ch 'a']]) [ch 'x'] .output) (.exec [[ch 'b']])

/-- A run of it in which the shell gets to `wait` and both stages get to `exec`. -/
theorem writerToFile_run : ∃ s, (shell writerToFile stdFds).Reach s ∧
    (∀ i p, s i = some p →
      (∃ rest, p.code = .wait :: rest) ∨ ∃ argv rest, p.code = .exec argv :: rest) ∧
    s (writerToFile.worker 0) = some ⟨[.exec [[ch 'a']], .exit 0],
      std (.given 0) (.opened [ch 'x'] (O_WRONLY ||| O_CREATE ||| O_TRUNC)), 0, 0⟩ := by
  let s₀ : Procs (List UInt8) := fun i =>
    if i = [] then some ⟨[.runcmd writerToFile], stdFds, 0, 0⟩ else none
  let is : List Pid := List.replicate 4 [] ++ List.replicate 8 [0] ++ List.replicate 5 [1] ++
    List.replicate 2 []
  obtain ⟨s, hs⟩ : ∃ s, Lts.run advance is s₀ = some s := Option.isSome_iff_exists.mp rfl
  have hr := reach_advance (c := writerToFile) (t := stdFds) (.init rfl) hs
  have hat : ∀ i, (Lts.run advance is s₀).map (fun s => s i) = some (s i) := fun i => by
    rw [hs]
    rfl
  refine ⟨s, hr, fun i p hp => ?_, Option.some.inj ((hat [0]).symm.trans rfl)⟩
  -- there are no other processes than these three
  have h : Piping writerToFile s := .reach (reach_plumbing (by decide) hr)
  have hp' := (hat i).trans (congrArg some hp)
  rcases h.which hp with ⟨j, rfl, -⟩ | ⟨j, l, r, rfl, hfrom, -⟩
  · match j, h.bound j (hp ▸ Option.some_ne_none p) with
    | 0, _ =>
      cases hp'
      exact .inl ⟨_, rfl⟩
    | 1, _ =>
      cases hp'
      exact .inr ⟨_, _, rfl⟩
  · match j, (from_pipe hfrom).2.2 with
    | 0, _ =>
      cases hp'
      exact .inr ⟨_, _, rfl⟩

theorem pipeline_plumbing_redirected :
    ∃ s, (shell writerToFile stdFds).Reach s ∧ Plumbed writerToFile s ∧
      writerToFile.stages.length = 2 := by
  obtain ⟨s, hr, hall, -⟩ := writerToFile_run
  obtain ⟨hsimple, hplumbed⟩ := pipeline_plumbing writerToFile
  have harr : ∀ i p, s i = some p → p.Arrived i := fun i p hp => (hall i p hp).imp_right .inl
  exact ⟨s, hr, hplumbed s (hsimple (by decide) s hr) harr, rfl⟩

/-- All stages have reached `exec` and the shell waits, but descriptor 1 of the first stage is not
the write end of its pipe: it is `x`. -/
theorem pipeline_writes_file :
    Gen .pipe [.word [ch 'a'], .gt, .word [ch 'x'], .bar, .word [ch 'b']] writerToFile ∧
      ∃ s, (shell writerToFile stdFds).Reach s ∧
        (∀ i p, s i = some p →
          (∃ rest, p.code = .wait :: rest) ∨ ∃ argv rest, p.code = .exec argv :: rest) ∧
        ∃ p, s (writerToFile.worker 0) = some p ∧ p.fds[1]? ≠ some (some (wr 0)) := by
  refine ⟨.pipe (.simple [] [([ch 'a'], [(.output, [ch 'x'])])] (by decide))
    (.single (.simple [] [([ch 'b'], [])] (by decide))), ?_⟩
  obtain ⟨s, hr, hall, h0⟩ := writerToFile_run
  exact ⟨s, hr, hall, _, h0, fun e => by cases e⟩

end Xv6.User
