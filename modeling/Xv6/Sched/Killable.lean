import Mathlib.Tactic.SplitIfs
import Xv6.Console.Model
import Xv6.Pipes.Model

/-!
# `kill` and the loops that sleep

Five loops of the kernel sleep until a condition holds and give up if the process is killed: those of
`piperead`, `pipewrite`, `consoleread`, `wait` and `sys_sleep`. Each tests `p->killed` under the lock of
its condition but without `p->lock`, and then calls `sleep`. `KillableLoop` is what they have in common,
`Victim.loop` gives each of the five, and `system` runs one of them on one CPU and `kill` on another.

`kill` wakes only a process that is `SLEEPING` already. If its section falls between the test and the
moment at which `sleep` takes `p->lock`, the flag comes too late for the test and too early for the
wakeup, in each of the five loops.
-/

namespace Xv6.Sched.Killable

/-! ### The loops -/

/-- Where a part of a pass leads to, with what it leaves behind. -/
inductive Next (E L : Type)
  /-- Out of the function. -/
  | leave (e : E)
  /-- To the next pass. -/
  | again (e : E) (l : L)
  /-- On in this pass. -/
  | go (e : E) (l : L)

/-- A loop that sleeps: `E` is what its lock protects, `A` the arguments of the function, `L` its local
variables. -/
structure KillableLoop (E A L : Type) where
  /-- The local variables after the lock is first taken. -/
  start : A → E → L
  /-- A pass until it tests `p->killed`. -/
  before : E → L → Next E L
  /-- A pass from there until it calls `sleep`. -/
  after : E → L → Next E L

/-- The functions. -/
inductive Victim
  | piperead | pipewrite | consoleread | wait | sys_sleep
  deriving DecidableEq, Repr

namespace Victim

/-- The arguments of `pipewrite` and what `copyin` finds, with the number of bytes written. -/
structure Write where
  src : ℕ → Option UInt8
  n : ℤ
  i : ℕ

/-- The arguments of `piperead`, with what `copyout` does. -/
structure Read where
  dst : ℕ → Bool
  n : ℤ

/-- The waiting loop of `piperead`. Source: `pipe.c` `piperead`. -/
def pipereadLoop : KillableLoop Pipes.Pipe Read Read where
  start a _ := a
  before pi l :=
    if pi.nread = pi.nwrite ∧ pi.writeopen then .go pi l
    else .leave (Pipes.readFrom l.dst l.n.toNat 0 pi).1
  after pi l := .go pi l

/-- The loop of `pipewrite`. Source: `pipe.c` `pipewrite`. -/
def pipewriteLoop : KillableLoop Pipes.Pipe Write Write where
  start a _ := { a with i := 0 }
  before pi l := if l.i < l.n ∧ pi.readopen then .go pi l else .leave pi
  after pi l :=
    if pi.nwrite = pi.nread + UInt32.ofNat PIPESIZE then .go pi l
    else match l.src l.i with
      | none => .leave pi
      | some ch => .again (pi.put ch) { l with i := l.i + 1 }

/-- The loops of `consoleread`. Source: `console.c` `consoleread`. -/
def consolereadLoop : KillableLoop Console.Cons Console.Call Console.Call where
  start a _ := { a with got := [] }
  before cs l :=
    let out := l.run false cs
    if out.2.2 = .asleep then .go out.1 { l with got := l.got ++ out.2.1 } else .leave out.1
  after cs l := .go cs l

/-- The loop of `wait`, over the children of the process: for each whether it is a `ZOMBIE`. The first
one found is freed. Source: `proc.c` `wait`. -/
def waitLoop : KillableLoop (List Bool) Unit Unit where
  start _ _ := ()
  before kids _ :=
    if true ∈ kids then .leave (kids.erase true)
    else if kids = [] then .leave kids
    else .go kids ()
  after kids _ := .go kids ()

/-- The loop of `sys_sleep`, with the argument `n` and `ticks0`. Source: `sysproc.c` `sys_sleep`. -/
def sysSleepLoop : KillableLoop UInt32 Int32 (Int32 × UInt32) where
  start n ticks := (n, ticks)
  before ticks l := if ticks - l.2 < l.1.toUInt32 then .go ticks l else .leave ticks
  after ticks l := .go ticks l

/-- What the lock of the loop protects. -/
def Env : Victim → Type
  | piperead => Pipes.Pipe
  | pipewrite => Pipes.Pipe
  | consoleread => Console.Cons
  | wait => List Bool
  | sys_sleep => UInt32

/-- The arguments of the function. -/
def Arg : Victim → Type
  | piperead => Read
  | pipewrite => Write
  | consoleread => Console.Call
  | wait => Unit
  | sys_sleep => Int32

/-- The local variables of the function. -/
def Local : Victim → Type
  | piperead => Read
  | pipewrite => Write
  | consoleread => Console.Call
  | wait => Unit
  | sys_sleep => Int32 × UInt32

/-- The loop of the function. -/
def loop : (v : Victim) → KillableLoop v.Env v.Arg v.Local
  | piperead => pipereadLoop
  | pipewrite => pipewriteLoop
  | consoleread => consolereadLoop
  | wait => waitLoop
  | sys_sleep => sysSleepLoop

end Victim

/-! ### The two CPUs -/

/-- Where the victim is. -/
inductive Point (A L : Type)
  /-- In none of the five functions. -/
  | out
  /-- Before the first `acquire` of the loop's lock. -/
  | enter (a : A)
  /-- Holds the lock, at the top of a pass. -/
  | head (l : L)
  /-- Before it reads `p->killed`. -/
  | test (l : L)
  /-- Has read 0. -/
  | tested (l : L)
  /-- In `sleep`, before `acquire(&p->lock)`. -/
  | sleep (l : L)
  /-- Holds `p->lock`, before `release(lk)`. -/
  | release (l : L)
  /-- Before `p->state = SLEEPING`. -/
  | mark (l : L)
  /-- Before it is off the CPU, when the scheduler releases `p->lock`. -/
  | sched (l : L)
  /-- Off the CPU. -/
  | off (l : L)
  /-- Back from `sched`, holds `p->lock`. -/
  | resumed (l : L)
  /-- Before `acquire(lk)` at the end of `sleep`. -/
  | relock (l : L)

/-- Where `kill` is in the slot of the victim. -/
inductive KillPoint
  | idle
  /-- Before `acquire(&p->lock)`. -/
  | lock
  /-- Before `p->killed = 1`. -/
  | flag
  /-- Before the test for `SLEEPING`. -/
  | wake
  /-- Before `release(&p->lock)`. -/
  | unlock
  /-- Has returned 0. -/
  | returned
  deriving DecidableEq, Repr

/-- Who holds `p->lock`. -/
inductive Holder
  | victim | killer
  deriving DecidableEq, Repr

variable {E A L : Type}

/-- The victim, the killer and what they share. -/
structure State (E A L : Type) where
  env : E
  /-- The victim holds the lock of its loop. -/
  lk : Bool
  killed : Bool
  state : ProcState
  plock : Option Holder
  point : Point A L
  killer : KillPoint
  /-- The victim was woken since `kill` last set the flag. -/
  woken : Bool

/-- The steps. -/
inductive Label (E A : Type)
  /-- The victim calls the function. -/
  | start (a : A)
  /-- The victim goes on. -/
  | victim
  /-- The scheduler runs the victim again. -/
  | dispatch
  /-- `kill` goes on. -/
  | kill
  /-- Another process wakes the victim, with the slot of `wakeup` under `p->lock`. -/
  | wakeup
  /-- Another process changes what the lock of the loop protects. -/
  | other (e : E)

/-- The victim leaves the function or a part of a pass. -/
def State.after (s : State E A L) (go : L → Point A L) : Next E L → State E A L
  | .leave e => { s with env := e, lk := false, point := .out }
  | .again e l => { s with env := e, point := .head l }
  | .go e l => { s with env := e, point := go l }

/-- The next step of the victim. Source: the loops and `proc.c` `sleep`. -/
def victimNext (lp : KillableLoop E A L) (s : State E A L) : Option (State E A L) :=
  match s.point with
  | .out => none
  | .enter a => some { s with lk := true, point := .head (lp.start a s.env) }
  | .head l => some (s.after .test (lp.before s.env l))
  | .test l =>
    if s.killed then some { s with lk := false, point := .out }
    else some { s with point := .tested l }
  | .tested l => some (s.after .sleep (lp.after s.env l))
  | .sleep l =>
    if s.plock = none then some { s with plock := some .victim, point := .release l } else none
  | .release l => some { s with lk := false, point := .mark l }
  | .mark l => some { s with state := .sleeping, point := .sched l }
  | .sched l => some { s with plock := none, point := .off l }
  | .off _ => none
  | .resumed l => some { s with plock := none, point := .relock l }
  | .relock l => some { s with lk := true, point := .head l }

/-- The next step of `kill` in the slot of the victim. Source: `proc.c` `kill`. -/
def killNext (s : State E A L) : Option (State E A L) :=
  match s.killer with
  | .idle => some { s with killer := .lock }
  | .lock => if s.plock = none then some { s with plock := some .killer, killer := .flag } else none
  | .flag => some { s with killed := true, woken := false, killer := .wake }
  | .wake =>
    if s.state = .sleeping then some { s with state := .runnable, woken := true, killer := .unlock }
    else some { s with killer := .unlock }
  | .unlock => some { s with plock := none, killer := .returned }
  | .returned => some { s with killer := .lock }

/-- One step. -/
def next (lp : KillableLoop E A L) : Label E A → State E A L → Option (State E A L)
  | .start a, s =>
    match s.point with
    | .out => some { s with point := .enter a }
    | _ => none
  | .victim, s => victimNext lp s
  | .dispatch, s =>
    match s.point with
    | .off l =>
      if s.plock = none ∧ s.state = .runnable then
        some { s with state := .running, plock := some .victim, point := .resumed l }
      else none
    | _ => none
  | .kill, s => killNext s
  | .wakeup, s =>
    if s.plock = none ∧ s.state = .sleeping then some { s with state := .runnable, woken := true }
    else none
  | .other e, s => if s.lk = false then some { s with env := e } else none

/-- The victim runs outside the five functions, whatever the others did before. -/
def start (e : E) : State E A L := ⟨e, false, false, .running, none, .out, .idle, false⟩

/-- One of the loops and `kill`, in any interleaving. -/
def system (lp : KillableLoop E A L) : Lib.Lts (State E A L) (Label E A) :=
  .ofFun (fun s => ∃ e, s = start e) (next lp)

/-- `kill` has returned 0, and the victim sleeps in the loop, with its flag set and not woken since. -/
structure Missed (s : State E A L) : Prop where
  returned : s.killer = .returned
  killed : s.killed = true
  sleeping : s.state = .sleeping
  unwoken : s.woken = false
  inLoop : ∃ l, s.point = .sched l ∨ s.point = .off l

/-! ### The window -/

variable {lp : KillableLoop E A L} {s s' : State E A L}

/-- The victim has found its flag 0, is about to sleep, and does not hold `p->lock` yet. -/
def InWindow (lp : KillableLoop E A L) (s : State E A L) : Prop :=
  match s.point with
  | .tested l => ∃ e l', lp.after s.env l = .go e l'
  | .sleep _ => True
  | _ => False

/-- `kill` does not set the flag in the window. -/
def Spares (lp : KillableLoop E A L) (s : State E A L) (l : Label E A) : Prop :=
  l = .kill → s.killer = .flag → ¬ InWindow lp s

/-- The victim holds the lock of the loop. -/
def Point.HoldsLk : Point A L → Prop
  | .head _ | .test _ | .tested _ | .sleep _ | .release _ => True
  | _ => False

/-- The victim is on its way into sleep, with `p->lock`. -/
def Point.Falling : Point A L → Prop
  | .release _ | .mark _ | .sched _ => True
  | _ => False

/-- The victim holds `p->lock`. -/
def Point.HoldsOwn : Point A L → Prop
  | .release _ | .mark _ | .sched _ | .resumed _ => True
  | _ => False

theorem Point.Falling.holdsOwn {pt : Point A L} (h : pt.Falling) : pt.HoldsOwn := by
  cases pt <;> first | exact h | trivial

/-- The killer holds `p->lock`. -/
def KillPoint.Holds : KillPoint → Prop
  | .flag | .wake | .unlock => True
  | _ => False

/-- What holds if `kill` spares the window: the locks are held where the code holds them, a victim whose
flag is set is neither in the window nor on its way into sleep, and if it sleeps, `kill` is about to
wake it. -/
structure Inv (lp : KillableLoop E A L) (s : State E A L) : Prop where
  lk : s.point.HoldsLk → s.lk = true
  own : s.point.HoldsOwn → s.plock = some .victim
  holds : s.killer.Holds → s.plock = some .killer
  awake : s.killed = true → ¬ InWindow lp s ∧ ¬ s.point.Falling
  asleep : s.killed = true → s.state = .sleeping → s.killer = .wake

theorem Inv.start (e : E) : Inv lp (start e : State E A L) :=
  ⟨fun h => h.elim, fun h => h.elim, fun h => h.elim, fun h => (nomatch h), fun h => (nomatch h)⟩

/-- The victim moves to a point at which it holds no lock but its loop's, and which is not in the
window. -/
theorem Inv.move (h : Inv lp s) {e : E} {lk : Bool} {q : Point A L} (hlk : q.HoldsLk → lk = true)
    (hown : ¬ q.HoldsOwn) (hw : s.killed = true → ¬ InWindow lp { s with env := e, point := q }) :
    Inv lp { s with env := e, lk := lk, point := q } :=
  ⟨hlk, fun hf => absurd hf hown, h.holds, fun hk => ⟨hw hk, fun hf => hown hf.holdsOwn⟩, h.asleep⟩

/-- A part of a pass. -/
theorem Inv.after (h : Inv lp s) (hlk : s.lk = true) {f : L → Point A L}
    (hown : ∀ l, ¬ (f l).HoldsOwn) {n : Next E L}
    (hw : s.killed = true → ∀ e l, n = .go e l → ¬ InWindow lp { s with env := e, point := f l }) :
    Inv lp (s.after f n) := by
  cases n with
  | leave e => exact h.move (q := .out) (fun hf => hf.elim) id fun _ hf => hf
  | again e l => exact h.move (q := .head l) (fun _ => hlk) id fun _ hf => hf
  | go e l => exact h.move (fun _ => hlk) (hown l) fun hk => hw hk e l rfl

theorem Inv.victim (h : Inv lp s) (hs : victimNext lp s = some s') : Inv lp s' := by
  unfold victimNext at hs
  cases hpt : s.point with
  | out => rw [hpt] at hs; cases hs
  | enter a =>
    rw [hpt] at hs
    cases hs
    exact h.move (e := s.env) (q := .head _) (fun _ => rfl) id fun _ hf => hf
  | head l =>
    rw [hpt] at hs
    cases hs
    exact h.after (f := .test) (h.lk (by rw [hpt]; trivial)) (fun _ hf => hf) fun _ _ _ _ hf => hf
  | test l =>
    rw [hpt] at hs
    simp only at hs
    split_ifs at hs with hk
    · cases hs
      exact h.move (e := s.env) (q := .out) (fun hf => hf.elim) id fun _ hf => hf
    · cases hs
      exact h.move (e := s.env) (q := .tested l) (fun _ => h.lk (by rw [hpt]; trivial)) id
        fun hk' => absurd hk' hk
  | tested l =>
    rw [hpt] at hs
    cases hs
    refine h.after (f := .sleep) (h.lk (by rw [hpt]; trivial)) (fun _ hf => hf) fun hk e l' hgo _ => ?_
    -- a victim that goes on to sleep from here was in the window
    refine (h.awake hk).1 ?_
    simp only [InWindow, hpt]
    exact ⟨e, l', hgo⟩
  | sleep l =>
    rw [hpt] at hs
    simp only at hs
    split_ifs at hs with hfree
    cases hs
    have hk : s.killed ≠ true := fun hk => (h.awake hk).1 (by simp [InWindow, hpt])
    refine ⟨fun _ => h.lk (by rw [hpt]; trivial), fun _ => rfl, fun hf => ?_,
      fun hk' => absurd hk' hk, h.asleep⟩
    exact absurd ((h.holds hf).symm.trans hfree) (by simp)
  | release l =>
    rw [hpt] at hs
    cases hs
    have hown := h.own (by rw [hpt]; trivial)
    have hk : s.killed ≠ true := fun hk => (h.awake hk).2 (by rw [hpt]; trivial)
    exact ⟨fun hf => hf.elim, fun _ => hown, h.holds, fun hk' => absurd hk' hk, h.asleep⟩
  | mark l =>
    rw [hpt] at hs
    cases hs
    have hown := h.own (by rw [hpt]; trivial)
    have hk : s.killed ≠ true := fun hk => (h.awake hk).2 (by rw [hpt]; trivial)
    exact ⟨fun hf => hf.elim, fun _ => hown, h.holds, fun hk' => absurd hk' hk,
      fun hk' => absurd hk' hk⟩
  | sched l =>
    rw [hpt] at hs
    cases hs
    have hown := h.own (by rw [hpt]; trivial)
    have hk : s.killed ≠ true := fun hk => (h.awake hk).2 (by rw [hpt]; trivial)
    refine ⟨fun hf => hf.elim, fun hf => hf.elim, fun hf => ?_, fun hk' => absurd hk' hk, h.asleep⟩
    exact absurd ((h.holds hf).symm.trans hown) (by simp)
  | off l => rw [hpt] at hs; cases hs
  | resumed l =>
    rw [hpt] at hs
    cases hs
    have hown := h.own (by rw [hpt]; trivial)
    refine ⟨fun hf => hf.elim, fun hf => hf.elim, fun hf => ?_, fun hk => ⟨id, id⟩, h.asleep⟩
    exact absurd ((h.holds hf).symm.trans hown) (by simp)
  | relock l =>
    rw [hpt] at hs
    cases hs
    exact h.move (e := s.env) (q := .head l) (fun _ => rfl) id fun _ hf => hf

/-- The steps of `kill`, if it spares the window. -/
theorem Inv.kill (h : Inv lp s) (hw : s.killer = .flag → ¬ InWindow lp s)
    (hs : killNext s = some s') : Inv lp s' := by
  unfold killNext at hs
  cases hk : s.killer with
  | idle =>
    rw [hk] at hs
    cases hs
    exact ⟨h.lk, h.own, fun hf => hf.elim, h.awake,
      fun hkd hsl => absurd ((h.asleep hkd hsl).symm.trans hk) (by simp)⟩
  | lock =>
    rw [hk] at hs
    simp only at hs
    split_ifs at hs with hfree
    cases hs
    exact ⟨h.lk, fun hf => absurd ((h.own hf).symm.trans hfree) (by simp), fun _ => rfl, h.awake,
      fun hkd hsl => absurd ((h.asleep hkd hsl).symm.trans hk) (by simp)⟩
  | flag =>
    rw [hk] at hs
    cases hs
    have hheld := h.holds (by rw [hk]; trivial)
    -- the victim does not hold `p->lock` now, so it is not on its way into sleep
    have hfall : ¬ s.point.Falling := fun hf =>
      absurd ((h.own hf.holdsOwn).symm.trans hheld) (by simp)
    exact ⟨h.lk, h.own, fun _ => hheld, fun _ => ⟨hw hk, hfall⟩, fun _ _ => rfl⟩
  | wake =>
    rw [hk] at hs
    have hheld := h.holds (by rw [hk]; trivial)
    simp only at hs
    split_ifs at hs with hsl
    · cases hs
      exact ⟨h.lk, h.own, fun _ => hheld, h.awake, fun _ hsl' => (nomatch hsl')⟩
    · cases hs
      exact ⟨h.lk, h.own, fun _ => hheld, h.awake, fun _ hsl' => absurd hsl' hsl⟩
  | unlock =>
    rw [hk] at hs
    cases hs
    have hheld := h.holds (by rw [hk]; trivial)
    exact ⟨h.lk, fun hf => absurd ((h.own hf).symm.trans hheld) (by simp), fun hf => hf.elim,
      h.awake, fun hkd hsl => absurd ((h.asleep hkd hsl).symm.trans hk) (by simp)⟩
  | returned =>
    rw [hk] at hs
    cases hs
    exact ⟨h.lk, h.own, fun hf => hf.elim, h.awake,
      fun hkd hsl => absurd ((h.asleep hkd hsl).symm.trans hk) (by simp)⟩

theorem Inv.step {l : Label E A} (h : Inv lp s) (hsp : Spares lp s l) (hs : next lp l s = some s') :
    Inv lp s' := by
  cases l with
  | start a =>
    simp only [next] at hs
    split at hs
    · cases hs
      exact h.move (e := s.env) (q := .enter a) (fun hf => hf.elim) id fun _ hf => hf
    · cases hs
  | victim => exact h.victim hs
  | dispatch =>
    simp only [next] at hs
    split at hs
    · split_ifs at hs with hd
      cases hs
      refine ⟨fun hf => hf.elim, fun _ => rfl, fun hf => ?_, fun _ => ⟨id, id⟩,
        fun _ hsl => (nomatch hsl)⟩
      exact absurd ((h.holds hf).symm.trans hd.1) (by simp)
    · cases hs
  | kill => exact h.kill (hsp rfl) hs
  | wakeup =>
    simp only [next] at hs
    split_ifs at hs
    cases hs
    exact ⟨h.lk, h.own, h.holds, h.awake, fun _ hsl => (nomatch hsl)⟩
  | other e =>
    simp only [next] at hs
    split_ifs at hs with hfree
    cases hs
    refine ⟨h.lk, h.own, h.holds, fun hk => ⟨fun hwin => (h.awake hk).1 ?_, (h.awake hk).2⟩, h.asleep⟩
    -- while the victim is in the window it holds the lock, and nobody else changes anything
    cases hpt : s.point with
    | tested l => exact absurd ((h.lk (by rw [hpt]; trivial)).symm.trans hfree) (by simp)
    | _ => simp_all [InWindow]

/-- **`kill` reaches a blocked victim** if its section does not fall into the window: in each of the
five loops, for every interleaving of the victim, `kill` and others that use the same lock, no reachable
state has `kill` returned 0 and the victim asleep in the loop with its flag set and not woken since. -/
theorem kill_reaches_sleeper (v : Victim) {s : State v.Env v.Arg v.Local}
    (h : ((system v.loop).restrict (Spares v.loop)).Reach s) : ¬ Missed s := by
  have hinv : Inv v.loop s := by
    refine Lib.Lts.Reach.induct ?_ (fun s l s' _ hi hs => hi.step hs.1 hs.2) h
    rintro s ⟨e, rfl⟩
    exact .start e
  intro hm
  exact absurd (hm.returned.symm.trans (hinv.asleep hm.killed hm.sleeping)) (by simp)

/-- While the victim is off the CPU, `kill` may go on. -/
theorem reach_kill_off {l : L} (h : ((system lp).restrict (Spares lp)).Reach s)
    (hoff : s.point = .off l) (hs : killNext s = some s') :
    ((system lp).restrict (Spares lp)).Reach s' := by
  have hsp : Spares lp s .kill := fun _ _ hw => by simp [InWindow, hoff] at hw
  exact h.step ⟨hsp, hs⟩

/-- A parent that waits for its child is killed in its sleep, and is woken. -/
theorem kill_reaches_sleeper_wait :
    ∃ s : State Victim.wait.Env Victim.wait.Arg Victim.wait.Local,
      ((system Victim.wait.loop).restrict (Spares Victim.wait.loop)).Reach s ∧
      s.killer = .returned ∧ s.killed = true ∧ s.state = .runnable ∧ ¬ Missed s := by
  obtain ⟨s, hrun, hoff⟩ : ∃ s : State Victim.wait.Env Victim.wait.Arg Victim.wait.Local,
      Lib.Lts.run (next Victim.wait.loop) (.start () :: List.replicate 8 .victim) (start [false]) =
        some s ∧ s = ⟨[false], false, false, .sleeping, none, .off (), .idle, false⟩ := ⟨_, rfl, rfl⟩
  have hasleep : ((system Victim.wait.loop).restrict (Spares Victim.wait.loop)).Reach s := by
    refine Lib.Lts.Reach.run (.init ⟨_, rfl⟩) (fun l hl s hk => ?_) hrun
    subst hk
    simp at hl
  subst hoff
  have hflag := reach_kill_off (reach_kill_off hasleep rfl rfl) rfl rfl
  have hwoken := reach_kill_off (reach_kill_off hflag rfl rfl) rfl rfl
  have hdone := reach_kill_off hwoken rfl rfl
  exact ⟨_, hdone, rfl, rfl, rfl, kill_reaches_sleeper .wait hdone⟩

/-- A run in which the section of `kill` comes between the victim's test of its flag and `sleep`. -/
def killInWindow (a : A) : List (Label E A) :=
  [.start a, .victim, .victim, .victim, .kill, .kill, .kill, .kill, .kill,
    .victim, .victim, .victim, .victim, .victim]

/-- In any loop that goes to sleep, the run ends with the victim asleep. -/
theorem missed_of_go {a : A} {e e₁ e₂ : E} {l₁ l₂ : L} (h₁ : lp.before e (lp.start a e) = .go e₁ l₁)
    (h₂ : lp.after e₁ l₁ = .go e₂ l₂) : ∃ s, (system lp).Reach s ∧ Missed s := by
  have h0 : (system lp).Reach (start e) := .init ⟨e, rfl⟩
  have hrun : Lib.Lts.run (next lp) (killInWindow a) (start e) =
      some ⟨e₂, false, true, .sleeping, none, .off l₂, .returned, false⟩ := by
    simp [Lib.Lts.run, killInWindow, next, start, victimNext, killNext, State.after, h₁, h₂]
  exact ⟨_, h0.run_all hrun, rfl, rfl, rfl, rfl, l₂, .inr rfl⟩

/-- A pipe with both ends open and `PIPESIZE` bytes in its buffer. -/
def fullPipe : Pipes.Pipe :=
  ⟨fun _ => 0, 0, UInt32.ofNat PIPESIZE, true, true, List.replicate PIPESIZE 0, []⟩

/-- Some run of the loop ends with `kill` returned 0 and the victim asleep. -/
def Misses (v : Victim) : Prop :=
  ∃ s : State v.Env v.Arg v.Local, (system v.loop).Reach s ∧ Missed s

/-- Each of the five loops has a run in which `kill` returns 0 and the victim sleeps on. -/
theorem kill_misses_sleeper :
    Misses .piperead ∧ Misses .pipewrite ∧ Misses .consoleread ∧ Misses .wait ∧
      Misses .sys_sleep := by
  refine ⟨?_, ?_, ?_, ?_, ?_⟩
  · exact missed_of_go (a := (⟨fun _ => true, 1⟩ : Victim.Read)) (e := Pipes.Pipe.alloc fun _ => 0) rfl rfl
  · exact missed_of_go (a := (⟨fun _ => some 0, 1, 0⟩ : Victim.Write)) (e := fullPipe) rfl rfl
  · exact missed_of_go (a := (⟨fun _ => true, 1, []⟩ : Console.Call))
      (e := (⟨fun _ => 0, 0, 0, 0⟩ : Console.Cons)) rfl rfl
  · exact missed_of_go (a := ()) (e := [false]) rfl rfl
  · exact missed_of_go (a := (1 : Int32)) (e := (0 : UInt32)) rfl rfl

end Xv6.Sched.Killable
