import Xv6.Lib.Trans
import Xv6.Params

/-!
# Pipes

`pipe.c`: one pipe with any set `P` of processes that call `pipewrite` and `piperead` on it. A step
is what a call does between two sleeps, all of it under `pi->lock`. A process that sleeps may go on
at any moment, since `sleep` returns after any `wakeup` on its channel and after `kill`, and both
functions then test their condition again.

User memory enters through what `copyin` and `copyout` do for each byte of a call, and `pr->killed`,
which another CPU may set at any time, through its value at each test.
-/

namespace Xv6.Pipes

/-- `struct pipe`, less its lock. The two lists record the bytes that went through the pipe; no
code reads them. Source: `pipe.c`. -/
structure Pipe where
  /-- The ring of `PIPESIZE` bytes. -/
  data : ℕ → UInt8
  /-- Number of bytes read. -/
  nread : UInt32
  /-- Number of bytes written. -/
  nwrite : UInt32
  /-- Read fd is still open. -/
  readopen : Bool
  /-- Write fd is still open. -/
  writeopen : Bool
  /-- All bytes `pipewrite` has put in. -/
  sent : List UInt8
  /-- All bytes `piperead` has taken out. -/
  received : List UInt8

namespace Pipe

/-- A new pipe on a page with any content. Source: `pipe.c` `pipealloc`. -/
def alloc (data : ℕ → UInt8) : Pipe := ⟨data, 0, 0, true, true, [], []⟩

/-- `pi->data[pi->nwrite++ % PIPESIZE] = ch`. -/
def put (pi : Pipe) (ch : UInt8) : Pipe :=
  { pi with
    data := Function.update pi.data (pi.nwrite.toNat % PIPESIZE) ch
    nwrite := pi.nwrite + 1
    sent := pi.sent ++ [ch] }

/-- `pi->data[pi->nread % PIPESIZE]`. -/
def front (pi : Pipe) : UInt8 := pi.data (pi.nread.toNat % PIPESIZE)

/-- `ch = pi->data[pi->nread++ % PIPESIZE]`. -/
def take (pi : Pipe) : Pipe :=
  { pi with nread := pi.nread + 1, received := pi.received ++ [pi.front] }

/-- Source: `pipe.c` `pipeclose`. -/
def pipeclose (pi : Pipe) (writable : Bool) : Pipe :=
  if writable then { pi with writeopen := false } else { pi with readopen := false }

/-- The bytes in the ring, first in first. -/
def buffered (pi : Pipe) : List UInt8 :=
  (List.range (pi.nwrite - pi.nread).toNat).map fun j =>
    pi.data ((pi.nread + UInt32.ofNat j).toNat % PIPESIZE)

end Pipe

/-- How a section of a call ends. -/
inductive Out
  /-- The call sleeps; for `pipewrite`, `i` bytes are written. -/
  | sleep (i : ℕ)
  /-- The call returns. -/
  | ret (r : ℤ)
  deriving DecidableEq

/-- The loop of `pipewrite` with `i` bytes written and `k` to write. `src i` is the byte `copyin`
finds at `addr + i`, none if it fails. Source: `pipe.c` `pipewrite`. -/
def writeFrom (src : ℕ → Option UInt8) (killed : ℕ → Bool) : ℕ → ℕ → Pipe → Pipe × Out
  | 0, i, pi => (pi, .ret i)
  | k + 1, i, pi =>
    if pi.readopen = false ∨ killed i then (pi, .ret (-1))
    else if pi.nwrite = pi.nread + UInt32.ofNat PIPESIZE then (pi, .sleep i)
    else match src i with
      | none => (pi, .ret i)
      | some ch => writeFrom src killed k (i + 1) (pi.put ch)

/-- The copying loop of `piperead` with `i` bytes read and `k` to read. `dst i` says whether
`copyout` to `addr + i` succeeds. Source: `pipe.c` `piperead`. -/
def readFrom (dst : ℕ → Bool) : ℕ → ℕ → Pipe → Pipe × Out
  | 0, i, pi => (pi, .ret i)
  | k + 1, i, pi =>
    if pi.nread = pi.nwrite then (pi, .ret i)
    else if dst i then readFrom dst k (i + 1) pi.take
    else (pi.take, .ret i)

/-- A call of `pipewrite(pi, addr, n)` or `piperead(pi, addr, n)` in progress. -/
inductive Call
  /-- No call. -/
  | none
  /-- In `pipewrite`, with `i` bytes written. -/
  | write (src : ℕ → Option UInt8) (n : ℤ) (i : ℕ)
  /-- In `piperead`, before its copying loop. -/
  | read (dst : ℕ → Bool) (n : ℤ)

/-- What a call does until it sleeps or returns. `killed` gives `pr->killed` at each test.
Source: `pipe.c` `pipewrite`, `piperead`. -/
def runCall (killed : ℕ → Bool) (pi : Pipe) : Call → Pipe × Out
  | .none => (pi, .ret 0)
  | .write src n i => writeFrom src killed (n.toNat - i) i pi
  | .read dst n =>
    if pi.nread = pi.nwrite ∧ pi.writeopen then
      if killed 0 then (pi, .ret (-1)) else (pi, .sleep 0)
    else readFrom dst n.toNat 0 pi

/-- The call after a section. -/
def Call.after : Call → Out → Call
  | _, .ret _ => .none
  | .write src n _, .sleep i => .write src n i
  | c, .sleep _ => c

variable {P : Type}

/-- The pipe and the calls in progress. -/
structure State (P : Type) where
  /-- The pipe. -/
  pipe : Pipe
  /-- What each process is doing. -/
  call : P → Call

/-- The steps. -/
inductive Label (P : Type)
  /-- A process calls `pipewrite` or `piperead`. -/
  | start (p : P)
  /-- A call runs until it sleeps or returns. -/
  | run (p : P) (o : Out)
  /-- One of the ends is closed. -/
  | close (writable : Bool)

variable [DecidableEq P]

/-- One step. -/
inductive Step : State P → Label P → State P → Prop
  | write {s : State P} {p : P} (src : ℕ → Option UInt8) (n : ℤ) (h : s.call p = .none) :
      Step s (.start p) { s with call := Function.update s.call p (.write src n 0) }
  | read {s : State P} {p : P} (dst : ℕ → Bool) (n : ℤ) (h : s.call p = .none) :
      Step s (.start p) { s with call := Function.update s.call p (.read dst n) }
  | run {s : State P} {p : P} (killed : ℕ → Bool) (h : s.call p ≠ .none) :
      Step s (.run p (runCall killed s.pipe (s.call p)).2)
        { pipe := (runCall killed s.pipe (s.call p)).1
          call := Function.update s.call p
            ((s.call p).after (runCall killed s.pipe (s.call p)).2) }
  | close {s : State P} (writable : Bool) :
      Step s (.close writable) { s with pipe := s.pipe.pipeclose writable }

/-- One pipe and the processes that use it. -/
def system (P : Type) [DecidableEq P] : Lib.Lts (State P) (Label P) where
  init s := ∃ data, s = ⟨.alloc data, fun _ => .none⟩
  step := Step

end Xv6.Pipes
