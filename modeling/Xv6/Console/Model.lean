import Xv6.Lib.Trans
import Xv6.Params

/-!
# Console input

`console.c`: the ring of input bytes with its three free-running indices, the interrupt handler that
edits it, and any set `P` of processes that call `consoleread`. A step is one interrupt, or what a
reader does between two sleeps; each of these holds `cons.lock` throughout. A reader that sleeps may
go on at any moment, since it tests its condition again.

The echo to the screen and the process list that control-P prints are not part of the state.
-/

namespace Xv6.Console

/-- Size of the input buffer. Source: `console.c`. -/
def INPUT_BUF : ℕ := 128

/-- `C(x)`: control-x. Source: `console.c`. -/
def ctrl (x : Char) : UInt8 := x.toUInt8 - '@'.toUInt8

/-- `'\n'`. -/
def newline : UInt8 := '\n'.toUInt8

/-- `'\r'`. -/
def return_ : UInt8 := '\r'.toUInt8

/-- `'\x7f'`. -/
def del : UInt8 := 0x7f

/-- `cons`, less its lock. Source: `console.c`. -/
structure Cons where
  buf : ℕ → UInt8
  /-- Read index. -/
  r : UInt32
  /-- Write index. -/
  w : UInt32
  /-- Edit index. -/
  e : UInt32

namespace Cons

/-- The loop of control-U, for at most `k` turns: it ends at the latest when `e` meets `w`. -/
def killFrom : ℕ → Cons → Cons
  | 0, cs => cs
  | k + 1, cs =>
    if cs.e ≠ cs.w ∧ cs.buf ((cs.e - 1).toNat % INPUT_BUF) ≠ newline then
      killFrom k { cs with e := cs.e - 1 }
    else cs

/-- Appends a byte that finds room, and hands the line over to the readers if it is complete. -/
def store (cs : Cons) (c : UInt8) : Cons :=
  let cs' := { cs with buf := Function.update cs.buf (cs.e.toNat % INPUT_BUF) c, e := cs.e + 1 }
  if c = newline ∨ c = ctrl 'D' ∨ cs'.e = cs'.r + UInt32.ofNat INPUT_BUF then
    { cs' with w := cs'.e }
  else cs'

/-- The console input interrupt handler. Source: `console.c` `consoleintr`. -/
def consoleintr (c : UInt8) (cs : Cons) : Cons :=
  if c = ctrl 'P' then cs
  else if c = ctrl 'U' then killFrom (cs.e - cs.w).toNat cs
  else if c = ctrl 'H' ∨ c = del then
    if cs.e ≠ cs.w then { cs with e := cs.e - 1 } else cs
  else if c ≠ 0 ∧ cs.e - cs.r < UInt32.ofNat INPUT_BUF then
    cs.store (if c = return_ then newline else c)
  else cs

end Cons

/-- The ways a section of `consoleread` ends. -/
inductive Exit
  /-- It calls `sleep`. -/
  | asleep
  /-- The process is killed; the call returns -1. -/
  | killed
  /-- `n` bytes are copied. -/
  | full
  /-- A whole line has arrived. -/
  | line
  /-- A control-D; `saved` if it is put back for the next call. -/
  | eof (saved : Bool)
  /-- The copy to the destination fails. -/
  | fault
  deriving DecidableEq, Repr

/-- The loops of `consoleread` until it sleeps or returns, with `k` the value of `n` and `i` bytes
copied so far, and the bytes it copies. `dst i` says whether `either_copyout` to `dst + i` succeeds,
and `killed` what `myproc()->killed` holds if it is read. Source: `console.c` `consoleread`. -/
def readFrom (dst : ℕ → Bool) (killed : Bool) (target : UInt32) :
    ℕ → ℕ → Cons → Cons × List UInt8 × Exit
  | 0, _, cs => (cs, [], .full)
  | k + 1, i, cs =>
    if cs.r = cs.w then (cs, [], if killed then .killed else .asleep)
    else
      let c := cs.buf (cs.r.toNat % INPUT_BUF)
      let cs' := { cs with r := cs.r + 1 }
      if c = ctrl 'D' then
        if UInt32.ofNat (k + 1) < target then ({ cs' with r := cs'.r - 1 }, [], .eof true)
        else (cs', [], .eof false)
      else if dst i = false then (cs', [], .fault)
      else if c = newline then (cs', [c], .line)
      else
        let rest := readFrom dst killed target k (i + 1) cs'
        (rest.1, c :: rest.2.1, rest.2.2)

/-- A call `consoleread(user_dst, dst, n)` in progress, with the bytes it has copied. -/
structure Call where
  dst : ℕ → Bool
  n : Int32
  got : List UInt8

/-- A section of a call. The `int` `n` is decremented once for each byte copied, and `target` is its
first value as an `uint`. Source: `console.c` `consoleread`. -/
def Call.run (killed : Bool) (c : Call) (cs : Cons) : Cons × List UInt8 × Exit :=
  readFrom c.dst killed c.n.toUInt32 (c.n.toNatClampNeg - c.got.length) c.got.length cs

/-- What a section returns to the caller of `consoleread`, for the bytes copied in all. As `n` has
gone down by one for each of them, `target - n` is their number. -/
def Exit.ret : Exit → List UInt8 → Option ℤ
  | .asleep, _ => none
  | .killed, _ => some (-1)
  | _, data => some data.length

variable {P : Type} [DecidableEq P]

/-- The console and the calls of `consoleread` in progress. -/
structure State (P : Type) where
  cons : Cons
  call : P → Option Call

/-- The steps. -/
inductive Label (P : Type)
  /-- The interrupt for a byte. -/
  | intr (c : UInt8)
  /-- A process calls `consoleread`. -/
  | start (p : P) (dst : ℕ → Bool) (n : Int32)
  /-- A call runs until it sleeps or returns. -/
  | run (p : P) (killed : Bool)

/-- A section of the call `c` of process `p`. -/
def State.read (s : State P) (p : P) (killed : Bool) (c : Call) : State P :=
  let out := c.run killed s.cons
  { cons := out.1
    call := Function.update s.call p
      (if out.2.2 = .asleep then some { c with got := c.got ++ out.2.1 } else none) }

/-- One step. -/
def next : Label P → State P → Option (State P)
  | .intr c, s => some { s with cons := s.cons.consoleintr c }
  | .start p dst n, s =>
    if s.call p = none then
      some { s with call := Function.update s.call p (some ⟨dst, n, []⟩) }
    else none
  | .run p killed, s => (s.call p).map (s.read p killed)

/-- A section of a reader as its caller sees it: the request, the bytes the call had copied before, the
bytes it copies now, and how the section ends. -/
structure Event (P : Type) where
  reader : P
  n : Int32
  before : List UInt8
  bytes : List UInt8
  exit : Exit

/-- The section of a call as an event. -/
def State.event (s : State P) (p : P) (killed : Bool) (c : Call) : Event P :=
  let out := c.run killed s.cons
  ⟨p, c.n, c.got, out.2.1, out.2.2⟩

/-- What is seen of a run. -/
inductive Seen (P : Type)
  /-- A byte arrives. -/
  | typed (c : UInt8)
  /-- A section of a reader. -/
  | read (e : Event P)

/-- The section of a reader, if it is one. -/
def Seen.event : Seen P → Option (Event P)
  | .typed _ => none
  | .read e => some e

/-- The bytes that arrive and the sections of readers. -/
def events (s : State P) : Label P → List (Seen P)
  | .intr c => [.typed c]
  | .start _ _ _ => []
  | .run p killed => ((s.call p).map fun c => .read (s.event p killed c)).toList

/-- The console at start: all indices are zero, no call is in progress. -/
def system (P : Type) [DecidableEq P] : Lib.Lts (State P) (Label P) :=
  .ofFun (fun s => ∃ buf, s = ⟨⟨buf, 0, 0, 0⟩, fun _ => none⟩) next

/-- No call is made with a destination that faults. -/
def NonFaulting (_ : State P) : Label P → Prop
  | .start _ dst _ => ∀ i, dst i = true
  | _ => True

end Xv6.Console
