import Mathlib.Data.Finset.Insert
import Xv6.Lib.Bytes
import Xv6.Lib.Layer
import Xv6.Params

/-!
# The buffer cache and the log

`bio.c` and `log.c` as programs over primitive operations that several processes execute in any
interleaving. A primitive operation is one section under `bcache.lock`, `log.lock` or the inner lock
of a sleep lock, one access to a buffer by the process that holds its sleep lock, or one disk
transfer. The locks are therefore free in every state between two operations.

`acquiresleep` and `begin_op` test a condition in a loop with a call of `sleep`. A process in
`acquiresleep` is one whose operation cannot happen yet. For `begin_op` the model also says who is
asleep: a process that finds the log full goes to sleep in the section in which it looked, and has
to be woken by `wakeup(&log)` (or by `kill`) before it looks again.

Some things are kept that the kernel does not have, and no code reads them. `Hist` records the calls
of `log_write` and of `commit`, `Book` who refers to which buffer and which blocks each operation has
logged. `up` says that `fsinit` has returned, before which there is no process but the first.
-/

namespace Xv6.Block

open Lib

/-! ### Blocks -/

/-- The bytes of a block: `uchar data[BSIZE]`. -/
abbrev Data := Fin BSIZE → UInt8

/-- A buffer of the cache: `struct buf *`. -/
abbrev BufRef := Fin NBUF

namespace Data

/-- The bytes of a block as a memory. -/
def bytes (d : Data) : Bytes := fun a => if h : a < BSIZE then d ⟨a, h⟩ else 0

/-- The block whose bytes are the first `BSIZE` of a memory. -/
def ofBytes (m : Bytes) : Data := fun i => m i

end Data

/-- The super block, as far as the kernel reads it. Source: `fs.h` `struct superblock`. -/
structure Superblock where
  /-- Size of the file system image in blocks. -/
  size : ℕ
  /-- Number of inodes. -/
  ninodes : ℕ
  /-- Number of log blocks. -/
  nlog : ℕ
  /-- Block number of the first log block. -/
  logstart : ℕ
  /-- Block number of the first inode block. -/
  inodestart : ℕ
  /-- Block number of the first free map block. -/
  bmapstart : ℕ
  deriving DecidableEq, Repr

/-- The blocks of the log: its header and the log blocks. -/
def Superblock.InLog (sb : Superblock) (b : ℕ) : Prop :=
  sb.logstart ≤ b ∧ b < sb.logstart + sb.nlog

instance (sb : Superblock) (b : ℕ) : Decidable (sb.InLog b) :=
  inferInstanceAs (Decidable (_ ∧ _))

/-- `log.size`: the field `nlog` as an `int`. Source: `log.c` `initlog`. -/
def Superblock.logSize (sb : Superblock) : ℤ :=
  if sb.nlog < 2 ^ 31 then sb.nlog else sb.nlog - 2 ^ 32

/-! ### The log header on disk -/

/-- `log.lh` as `read_head` reads it from the header block; a negative `n` is an empty log.
Source: `log.c` `read_head`. -/
def readHead (d : Data) : List ℕ :=
  if d.bytes.load 0 4 < 2 ^ 31 then
    (List.range (d.bytes.load 0 4)).map fun i => d.bytes.load (4 + 4 * i) 4
  else []

/-- Writes the block numbers of a header from index `i` on. -/
def putBlocks (m : Bytes) : ℕ → List ℕ → Bytes
  | _, [] => m
  | i, b :: l => putBlocks (m.store (4 + 4 * i) 4 b) (i + 1) l

/-- The header block with `log.lh` written into it. Source: `log.c` `write_head`. -/
def putHead (d : Data) (lh : List ℕ) : Data :=
  .ofBytes (putBlocks (d.bytes.store 0 4 lh.length) 0 lh)

/-! ### The state -/

/-- `struct buf`. Source: `buf.h`. -/
structure Buf where
  /-- Has data been read from disk? -/
  valid : Bool
  /-- The device of the block. -/
  dev : ℕ
  /-- The block. -/
  blockno : ℕ
  /-- The process that holds the sleep lock. -/
  lock : Option Slot
  /-- Reference count. -/
  refcnt : ℕ
  /-- The content. -/
  data : Data

/-- `struct log`, less what `initlog` sets once from the super block. `lh` is the list
`lh.block[0..lh.n)`. Source: `log.c`. -/
structure Log where
  /-- How many FS system calls are executing. -/
  outstanding : ℕ
  /-- In `commit()`, please wait. -/
  committing : Bool
  /-- The in-memory log header. -/
  lh : List ℕ

/-- The calls of `log_write` and `commit` since the log was last recovered. -/
structure Hist where
  /-- The disk when the log was recovered. -/
  base : ℕ → Data
  /-- For each call of `commit`, the blocks logged since the one before. -/
  groups : List (List (ℕ × Data))
  /-- The blocks logged since the last call of `commit`. -/
  cur : List (ℕ × Data)
  /-- How many calls of `commit` have returned. -/
  done : ℕ

/-- The disk after a list of block writes. -/
def applyWrites (d : ℕ → Data) : List (ℕ × Data) → ℕ → Data
  | [] => d
  | w :: ws => applyWrites (Function.update d w.1 w.2) ws

/-- The content of every block after the first `k` groups. -/
def Hist.content (h : Hist) (k : ℕ) : ℕ → Data := applyWrites h.base (h.groups.take k).flatten

/-- The content of every block as most recently logged. -/
def Hist.logged (h : Hist) : ℕ → Data := applyWrites h.base (h.groups.flatten ++ h.cur)

/-- Who uses the buffers and the log. -/
structure Book where
  /-- How many references `bget` has given a process that `brelse` has not dropped. -/
  refs : Slot → BufRef → ℕ
  /-- The calls of `bpin` less those of `bunpin`. -/
  pins : BufRef → ℕ
  /-- The blocks a process has logged since `begin_op`, if it has not called `end_op` since. -/
  ops : Slot → Option (Finset ℕ)
  /-- The process that is in recovery, or that has to commit. -/
  busy : Option Slot

/-- The buffer cache, the log and the disk. -/
structure State where
  /-- `bcache.buf`. -/
  buf : BufRef → Buf
  /-- The list of all buffers, most recently used first. -/
  lru : List BufRef
  /-- The log. -/
  log : Log
  /-- The processes that are asleep in `begin_op`. -/
  asleep : Slot → Bool
  /-- The disk. -/
  disk : ℕ → Data
  /-- The calls so far. -/
  hist : Hist
  /-- The calls before the last recovery. -/
  prev : Hist
  /-- The users. -/
  book : Book
  /-- `fsinit` has returned. -/
  up : Bool

/-- The references after process `t` got or dropped one to buffer `i`. -/
@[simps -fullyApplied pins]
def Book.setRefs (k : Book) (t : Slot) (i : BufRef) (n : ℕ) : Book :=
  { k with refs := Function.update k.refs t (Function.update (k.refs t) i n) }

/-- The pins of buffer `i` replaced. -/
@[simps -fullyApplied refs]
def Book.setPins (k : Book) (i : BufRef) (n : ℕ) : Book :=
  { k with pins := Function.update k.pins i n }

/-- The operation of process `t` replaced. -/
@[simps -fullyApplied refs pins]
def Book.setOp (k : Book) (t : Slot) (o : Option (Finset ℕ)) : Book :=
  { k with ops := Function.update k.ops t o }

namespace State

/-- Changes one buffer. -/
def setBuf (s : State) (i : BufRef) (b : Buf) : State :=
  { s with buf := Function.update s.buf i b }

/-- The memory after a restart: `binit` has run, the disk is as it was, and process `boot` is about
to recover the log. Source: `bio.c` `binit`. -/
def reboot (boot : Slot) (s : State) : State where
  buf _ := ⟨false, 0, 0, none, 0, fun _ => 0⟩
  lru := (List.finRange NBUF).reverse
  log := ⟨0, false, []⟩
  asleep _ := false
  disk := s.disk
  hist := s.hist
  prev := s.prev
  book := ⟨fun _ _ => 0, fun _ => 0, fun _ => none, some boot⟩
  up := false

/-- The section of `bget` under `bcache.lock`: the buffer of the block if it is cached, else the
least recently used buffer that nobody refers to. Source: `bio.c` `bget`. -/
def bget (s : State) (t : Slot) (dev blockno : ℕ) : Option BufRef × State :=
  match s.lru.find? fun i => (s.buf i).dev = dev ∧ (s.buf i).blockno = blockno with
  | some i => (some i, { s.setBuf i { s.buf i with refcnt := (s.buf i).refcnt + 1 } with
      book := s.book.setRefs t i (s.book.refs t i + 1) })
  | none =>
    match s.lru.reverse.find? fun i => (s.buf i).refcnt = 0 with
    | some i => (some i, { s.setBuf i { s.buf i with
        dev := dev, blockno := blockno, valid := false, refcnt := 1 } with
        book := s.book.setRefs t i (s.book.refs t i + 1) })
    | none => (none, s)

/-- The section of `brelse` under `bcache.lock`. Source: `bio.c` `brelse`. -/
def unref (s : State) (t : Slot) (i : BufRef) : State :=
  let s' := { s.setBuf i { s.buf i with refcnt := (s.buf i).refcnt - 1 } with
    book := s.book.setRefs t i (s.book.refs t i - 1) }
  if (s.buf i).refcnt - 1 = 0 then { s' with lru := i :: s.lru.erase i } else s'

/-- Source: `bio.c` `bpin`. -/
def bpin (s : State) (i : BufRef) : State :=
  { s.setBuf i { s.buf i with refcnt := (s.buf i).refcnt + 1 } with
    book := s.book.setPins i (s.book.pins i + 1) }

/-- Source: `bio.c` `bunpin`. -/
def bunpin (s : State) (i : BufRef) : State :=
  { s.setBuf i { s.buf i with refcnt := (s.buf i).refcnt - 1 } with
    book := s.book.setPins i (s.book.pins i - 1) }

/-- `begin_op` may start another operation. Source: `log.c` `begin_op`. -/
def admits (s : State) : Bool :=
  !s.log.committing && decide (s.log.lh.length + (s.log.outstanding + 1) * MAXOPBLOCKS ≤ LOGSIZE)

/-- `wakeup(&log)`. -/
def wakeup (s : State) : State := { s with asleep := fun _ => false }

/-- Process `t` goes to sleep in `begin_op`, or is woken. -/
def setAsleep (s : State) (t : Slot) (v : Bool) : State :=
  { s with asleep := Function.update s.asleep t v }

/-- The section of `begin_op` that ends its loop. Source: `log.c` `begin_op`. -/
def beginOp (s : State) (t : Slot) : State :=
  { s with
    log := { s.log with outstanding := s.log.outstanding + 1 }
    book := s.book.setOp t (some ∅) }

/-- Records that process `t` logs the content of buffer `i`. -/
def recordLog (s : State) (t : Slot) (i : BufRef) : State :=
  { s with
    hist := { s.hist with cur := s.hist.cur ++ [((s.buf i).blockno, (s.buf i).data)] }
    book := s.book.setOp t ((s.book.ops t).map (insert (s.buf i).blockno)) }

/-- The section of `log_write` under `log.lock`; the result is the message of a panic.
Source: `log.c` `log_write`. -/
def logWrite (sb : Superblock) (s : State) (t : Slot) (i : BufRef) : Option String × State :=
  if s.log.lh.length ≥ LOGSIZE ∨ (s.log.lh.length : ℤ) ≥ sb.logSize - 1 then
    (some "too big a transaction", s)
  else if s.log.outstanding < 1 then
    (some "log_write outside of trans", s)
  else if (s.buf i).blockno ∈ s.log.lh then
    (none, s.recordLog t i)  -- log absorption
  else
    (none, { (s.recordLog t i).bpin i with
      log := { s.log with lh := s.log.lh ++ [(s.buf i).blockno] } })

/-- The first section of `end_op`: whether to commit, or a panic. Source: `log.c` `end_op`. -/
def endOp (s : State) (t : Slot) : Option Bool × State :=
  let s' := { s with
    log := { s.log with outstanding := s.log.outstanding - 1 }
    book := s.book.setOp t none }
  if s.log.committing then (none, s')
  else if s.log.outstanding - 1 = 0 then
    (some true, { s' with
      log := { s'.log with committing := true }
      book := { s'.book with busy := some t } })
  else (some false, s'.wakeup)

/-- The last section of `end_op`. Source: `log.c` `end_op`. -/
def commitDone (s : State) : State :=
  { s.wakeup with
    log := { s.log with committing := false }
    book := { s.book with busy := none } }

/-- `log.lh` replaced. -/
def setLh (s : State) (lh : List ℕ) : State := { s with log := { s.log with lh := lh } }

end State

/-! ### The primitive operations -/

/-- The operations the code is made of. -/
inductive PrimOp
  /-- The section of `bget` under `bcache.lock`. -/
  | bget (dev blockno : ℕ)
  | acquiresleep (i : BufRef)
  | holdingsleep (i : BufRef)
  | releasesleep (i : BufRef)
  /-- `b->valid`. -/
  | valid (i : BufRef)
  /-- `virtio_disk_rw(b, 0)` and `b->valid = 1`, both by the holder of the sleep lock. -/
  | diskRead (i : BufRef)
  /-- `virtio_disk_rw(b, 1)`. -/
  | diskWrite (i : BufRef)
  /-- The section of `brelse` under `bcache.lock`. -/
  | unref (i : BufRef)
  | bunpin (i : BufRef)
  /-- Reads `b->data`. -/
  | load (i : BufRef)
  /-- Writes `b->data`. -/
  | store (i : BufRef) (d : Data)
  /-- The section of `log_write` under `log.lock`. -/
  | logWrite (i : BufRef)
  /-- The section of `begin_op` that ends its loop. -/
  | beginOp
  /-- The first section of `end_op`. -/
  | endOp
  /-- The last section of `end_op`: `log.committing = 0`. -/
  | commitDone
  /-- Reads `log.lh`. -/
  | lh
  /-- Writes `log.lh`. -/
  | setLh (lh : List ℕ)
  /-- Recorded: `commit()` is called. -/
  | commitCalled
  /-- Recorded: `commit()` returns. -/
  | commitReturns
  /-- Recorded: `fsinit` returns. -/
  | recovered

/-- The primitive operations with their results. -/
def Prim : Sig where
  Op := PrimOp
  Ret
    | .bget _ _ => Option BufRef
    | .holdingsleep _ => Bool
    | .valid _ => Bool
    | .load _ => Data
    | .logWrite _ => Option String
    | .endOp => Option Bool
    | .lh => List ℕ
    | _ => Unit

/-- What process `t` does by a primitive operation; none when it has to wait. -/
def exec (sb : Superblock) (t : Slot) : (o : PrimOp) → State → Option (Prim.Ret o × State)
  | .bget dev blockno, s => some (s.bget t dev blockno)
  | .acquiresleep i, s =>
    if (s.buf i).lock = none then some ((), s.setBuf i { s.buf i with lock := some t }) else none
  | .holdingsleep i, s => some (decide ((s.buf i).lock = some t), s)
  | .releasesleep i, s => some ((), s.setBuf i { s.buf i with lock := none })
  | .valid i, s => some ((s.buf i).valid, s)
  | .diskRead i, s =>
    some ((), s.setBuf i { s.buf i with data := s.disk (s.buf i).blockno, valid := true })
  | .diskWrite i, s =>
    some ((), { s with disk := Function.update s.disk (s.buf i).blockno (s.buf i).data })
  | .unref i, s => some ((), s.unref t i)
  | .bunpin i, s => some ((), s.bunpin i)
  | .load i, s => some ((s.buf i).data, s)
  | .store i d, s => some ((), s.setBuf i { s.buf i with data := d })
  | .logWrite i, s => some (s.logWrite sb t i)
  | .beginOp, s => if s.asleep t = false ∧ s.admits then some ((), s.beginOp t) else none
  | .endOp, s => some (s.endOp t)
  | .commitDone, s => some ((), s.commitDone)
  | .lh, s => some (s.log.lh, s)
  | .setLh l, s => some ((), s.setLh l)
  | .commitCalled, s =>
    some ((), { s with hist := { s.hist with
      groups := s.hist.groups ++ [s.hist.cur], cur := [] } })
  | .commitReturns, s => some ((), { s with hist := { s.hist with done := s.hist.groups.length } })
  | .recovered, s =>
    some ((), { s with
      hist := ⟨s.disk, [], [], 0⟩
      prev := s.hist
      book := { s.book with busy := none }
      up := true })

/-- The primitive operations as a relation. -/
def sem (sb : Superblock) : Sem Slot Prim State := fun t o s r s' => exec sb t o s = some (r, s')

/-- How a process waits in `begin_op`: it goes to sleep when it finds that no other operation can
start, and `kill` may wake it. Nobody calls `begin_op` before `fsinit` has returned.
Source: `log.c` `begin_op`. -/
inductive Wait (t : Slot) : PrimOp → State → State → Prop
  | sleep {s : State} (hup : s.up) (hawake : s.asleep t = false) (hfull : s.admits = false) :
      Wait t .beginOp s (s.setAsleep t true)
  | killed {s : State} (hasleep : s.asleep t = true) : Wait t .beginOp s (s.setAsleep t false)

/-! ### `bio.c` -/

/-- A program over the primitive operations. -/
abbrev Code := Prog Prim

/-- A primitive operation as code. -/
def prim (o : PrimOp) : Code (Prim.Ret o) := Prog.call (S := Prim) o

/-- Source: `bio.c` `bget`. -/
def bget (dev blockno : ℕ) : Code BufRef := do
  match ← prim (.bget dev blockno) with
  | none => .panic "bget: no buffers"
  | some b => do
    prim (.acquiresleep b)
    return b

/-- Source: `bio.c` `bread`. -/
def bread (dev blockno : ℕ) : Code BufRef := do
  let b ← bget dev blockno
  let valid : Bool ← prim (.valid b)
  Prog.when (!valid) (prim (.diskRead b))
  return b

/-- Source: `bio.c` `bwrite`. -/
def bwrite (b : BufRef) : Code Unit := do
  let holding : Bool ← prim (.holdingsleep b)
  if holding = false then
    .panic "bwrite"
  else
    prim (.diskWrite b)

/-- Source: `bio.c` `brelse`. -/
def brelse (b : BufRef) : Code Unit := do
  let holding : Bool ← prim (.holdingsleep b)
  if holding = false then
    .panic "brelse"
  else do
    prim (.releasesleep b)
    prim (.unref b)

/-! ### `log.c` -/

/-- Source: `log.c` `begin_op`. -/
def begin_op : Code Unit := prim .beginOp

/-- Source: `log.c` `log_write`. -/
def log_write (b : BufRef) : Code Unit := do
  match ← prim (.logWrite b) with
  | some msg => .panic msg
  | none => return ()

/-- `memmove(dst->data, src->data, BSIZE)` and `bwrite(dst)`. -/
def copyWrite (dst src : BufRef) : Code Unit := do
  let d : Data ← prim (.load src)
  prim (.store dst d)
  bwrite dst

/-- The turns of `install_trans` for the blocks `bs`, from `tail` on. -/
def installFrom (sb : Superblock) (recovering : Bool) : ℕ → List ℕ → Code Unit
  | _, [] => return ()
  | tail, b :: bs => do
    let lbuf ← bread ROOTDEV (sb.logstart + tail + 1)  -- read log block
    let dbuf ← bread ROOTDEV b  -- read dst
    copyWrite dbuf lbuf  -- copy block to dst, write dst to disk
    Prog.when (!recovering) (prim (.bunpin dbuf))
    brelse lbuf
    brelse dbuf
    installFrom sb recovering (tail + 1) bs

/-- Source: `log.c` `install_trans`. -/
def install_trans (sb : Superblock) (recovering : Bool) : Code Unit := do
  let lh ← prim .lh
  installFrom sb recovering 0 lh

/-- Source: `log.c` `read_head`. -/
def read_head (sb : Superblock) : Code Unit := do
  let b ← bread ROOTDEV sb.logstart
  let d ← prim (.load b)
  prim (.setLh (readHead d))
  brelse b

/-- Source: `log.c` `write_head`. -/
def write_head (sb : Superblock) : Code Unit := do
  let b ← bread ROOTDEV sb.logstart
  let lh ← prim .lh
  let d ← prim (.load b)
  prim (.store b (putHead d lh))
  bwrite b
  brelse b

/-- Source: `log.c` `recover_from_log`. -/
def recover_from_log (sb : Superblock) : Code Unit := do
  read_head sb
  install_trans sb true  -- if committed, copy from log to disk
  prim (.setLh [])
  write_head sb  -- clear the log

/-- `initlog`, the part of `fsinit` that changes the disk. Source: `log.c` `initlog`,
`fs.c` `fsinit`. -/
def initlog (sb : Superblock) : Code Unit := do
  recover_from_log sb
  prim .recovered

/-- The turns of `write_log` for the blocks `bs`, from `tail` on. -/
def writeLogFrom (sb : Superblock) : ℕ → List ℕ → Code Unit
  | _, [] => return ()
  | tail, b :: bs => do
    let dst ← bread ROOTDEV (sb.logstart + tail + 1)  -- log block
    let src ← bread ROOTDEV b  -- cache block
    copyWrite dst src  -- write the log
    brelse src
    brelse dst
    writeLogFrom sb (tail + 1) bs

/-- Source: `log.c` `write_log`. -/
def write_log (sb : Superblock) : Code Unit := do
  let lh ← prim .lh
  writeLogFrom sb 0 lh

/-- `commit`, with its return recorded. Source: `log.c` `commit`. -/
def commitBody (sb : Superblock) : Code Unit := do
  let lh : List ℕ ← prim .lh
  Prog.when (lh.length > 0) do
    write_log sb  -- write modified blocks from cache to log
    write_head sb  -- write header to disk: the real commit
    install_trans sb false  -- now install writes to home locations
    prim (.setLh [])
    write_head sb  -- erase the transaction from the log
  prim .commitReturns

/-- Source: `log.c` `commit`. -/
def commit (sb : Superblock) : Code Unit := do
  prim .commitCalled
  commitBody sb

/-- Source: `log.c` `end_op`. -/
def end_op (sb : Superblock) : Code Unit := do
  match ← prim .endOp with
  | none => .panic "log.committing"
  | some false => return ()
  | some true => do
    commit sb
    prim .commitDone

/-! ### The interface -/

/-- What the rest of the kernel calls, on the one device there is. -/
inductive BlockOp
  | bread (blockno : ℕ)
  /-- Reads `b->data`. -/
  | load (b : BufRef)
  /-- Writes `b->data`. -/
  | store (b : BufRef) (d : Data)
  | log_write (b : BufRef)
  | brelse (b : BufRef)
  | begin_op
  | end_op
  | initlog

/-- The interface with its results. -/
def Iface : Sig where
  Op := BlockOp
  Ret
    | .bread _ => BufRef
    | .load _ => Data
    | _ => Unit

/-- The code of the interface. -/
def impl (sb : Superblock) : (o : BlockOp) → Code (Iface.Ret o)
  | .bread b => bread ROOTDEV b
  | .load b => prim (.load b)
  | .store b d => prim (.store b d)
  | .log_write b => log_write b
  | .brelse b => brelse b
  | .begin_op => begin_op
  | .end_op => end_op sb
  | .initlog => initlog sb

end Xv6.Block
