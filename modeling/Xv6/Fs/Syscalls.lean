import Xv6.Fs.Inode

/-!
# Reading and writing a file

`fileread` and `filewrite` of `file.c`. The caller's memory is read by `writei` and written by `readi`;
pipes and the console are the subject of `Xv6.Pipes` and `Xv6.Console`.
-/

namespace Xv6.Fs

open Lib Block

variable (sb : Superblock)

/-- `devsw[major].read` and `devsw[major].write` exist. Only the console has them. -/
def hasDevice (major : ℕ) : Bool := major < NDEV ∧ major = CONSOLE

/-- A `uint` as an `int`. -/
def asInt (n : ℕ) : ℤ := if n < 2 ^ 31 then n else n - 2 ^ 32

/-- Reads from file `f`: the result, and the bytes of an inode delivered at `addr`.
Source: `file.c` `fileread`. -/
def fileread (f : FileRef) (addr : ℕ) (n : ℤ) : Code (ℤ × List UInt8) := do
  let x : File ← tab (.file f)
  if x.readable = false then return (-1, [])
  else match x.type, x.ip with
    | .FD_PIPE, _ => return (← tab (.transfer f n), [])  -- piperead
    | .FD_DEVICE, _ => if hasDevice x.major then return (← tab (.transfer f n), []) else return (-1, [])
    | .FD_INODE, some ip => do
      ilock sb ip
      let x : File ← tab (.file f)
      let (l, ok) ← readi sb ip (.user addr) x.off (n % 2 ^ 32).toNat
      let r : ℤ := if ok then asInt l.length else -1
      Prog.when (r > 0) (tab (.setOff f ((x.off + r.toNat) % 2 ^ 32)))
      iunlock ip
      return (r, l)
    | _, _ => .panic "fileread"

/-- One transaction of `filewrite`: the result of `writei`. Source: `file.c` `filewrite`. -/
def writeChunk (f : FileRef) (ip : InodeRef) (addr n1 : ℕ) : Code ℤ := do
  blk .begin_op
  ilock sb ip
  let x : File ← tab (.file f)
  let w ← writei sb ip (.user addr) x.off n1
  let r : ℤ := match w with
    | some n => asInt n
    | none => -1
  Prog.when (r > 0) (tab (.setOff f ((x.off + r.toNat) % 2 ^ 32)))
  iunlock ip
  blk .end_op
  return r

/-- `max` in `filewrite`: a few blocks at a time, to avoid exceeding the maximum log transaction
size. -/
def maxWrite : ℕ := ((MAXOPBLOCKS - 1 - 1 - 2) / 2) * BSIZE

/-- The turns of `filewrite` for the `n` bytes after the first `i`, which are at `addr` on, at most
`fuel` of them: whether all bytes are written. -/
def writeChunks (f : FileRef) (ip : InodeRef) : ℕ → ℕ → ℕ → Code Bool
  | 0, _, _ => return true
  | fuel + 1, addr, n =>
    if n = 0 then return true
    else do
      let n1 := min n maxWrite
      let r ← writeChunk sb f ip addr n1
      if r ≠ n1 then return false  -- error from writei
      else writeChunks f ip fuel ((addr + n1) % 2 ^ 64) (n - n1)

/-- Writes to file `f`. Source: `file.c` `filewrite`. -/
def filewrite (f : FileRef) (addr : ℕ) (n : ℤ) : Code ℤ := do
  let x : File ← tab (.file f)
  if x.writable = false then return -1
  else match x.type, x.ip with
    | .FD_PIPE, _ => tab (.transfer f n)  -- pipewrite
    | .FD_DEVICE, _ => if hasDevice x.major then tab (.transfer f n) else return -1
    | .FD_INODE, some ip => do
      let all ← writeChunks sb f ip n.toNat addr n.toNat
      -- with a negative n the loop writes nothing, and i == n fails
      return if all ∧ 0 ≤ n then n else -1
    | _, _ => .panic "filewrite"

end Xv6.Fs
