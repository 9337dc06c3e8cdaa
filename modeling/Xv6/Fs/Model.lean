import Xv6.Block.Clients

/-!
# Inodes, open files and processes

The state that `fs.c`, `file.c` and the system calls of `sysfile.c` keep in memory: the table of
in-use inodes, the table of open files, and of each process its state, its file descriptors and its
current directory. An operation of `KernOp` is one section under `itable.lock`, `ftable.lock` or
`wait_lock`, one access to an inode by the holder of its sleep lock, one access of a process to its
own table of descriptors, or one step outside the file system whose outcome the file system does not
decide: a copy from or to user memory, an allocation of memory, a transfer through a pipe or the
console.

Scheduling is the subject of `Xv6.Sched`; here a process that can run, runs or sleeps is `RUNNABLE`.
-/

namespace Xv6.Fs

open Lib Block

/-! ### On disk -/

/-- `struct dinode`; the copy of it in a `struct inode`. Source: `fs.h`, `file.h`. -/
structure Dinode where
  type : ℕ
  major : ℕ
  minor : ℕ
  nlink : ℕ
  size : ℕ
  addrs : Fin (NDIRECT + 1) → ℕ

namespace Dinode

/-- An inode of type 0: `memset(dip, 0, sizeof(*dip))`. -/
def zero : Dinode := ⟨0, 0, 0, 0, 0, fun _ => 0⟩

/-- The block address with index `k` replaced. -/
def setAddr (d : Dinode) (k : Fin (NDIRECT + 1)) (b : ℕ) : Dinode :=
  { d with addrs := Function.update d.addrs k b }

/-- The 64 bytes of the inode. -/
def bytes (d : Dinode) : Bytes := fun a =>
  if a < 2 then UInt8.ofNat (d.type / 256 ^ a)
  else if a < 4 then UInt8.ofNat (d.major / 256 ^ (a - 2))
  else if a < 6 then UInt8.ofNat (d.minor / 256 ^ (a - 4))
  else if a < 8 then UInt8.ofNat (d.nlink / 256 ^ (a - 6))
  else if a < 12 then UInt8.ofNat (d.size / 256 ^ (a - 8))
  else if h : (a - 12) / 4 < NDIRECT + 1 then
    UInt8.ofNat (d.addrs ⟨(a - 12) / 4, h⟩ / 256 ^ ((a - 12) % 4))
  else 0

end Dinode

/-- The inode at index `k` of a block of inodes. -/
def getDinode (d : Data) (k : ℕ) : Dinode where
  type := d.bytes.load (64 * k) 2
  major := d.bytes.load (64 * k + 2) 2
  minor := d.bytes.load (64 * k + 4) 2
  nlink := d.bytes.load (64 * k + 6) 2
  size := d.bytes.load (64 * k + 8) 4
  addrs i := d.bytes.load (64 * k + 12 + 4 * i) 4

/-- A block of inodes with that at index `k` replaced. -/
def putDinode (d : Data) (k : ℕ) (i : Dinode) : Data :=
  .ofBytes (d.bytes.copy (64 * k) 64 i.bytes 0)

/-- Entry `j` of an indirect block. -/
def getEntry (d : Data) (j : ℕ) : ℕ := d.bytes.load (4 * j) 4

/-- An indirect block with entry `j` replaced. -/
def putEntry (d : Data) (j b : ℕ) : Data := .ofBytes (d.bytes.store (4 * j) 4 b)

/-- `m = 1 << (bi % 8)`. -/
def bitMask (bi : ℕ) : UInt8 := 1 <<< UInt8.ofNat (bi % 8)

/-- A bit of a block of the free map is set. -/
def isSet (d : Data) (bi : ℕ) : Bool := d.bytes (bi / 8) &&& bitMask bi != 0

/-- `bp->data[bi/8] |= m`. -/
def setBit (d : Data) (bi : ℕ) : Data := fun i =>
  if (i : ℕ) = bi / 8 then d i ||| bitMask bi else d i

/-- `bp->data[bi/8] &= ~m`. -/
def clearBit (d : Data) (bi : ℕ) : Data := fun i =>
  if (i : ℕ) = bi / 8 then d i &&& ~~~ bitMask bi else d i

/-- The block containing inode `i`. Source: `fs.h` `IBLOCK`. -/
def IBLOCK (i : ℕ) (sb : Superblock) : ℕ := i / IPB + sb.inodestart

/-- The block of the free map containing the bit for block `b`. Source: `fs.h` `BBLOCK`. -/
def BBLOCK (b : ℕ) (sb : Superblock) : ℕ := b / BPB + sb.bmapstart

/-- `n` bytes of a block from `off` on. -/
def slice (d : Data) (off n : ℕ) : List UInt8 := (List.range n).map fun j => d.bytes (off + j)

/-- A block with some bytes replaced from `off` on. -/
def splice (d : Data) (off : ℕ) (l : List UInt8) : Data :=
  .ofBytes (d.bytes.copy off l.length (fun j => l.getD j 0) 0)

/-- `struct dirent`. Source: `fs.h`. -/
structure Dirent where
  inum : ℕ
  name : List UInt8

/-- The 16 bytes of a directory entry, read. -/
def Dirent.decode (l : List UInt8) : Dirent :=
  ⟨(l.getD 0 0).toNat + 256 * (l.getD 1 0).toNat, (l.drop 2).take DIRSIZ⟩

/-- The 16 bytes of a directory entry, as `dirlink` fills them: `inum` is a `ushort`, and the name is
padded with zeros. -/
def Dirent.encode (inum : ℕ) (name : List UInt8) : List UInt8 :=
  UInt8.ofNat inum :: UInt8.ofNat (inum / 256) ::
    (name.take DIRSIZ ++ List.replicate (DIRSIZ - name.length) 0)

/-! ### In memory -/

/-- An entry of `itable.inode`: `struct inode *`. -/
abbrev InodeRef := Fin NINODE

/-- An entry of `ftable.file`: `struct file *`. -/
abbrev FileRef := Fin NFILE

/-- A file descriptor. -/
abbrev Fd := Fin NOFILE

/-- `struct inode`. Source: `file.h`. -/
structure Inode where
  /-- Device number. -/
  dev : ℕ
  /-- Inode number. -/
  inum : ℕ
  /-- Reference count. -/
  ref : ℤ
  /-- The process that holds the sleep lock. -/
  lock : Option Slot
  /-- Inode has been read from disk? -/
  valid : Bool
  /-- Copy of disk inode. -/
  din : Dinode

/-- `struct file`. Source: `file.h`. -/
structure File where
  type : FdType
  /-- Reference count. -/
  ref : ℤ
  readable : Bool
  writable : Bool
  /-- Address of the pipe, for `FD_PIPE`. -/
  pipe : ℕ
  /-- The inode, for `FD_INODE` and `FD_DEVICE`. -/
  ip : Option InodeRef
  /-- Position, for `FD_INODE`. -/
  off : ℕ
  /-- Device, for `FD_DEVICE`. -/
  major : ℕ

/-- `struct proc`, as far as the file system is concerned. Source: `proc.h`. -/
structure Proc where
  state : ProcState
  parent : Option Slot
  /-- Open files. -/
  ofile : Fd → Option FileRef
  /-- Current directory. -/
  cwd : Option InodeRef

/-- The tables. -/
structure Kern where
  /-- `itable.inode`. -/
  inode : InodeRef → Inode
  /-- `ftable.file`. -/
  file : FileRef → File
  /-- `proc`. -/
  proc : Slot → Proc
  initproc : Slot

namespace Kern

variable (k : Kern)

/-- Changes one inode. -/
@[simps -fullyApplied file proc]
def setInode (i : InodeRef) (x : Inode) : Kern := { k with inode := Function.update k.inode i x }

/-- Changes one file. -/
@[simps -fullyApplied inode proc]
def setFile (f : FileRef) (x : File) : Kern := { k with file := Function.update k.file f x }

/-- The section of `iget`: the entry of the inode if it is in the table, else a free entry.
Source: `fs.c` `iget`. -/
def iget (dev inum : ℕ) : Option InodeRef × Kern :=
  match (List.finRange NINODE).find? fun i =>
      0 < (k.inode i).ref ∧ (k.inode i).dev = dev ∧ (k.inode i).inum = inum with
  | some i => (some i, k.setInode i { k.inode i with ref := (k.inode i).ref + 1 })
  | none =>
    match (List.finRange NINODE).find? fun i => (k.inode i).ref = 0 with
    | some i => (some i, k.setInode i
        { k.inode i with dev := dev, inum := inum, ref := 1, valid := false })
    | none => (none, k)

/-- `ip->ref += n` under `itable.lock`. -/
def addRef (i : InodeRef) (n : ℤ) : Kern :=
  k.setInode i { k.inode i with ref := (k.inode i).ref + n }

end Kern

/-- What the first section of `iput` finds. -/
inductive IputCase
  /-- The reference is dropped. -/
  | dropped
  /-- It is the last reference to an inode without links, which is now locked. -/
  | freeing
  /-- So it is, but the inode is locked: `acquiresleep` would sleep with `itable.lock` held. -/
  | stuck

namespace Kern

variable (k : Kern)

/-- The first section of `iput` under `itable.lock`, up to its `release`. Source: `fs.c` `iput`. -/
def iputFirst (t : Slot) (i : InodeRef) : IputCase × Kern :=
  let x := k.inode i
  if x.ref = 1 ∧ x.valid ∧ x.din.nlink = 0 then
    if x.lock = none then (.freeing, k.setInode i { x with lock := some t }) else (.stuck, k)
  else (.dropped, k.addRef i (-1))

end Kern

/-! ### The operations -/

/-- The operations on the tables, and what the file system does not decide. -/
inductive KernOp
  /-- The section of `iget`. -/
  | iget (dev inum : ℕ)
  /-- `ip->ref++` in `idup`. -/
  | idup (ip : InodeRef)
  /-- Reads `ip->ref`. -/
  | ref (ip : InodeRef)
  | acquiresleep (ip : InodeRef)
  | holdingsleep (ip : InodeRef)
  | releasesleep (ip : InodeRef)
  /-- Reads an inode. -/
  | inode (ip : InodeRef)
  /-- Writes the copy of the disk inode. -/
  | setDinode (ip : InodeRef) (d : Dinode)
  /-- Writes `ip->valid`. -/
  | setValid (ip : InodeRef) (v : Bool)
  /-- The first section of `iput`. -/
  | iputFirst (ip : InodeRef)
  /-- The last section of `iput`, after the inode has been freed. -/
  | iputLast (ip : InodeRef)
  /-- Reads a file. -/
  | file (f : FileRef)
  /-- Writes `f->off`. -/
  | setOff (f : FileRef) (off : ℕ)
  /-- Reads `p->cwd`. -/
  | cwd
  /-- `n` bytes from user memory at `addr` on; a fault ends the copy early. -/
  | copyin (addr n : ℕ)
  /-- Copies `l` to user memory at `addr` on; a fault ends the copy early. The result is what has been
  copied. -/
  | copyout (addr : ℕ) (l : List UInt8)
  /-- A transfer through the pipe or the device of a file, which may sleep. -/
  | transfer (f : FileRef) (n : ℤ)

/-- The operations with their results. -/
def Ops : Sig where
  Op := KernOp
  Ret
    | .iget _ _ => Option InodeRef
    | .ref _ => ℤ
    | .holdingsleep _ => Bool
    | .inode _ => Inode
    | .iputFirst _ => IputCase
    | .file _ => File
    | .cwd => Option InodeRef
    | .copyin _ _ => List UInt8 × Bool
    | .copyout _ _ => List UInt8 × Bool
    | .transfer _ _ => ℤ
    | _ => Unit

/-- What process `t` does by an operation. -/
def ksem (t : Slot) : (o : KernOp) → Kern → Ops.Ret o → Kern → Prop
  | .iget dev inum, k, r, k' => k.iget dev inum = (r, k')
  | .idup ip, k, _, k' => k' = k.addRef ip 1
  | .ref ip, k, r, k' => r = (k.inode ip).ref ∧ k' = k
  | .acquiresleep ip, k, _, k' =>
    (k.inode ip).lock = none ∧ k' = k.setInode ip { k.inode ip with lock := some t }
  | .holdingsleep ip, k, r, k' => r = decide ((k.inode ip).lock = some t) ∧ k' = k
  | .releasesleep ip, k, _, k' => k' = k.setInode ip { k.inode ip with lock := none }
  | .inode ip, k, r, k' => r = k.inode ip ∧ k' = k
  | .setDinode ip d, k, _, k' => k' = k.setInode ip { k.inode ip with din := d }
  | .setValid ip v, k, _, k' => k' = k.setInode ip { k.inode ip with valid := v }
  | .iputFirst ip, k, r, k' => k.iputFirst t ip = (r, k')
  | .iputLast ip, k, _, k' => k' = k.addRef ip (-1)
  | .file f, k, r, k' => r = k.file f ∧ k' = k
  | .setOff f off, k, _, k' => k' = k.setFile f { k.file f with off := off }
  | .cwd, k, r, k' => r = (k.proc t).cwd ∧ k' = k
  | .copyin _ n, k, r, k' => r.1.length ≤ n ∧ (r.2 → r.1.length = n) ∧ k' = k
  | .copyout _ l, k, r, k' => r.1 <+: l ∧ (r.2 → r.1 = l) ∧ k' = k
  | .transfer _ n, k, (r : ℤ), k' => (r = -1 ∨ 0 ≤ r ∧ r ≤ max n 0) ∧ k' = k

/-- Code of the kernel above the block layer. -/
abbrev Code := Prog (Iface.sum Ops)

/-- A call of the block layer. -/
def blk (o : BlockOp) : Code (Iface.Ret o) := Prog.call (S := Iface.sum Ops) (.inl o)

/-- An operation on the tables. -/
def tab (o : KernOp) : Code (Ops.Ret o) := Prog.call (S := Iface.sum Ops) (.inr o)

end Xv6.Fs
