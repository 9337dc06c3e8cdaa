import Xv6.Fs.Model

/-!
# `fs.c`

The blocks, inodes, directories and path names of the file system, as programs over the block layer
and the operations on the tables. A loop of the source is a recursion on what is left of it: the
blocks of the free map, the inode numbers, the bytes, the entries of the directory, the elements of
the path.

A function that expects its caller to hold `ip->lock` reads the inode once and goes on with what it
has read. All blocks are on the one device there is.
-/

namespace Xv6.Fs

open Lib Block

variable (sb : Superblock)

/-! ### Blocks -/

/-- Zeroes a block. Source: `fs.c` `bzero`. -/
def bzero (bno : ℕ) : Code Unit := do
  let bp : BufRef ← blk (.bread bno)
  blk (.store bp fun _ => 0)
  blk (.log_write bp)
  blk (.brelse bp)

/-- The first clear bit among the `n` from `bi` on that are below `lim`. -/
def freeBit (d : Data) (lim : ℕ) : ℕ → ℕ → Option ℕ
  | 0, _ => none
  | n + 1, bi =>
    if lim ≤ bi then none
    else if isSet d bi then freeBit d lim n (bi + 1)
    else some bi

/-- The turns of `balloc` for the `n` blocks of the free map from that of block `b` on. -/
def ballocFrom : ℕ → ℕ → Code ℕ
  | 0, _ => .panic "balloc: out of blocks"
  | n + 1, b => do
    let bp : BufRef ← blk (.bread (BBLOCK b sb))
    let d : Data ← blk (.load bp)
    match freeBit d (sb.size - b) BPB 0 with
    | some bi => do
      blk (.store bp (setBit d bi))  -- mark block in use
      blk (.log_write bp)
      blk (.brelse bp)
      bzero (b + bi)
      return b + bi
    | none => do
      blk (.brelse bp)
      ballocFrom n (b + BPB)

/-- Allocates a zeroed disk block. Source: `fs.c` `balloc`. -/
def balloc : Code ℕ := ballocFrom sb ((sb.size + BPB - 1) / BPB) 0

/-- Frees a disk block. Source: `fs.c` `bfree`. -/
def bfree (b : ℕ) : Code Unit := do
  let bp : BufRef ← blk (.bread (BBLOCK b sb))
  let d : Data ← blk (.load bp)
  if isSet d (b % BPB) = false then
    .panic "freeing free block"
  else do
    blk (.store bp (clearBit d (b % BPB)))
    blk (.log_write bp)
    blk (.brelse bp)

/-! ### Inodes -/

/-- Source: `fs.c` `iget`. -/
def iget (dev inum : ℕ) : Code InodeRef := do
  match ← tab (.iget dev inum) with
  | none => .panic "iget: no inodes"
  | some ip => return ip

/-- Source: `fs.c` `idup`. -/
def idup (ip : InodeRef) : Code InodeRef := do
  tab (.idup ip)
  return ip

/-- The turns of `ialloc` for the `n` inodes from `inum` on. -/
def iallocFrom (type : ℕ) : ℕ → ℕ → Code InodeRef
  | 0, _ => .panic "ialloc: no inodes"
  | n + 1, inum => do
    let bp : BufRef ← blk (.bread (IBLOCK inum sb))
    let d : Data ← blk (.load bp)
    if (getDinode d (inum % IPB)).type = 0 then do  -- a free inode
      blk (.store bp (putDinode d (inum % IPB) { Dinode.zero with type := type }))
      blk (.log_write bp)  -- mark it allocated on the disk
      blk (.brelse bp)
      iget ROOTDEV inum
    else do
      blk (.brelse bp)
      iallocFrom type n (inum + 1)

/-- Allocates an inode. Source: `fs.c` `ialloc`. -/
def ialloc (type : ℕ) : Code InodeRef := iallocFrom sb type (sb.ninodes - 1) 1

/-- Copies a modified in-memory inode to disk. Source: `fs.c` `iupdate`. -/
def iupdate (ip : InodeRef) : Code Unit := do
  let i : Inode ← tab (.inode ip)
  let bp : BufRef ← blk (.bread (IBLOCK i.inum sb))
  let d : Data ← blk (.load bp)
  blk (.store bp (putDinode d (i.inum % IPB) i.din))
  blk (.log_write bp)
  blk (.brelse bp)

/-- Reads the inode from disk, for its holder. Source: `fs.c` `ilock`. -/
def iread (ip : InodeRef) (inum : ℕ) : Code Unit := do
  let bp : BufRef ← blk (.bread (IBLOCK inum sb))
  let d : Data ← blk (.load bp)
  tab (.setDinode ip (getDinode d (inum % IPB)))
  blk (.brelse bp)
  tab (.setValid ip true)
  if (getDinode d (inum % IPB)).type = 0 then .panic "ilock: no type" else return ()

/-- Locks the given inode, and reads it from disk if necessary. Source: `fs.c` `ilock`. -/
def ilock (ip : InodeRef) : Code Unit := do
  let ref : ℤ ← tab (.ref ip)
  if ref < 1 then
    .panic "ilock"
  else do
    tab (.acquiresleep ip)
    let i : Inode ← tab (.inode ip)
    Prog.when (!i.valid) (iread sb ip i.inum)

/-- Unlocks the given inode. Source: `fs.c` `iunlock`. -/
def iunlock (ip : InodeRef) : Code Unit := do
  let holding : Bool ← tab (.holdingsleep ip)
  let ref : ℤ ← tab (.ref ip)
  if holding = false ∨ ref < 1 then
    .panic "iunlock"
  else
    tab (.releasesleep ip)

/-- The turns of `itrunc` for the direct blocks `ks`. -/
def itruncDirect (ip : InodeRef) : List (Fin (NDIRECT + 1)) → Code Unit
  | [] => return ()
  | k :: ks => do
    let i : Inode ← tab (.inode ip)
    Prog.when (i.din.addrs k ≠ 0) do
      bfree sb (i.din.addrs k)
      tab (.setDinode ip (i.din.setAddr k 0))
    itruncDirect ip ks

/-- The turns of `itrunc` for the entries `js` of the indirect block. -/
def itruncEntries (d : Data) : List ℕ → Code Unit
  | [] => return ()
  | j :: js => do
    Prog.when (getEntry d j ≠ 0) (bfree sb (getEntry d j))
    itruncEntries d js

/-- The part of `itrunc` about the indirect block. -/
def itruncIndirect (ip : InodeRef) : Code Unit := do
  let i : Inode ← tab (.inode ip)
  Prog.when (i.din.addrs (Fin.last NDIRECT) ≠ 0) do
    let bp : BufRef ← blk (.bread (i.din.addrs (Fin.last NDIRECT)))
    let d : Data ← blk (.load bp)
    itruncEntries sb d (List.range NINDIRECT)
    blk (.brelse bp)
    bfree sb (i.din.addrs (Fin.last NDIRECT))
    tab (.setDinode ip (i.din.setAddr (Fin.last NDIRECT) 0))

/-- Truncates the inode. Source: `fs.c` `itrunc`. -/
def itrunc (ip : InodeRef) : Code Unit := do
  itruncDirect sb ip ((List.finRange NDIRECT).map Fin.castSucc)
  itruncIndirect sb ip
  let i : Inode ← tab (.inode ip)
  tab (.setDinode ip { i.din with size := 0 })
  iupdate sb ip

/-- The part of `iput` that frees an inode, which it has locked. Source: `fs.c` `iput`. -/
def ifree (ip : InodeRef) : Code Unit := do
  itrunc sb ip
  let i : Inode ← tab (.inode ip)
  tab (.setDinode ip { i.din with type := 0 })
  iupdate sb ip
  tab (.setValid ip false)
  tab (.releasesleep ip)
  tab (.iputLast ip)

/-- Drops a reference to an in-memory inode. Source: `fs.c` `iput`. -/
def iput (ip : InodeRef) : Code Unit := do
  match ← tab (.iputFirst ip) with
  | .dropped => return ()
  | .freeing => ifree sb ip
  | .stuck => .panic "sched locks"

/-- Source: `fs.c` `iunlockput`. -/
def iunlockput (ip : InodeRef) : Code Unit := do
  iunlock ip
  iput sb ip

/-! ### Inode content -/

/-- The block with address `k` of an inode, allocated if there is none. Source: `fs.c` `bmap`. -/
def bmapAddr (ip : InodeRef) (k : Fin (NDIRECT + 1)) : Code ℕ := do
  let i : Inode ← tab (.inode ip)
  if i.din.addrs k = 0 then do
    let addr ← balloc sb
    tab (.setDinode ip (i.din.setAddr k addr))
    return addr
  else return i.din.addrs k

/-- The disk block address of block `bn` of the inode. Source: `fs.c` `bmap`. -/
def bmap (ip : InodeRef) (bn : ℕ) : Code ℕ :=
  if h : bn < NDIRECT then
    bmapAddr sb ip ⟨bn, Nat.lt_succ_of_lt h⟩
  else if bn - NDIRECT < NINDIRECT then do
    -- load indirect block, allocating if necessary
    let addr ← bmapAddr sb ip (Fin.last NDIRECT)
    let bp : BufRef ← blk (.bread addr)
    let d : Data ← blk (.load bp)
    if getEntry d (bn - NDIRECT) = 0 then do
      let addr ← balloc sb
      blk (.store bp (putEntry d (bn - NDIRECT) addr))
      blk (.log_write bp)
      blk (.brelse bp)
      return addr
    else do
      blk (.brelse bp)
      return getEntry d (bn - NDIRECT)
  else .panic "bmap: out of range"

/-- Where `readi` puts its data. -/
inductive Dest
  /-- User memory from an address on. -/
  | user (addr : ℕ)
  /-- A buffer in the kernel. -/
  | kernel

/-- `either_copyout` of `l` after the first `tot` bytes: what has been copied, and whether that is all.
Source: `proc.c` `either_copyout`. -/
def either_copyout (dst : Dest) (tot : ℕ) (l : List UInt8) : Code (List UInt8 × Bool) :=
  match dst with
  | .user addr => tab (.copyout ((addr + tot) % 2 ^ 64) l)
  | .kernel => return (l, true)

/-- The turns of `readi` for the `n` bytes from `off` on, at most `fuel` of them, after `l` has been
delivered. -/
def readiFrom (ip : InodeRef) (dst : Dest) : ℕ → ℕ → ℕ → List UInt8 → Code (List UInt8 × Bool)
  | 0, _, _, l => return (l, true)
  | fuel + 1, off, n, l =>
    if n = 0 then return (l, true)
    else do
      let addr ← bmap sb ip (off / BSIZE)
      let bp : BufRef ← blk (.bread addr)
      let m := min n (BSIZE - off % BSIZE)
      let d : Data ← blk (.load bp)
      let (x, ok) ← either_copyout dst l.length (slice d (off % BSIZE) m)
      blk (.brelse bp)
      if ok then readiFrom ip dst fuel (off + m) (n - m) (l ++ x)
      else return (l ++ x, false)

/-- Reads data from an inode: the bytes delivered at `dst`. The result is their number, or -1 if a copy
to user memory has failed. Source: `fs.c` `readi`. -/
def readi (ip : InodeRef) (dst : Dest) (off n : ℕ) : Code (List UInt8 × Bool) := do
  let i : Inode ← tab (.inode ip)
  if off > i.din.size ∨ (off + n) % 2 ^ 32 < off then return ([], true)
  else
    let n := if off + n > i.din.size then i.din.size - off else n
    readiFrom sb ip dst n off n []

/-- Where `writei` takes its data from. -/
inductive Source
  /-- User memory from an address on. -/
  | user (addr : ℕ)
  /-- Bytes in the kernel. -/
  | kernel (l : List UInt8)

/-- `either_copyin` of the `m` bytes after the first `tot`. Source: `proc.c` `either_copyin`. -/
def either_copyin (src : Source) (tot m : ℕ) : Code (List UInt8 × Bool) :=
  match src with
  | .user addr => tab (.copyin ((addr + tot) % 2 ^ 64) m)
  | .kernel l => return ((l.drop tot).take m, true)

/-- The turns of `writei` for the `n` bytes from `off` on, at most `fuel` of them, after `tot` bytes
have been written. The result is the new value of `off` and of `tot`. A copy that fails may have
changed the buffer. -/
def writeiFrom (ip : InodeRef) (src : Source) : ℕ → ℕ → ℕ → ℕ → Code (ℕ × ℕ)
  | 0, off, _, tot => return (off, tot)
  | fuel + 1, off, n, tot =>
    if n = 0 then return (off, tot)
    else do
      let addr ← bmap sb ip (off / BSIZE)
      let bp : BufRef ← blk (.bread addr)
      let m := min n (BSIZE - off % BSIZE)
      let (l, ok) ← either_copyin src tot m
      let d : Data ← blk (.load bp)
      blk (.store bp (splice d (off % BSIZE) l))
      if ok then do
        blk (.log_write bp)
        blk (.brelse bp)
        writeiFrom ip src fuel (off + m) (n - m) (tot + m)
      else do
        blk (.brelse bp)
        return (off, tot)

/-- Writes data to an inode: the number of bytes written, or none for the result -1.
Source: `fs.c` `writei`. -/
def writei (ip : InodeRef) (src : Source) (off n : ℕ) : Code (Option ℕ) := do
  let i : Inode ← tab (.inode ip)
  if off > i.din.size ∨ (off + n) % 2 ^ 32 < off then return none
  else if off + n > MAXFILE * BSIZE then return none
  else do
    let (off, tot) ← writeiFrom sb ip src n off n 0
    let i : Inode ← tab (.inode ip)
    Prog.when (off > i.din.size) (tab (.setDinode ip { i.din with size := off }))
    -- write the i-node back to disk even if the size didn't change, because the loop above might
    -- have called bmap() and added a new block to ip->addrs[]
    iupdate sb ip
    return some tot

/-! ### Directories -/

/-- A name as `strncmp` reads it: up to the first zero, and at most `DIRSIZ` bytes. -/
def cname (l : List UInt8) : List UInt8 := (l.take DIRSIZ).takeWhile (· ≠ 0)

/-- `namecmp(s, t) == 0`. Source: `fs.c` `namecmp`. -/
def namecmp (s t : List UInt8) : Bool := cname s = cname t

/-- The offsets of the entries from `off` on of a directory of size `size`. -/
def entryOffsets (off size : ℕ) : List ℕ :=
  (List.range ((size - off + 15) / 16)).map fun j => off + 16 * j

/-- Reads the entry at `off`; the message is that of the caller's panic. -/
def readDirent (dp : InodeRef) (off : ℕ) (msg : String) : Code Dirent := do
  let (l, ok) ← readi sb dp .kernel off 16
  if ok ∧ l.length = 16 then return Dirent.decode l else .panic msg

/-- The turns of `dirlookup` for the entries at `offs`. -/
def dirlookupFrom (dp : InodeRef) (dev : ℕ) (name : List UInt8) :
    List ℕ → Code (Option (InodeRef × ℕ))
  | [] => return none
  | off :: offs => do
    let de ← readDirent sb dp off "dirlookup read"
    if de.inum ≠ 0 ∧ namecmp name de.name then do
      let ip ← iget dev de.inum  -- entry matches path element
      return some (ip, off)
    else dirlookupFrom dp dev name offs

/-- Looks for a directory entry; the result is its inode, and its offset for `*poff`.
Source: `fs.c` `dirlookup`. -/
def dirlookup (dp : InodeRef) (name : List UInt8) : Code (Option (InodeRef × ℕ)) := do
  let i : Inode ← tab (.inode dp)
  if i.din.type ≠ T_DIR then .panic "dirlookup not DIR"
  else dirlookupFrom sb dp i.dev name (entryOffsets 0 i.din.size)

/-- Looks for an empty entry: its offset, or the end of the directory. -/
def emptySlotFrom (dp : InodeRef) : List ℕ → ℕ → Code ℕ
  | [], last => return last
  | off :: offs, last => do
    let de ← readDirent sb dp off "dirlink read"
    if de.inum = 0 then return off else emptySlotFrom dp offs last

/-- Writes a new directory entry into the directory `dp`; false for the result -1.
Source: `fs.c` `dirlink`. -/
def dirlink (dp : InodeRef) (name : List UInt8) (inum : ℕ) : Code Bool := do
  match ← dirlookup sb dp name with
  | some (ip, _) => do  -- check that name is not present
      iput sb ip
      return false
  | none => do
    let i : Inode ← tab (.inode dp)
    let offs := entryOffsets 0 i.din.size
    let off ← emptySlotFrom sb dp offs (16 * offs.length)
    let w ← writei sb dp (.kernel (Dirent.encode inum name)) off 16
    if w ≠ some 16 then .panic "dirlink" else return true

/-! ### Paths -/

/-- A path name: the bytes of a string that `argstr` accepts. -/
structure Path where
  bytes : List UInt8
  short : bytes.length < MAXPATH
  nonzero : 0 ∉ bytes

/-- `'/'`. -/
def slash : UInt8 := 47

/-- The next path element and what follows it, without leading slashes. Source: `fs.c` `skipelem`. -/
def skipelem (path : List UInt8) : Option (List UInt8 × List UInt8) :=
  let s := path.dropWhile (· = slash)
  if s = [] then none
  else some ((s.takeWhile (· ≠ slash)).take DIRSIZ,
    (s.dropWhile (· ≠ slash)).dropWhile (· = slash))

/-- The path elements, at most `fuel` of them. -/
def elemsFrom : ℕ → List UInt8 → List (List UInt8)
  | 0, _ => []
  | fuel + 1, path =>
    match skipelem path with
    | none => []
    | some (name, rest) => name :: elemsFrom fuel rest

/-- The elements of a path. -/
def Path.elems (path : Path) : List (List UInt8) := elemsFrom path.bytes.length path.bytes

/-- The turns of `namex` for the path elements that are left. With `nameiparent` it stops one level
early, and the result is also the last element. Source: `fs.c` `namex`. -/
def namexFrom (nameiparent : Bool) : InodeRef → List (List UInt8) →
    Code (Option (InodeRef × List UInt8))
  | ip, [] =>
    if nameiparent then do
      iput sb ip
      return none
    else return some (ip, [])
  | ip, name :: rest => do
    ilock sb ip
    let i : Inode ← tab (.inode ip)
    if i.din.type ≠ T_DIR then do
      iunlockput sb ip
      return none
    else if nameiparent ∧ rest = [] then do  -- stop one level early
      iunlock ip
      return some (ip, name)
    else do
      match ← dirlookup sb ip name with
      | none => do
        iunlockput sb ip
        return none
      | some (next, _) => do
        iunlockput sb ip
        namexFrom nameiparent next rest

/-- Looks up the inode for a path name. Source: `fs.c` `namex`. -/
def namex (path : Path) (nameiparent : Bool) : Code (Option (InodeRef × List UInt8)) := do
  if path.bytes.head? = some slash then do
    let ip ← iget ROOTDEV ROOTINO
    namexFrom sb nameiparent ip path.elems
  else do
    match ← tab .cwd with
    | none => .panic "kerneltrap"  -- idup(0)
    | some cwd => do
      let ip ← idup cwd
      namexFrom sb nameiparent ip path.elems

/-- Source: `fs.c` `namei`. -/
def namei (path : Path) : Code (Option InodeRef) := do
  let r ← namex sb path false
  return r.map (·.1)

/-- Source: `fs.c` `nameiparent`. -/
def nameiparent (path : Path) : Code (Option (InodeRef × List UInt8)) := namex sb path true

end Xv6.Fs
