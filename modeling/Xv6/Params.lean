import Mathlib.Algebra.Group.Nat.Defs

/-!
# The constants of the kernel

The values of `param.h`, `fs.h`, `stat.h`, `fcntl.h`, `riscv.h`, `memlayout.h` and `elf.h` that the
modelled functions read, under the names the sources give them, and the state of a process and the
type of an open file, which several parts of the kernel share.
-/

namespace Xv6

/-! ### `param.h` -/

/-- Maximum number of processes. -/
def NPROC : ℕ := 64

/-- Open files per process. -/
def NOFILE : ℕ := 16

/-- Open files per system. -/
def NFILE : ℕ := 100

/-- Device number of the file system root disk. -/
def ROOTDEV : ℕ := 1

/-- Maximum number of arguments of `exec`. -/
def MAXARG : ℕ := 32

/-- Maximum number of blocks any FS operation writes. -/
def MAXOPBLOCKS : ℕ := 10

/-- Maximum number of data blocks in the on-disk log. -/
def LOGSIZE : ℕ := MAXOPBLOCKS * 3

/-- Size of the disk block cache. -/
def NBUF : ℕ := MAXOPBLOCKS * 3

/-- Maximum number of active i-nodes. -/
def NINODE : ℕ := 50

/-- Maximum major device number. -/
def NDEV : ℕ := 10

/-- Maximum file path name. -/
def MAXPATH : ℕ := 128

theorem NPROC_pos : 0 < NPROC := by decide

theorem one_lt_NPROC : 1 < NPROC := by decide

theorem NBUF_pos : 0 < NBUF := by decide

theorem NINODE_pos : 0 < NINODE := by decide

/-! ### `fs.h`, `stat.h` and `fcntl.h` -/

/-- Root i-number. -/
def ROOTINO : ℕ := 1

/-- Block size. -/
def BSIZE : ℕ := 1024

/-- Block addresses in the inode itself. -/
def NDIRECT : ℕ := 12

/-- Block addresses in the indirect block. -/
def NINDIRECT : ℕ := BSIZE / 4

/-- Maximum number of blocks of a file. -/
def MAXFILE : ℕ := NDIRECT + NINDIRECT

/-- Inodes per block. -/
def IPB : ℕ := BSIZE / 64

/-- Bitmap bits per block. -/
def BPB : ℕ := BSIZE * 8

/-- Length of a name in a directory. -/
def DIRSIZ : ℕ := 14

/-- Directory. -/
def T_DIR : ℕ := 1

/-- File. -/
def T_FILE : ℕ := 2

def O_RDONLY : ℕ := 0x000

def O_WRONLY : ℕ := 0x001

def O_CREATE : ℕ := 0x200

def O_TRUNC : ℕ := 0x400

/-- Major device number of the console. Source: `file.h`. -/
def CONSOLE : ℕ := 1

/-! ### `riscv.h` and `memlayout.h` -/

/-- Bytes per page. -/
def PGSIZE : ℕ := 4096

/-- One beyond the highest possible virtual address. -/
def MAXVA : ℕ := 2 ^ 38

/-- Where the kernel is loaded. -/
def KERNBASE : ℕ := 0x80000000

/-- End of the RAM the kernel uses. -/
def PHYSTOP : ℕ := KERNBASE + 128 * 1024 * 1024

/-- The highest page of every address space. -/
def TRAMPOLINE : ℕ := MAXVA - PGSIZE

/-- The page below the trampoline in a user address space. -/
def TRAPFRAME : ℕ := TRAMPOLINE - PGSIZE

/-! ### `pipe.c` -/

/-- Bytes a pipe can hold. -/
def PIPESIZE : ℕ := 512

/-! ### `elf.h` -/

/-- The first four bytes of an ELF file, little endian. -/
def ELF_MAGIC : ℕ := 0x464C457F

/-- Type of a program header that is to be loaded. -/
def ELF_PROG_LOAD : ℕ := 1

/-! ### `file.h` -/

/-- Type of an open file. Source: `file.h`. -/
inductive FdType
  | FD_NONE | FD_PIPE | FD_INODE | FD_DEVICE
  deriving DecidableEq, Repr

/-! ### `proc.h` -/

/-- A slot of the table `proc[NPROC]`. -/
abbrev Slot := Fin NPROC

/-- `enum procstate`. Source: `proc.h`. -/
inductive ProcState
  | unused | used | sleeping | runnable | running | zombie
  deriving DecidableEq, Repr

end Xv6
