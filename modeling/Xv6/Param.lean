import Mathlib.Algebra.Order.Ring.Nat

/-! Parameters of `param.h` and `fs.h`, and the panics of the kernel. -/
namespace Xv6

def MAXOPBLOCKS : Nat := 10
def LOGSIZE : Nat := MAXOPBLOCKS * 3
def NBUF : Nat := MAXOPBLOCKS * 3
def BSIZE : Nat := 1024
def ROOTDEV : Nat := 1
def ROOTINO : Nat := 1
def NINODE : Nat := 50
def NFILE : Nat := 100
def NOFILE : Nat := 16
def NPROC : Nat := 64
def NDEV : Nat := 10

instance : NeZero NBUF := ⟨by decide⟩
instance : NeZero NINODE := ⟨by decide⟩
instance : NeZero NFILE := ⟨by decide⟩
instance : NeZero NOFILE := ⟨by decide⟩
instance : NeZero NPROC := ⟨by decide⟩

/-- The calls of `panic`, a `sleep` that nobody is left to end, and a sleep lock taken twice. -/
inductive Panic where
  | sleepsForever
  | deadlock
  | bgetNoBuffers
  | tooBigTransaction
  | logWriteOutsideTrans
  | logCommitting
  | outOfBlocks
  | freeingFreeBlock
  | bmapOutOfRange
  | noInodes
  | igetNoInodes
  | ilock
  | ilockNoType
  | iunlock
  | dirlookupNotDir
  | dirlookupRead
  | dirlinkRead
  | dirlink
  | isdirempty
  | unlinkNlink
  | unlinkWritei
  | createDots
  | createDirlink
  | filedup
  | fileclose
  | filewrite
  deriving DecidableEq, Repr

end Xv6
