import Xv6.Fs.Dir

/-! `mkfs.c`. Reads and writes of the host succeed, but for reads past the end of the image;
the host is little-endian, so that `xint` and `xshort` change nothing. -/
namespace Xv6

open Lib Lib.Exec

def FSSIZE : Nat := 1000
def FSMAGIC : Nat := 0x10203040

namespace Mkfs

def NINODES : Nat := 200
def nbitmap : Nat := FSSIZE / (BSIZE * 8) + 1
def ninodeblocks : Nat := NINODES / IPB + 1
def nlog : Nat := LOGSIZE

def nmeta : Nat := 2 + nlog + ninodeblocks + nbitmap

def nblocks : Nat := FSSIZE - nmeta

/-- The regions, for inodes that fit into `ninodeblocks` blocks. -/
def layout (ninodes : Nat) (h : ninodes < 208) : Superblock where
  size := FSSIZE
  ninodes := ninodes
  nlog := nlog
  logstart := 2
  inodestart := 2 + nlog
  bmapstart := 2 + nlog + ninodeblocks
  log_le := by decide
  inode_le := by
    simp only [nlog, ninodeblocks, LOGSIZE, MAXOPBLOCKS, NINODES, IPB, BSIZE]
    omega
  bmap_le := by decide
  ninodes_le := by omega
  size_lt := by decide

def sb : Superblock := layout NINODES (by decide)

def superblock : Block :=
  Block.ofFn (ByteField.setFields (fun _ => 0)
    [⟨0, 4, FSMAGIC⟩, ⟨4, 4, sb.size⟩, ⟨8, 4, nblocks⟩, ⟨12, 4, sb.ninodes⟩, ⟨16, 4, sb.nlog⟩,
      ⟨20, 4, sb.logstart⟩, ⟨24, 4, sb.inodestart⟩, ⟨28, 4, sb.bmapstart⟩])

structure Image where
  sector : Nat → Block := fun _ => Block.zero
  /-- In blocks. -/
  length : Nat := 0
  freeinode : Nat := 1
  freeblock : Nat := nmeta

/-- `die`, or a failed assertion. -/
inductive Exit where
  | die
  | assertion
  deriving DecidableEq, Repr

/-- `sec * BSIZE` is computed in 32 bits. -/
def wsect (sec : Nat) (buf : Block) : Exec Image Exit Unit :=
  modify fun s => { s with
    sector := Function.update s.sector (sec % 2 ^ 22) buf
    length := max s.length (sec % 2 ^ 22 + 1) }

def rsect (sec : Nat) : Exec Image Exit Block := do
  let s ← get
  if sec % 2 ^ 22 < s.length then return s.sector (sec % 2 ^ 22)
  else throw .die

def winode (inum : Nat) (ip : Dinode) : Exec Image Exit Unit := do
  let buf ← rsect (sb.IBLOCK inum)
  wsect (sb.IBLOCK inum) (buf.setDinode (inum % IPB) ip)

def rinode (inum : Nat) : Exec Image Exit Dinode := do
  let buf ← rsect (sb.IBLOCK inum)
  return buf.dinode (inum % IPB)

def ialloc (type : BitVec 16) : Exec Image Exit Nat := do
  let inum := (← get).freeinode
  modify fun s => { s with freeinode := s.freeinode + 1 }
  winode inum { Dinode.zero with type := type, nlink := 1 }
  return inum

def balloc (used : Nat) : Exec Image Exit Unit := do
  if used < BSIZE * 8 then
    wsect sb.bmapstart (Block.ofFn ((List.range used).foldl BitMap.mark fun _ => 0))
  else throw .assertion

def nextBlock : Exec Image Exit Nat := do
  let s ← get
  set { s with freeblock := s.freeblock + 1 }
  return s.freeblock

/-- Entry `k` of the indirect block, filled in if it is 0. -/
def indirectEntry (din : Dinode) (k : Nat) : Exec Image Exit Nat := do
  let indirect ← rsect (din.addr NDIRECT)
  if indirect.get (4 * k) 4 = 0 then do
    let b ← nextBlock
    wsect (din.addr NDIRECT) (indirect.set (4 * k) 4 b)
    return b
  else return indirect.get (4 * k) 4

/-- The part of `iappend` that finds the block `x`. -/
def blockFor (din : Dinode) (fbn : Nat) : Exec Image Exit (Nat × Dinode) := do
  if fbn < NDIRECT then
    if din.addr fbn = 0 then do
      let b ← nextBlock
      return (b, din.setAddr fbn b)
    else return (din.addr fbn, din)
  else if din.addr NDIRECT = 0 then do
    let b ← nextBlock
    let x ← indirectEntry (din.setAddr NDIRECT b) (fbn - NDIRECT)
    return (x, din.setAddr NDIRECT b)
  else do
    let x ← indirectEntry din (fbn - NDIRECT)
    return (x, din)

def iappendLoop : Nat → Dinode → Nat → List UInt8 → Exec Image Exit (Dinode × Nat)
  | 0, din, off, _ => return (din, off)
  | fuel + 1, din, off, p => do
    if p = [] then return (din, off)
    else if off / BSIZE < MAXFILE then do
      let (x, din) ← blockFor din (off / BSIZE)
      let n1 := min p.length ((off / BSIZE + 1) * BSIZE - off)
      let buf ← rsect x
      wsect x (Block.ofFn (ByteField.putBytes buf.byte (off - off / BSIZE * BSIZE) (p.take n1)))
      iappendLoop fuel din (off + n1) (p.drop n1)
    else throw .assertion

def iappend (inum : Nat) (p : List UInt8) : Exec Image Exit Unit := do
  let din ← rinode inum
  let (din, off) ← iappendLoop p.length din din.size p
  winode inum { din with size := off }

/-- What one `read` of the host delivers. -/
structure Chunk where
  bytes : List UInt8
  pos : 0 < bytes.length
  le : bytes.length ≤ BSIZE

/-- An argument, and what `open` and `read` of the host do with it. -/
structure HostFile where
  path : List UInt8
  nul : 0 ∉ path
  reads : Option (List Chunk)

namespace HostFile

variable (f : HostFile)

def shortname : List UInt8 :=
  if [117, 115, 101, 114, 47].isPrefixOf f.path then f.path.drop 5 else f.path

def stored : List UInt8 :=
  if f.shortname.head? = some 95 then f.shortname.tail else f.shortname

def name : List UInt8 := CString.strncpy (CString.ofList f.stored) DIRSIZ 0

end HostFile

def addFile (f : HostFile) : Exec Image Exit Unit := do
  if 47 ∈ f.shortname then throw .assertion
  else
    match f.reads with
    | none => throw .die
    | some chunks => do
      let inum ← ialloc T_FILE
      iappend ROOTINO (Dirent.bytes inum f.name)
      chunks.forM fun chunk => iappend inum chunk.bytes

def dot : List UInt8 := CString.strncpy (CString.ofList [46]) DIRSIZ 0
def dotdot : List UInt8 := CString.strncpy (CString.ofList [46, 46]) DIRSIZ 0

/-- The size of the root that `main` stores at the end. -/
def fixedSize (off : Nat) : Nat := (off / BSIZE + 1) * BSIZE

@[irreducible] def main (files : List HostFile) : Exec Image Exit Unit := do
  forUpTo FSSIZE (fun i _ => wsect i Block.zero) ()
  wsect 1 superblock
  let rootino ← ialloc T_DIR
  if rootino ≠ ROOTINO then throw .assertion
  else do
    iappend rootino (Dirent.bytes rootino dot)
    iappend rootino (Dirent.bytes rootino dotdot)
    files.forM addFile
    -- fix size of root inode dir
    let din ← rinode rootino
    winode rootino { din with size := fixedSize din.size }
    balloc (← get).freeblock

/-- The machine that boots from the image. -/
def Image.store (s : Image) : Store := Store.reboot sb.logstart sb.nlog s.sector

/-- Root entries name allocated inodes, and blocks, free map and sizes agree. -/
structure Consistent (s : Image) : Prop where
  entries : ∀ m, m < Dir.slots ((s.store.volume sb).contents ROOTINO) →
    (Dir.entry ((s.store.volume sb).contents ROOTINO) m).1 ≠ 0 →
    (Dir.entry ((s.store.volume sb).contents ROOTINO) m).1 < sb.ninodes ∧
      (s.store.volume sb).allocated (Dir.entry ((s.store.volume sb).contents ROOTINO) m).1
  blocks : BlocksOwned sb (s.store.volume sb)

end Mkfs

end Xv6
