import Xv6.File.SharedWrite
import Xv6.Fs.DirMap
import Xv6.Fs.Handle

/-! `filewrite` on an inode, run alone: pieces of a few blocks, one transaction each. -/
namespace Xv6

open Lib Lib.Exec Fs

structure InodeFile where
  writable : Bool
  ip : Fin NINODE
  off : UInt32

def InodeFile.advance (file : InodeFile) (r : Int) : InodeFile :=
  if r > 0 then { file with off := file.off + UInt32.ofNat r.toNat } else file

def Source.drop (src : Source) (i : Nat) : Source := fun j => src (i + j)

section Filewrite

variable (sb : Superblock)

def writeChunk (file : InodeFile) (src : Source) (n1 : Nat) : Exec Fs Panic (Int × InodeFile) := do
  Fs.beginOp
  Fs.ilock sb file.ip
  let r ← Fs.writei sb file.ip src file.off (UInt32.ofNat n1)
  Fs.iunlock file.ip
  Fs.endOp
  return (r, file.advance r)

def filewriteLoop (src : Source) (n : Int) :
    Nat → Nat → InodeFile → Exec Fs Panic (Nat × InodeFile)
  | 0, i, file => return (i, file)
  | fuel + 1, i, file =>
    if (i : Int) < n then do
      let n1 := min (n - i).toNat SharedFile.maxWrite
      let (r, file) ← writeChunk sb file (src.drop i) n1
      if r ≠ n1 then
        -- error from writei
        return (i, file)
      else filewriteLoop src n fuel (i + r.toNat) file
    else return (i, file)

def filewrite (file : InodeFile) (src : Source) (n : Int) : Exec Fs Panic (Int × InodeFile) := do
  if file.writable = false then return (-1, file)
  else do
    let (i, file) ← filewriteLoop sb src n n.toNat 0 file
    return (if (i : Int) = n then n else -1, file)

end Filewrite

section Splice

variable {c x y : List UInt8} {off : Nat}

end Splice

variable {sb : Superblock} {f : Fs} {a : FsView} {i : Nat} {node : Node} {src : Source}
variable {E : Panic → Prop}

/-- The contents with `total` bytes copied and `tot` of them counted. -/
def written (c : List UInt8) (off : Nat) (src : Source) (tot total : Nat) : List UInt8 :=
  (splice c off (src.bytes total)).take (max c.length (off + tot))

/-- What the pieces of a write of `n` bytes at `off` may need: two free blocks for each block that
a piece touches. A block on the border of two pieces counts twice. -/
def blocksFor (off n : Nat) : Nat := 2 * (chunks off n + (n - 1) / SharedFile.maxWrite)

/-- No transaction is open, the log is empty and has room for one piece of a write to inode `i`,
and so many blocks are free. -/
structure Provided (sb : Superblock) (s : Store) (i blocks : Nat) : Prop where
  alone : s.log.outstanding = 0
  empty : s.log.lh = []
  header_lt : (metaBlocks sb i).card + 16 < LOGSIZE
  log_lt : (metaBlocks sb i).card + 17 < sb.nlog
  blocks_le : blocks ≤ s.freeBlocks sb

theorem Provided.mono {s : Store} {blocks blocks' : Nat} (h : Provided sb s i blocks)
    (hle : blocks' ≤ blocks) : Provided sb s i blocks' :=
  { h with blocks_le := hle.trans h.blocks_le }

theorem Provided.room {s : Store} {blocks k c : Nat} (h : Provided sb s i blocks)
    (ready : LogReady sb s) (hk : k ≤ blocks) (hc : c ≤ 16) :
    Room sb (metaBlocks sb i) (s.setOutstanding (s.log.outstanding + 1)) k c := by
  have hunlogged : s.unlogged (metaBlocks sb i) ≤ (metaBlocks sb i).card := Finset.card_filter_le _ _
  have hempty : s.log.lh.length = 0 := by rw [h.empty]; rfl
  have hheader := h.header_lt
  have hlog := h.log_lt
  refine ⟨h.alone ▸ le_rfl, hk.trans h.blocks_le, ?_, ?_⟩
  · change s.log.lh.length + s.unlogged (metaBlocks sb i) + c < LOGSIZE
    omega
  · change s.log.lh.length + s.unlogged (metaBlocks sb i) + c + 1 < s.log.size
    rw [ready.size_eq]
    omega

theorem freeBlocks_of_volume {s s' : Store} (h : s'.volume sb = s.volume sb) :
    s'.freeBlocks sb = s.freeBlocks sb := by
  apply freeBlocks_congr
  intro c hc
  rw [← Store.volume_used hc, ← Store.volume_used hc, h]

variable {Q : Int × InodeFile → Fs → Prop} {file : InodeFile}

end Xv6
