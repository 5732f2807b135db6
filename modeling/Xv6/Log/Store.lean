import Xv6.Lib.ByteField
import Xv6.Lib.Writes
import Xv6.Param

/-! Disk, buffers and the functions of `log.c`. A buffer is what `bread` returns for its block;
`wrote` records the disk writes in order. -/
namespace Xv6

open Lib

structure Block where
  byte : Nat → UInt8
  outside : ∀ i, BSIZE ≤ i → byte i = 0

namespace Block

def ofFn (bytes : Nat → UInt8) : Block where
  byte i := if i < BSIZE then bytes i else 0
  outside i h := by rw [if_neg (by omega)]

def zero : Block := ofFn fun _ => 0

def get (block : Block) (off width : Nat) : Nat := ByteField.getLE block.byte off width

def set (block : Block) (off width value : Nat) : Block :=
  ofFn (ByteField.setLE block.byte off width value)

@[ext] theorem ext {left right : Block} (h : ∀ i, i < BSIZE → left.byte i = right.byte i) :
    left = right := by
  have hbyte : left.byte = right.byte := by
    funext i
    by_cases hi : i < BSIZE
    · exact h i hi
    · rw [left.outside i (by omega), right.outside i (by omega)]
  cases left
  cases right
  simp only [mk.injEq]
  exact hbyte

theorem byte_ofFn (bytes : Nat → UInt8) {i : Nat} (h : i < BSIZE) :
    (ofFn bytes).byte i = bytes i := if_pos h

@[simp] theorem byte_zero (i : Nat) : zero.byte i = 0 := by
  simp [zero, ofFn]

theorem get_set {block : Block} {off width value : Nat} (h : off + width ≤ BSIZE) :
    (block.set off width value).get off width = value % 256 ^ width := by
  rw [← ByteField.getLE_setLE block.byte off width value]
  apply ByteField.getLE_congr
  intro i _ hhigh
  exact byte_ofFn _ (Nat.lt_of_lt_of_le hhigh h)

theorem get_set_disjoint {block : Block} {off width value off' width' : Nat}
    (hfit : off' + width' ≤ BSIZE) (h : off' + width' ≤ off ∨ off + width ≤ off') :
    (block.set off width value).get off' width' = block.get off' width' := by
  have hfield : block.get off' width' =
      ByteField.getLE (ByteField.setLE block.byte off width value) off' width' :=
    (ByteField.getLE_setLE_disjoint h).symm
  rw [hfield]
  apply ByteField.getLE_congr
  intro i _ hhigh
  exact byte_ofFn _ (Nat.lt_of_lt_of_le hhigh (by omega))

@[simp] theorem get_zero (off width : Nat) : zero.get off width = 0 := by
  unfold get
  induction width generalizing off with
  | zero => rfl
  | succ width ih => simp [ByteField.getLE, ih]

end Block

/-- `lh` is the first `n` entries of `log.lh.block`. -/
structure Log where
  start : Nat
  size : Nat
  outstanding : Int := 0
  committing : Bool := false
  lh : List Nat := []

structure Store where
  disk : Nat → Block
  buf : Nat → Block
  wrote : List (Nat × Block) := []
  log : Log

namespace Store

def bread (s : Store) (blockno : Nat) : Block := s.buf blockno

def setData (s : Store) (blockno : Nat) (data : Block) : Store :=
  { s with buf := Function.update s.buf blockno data }

def bwrite (s : Store) (blockno : Nat) : Store :=
  { s with
    disk := Function.update s.disk blockno (s.buf blockno)
    wrote := s.wrote ++ [(blockno, s.buf blockno)] }

def moveBlock (s : Store) (src dst : Nat) : Store :=
  (s.setData dst (s.bread src)).bwrite dst

def writeLog (s : Store) : Store :=
  (List.range s.log.lh.length).foldl
    (fun t tail => t.moveBlock (s.log.lh.getD tail 0) (s.log.start + tail + 1)) s

def installTrans (s : Store) : Store :=
  (List.range s.log.lh.length).foldl
    (fun t tail => t.moveBlock (s.log.start + tail + 1) (s.log.lh.getD tail 0)) s

end Store

/-- The assignments of `write_head`: `n`, then `block[0..n)`. -/
def Block.setHead (block : Block) (lh : List Nat) : Block :=
  (List.range lh.length).foldl (fun b i => b.set (4 + 4 * i) 4 (lh.getD i 0))
    (block.set 0 4 lh.length)

/-- The signed field `n`. -/
def Block.headCount (block : Block) : Int :=
  (BitVec.ofNat 32 (block.get 0 4)).toInt

def Block.head (block : Block) : List Nat :=
  (List.range block.headCount.toNat).map fun i => block.get (4 + 4 * i) 4

namespace Store

def writeHead (s : Store) : Store :=
  (s.setData s.log.start ((s.bread s.log.start).setHead s.log.lh)).bwrite s.log.start

def setLh (s : Store) (lh : List Nat) : Store := { s with log := { s.log with lh := lh } }

def readHead (s : Store) : Store := s.setLh (s.bread s.log.start).head

def recoverFromLog (s : Store) : Store := (s.readHead.installTrans.setLh []).writeHead

def commit (s : Store) : Store :=
  if s.log.lh.length > 0 then (s.writeLog.writeHead.installTrans.setLh []).writeHead else s

/-- After a crash: nothing is cached, and `initlog` has not recovered yet. -/
def reboot (start size : Nat) (disk : Nat → Block) : Store where
  disk := disk
  buf := disk
  log := { start := start, size := size }

end Store

/-- The record that `log_write` makes of a block. -/
def Log.write (log : Log) (blockno : Nat) : Except Panic Log :=
  if log.lh.length ≥ LOGSIZE ∨ log.lh.length + 1 ≥ log.size then .error .tooBigTransaction
  else if log.outstanding < 1 then .error .logWriteOutsideTrans
  else if blockno ∈ log.lh then .ok log -- log absorption
  else .ok { log with lh := log.lh ++ [blockno] }

theorem Log.write_eq_ok {log log' : Log} {blockno : Nat} (h : log.write blockno = .ok log') :
    log.lh.length < LOGSIZE ∧
      log' = { log with lh := if blockno ∈ log.lh then log.lh else log.lh ++ [blockno] } := by
  unfold Log.write at h
  split at h
  · cases h
  · rename_i hroom
    split at h
    · cases h
    · refine ⟨by omega, ?_⟩
      split at h
      · rename_i hmem
        cases h
        simp [hmem]
      · rename_i hmem
        cases h
        simp [hmem]

end Xv6
