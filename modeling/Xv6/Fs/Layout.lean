import Mathlib.Data.List.OfFn
import Xv6.Lib.Exec
import Xv6.Log.Store

/-! On-disk format of the file system, from `fs.h`. -/
namespace Xv6

open Lib

def NDIRECT : Nat := 12
def NINDIRECT : Nat := BSIZE / 4
def MAXFILE : Nat := NDIRECT + NINDIRECT

instance (priority := high) neZero_addrs : NeZero (NDIRECT + 1) := ⟨by decide⟩

def IPB : Nat := BSIZE / 64

def BPB : Nat := BSIZE * 8

/-- `[ boot block | super block | log | inode blocks | free bit map | data blocks ]`, with
regions as large as `mkfs` makes them and inode numbers that fit a `ushort`. -/
structure Superblock where
  size : Nat
  ninodes : Nat
  nlog : Nat
  logstart : Nat
  inodestart : Nat
  bmapstart : Nat
  log_le : 2 ≤ logstart ∧ logstart + nlog ≤ inodestart
  inode_le : inodestart + ninodes / IPB + 1 ≤ bmapstart
  bmap_le : bmapstart + size / BPB + 1 ≤ size
  ninodes_le : ninodes ≤ 2 ^ 16
  size_lt : size < 2 ^ 30

namespace Superblock

variable (sb : Superblock)

def IBLOCK (i : Nat) : Nat := i / IPB + sb.inodestart

def BBLOCK (b : Nat) : Nat := b / BPB + sb.bmapstart

def dataStart : Nat := sb.bmapstart + sb.size / BPB + 1

theorem iblock_lt {i : Nat} (h : i < sb.ninodes) : sb.IBLOCK i < sb.bmapstart := by
  have hdiv : i / IPB ≤ sb.ninodes / IPB := Nat.div_le_div_right (Nat.le_of_lt h)
  have hregion := sb.inode_le
  unfold IBLOCK
  omega

theorem bblock_lt {b : Nat} (h : b < sb.size) : sb.BBLOCK b < sb.dataStart := by
  have hdiv : b / BPB ≤ sb.size / BPB := Nat.div_le_div_right (Nat.le_of_lt h)
  unfold BBLOCK dataStart
  omega

theorem bmapstart_le_bblock (b : Nat) : sb.bmapstart ≤ sb.BBLOCK b := by
  unfold BBLOCK
  exact Nat.le_add_left _ _

theorem inodestart_lt_bmapstart : sb.inodestart < sb.bmapstart :=
  Nat.lt_of_le_of_lt (Nat.le_add_right _ _) sb.inode_le

theorem bmapstart_lt_dataStart : sb.bmapstart < sb.dataStart := by
  unfold dataStart
  exact Nat.lt_succ_of_le (Nat.le_add_right _ _)

/-- The blocks that the log is for. -/
def Home (b : Nat) : Prop := sb.inodestart ≤ b ∧ b < sb.size

theorem home_iblock {i : Nat} (h : i < sb.ninodes) : sb.Home (sb.IBLOCK i) := by
  have hlt := sb.iblock_lt h
  have hmap := sb.bmapstart_lt_dataStart
  have hdata : sb.dataStart ≤ sb.size := sb.bmap_le
  refine ⟨?_, by omega⟩
  unfold IBLOCK
  exact Nat.le_add_left _ _

theorem home_bblock {b : Nat} (h : b < sb.size) : sb.Home (sb.BBLOCK b) := by
  have hlow := sb.bmapstart_le_bblock b
  have hinode := sb.inodestart_lt_bmapstart
  exact ⟨by omega, Nat.lt_of_lt_of_le (sb.bblock_lt h) sb.bmap_le⟩

theorem home_data {b : Nat} (h : sb.dataStart ≤ b) (hlt : b < sb.size) : sb.Home b := by
  have hinode := sb.inodestart_lt_bmapstart
  have hbmap := sb.bmapstart_lt_dataStart
  exact ⟨by omega, hlt⟩

theorem dataStart_pos : 0 < sb.dataStart := by
  have hregion := sb.bmapstart_lt_dataStart
  omega

end Superblock

structure Dinode where
  type : BitVec 16
  major : BitVec 16
  minor : BitVec 16
  nlink : BitVec 16
  size : Nat
  addrs : Fin (NDIRECT + 1) → Nat

def T_DIR : BitVec 16 := 1
def T_FILE : BitVec 16 := 2
def T_DEVICE : BitVec 16 := 3

namespace Dinode

def zero : Dinode where
  type := 0
  major := 0
  minor := 0
  nlink := 0
  size := 0
  addrs _ := 0

structure Fits (d : Dinode) : Prop where
  size_lt : d.size < 2 ^ 32
  addrs_lt : ∀ k, d.addrs k < 2 ^ 32

/-- The members of the inode at byte `base` of a block. -/
def fields (base : Nat) (d : Dinode) : List ByteField.Field :=
  [⟨base, 2, d.type.toNat⟩, ⟨base + 2, 2, d.major.toNat⟩, ⟨base + 4, 2, d.minor.toNat⟩,
    ⟨base + 6, 2, d.nlink.toNat⟩, ⟨base + 8, 4, d.size⟩] ++
    List.ofFn fun k : Fin (NDIRECT + 1) => ⟨base + 12 + 4 * k, 4, d.addrs k⟩

end Dinode

namespace Block

def dinode (block : Block) (slot : Nat) : Dinode where
  type := BitVec.ofNat 16 (block.get (64 * slot) 2)
  major := BitVec.ofNat 16 (block.get (64 * slot + 2) 2)
  minor := BitVec.ofNat 16 (block.get (64 * slot + 4) 2)
  nlink := BitVec.ofNat 16 (block.get (64 * slot + 6) 2)
  size := block.get (64 * slot + 8) 4
  addrs k := block.get (64 * slot + 12 + 4 * k) 4

def setDinode (block : Block) (slot : Nat) (d : Dinode) : Block :=
  ofFn (ByteField.setFields block.byte (d.fields (64 * slot)))

end Block

structure Inode extends Dinode where
  dev : Nat
  inum : Nat
  ref : Int
  valid : Bool
  locked : Bool

theorem Dinode.fields_apart (base : Nat) (d : Dinode) :
    (d.fields base).Pairwise ByteField.Field.Apart := by
  unfold Dinode.fields
  rw [List.pairwise_append]
  refine ⟨?_, ?_, ?_⟩
  · simp [ByteField.Field.Apart]
  · rw [List.pairwise_ofFn]
    intro i j hij
    left
    change base + 12 + 4 * i.val + 4 ≤ base + 12 + 4 * j.val
    omega
  · intro f hf g hg
    obtain ⟨k, rfl⟩ := (List.mem_ofFn' _ _).mp hg
    left
    simp only [List.mem_cons, List.not_mem_nil, or_false] at hf
    rcases hf with rfl | rfl | rfl | rfl | rfl <;> simp only <;> omega

variable {d : Dinode}

theorem Dinode.mem_fields_window {base : Nat} {f : ByteField.Field} (h : f ∈ d.fields base) :
    base ≤ f.off ∧ f.off + f.width ≤ base + 64 := by
  unfold Dinode.fields at h
  rcases List.mem_append.mp h with hf | hf
  · simp only [List.mem_cons, List.not_mem_nil, or_false] at hf
    rcases hf with rfl | rfl | rfl | rfl | rfl <;> simp only <;> omega
  · obtain ⟨k, rfl⟩ := (List.mem_ofFn' _ _).mp hf
    have hk := k.isLt
    simp only [NDIRECT] at hk ⊢
    omega

namespace Block

variable {block : Block}

theorem get_setDinode {slot : Nat} (hslot : slot < IPB) {f : ByteField.Field}
    (h : f ∈ d.fields (64 * slot)) :
    (block.setDinode slot d).get f.off f.width = f.value % 256 ^ f.width := by
  have hwindow := Dinode.mem_fields_window h
  have hfits : 64 * slot + 64 ≤ BSIZE := by
    simp only [IPB, BSIZE] at hslot ⊢
    omega
  rw [← @ByteField.getLE_setFields block.byte _ (Dinode.fields_apart _ d) f h]
  apply ByteField.getLE_congr
  intro i _ hhigh
  exact byte_ofFn _ (by omega)

theorem dinode_setDinode {slot : Nat} (hslot : slot < IPB) (fits : d.Fits) :
    (block.setDinode slot d).dinode slot = d := by
  have hshort : ∀ off (x : BitVec 16), ⟨off, 2, x.toNat⟩ ∈ d.fields (64 * slot) →
      BitVec.ofNat 16 ((block.setDinode slot d).get off 2) = x := by
    intro off x h
    have hget : (block.setDinode slot d).get off 2 = x.toNat % 2 ^ 16 := get_setDinode hslot h
    rw [hget, Nat.mod_eq_of_lt x.isLt, BitVec.ofNat_toNat, BitVec.setWidth_eq]
  have hword : ∀ off x, x < 2 ^ 32 → ⟨off, 4, x⟩ ∈ d.fields (64 * slot) →
      (block.setDinode slot d).get off 4 = x := by
    intro off x hx h
    have hget : (block.setDinode slot d).get off 4 = x % 2 ^ 32 := get_setDinode hslot h
    rw [hget, Nat.mod_eq_of_lt hx]
  unfold dinode
  rw [hshort _ d.type (by simp [Dinode.fields]), hshort _ d.major (by simp [Dinode.fields]),
    hshort _ d.minor (by simp [Dinode.fields]), hshort _ d.nlink (by simp [Dinode.fields]),
    hword _ d.size fits.size_lt (by simp [Dinode.fields])]
  have haddrs : (fun k : Fin (NDIRECT + 1) =>
      (block.setDinode slot d).get (64 * slot + 12 + 4 * k) 4) = d.addrs := by
    funext k
    apply hword _ _ (fits.addrs_lt k)
    unfold Dinode.fields
    rw [List.mem_append, List.mem_ofFn']
    exact .inr ⟨k, rfl⟩
  rw [haddrs]

theorem dinode_setDinode_ne {slot other : Nat} (hslot : other < IPB) (h : other ≠ slot) :
    (block.setDinode slot d).dinode other = block.dinode other := by
  have hget : ∀ off width, 64 * other ≤ off → off + width ≤ 64 * other + 64 →
      (block.setDinode slot d).get off width = block.get off width := by
    intro off width hlow hhigh
    apply ByteField.getLE_congr
    intro i hi hi'
    simp only [IPB, BSIZE] at hslot
    unfold setDinode
    rw [byte_ofFn _ (by simp only [BSIZE]; omega)]
    apply ByteField.setFields_outside
    intro f hf
    have hwindow := Dinode.mem_fields_window hf
    omega
  unfold dinode
  rw [hget _ _ (by omega) (by omega), hget _ _ (by omega) (by omega),
    hget _ _ (by omega) (by omega), hget _ _ (by omega) (by omega),
    hget _ _ (by omega) (by omega)]
  have haddrs : (fun k : Fin (NDIRECT + 1) =>
      (block.setDinode slot d).get (64 * other + 12 + 4 * k) 4) =
      fun k : Fin (NDIRECT + 1) => block.get (64 * other + 12 + 4 * k) 4 := by
    funext k
    have hk := k.isLt
    simp only [NDIRECT] at hk
    exact hget _ _ (by omega) (by omega)
  rw [haddrs]

end Block

end Xv6
