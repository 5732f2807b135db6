import Xv6.Fs.FileSpec

/-! The file system without its blocks: inode numbers to typed byte sequences with link counts. -/
namespace Xv6

open Function
open Lib

structure Node where
  type : BitVec 16
  major : BitVec 16
  minor : BitVec 16
  nlink : BitVec 16
  contents : List UInt8
  deriving DecidableEq

def Dinode.node (d : Dinode) (contents : List UInt8) : Node where
  type := d.type
  major := d.major
  minor := d.minor
  nlink := d.nlink
  contents := contents

namespace Volume

variable {sb : Superblock} {v v' : Volume} {i j off : Nat} {src : Source}

def nodes (v : Volume) (i : Nat) : Option Node :=
  if (v.inode i).type = 0 then none else some ((v.inode i).node (v.contents i))

theorem nodes_eq_none_iff : v.nodes i = none ↔ ¬ v.allocated i := by
  unfold nodes allocated
  split <;> simp_all

theorem nodes_of_allocated (h : v.allocated i) :
    v.nodes i = some ((v.inode i).node (v.contents i)) := if_neg h

theorem nodes_congr (hinode : v'.inode j = v.inode j) (hcontents : v'.contents j = v.contents j) :
    v'.nodes j = v.nodes j := by
  unfold nodes
  rw [hinode, hcontents]

theorem nodes_update {node : Option Node} (hself : v'.nodes i = node)
    (hinode : ∀ j, j ≠ i → v'.inode j = v.inode j)
    (hcontents : ∀ j, j ≠ i → v'.contents j = v.contents j) :
    v'.nodes = update v.nodes i node := by
  funext j
  obtain rfl | hj := eq_or_ne j i
  · rw [update_self, hself]
  · rw [update_of_ne hj]
    exact nodes_congr (hinode j hj) (hcontents j hj)

theorem contents_of_hold (hhold : v'.hold = v.hold) (hblock : v'.block = v.block)
    (hsize : (v'.inode j).size = (v.inode j).size) : v'.contents j = v.contents j := by
  apply contents_congr hsize
  intro pos
  apply byteAt_congr
  unfold fileBlock
  rw [hhold, hblock]

theorem Stored.nodes {tot total : Nat} (h : v.Stored sb i off tot total src v')
    (halloc : v.allocated i) (hle : tot ≤ total) (hoff : off ≤ (v.inode i).size) :
    v'.nodes = update v.nodes i (some ((v.inode i).node
      ((splice (v.contents i) off (src.bytes total)).take (max (v.inode i).size (off + tot))))) := by
  apply nodes_update _ h.inode_ne fun j hj => h.contents_ne hj
  obtain ⟨addrs, hinode⟩ := h.inode_eq
  have halloc' : v'.allocated i := by
    unfold allocated
    rw [hinode]
    exact halloc
  rw [nodes_of_allocated halloc', h.contents_take hle hoff, hinode]
  rfl

theorem Emptied.nodes (h : v.Emptied sb i v') (halloc : v.allocated i) :
    v'.nodes = update v.nodes i (some ((v.inode i).node [])) := by
  apply nodes_update _ h.inode_ne fun j hj => h.contents_ne hj
  have halloc' : v'.allocated i := by
    unfold allocated
    rw [h.inode_eq]
    exact halloc
  rw [nodes_of_allocated halloc', contents_of_empty (by rw [h.inode_eq]), h.inode_eq]
  rfl

variable {d : Dinode}

theorem nodes_setInode_same (halloc : v.allocated i) (htype : d.type = (v.inode i).type)
    (haddrs : d.addrs = (v.inode i).addrs) (hsize : d.size = (v.inode i).size) :
    (v.setInode i d).nodes = update v.nodes i (some (d.node (v.contents i))) := by
  have hhold : (v.setInode i d).hold = v.hold := hold_setInode_same htype haddrs
  apply nodes_update
  · have hcontents : (v.setInode i d).contents i = v.contents i :=
      contents_of_hold hhold rfl (by rw [inode_setInode_self, hsize])
    have halloc' : (v.setInode i d).allocated i := by
      unfold allocated
      rw [inode_setInode_self, htype]
      exact halloc
    rw [nodes_of_allocated halloc', hcontents, inode_setInode_self]
  · intro j hj
    exact inode_setInode_ne hj
  · intro j hj
    exact contents_of_hold hhold rfl (by rw [inode_setInode_ne hj])

theorem nodes_setInode_empty (hnone : ∀ p, v.hold (i, p) = none) (haddrs : ∀ k, d.addr k = 0)
    (hsize : d.size = 0) :
    (v.setInode i d).nodes =
      update v.nodes i (if d.type = 0 then none else some (d.node [])) := by
  have hhold : (v.setInode i d).hold = v.hold := hold_setInode_empty hnone haddrs
  apply nodes_update
  · unfold nodes
    rw [inode_setInode_self, contents_of_empty (by rw [inode_setInode_self, hsize])]
  · intro j hj
    exact inode_setInode_ne hj
  · intro j hj
    exact contents_of_hold hhold rfl (by rw [inode_setInode_ne hj])

theorem Mapped.setInode_same (h : v.Mapped) (htype : d.type = (v.inode i).type)
    (haddrs : d.addrs = (v.inode i).addrs) (hsize : d.size = (v.inode i).size) :
    (v.setInode i d).Mapped := by
  intro j halloc bn hbn
  rw [hold_setInode_same htype haddrs]
  unfold allocated at halloc
  obtain rfl | hj := eq_or_ne j i
  · rw [inode_setInode_self, htype] at halloc
    rw [inode_setInode_self, hsize] at hbn
    exact h j halloc bn hbn
  · rw [inode_setInode_ne hj] at halloc hbn
    exact h j halloc bn hbn

theorem Mapped.setInode_empty (h : v.Mapped) (hnone : ∀ p, v.hold (i, p) = none)
    (haddrs : ∀ k, d.addr k = 0) (hsize : d.size = 0) : (v.setInode i d).Mapped := by
  intro j halloc bn hbn
  rw [hold_setInode_empty hnone haddrs]
  unfold allocated at halloc
  obtain rfl | hj := eq_or_ne j i
  · rw [inode_setInode_self, hsize] at hbn
    exact absurd hbn (Nat.not_lt_zero _)
  · rw [inode_setInode_ne hj] at halloc hbn
    exact h j halloc bn hbn

end Volume

end Xv6
