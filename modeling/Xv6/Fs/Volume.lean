import Xv6.Lib.Holding
import Xv6.Fs.Inode

/-! A volume of inodes, data blocks and a free map, in which every used block has one owner. -/
namespace Xv6

open Function
open Lib

structure Volume where
  inode : Nat → Dinode
  block : Nat → Block
  used : Nat → Bool

/-- Places for block numbers: the direct entries, the indirect one, then those of the indirect
block. -/
def NSLOT : Nat := NDIRECT + 1 + NINDIRECT

def blockSlot (bn : Nat) : Nat := if bn < NDIRECT then bn else bn + 1

@[simp] theorem Dinode.addr_setAddr_self (d : Dinode) (k addr : Nat) :
    (d.setAddr k addr).addr k = addr := update_self ..

variable {k : Nat}

theorem Dinode.addr_setAddr_ne {d : Dinode} {l addr : Nat} (hk : k ≤ NDIRECT) (hl : l ≤ NDIRECT)
    (h : l ≠ k) : (d.setAddr k addr).addr l = d.addr l := by
  apply update_of_ne
  intro heq
  have hval : l % 13 = k % 13 := congrArg Fin.val heq
  simp only [NDIRECT] at hk hl
  omega

namespace Volume

def setInode (v : Volume) (i : Nat) (d : Dinode) : Volume :=
  { v with inode := update v.inode i d }

def setBlock (v : Volume) (b : Nat) (data : Block) : Volume :=
  { v with block := update v.block b data }

def setUsed (v : Volume) (b : Nat) (value : Bool) : Volume :=
  { v with used := update v.used b value }

def allocated (v : Volume) (i : Nat) : Prop := (v.inode i).type ≠ 0

instance (v : Volume) (i : Nat) : Decidable (v.allocated i) :=
  inferInstanceAs (Decidable ((v.inode i).type ≠ 0))

def slot (v : Volume) (i p : Nat) : Nat :=
  if p ≤ NDIRECT then (v.inode i).addr p
  else if p < NSLOT ∧ (v.inode i).addr NDIRECT ≠ 0 then
    (v.block ((v.inode i).addr NDIRECT)).get (4 * (p - (NDIRECT + 1))) 4
  else 0

def hold (v : Volume) (q : Nat × Nat) : Option Nat :=
  if v.allocated q.1 ∧ v.slot q.1 q.2 ≠ 0 then some (v.slot q.1 q.2) else none

def fileBlock (v : Volume) (i bn : Nat) : Option Block := (v.hold (i, blockSlot bn)).map v.block

def byteAt (v : Volume) (i pos : Nat) : UInt8 :=
  match v.fileBlock i (pos / BSIZE) with
  | some data => data.byte (pos % BSIZE)
  | none => 0

def contents (v : Volume) (i : Nat) : List UInt8 :=
  ByteField.getBytes (v.byteAt i) 0 (v.inode i).size

variable (sb : Superblock)

def taken (v : Volume) : Set Nat := { b | sb.dataStart ≤ b ∧ v.used b = true }

structure Owned (v : Volume) : Prop where
  holding : Holding v.hold (v.taken sb)
  reserved : ∀ b, b < sb.dataStart → b < sb.size → v.used b = true
  used_lt : ∀ b, v.used b = true → b < sb.size

def Mapped (v : Volume) : Prop :=
  ∀ i, v.allocated i → ∀ bn, bn * BSIZE < (v.inode i).size → v.hold (i, blockSlot bn) ≠ none

variable {sb} {v v' : Volume} {i j p q b bn : Nat}

theorem hold_eq_some_iff :
    v.hold (i, p) = some b ↔ v.allocated i ∧ v.slot i p = b ∧ b ≠ 0 := by
  unfold hold
  split
  · rename_i h
    rw [Option.some.injEq]
    constructor
    · rintro rfl
      exact ⟨h.1, rfl, h.2⟩
    · rintro ⟨_, heq, _⟩
      exact heq
  · rename_i h
    constructor
    · intro hnone
      cases hnone
    · rintro ⟨halloc, rfl, hne⟩
      exact absurd ⟨halloc, hne⟩ h

theorem hold_eq_none_iff (halloc : v.allocated i) : v.hold (i, p) = none ↔ v.slot i p = 0 := by
  unfold hold
  simp [halloc]

theorem hold_of_not_allocated (h : ¬ v.allocated i) : v.hold (i, p) = none :=
  if_neg fun hand => h hand.1

theorem hold_congr (halloc : v'.allocated i ↔ v.allocated i) (hslot : v'.slot i p = v.slot i p) :
    v'.hold (i, p) = v.hold (i, p) := by
  unfold hold
  simp only [halloc, hslot]

theorem slot_of_le (h : p ≤ NDIRECT) : v.slot i p = (v.inode i).addr p := if_pos h

theorem slot_entry (hk : k < NINDIRECT) (hne : (v.inode i).addr NDIRECT ≠ 0) :
    v.slot i (NDIRECT + 1 + k) = (v.block ((v.inode i).addr NDIRECT)).get (4 * k) 4 := by
  have hlt : NDIRECT + 1 + k < NSLOT := Nat.add_lt_add_left hk _
  unfold slot
  rw [if_neg (by omega), if_pos ⟨hlt, hne⟩, Nat.add_sub_cancel_left]

theorem slot_eq_zero_of_ge (h : NSLOT ≤ p) : v.slot i p = 0 := by
  have hlt : NDIRECT < NSLOT := by decide
  unfold slot
  rw [if_neg (by omega), if_neg (by omega)]

theorem slot_eq_zero_of_no_indirect (hp : NDIRECT < p) (hzero : (v.inode i).addr NDIRECT = 0) :
    v.slot i p = 0 := by
  unfold slot
  rw [if_neg (by omega), if_neg (by simp [hzero])]

theorem slot_congr (hinode : v'.inode i = v.inode i)
    (hblock : v'.block ((v.inode i).addr NDIRECT) = v.block ((v.inode i).addr NDIRECT)) :
    v'.slot i p = v.slot i p := by
  unfold slot
  rw [hinode, hblock]

@[simp] theorem inode_setBlock (v : Volume) (b : Nat) (data : Block) :
    (v.setBlock b data).inode = v.inode := rfl

@[simp] theorem block_setInode (v : Volume) (i : Nat) (d : Dinode) :
    (v.setInode i d).block = v.block := rfl

@[simp] theorem inode_setInode_self (v : Volume) (i : Nat) (d : Dinode) :
    (v.setInode i d).inode i = d := update_self ..

theorem inode_setInode_ne {d : Dinode} (h : j ≠ i) : (v.setInode i d).inode j = v.inode j :=
  update_of_ne h ..

@[simp] theorem setInode_setInode (v : Volume) (i : Nat) (d d' : Dinode) :
    (v.setInode i d).setInode i d' = v.setInode i d' := by
  simp [setInode]

@[simp] theorem setInode_self (v : Volume) (i : Nat) : v.setInode i (v.inode i) = v := by
  simp [setInode]

theorem hold_setInode_ne {d : Dinode} (h : j ≠ i) :
    (v.setInode i d).hold (j, p) = v.hold (j, p) := by
  have hinode : (v.setInode i d).inode j = v.inode j := inode_setInode_ne h
  apply hold_congr
  · unfold allocated
    rw [hinode]
  · exact slot_congr hinode rfl

variable {data : Block}

theorem hold_setBlock (h : ∀ j, v.allocated j → (v.inode j).addr NDIRECT ≠ b) :
    (v.setBlock b data).hold = v.hold := by
  funext ⟨j, p⟩
  by_cases halloc : v.allocated j
  · refine hold_congr (show v.allocated j ↔ v.allocated j from Iff.rfl) ?_
    exact slot_congr rfl (update_of_ne (h j halloc) ..)
  · rw [hold_of_not_allocated halloc]
    exact hold_of_not_allocated halloc

namespace Owned

theorem bounds (h : v.Owned sb) (hp : v.hold (i, p) = some b) :
    sb.dataStart ≤ b ∧ b < sb.size ∧ v.used b = true := by
  have htaken := h.holding.mem_taken hp
  exact ⟨htaken.1, h.used_lt b htaken.2, htaken.2⟩

theorem hold_indirect (halloc : v.allocated i) (hne : (v.inode i).addr NDIRECT ≠ 0) :
    v.hold (i, NDIRECT) = some ((v.inode i).addr NDIRECT) :=
  hold_eq_some_iff.mpr ⟨halloc, slot_of_le (Nat.le_refl _), hne⟩

theorem ne_indirect (h : v.Owned sb) (hp : v.hold (i, p) = some b) (hne : p ≠ NDIRECT) :
    ∀ j, v.allocated j → (v.inode j).addr NDIRECT ≠ b := by
  rintro j halloc rfl
  have hzero : (v.inode j).addr NDIRECT ≠ 0 := (hold_eq_some_iff.mp hp).2.2
  have heq := h.holding.inj _ _ _ hp (hold_indirect halloc hzero)
  exact hne (congrArg Prod.snd heq)

theorem ne_indirect_of_free (h : v.Owned sb) (hfree : v.used b = false) (hb : b ≠ 0) :
    ∀ j, v.allocated j → (v.inode j).addr NDIRECT ≠ b := by
  rintro j halloc rfl
  have hused := (h.bounds (hold_indirect halloc hb)).2.2
  rw [hfree] at hused
  cases hused

theorem data_of_free (h : v.Owned sb) (hlt : b < sb.size) (hfree : v.used b = false) :
    sb.dataStart ≤ b := by
  by_contra hlow
  have hused := h.reserved b (by omega) hlt
  rw [hfree] at hused
  cases hused

theorem grow (h : v.Owned sb) (hlt : b < sb.size) (hfree : v.used b = false)
    (hnone : v.hold (i, p) = none)
    (hhold : v'.hold = update v.hold (i, p) (some b))
    (hused : v'.used = update v.used b true) : v'.Owned sb where
  holding := by
    have hfresh : b ∉ v.taken sb := by
      intro hmem
      rw [taken, Set.mem_ofPred_eq, hfree] at hmem
      cases hmem.2
    have htaken : v'.taken sb = insert b (v.taken sb) := by
      apply Set.ext
      intro c
      simp only [taken, Set.mem_ofPred_eq, Set.mem_insert_iff, hused]
      obtain rfl | hc := eq_or_ne c b
      · simp [h.data_of_free hlt hfree]
      · simp [hc]
    rw [hhold, htaken]
    exact h.holding.add hnone hfresh
  reserved c hlow hc := by
    rw [hused]
    by_cases hcb : c = b
    · rw [hcb, update_self]
    · rw [update_of_ne hcb]
      exact h.reserved c hlow hc
  used_lt c hc := by
    rw [hused] at hc
    by_cases hcb : c = b
    · rw [hcb]
      exact hlt
    · rw [update_of_ne hcb] at hc
      exact h.used_lt c hc

end Owned

def alloc (v : Volume) (b : Nat) : Volume := (v.setUsed b true).setBlock b Block.zero

/-- A free block `b`, zeroed, at place `p` of inode `i`. -/
structure Grown (v : Volume) (i p b : Nat) (v' : Volume) : Prop where
  hold : v'.hold = update v.hold (i, p) (some b)
  used : v'.used = update v.used b true
  inode_ne : ∀ j, j ≠ i → v'.inode j = v.inode j
  inode_eq : ∃ addrs, v'.inode i = { v.inode i with addrs := addrs }
  zero : v'.block b = Block.zero
  block : ∀ j q c, v.hold (j, q) = some c → q ≠ NDIRECT → v'.block c = v.block c

theorem Owned.hold_alloc (h : v.Owned sb) (hfree : v.used b = false) (hb : b ≠ 0) :
    (v.alloc b).hold = v.hold :=
  hold_setBlock (v := v.setUsed b true) (h.ne_indirect_of_free hfree hb)

theorem Owned.ne_of_free (h : v.Owned sb) (hfree : v.used b = false) {c : Nat}
    (hheld : v.hold (i, p) = some c) : c ≠ b := by
  rintro rfl
  have hused := (h.bounds hheld).2.2
  rw [hfree] at hused
  cases hused

/-- A zeroed block at an empty entry of `addrs` changes no other place. -/
theorem slot_setAddr_ne (hk : k ≤ NDIRECT) (hp : p ≠ k) (hempty : (v.inode i).addr k = 0)
    (hzero : v.block b = Block.zero) :
    (v.setInode i ((v.inode i).setAddr k b)).slot i p = v.slot i p := by
  by_cases hdirect : p ≤ NDIRECT
  · rw [slot_of_le hdirect, slot_of_le hdirect, inode_setInode_self,
      Dinode.addr_setAddr_ne hk hdirect hp]
  have hindirect : ((v.inode i).setAddr k b).addr NDIRECT =
      if k = NDIRECT then b else (v.inode i).addr NDIRECT := by
    split
    · rename_i heq
      rw [heq, Dinode.addr_setAddr_self]
    · rename_i hne
      exact Dinode.addr_setAddr_ne hk (Nat.le_refl _) (Ne.symm hne)
  unfold slot
  rw [if_neg hdirect, if_neg hdirect, inode_setInode_self, hindirect, block_setInode]
  obtain rfl | heq := eq_or_ne k NDIRECT
  · rw [if_pos rfl, hempty, hzero, Block.get_zero]
    simp
  · rw [if_neg heq]

theorem Owned.grown_addr (h : v.Owned sb) (halloc : v.allocated i) (hk : k ≤ NDIRECT)
    (hempty : (v.inode i).addr k = 0) (hfree : v.used b = false) (hb : b ≠ 0) :
    v.Grown i k b ((v.alloc b).setInode i ((v.inode i).setAddr k b)) where
  hold := by
    funext ⟨j, p⟩
    obtain rfl | hj := eq_or_ne j i
    · by_cases hp : p = k
      · subst hp
        rw [update_self]
        refine hold_eq_some_iff.mpr ⟨?_, ?_, hb⟩
        · unfold allocated
          rw [inode_setInode_self]
          exact halloc
        · rw [slot_of_le hk, inode_setInode_self, Dinode.addr_setAddr_self]
      · rw [update_of_ne (by simp [hp]), ← h.hold_alloc hfree hb]
        apply hold_congr
        · unfold allocated
          rw [inode_setInode_self]
          rfl
        · exact slot_setAddr_ne hk hp hempty (update_self ..)
    · rw [hold_setInode_ne hj, update_of_ne (by simp [hj]), h.hold_alloc hfree hb]
  used := rfl
  inode_ne j hj := inode_setInode_ne hj
  inode_eq := ⟨_, inode_setInode_self ..⟩
  zero := update_self ..
  block j q c hheld _ := update_of_ne (h.ne_of_free hfree hheld) ..

theorem slot_setEntry_ne {ind : Nat} (hind : ind = (v.inode i).addr NDIRECT)
    (hp : p ≠ NDIRECT + 1 + k) :
    (v.setBlock ind ((v.block ind).set (4 * k) 4 b)).slot i p = v.slot i p := by
  subst hind
  by_cases hdirect : p ≤ NDIRECT
  · rw [slot_of_le hdirect, slot_of_le hdirect, inode_setBlock]
  by_cases hzero : (v.inode i).addr NDIRECT = 0
  · rw [slot_eq_zero_of_no_indirect (by omega) hzero,
      slot_eq_zero_of_no_indirect (by omega) (by rw [inode_setBlock, hzero])]
  by_cases hlt : p < NSLOT
  · obtain ⟨l, rfl⟩ := Nat.exists_eq_add_of_le (show NDIRECT + 1 ≤ p by omega)
    have hl : l < NINDIRECT := Nat.lt_of_add_lt_add_left hlt
    rw [slot_entry hl hzero, slot_entry hl (by rw [inode_setBlock]; exact hzero), inode_setBlock]
    have hself : (v.setBlock ((v.inode i).addr NDIRECT)
        ((v.block ((v.inode i).addr NDIRECT)).set (4 * k) 4 b)).block ((v.inode i).addr NDIRECT) =
        (v.block ((v.inode i).addr NDIRECT)).set (4 * k) 4 b := update_self ..
    rw [hself]
    apply Block.get_set_disjoint
    · simp only [NINDIRECT, BSIZE] at hl ⊢
      omega
    · omega
  · rw [slot_eq_zero_of_ge (by omega), slot_eq_zero_of_ge (by omega)]

theorem slot_setEntry_self (hk : k < NINDIRECT) (hind : (v.inode i).addr NDIRECT ≠ 0)
    (hlt : b < 2 ^ 32) :
    (v.setBlock ((v.inode i).addr NDIRECT) (data.set (4 * k) 4 b)).slot i (NDIRECT + 1 + k) = b := by
  have hfit : 4 * k + 4 ≤ BSIZE := by
    simp only [NINDIRECT, BSIZE] at hk ⊢
    omega
  have hself : (v.setBlock ((v.inode i).addr NDIRECT) (data.set (4 * k) 4 b)).block
      ((v.inode i).addr NDIRECT) = data.set (4 * k) 4 b := update_self ..
  have hbytes : b < 256 ^ 4 := by omega
  rw [slot_entry hk (by rw [inode_setBlock]; exact hind), inode_setBlock, hself,
    Block.get_set hfit, Nat.mod_eq_of_lt hbytes]

theorem Owned.grown_entry (h : v.Owned sb) (halloc : v.allocated i) (hk : k < NINDIRECT)
    (hind : (v.inode i).addr NDIRECT ≠ 0) (hfree : v.used b = false) (hb : b ≠ 0) (hlt : b < 2 ^ 32) :
    v.Grown i (NDIRECT + 1 + k) b ((v.alloc b).setBlock ((v.inode i).addr NDIRECT)
      (((v.alloc b).block ((v.inode i).addr NDIRECT)).set (4 * k) 4 b)) := by
  have hheld := hold_indirect halloc hind
  have hne : (v.inode i).addr NDIRECT ≠ b := h.ne_of_free hfree hheld
  refine ⟨?_, rfl, fun _ _ => rfl, ⟨_, rfl⟩, ?_, ?_⟩
  · funext ⟨j, p⟩
    by_cases hjp : (j, p) = (i, NDIRECT + 1 + k)
    · obtain ⟨rfl, rfl⟩ := Prod.mk.inj hjp
      rw [update_self]
      exact hold_eq_some_iff.mpr ⟨halloc, slot_setEntry_self (v := v.alloc b) hk hind hlt, hb⟩
    · rw [update_of_ne hjp, ← h.hold_alloc hfree hb]
      obtain rfl | hj := eq_or_ne j i
      · refine hold_congr Iff.rfl ?_
        exact slot_setEntry_ne (v := v.alloc b) rfl (by simpa using hjp)
      · by_cases halloc' : v.allocated j
        · refine hold_congr Iff.rfl (slot_congr rfl (update_of_ne ?_ ..))
          intro (heq : (v.inode j).addr NDIRECT = (v.inode i).addr NDIRECT)
          have hheld' := hold_indirect halloc' (heq ▸ hind)
          rw [heq] at hheld'
          exact hj (congrArg Prod.fst (h.holding.inj _ _ _ hheld' hheld))
        · rw [hold_of_not_allocated (show ¬ (v.alloc b).allocated j from halloc')]
          exact hold_of_not_allocated halloc'
  · exact (update_of_ne hne.symm ..).trans (update_self ..)
  · intro j q c hc hq
    have hci : c ≠ (v.inode i).addr NDIRECT := (h.ne_indirect hc hq i halloc).symm
    exact (update_of_ne hci ..).trans (update_of_ne (h.ne_of_free hfree hc) ..)

theorem blockSlot_ne_indirect (bn : Nat) : blockSlot bn ≠ NDIRECT := by
  unfold blockSlot
  split <;> omega

theorem blockSlot_inj {bn bn' : Nat} (h : blockSlot bn = blockSlot bn') : bn = bn' := by
  unfold blockSlot at h
  split at h <;> split at h <;> omega

namespace Grown

theorem owned (h : v.Grown i p b v') (hv : v.Owned sb) (hlt : b < sb.size)
    (hfree : v.used b = false) (hnone : v.hold (i, p) = none) : v'.Owned sb :=
  hv.grow hlt hfree hnone h.hold h.used

theorem fileBlock_ne (h : v.Grown i p b v') (hne : (j, blockSlot bn) ≠ (i, p)) :
    v'.fileBlock j bn = v.fileBlock j bn := by
  unfold fileBlock
  rw [h.hold, update_of_ne hne]
  cases hheld : v.hold (j, blockSlot bn) with
  | none => rfl
  | some c => simp [h.block j _ c hheld (blockSlot_ne_indirect bn)]

theorem fileBlock_self (h : v.Grown i (blockSlot bn) b v') :
    v'.fileBlock i bn = some Block.zero := by
  unfold fileBlock
  rw [h.hold, update_self, Option.map_some, h.zero]

end Grown

/-- Block `bn` of the file is there, zeroed if it was missing, and files are as before. -/
structure Filled (sb : Superblock) (v : Volume) (i bn : Nat) (v' : Volume) : Prop where
  owned : v'.Owned sb
  inode_ne : ∀ j, j ≠ i → v'.inode j = v.inode j
  inode_eq : ∃ addrs, v'.inode i = { v.inode i with addrs := addrs }
  file_ne : ∀ j k, (j, k) ≠ (i, bn) → v'.fileBlock j k = v.fileBlock j k
  file_eq : v'.fileBlock i bn = some ((v.fileBlock i bn).getD Block.zero)

theorem Filled.of_present (h : v.Owned sb) (hdata : v.fileBlock i bn = some data) :
    v.Filled sb i bn v where
  owned := h
  inode_ne _ _ := rfl
  inode_eq := ⟨_, rfl⟩
  file_ne _ _ _ := rfl
  file_eq := by rw [hdata, Option.getD_some]

theorem Filled.of_grown (h : v.Owned sb) (hlt : b < sb.size) (hfree : v.used b = false)
    (hnone : v.hold (i, blockSlot bn) = none) (grown : v.Grown i (blockSlot bn) b v') :
    v.Filled sb i bn v' where
  owned := grown.owned h hlt hfree hnone
  inode_ne := grown.inode_ne
  inode_eq := grown.inode_eq
  file_ne j k hne := by
    apply grown.fileBlock_ne
    intro heq
    obtain ⟨rfl, hslot⟩ := Prod.mk.inj heq
    exact hne (by rw [blockSlot_inj hslot])
  file_eq := by
    have hold : v.fileBlock i bn = none := by
      unfold fileBlock
      rw [hnone, Option.map_none]
    rw [grown.fileBlock_self, hold, Option.getD_none]

/-- Adding an indirect block changes no file. -/
theorem Filled.of_indirect {w : Volume} (grown : v.Grown i NDIRECT b w)
    (h : w.Filled sb i bn v') : v.Filled sb i bn v' where
  owned := h.owned
  inode_ne j hj := (h.inode_ne j hj).trans (grown.inode_ne j hj)
  inode_eq := by
    obtain ⟨addrs, heq⟩ := h.inode_eq
    obtain ⟨addrs', heq'⟩ := grown.inode_eq
    exact ⟨addrs, by rw [heq, heq']⟩
  file_ne j k hne := (h.file_ne j k hne).trans
    (grown.fileBlock_ne (by simp [blockSlot_ne_indirect]))
  file_eq := by
    rw [h.file_eq, grown.fileBlock_ne (by simp [blockSlot_ne_indirect])]

end Volume

end Xv6
