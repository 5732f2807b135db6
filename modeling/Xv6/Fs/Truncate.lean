import Mathlib.Data.Finset.Image
import Xv6.Fs.Content

/-! `itrunc` and `ialloc`. Between the calls of `bfree` the indirect block still lists freed
blocks. -/
namespace Xv6

open Function Volume
open Lib Lib.Exec

namespace Volume

variable {sb : Superblock} {v v' : Volume} {i j p b bn pos : Nat} {gone : Finset Nat}
  {used : Nat → Bool}

/-- The places of `v` without those of `i` in `gone`. -/
def holdWithout (v : Volume) (i : Nat) (gone : Finset Nat) (q : Nat × Nat) : Option Nat :=
  if q.1 = i ∧ q.2 ∈ gone then none else v.hold q

/-- The blocks at `gone` are freed; `used` is the free map. -/
structure Trimmed (sb : Superblock) (v : Volume) (i : Nat) (gone : Finset Nat)
    (used : Nat → Bool) : Prop where
  holding : Holding (v.holdWithout i gone) { b | sb.dataStart ≤ b ∧ used b = true }
  reserved : ∀ b, b < sb.dataStart → b < sb.size → used b = true
  used_lt : ∀ b, used b = true → b < sb.size

namespace Trimmed

theorem start (h : v.Owned sb) (i : Nat) : v.Trimmed sb i ∅ v.used where
  holding := by
    apply h.holding.congr
    intro q
    simp [holdWithout]
  reserved := h.reserved
  used_lt := h.used_lt

theorem bounds (h : v.Trimmed sb i gone used) (hp : v.hold (i, p) = some b) (hne : p ∉ gone) :
    sb.dataStart ≤ b ∧ b < sb.size ∧ used b = true := by
  have hheld : v.holdWithout i gone (i, p) = some b := by
    unfold holdWithout
    rw [if_neg (by simp [hne]), hp]
  have htaken := h.holding.mem_taken hheld
  exact ⟨htaken.1, h.used_lt b htaken.2, htaken.2⟩

theorem free (h : v.Trimmed sb i gone used) (hp : v.hold (i, p) = some b) (hne : p ∉ gone) :
    v.Trimmed sb i (insert p gone) (update used b false) := by
  obtain ⟨hdata, -, -⟩ := h.bounds hp hne
  refine ⟨?_, ?_, ?_⟩
  · have hheld : v.holdWithout i gone (i, p) = some b := by
      unfold holdWithout
      rw [if_neg (by simp [hne]), hp]
    have hhold : v.holdWithout i (insert p gone) =
        update (v.holdWithout i gone) (i, p) none := by
      funext ⟨j, q⟩
      by_cases hq : (j, q) = (i, p)
      · rw [hq, update_self]
        simp [holdWithout]
      · rw [update_of_ne hq]
        unfold holdWithout
        by_cases hj : j = i
        · have hqp : q ≠ p := fun heq => hq (by rw [hj, heq])
          simp [hj, hqp]
        · simp [hj]
    have htaken : { c | sb.dataStart ≤ c ∧ update used b false c = true } =
        { c | sb.dataStart ≤ c ∧ used c = true } \ {b} := by
      apply Set.ext
      intro c
      by_cases hc : c = b
      · simp [hc]
      · simp [hc]
    rw [hhold, htaken]
    exact h.holding.remove hheld
  · intro c hlow hc
    rw [update_of_ne (by omega)]
    exact h.reserved c hlow hc
  · intro c hc
    by_cases hcb : c = b
    · rw [hcb, update_self] at hc
      cases hc
    · rw [update_of_ne hcb] at hc
      exact h.used_lt c hc

theorem skip (h : v.Trimmed sb i gone used) (hp : v.hold (i, p) = none) :
    v.Trimmed sb i (insert p gone) used := by
  refine ⟨?_, h.reserved, h.used_lt⟩
  apply h.holding.congr
  rintro ⟨j, q⟩
  unfold holdWithout
  by_cases hq : (j, q) = (i, p)
  · obtain ⟨rfl, rfl⟩ := Prod.mk.inj hq
    simp [hp]
  · by_cases hj : j = i
    · have hqp : q ≠ p := fun heq => hq (by rw [hj, heq])
      simp [hj, hqp]
    · simp [hj]

end Trimmed

theorem hold_eq_none_of_addr (h : ∀ k, (v.inode i).addr k = 0) : v.hold (i, p) = none := by
  have hslot : v.slot i p = 0 := by
    by_cases hp : p ≤ NDIRECT
    · rw [slot_of_le hp, h]
    · exact slot_eq_zero_of_no_indirect (by omega) (h NDIRECT)
  unfold hold
  rw [if_neg (by simp [hslot])]

theorem hold_setInode_empty {d : Dinode} (h : ∀ p, v.hold (i, p) = none) (hd : ∀ k, d.addr k = 0) :
    (v.setInode i d).hold = v.hold := by
  funext ⟨j, p⟩
  obtain rfl | hj := eq_or_ne j i
  · rw [h, hold_eq_none_of_addr (by rw [inode_setInode_self]; exact hd)]
  · exact hold_setInode_ne hj

theorem Owned.setInode_empty (h : v.Owned sb) {d : Dinode} (hnone : ∀ p, v.hold (i, p) = none)
    (hd : ∀ k, d.addr k = 0) : (v.setInode i d).Owned sb where
  holding := by
    rw [hold_setInode_empty hnone hd]
    exact h.holding
  reserved := h.reserved
  used_lt := h.used_lt

structure Emptied (sb : Superblock) (v : Volume) (i : Nat) (v' : Volume) : Prop where
  owned : v'.Owned sb
  inode_ne : ∀ j, j ≠ i → v'.inode j = v.inode j
  inode_eq : v'.inode i = { v.inode i with addrs := fun _ => 0, size := 0 }
  file_ne : ∀ j, j ≠ i → ∀ k, v'.fileBlock j k = v.fileBlock j k

theorem Trimmed.emptied (h : v.Trimmed sb i gone used)
    (hrest : ∀ p, p ∉ gone → v.hold (i, p) = none)
    (hinode_ne : ∀ j, j ≠ i → v'.inode j = v.inode j)
    (hinode_eq : v'.inode i = { v.inode i with addrs := fun _ => 0, size := 0 })
    (hblock : v'.block = v.block) (hused : v'.used = used) : v.Emptied sb i v' := by
  have hself : ∀ p, v'.hold (i, p) = none := by
    intro p
    apply hold_eq_none_of_addr
    intro k
    rw [hinode_eq]
    rfl
  have hother : ∀ j, j ≠ i → ∀ p, v'.hold (j, p) = v.hold (j, p) := by
    intro j hj p
    apply hold_congr
    · unfold allocated
      rw [hinode_ne j hj]
    · exact slot_congr (hinode_ne j hj) (by rw [hblock])
  refine ⟨⟨?_, ?_, ?_⟩, hinode_ne, hinode_eq, ?_⟩
  · unfold taken
    rw [hused]
    apply h.holding.congr
    rintro ⟨j, p⟩
    unfold holdWithout
    obtain rfl | hj := eq_or_ne j i
    · rw [hself]
      by_cases hp : p ∈ gone
      · simp [hp]
      · simp [hp, hrest p hp]
    · rw [hother j hj, if_neg (by simp [hj])]
  · rw [hused]
    exact h.reserved
  · rw [hused]
    exact h.used_lt
  · intro j hj k
    unfold fileBlock
    rw [hother j hj, hblock]

end Volume

namespace Inode

def clearBelow (ip : Inode) (k : Nat) : Inode :=
  ip.setAddrs fun l => if l.val < k then 0 else ip.addrs l

theorem clearBelow_zero (ip : Inode) : ip.clearBelow 0 = ip := by
  unfold clearBelow setAddrs
  simp

theorem setAddrs_setAddr (ip : Inode) (addrs : Fin (NDIRECT + 1) → Nat) (k addr : Nat) :
    (ip.setAddrs addrs).setAddr k addr =
      ip.setAddrs (update addrs (Fin.ofNat (NDIRECT + 1) k) addr) := rfl

theorem val_ofNat {k : Nat} (hk : k ≤ NDIRECT) : (Fin.ofNat (NDIRECT + 1) k).val = k :=
  Nat.mod_eq_of_lt (Nat.lt_succ_of_le hk)

theorem addr_clearBelow {ip : Inode} {k l : Nat} (hkl : k ≤ l) (hl : l ≤ NDIRECT) :
    (ip.clearBelow k).addr l = ip.addr l := by
  have hval := val_ofNat hl
  exact if_neg (by omega)

theorem clearBelow_setAddr {ip : Inode} {k : Nat} (hk : k ≤ NDIRECT) :
    (ip.clearBelow k).setAddr k 0 = ip.clearBelow (k + 1) := by
  have hval := val_ofNat hk
  unfold clearBelow
  rw [setAddrs_setAddr]
  congr 1
  funext l
  by_cases hl : l = Fin.ofNat (NDIRECT + 1) k
  · rw [hl, update_self, if_pos (by omega)]
  · have hne : l.val ≠ k := fun heq => hl (Fin.ext (by omega))
    rw [update_of_ne hl]
    by_cases hlt : l.val < k
    · rw [if_pos hlt, if_pos (by omega)]
    · rw [if_neg hlt, if_neg (by omega)]

theorem clearBelow_succ_of_zero {ip : Inode} {k : Nat} (hk : k ≤ NDIRECT) (h : ip.addr k = 0) :
    ip.clearBelow (k + 1) = ip.clearBelow k := by
  have hval := val_ofNat hk
  unfold clearBelow
  congr 1
  funext l
  by_cases hl : l = Fin.ofNat (NDIRECT + 1) k
  · rw [hl, if_pos (by omega), if_neg (by omega)]
    exact h.symm
  · have hne : l.val ≠ k := fun heq => hl (Fin.ext (by omega))
    by_cases hlt : l.val < k
    · rw [if_pos hlt, if_pos (by omega)]
    · rw [if_neg hlt, if_neg (by omega)]

end Inode

namespace Store

variable {sb : Superblock} {s s' : Store} {ip : Inode} {W : Finset Nat} {gone : Finset Nat}
  {p b : Nat}

/-- In the course of `itrunc` only the free map has changed. -/
structure Trimming (sb : Superblock) (W : Finset Nat) (s : Store) (ip : Inode)
    (gone : Finset Nat) (s' : Store) : Prop where
  trimmed : (s.seen sb ip).Trimmed sb ip.inum gone (s'.volume sb).used
  inode : (s'.volume sb).inode = (s.volume sb).inode
  block : (s'.volume sb).block = (s.volume sb).block
  tracks : Tracks sb ∅ s s'
  spent : Spent sb W s s' 0 0

theorem Trimming.skip (h : Trimming sb W s ip gone s')
    (hnone : (s.seen sb ip).hold (ip.inum, p) = none) : Trimming sb W s ip (insert p gone) s' :=
  { h with trimmed := h.trimmed.skip hnone }

variable {E : Panic → Prop} {Q : Inode → Store → Prop}

/-- The block at a place is never already free. -/
theorem wp_bfree_place {Q : Unit → Store → Prop} (hW : ∀ c, c < sb.size → sb.BBLOCK c ∈ W)
    (h : Trimming sb W s ip gone s') (hne : p ∉ gone)
    (hheld : (s.seen sb ip).hold (ip.inum, p) = some b)
    (post : ∀ s'', Trimming sb W s ip (insert p gone) s'' → Q () s'')
    (stop : ∀ e, Short sb W s 0 0 e → E e) : wp (bfree sb b) Q E s' := by
  obtain ⟨-, hlt, hused⟩ := h.trimmed.bounds hheld hne
  rw [volume_used hlt] at hused
  refine wp_bfree hlt hused (hW b hlt) ?_ fun e he =>
    stop e (Short.of_spent h.spent he (by omega) (by omega))
  intro s'' freed hspent
  apply post
  refine ⟨?_, ?_, ?_, h.tracks.trans freed.tracks, h.spent.trans hspent⟩
  · rw [freed.volume]
    exact h.trimmed.free hheld hne
  · rw [freed.volume]
    exact h.inode
  · rw [freed.volume]
    exact h.block

/-- Places freed after round `j` of the second loop. -/
def entriesGone (j : Nat) : Finset Nat :=
  Finset.range NDIRECT ∪ (Finset.range j).image (NDIRECT + 1 + ·)

theorem mem_entriesGone {j : Nat} :
    p ∈ entriesGone j ↔ p < NDIRECT ∨ NDIRECT + 1 ≤ p ∧ p < NDIRECT + 1 + j := by
  unfold entriesGone
  simp only [Finset.mem_union, Finset.mem_range, Finset.mem_image]
  constructor
  · rintro (hp | ⟨k, hk, rfl⟩)
    · exact .inl hp
    · exact .inr ⟨by omega, by omega⟩
  · rintro (hp | ⟨hlow, hhigh⟩)
    · exact .inl hp
    · exact .inr ⟨p - (NDIRECT + 1), by omega, by omega⟩

theorem entriesGone_succ (j : Nat) :
    entriesGone (j + 1) = insert (NDIRECT + 1 + j) (entriesGone j) := by
  apply Finset.ext
  intro p
  simp only [Finset.mem_insert, mem_entriesGone]
  omega

theorem entriesGone_zero : entriesGone 0 = Finset.range NDIRECT := by
  simp [entriesGone]

theorem wp_itruncDirect (owned : (s.seen sb ip).Owned sb) (htype : ip.type ≠ 0)
    (hW : ∀ c, c < sb.size → sb.BBLOCK c ∈ W)
    (post : ∀ s', Trimming sb W s ip (Finset.range NDIRECT) s' → Q (ip.clearBelow NDIRECT) s')
    (stop : ∀ e, Short sb W s 0 0 e → E e) : wp (itruncDirect sb ip) Q E s := by
  have halloc : (s.seen sb ip).allocated ip.inum := seen_allocated s htype
  have hslot : ∀ k, k < NDIRECT → (s.seen sb ip).slot ip.inum k = ip.addr k := by
    intro k hk
    rw [slot_of_le (Nat.le_of_lt hk), seen_inode]
  refine wp_forUpTo (fun k ip' s' => ip' = ip.clearBelow k ∧
    Trimming sb W s ip (Finset.range k) s') ?_ ?_ ?_
  · refine ⟨ip.clearBelow_zero.symm, Volume.Trimmed.start owned _, rfl, rfl, Tracks.refl s,
      Spent.refl⟩
  · rintro k hk _ s' ⟨rfl, h⟩
    rw [Finset.range_add_one, Inode.addr_clearBelow (Nat.le_refl k) (Nat.le_of_lt hk), wp_ite]
    split
    · rename_i hne
      have hheld : (s.seen sb ip).hold (ip.inum, k) = some (ip.addr k) :=
        hold_eq_some_iff.mpr ⟨halloc, hslot k hk, hne⟩
      rw [wp_bind]
      refine wp_bfree_place hW h (by simp) hheld ?_ stop
      intro s'' h'
      rw [wp_pure]
      exact ⟨Inode.clearBelow_setAddr (Nat.le_of_lt hk), h'⟩
    · rename_i hzero
      have hempty : ip.addr k = 0 := by simpa using hzero
      have hnone : (s.seen sb ip).hold (ip.inum, k) = none := by
        rw [hold_eq_none_iff halloc, hslot k hk, hempty]
      rw [wp_pure]
      exact ⟨(Inode.clearBelow_succ_of_zero (Nat.le_of_lt hk) hempty).symm, h.skip hnone⟩
  · rintro _ s' ⟨rfl, h⟩
    exact post s' h

theorem wp_itruncEntries {Q : Unit → Store → Prop} (owned : (s.seen sb ip).Owned sb)
    (htype : ip.type ≠ 0) (hind : ip.addr NDIRECT ≠ 0) (hW : ∀ c, c < sb.size → sb.BBLOCK c ∈ W)
    (h : Trimming sb W s ip (Finset.range NDIRECT) s')
    (post : ∀ s'', Trimming sb W s ip (entriesGone NINDIRECT) s'' → Q () s'')
    (stop : ∀ e, Short sb W s 0 0 e → E e) : wp (itruncEntries sb (ip.addr NDIRECT)) Q E s' := by
  have halloc : (s.seen sb ip).allocated ip.inum := seen_allocated s htype
  have hindirect : ((s.seen sb ip).inode ip.inum).addr NDIRECT ≠ 0 := by
    rw [seen_inode]
    exact hind
  have hdata : sb.dataStart ≤ ip.addr NDIRECT := by
    have hbounds := (owned.bounds (Volume.Owned.hold_indirect halloc hindirect)).1
    rwa [seen_inode] at hbounds
  refine wp_forUpTo (fun j _ s' => Trimming sb W s ip (entriesGone j) s') ?_ ?_ ?_
  · rw [entriesGone_zero]
    exact h
  · intro j hj _ t ht
    have hentry : (t.bread (ip.addr NDIRECT)).get (4 * j) 4 =
        (s.seen sb ip).slot ip.inum (NDIRECT + 1 + j) := by
      have hread : t.bread (ip.addr NDIRECT) = (s.seen sb ip).block (ip.addr NDIRECT) := by
        rw [bread, ← volume_block hdata, ht.block]
        rfl
      rw [slot_entry hj hindirect, seen_inode, hread]
    have hfresh : NDIRECT + 1 + j ∉ entriesGone j := by
      rw [mem_entriesGone]
      omega
    simp only [wp_bind, wp_get]
    rw [hentry, entriesGone_succ, wp_ite]
    split
    · rename_i hne
      have hheld : (s.seen sb ip).hold (ip.inum, NDIRECT + 1 + j) =
          some ((s.seen sb ip).slot ip.inum (NDIRECT + 1 + j)) :=
        hold_eq_some_iff.mpr ⟨halloc, rfl, hne⟩
      exact wp_bfree_place hW ht hfresh hheld (fun _ h' => h') stop
    · rename_i hzero
      rw [wp_pure]
      exact ht.skip ((hold_eq_none_iff halloc).mpr (by simpa using hzero))
  · exact fun _ t ht => post t ht

theorem wp_itrunc (hinum : ip.inum < sb.ninodes) (owned : (s.seen sb ip).Owned sb)
    (htype : ip.type ≠ 0) (hW : ∀ c, c < sb.size → sb.BBLOCK c ∈ W) (hW' : sb.IBLOCK ip.inum ∈ W)
    (post : ∀ ip' s', ip' = { ip.setAddrs fun _ => 0 with size := 0 } →
      (s.seen sb ip).Emptied sb ip.inum (s'.volume sb) → s'.volume sb = s'.seen sb ip' →
      Tracks sb ∅ s s' → Spent sb W s s' 0 0 → Q ip' s') (stop : ∀ e, Short sb W s 0 0 e → E e) :
    wp (itrunc sb ip) Q E s := by
  have halloc : (s.seen sb ip).allocated ip.inum := seen_allocated s htype
  have hindirect : (ip.clearBelow NDIRECT).addr NDIRECT = ip.addr NDIRECT :=
    Inode.addr_clearBelow (Nat.le_refl _) (Nat.le_refl _)
  have hcleared : ip.clearBelow (NDIRECT + 1) = ip.setAddrs fun _ => 0 := by
    unfold Inode.clearBelow
    congr 1
    funext l
    rw [if_pos l.isLt]
  let ip' : Inode := { ip.setAddrs fun _ => 0 with size := 0 }
  have hfits : ip'.toDinode.Fits := ⟨Nat.two_pow_pos 32, fun _ => Nat.two_pow_pos 32⟩
  -- both ways through the indirect block end with every place emptied
  have hend : ∀ gone t, (∀ p, p ∉ gone → (s.seen sb ip).hold (ip.inum, p) = none) →
      Trimming sb W s ip gone t → wp (iupdate sb ip') (fun _ s' => Q ip' s') E t := by
    intro gone t hrest ht
    refine wp_iupdate hinum hfits hW' ?_ fun e he =>
      stop e (Short.of_spent ht.spent he (by omega) (by omega))
    intro s' hvolume htracks _ hspent
    refine post ip' s' rfl ?_ ?_ (ht.tracks.trans htracks) (ht.spent.trans hspent)
    · rw [hvolume]
      refine ht.trimmed.emptied hrest ?_ ?_ ?_ rfl
      · intro j hj
        exact (inode_setInode_ne hj).trans
          ((congrFun ht.inode j).trans (inode_setInode_ne hj).symm)
      · rw [seen_inode]
        exact inode_setInode_self ..
      · exact ht.block
    · unfold seen
      rw [hvolume]
      unfold seen
      rw [setInode_setInode]
  unfold itrunc
  rw [wp_bind]
  refine wp_itruncDirect owned htype hW ?_ stop
  intro t ht
  rw [hindirect]
  by_cases hzero : ip.addr NDIRECT = 0
  · have hsame : ip.clearBelow NDIRECT = ip.setAddrs fun _ => 0 := by
      rw [← hcleared, Inode.clearBelow_succ_of_zero (Nat.le_refl _) hzero]
    simp only [hzero, ne_eq, not_true_eq_false, if_false, wp_bind, wp_pure, hsame]
    refine hend _ t ?_ ht
    intro p hp
    rw [Finset.mem_range] at hp
    rw [hold_eq_none_iff halloc]
    by_cases hpn : p = NDIRECT
    · rw [hpn, slot_of_le (Nat.le_refl _), seen_inode, hzero]
    · exact slot_eq_zero_of_no_indirect (by omega) (by rw [seen_inode, hzero])
  · simp only [ne_eq, hzero, not_false_eq_true, if_true, wp_bind, wp_pure,
      Inode.clearBelow_setAddr (Nat.le_refl NDIRECT), hcleared]
    refine wp_itruncEntries owned htype hzero hW ht ?_ stop
    intro t' ht'
    have hheld : (s.seen sb ip).hold (ip.inum, NDIRECT) = some (ip.addr NDIRECT) := by
      refine hold_eq_some_iff.mpr ⟨halloc, ?_, hzero⟩
      rw [slot_of_le (Nat.le_refl _), seen_inode]
    refine wp_bfree_place hW ht' (by rw [mem_entriesGone]; omega) hheld ?_ stop
    intro t'' ht''
    refine hend _ t'' ?_ ht''
    intro p hp
    rw [Finset.mem_insert, mem_entriesGone] at hp
    rw [hold_eq_none_iff halloc, slot_eq_zero_of_ge]
    unfold NSLOT
    omega

theorem wp_iallocNum {type : BitVec 16} {Q : Nat → Store → Prop}
    (post : ∀ inum s', 1 ≤ inum → inum < sb.ninodes → ¬ (s.volume sb).allocated inum →
      s'.volume sb = (s.volume sb).setInode inum { Dinode.zero with type := type } →
      Tracks sb ∅ s s' → Spent sb W s s' 0 1 → Q inum s')
    (full : (∀ inum, 1 ≤ inum → inum < sb.ninodes → (s.volume sb).allocated inum) → E .noInodes)
    (stop : ∀ e, Short sb W s 0 1 e → E e) : wp (iallocNum sb type) Q E s := by
  unfold iallocNum
  simp only [wp_bind, wp_get]
  cases hfound : (List.range' 1 (sb.ninodes - 1)).find? fun inum => (s.dinode sb inum).type = 0 with
  | none =>
    apply full
    intro inum hlow hhigh
    have htype := List.find?_eq_none.mp hfound inum (List.mem_range'_1.mpr ⟨hlow, by omega⟩)
    unfold Volume.allocated
    rw [volume_inode hhigh]
    simpa using htype
  | some inum =>
    have hrange := List.mem_range'_1.mp (List.mem_of_find?_eq_some hfound)
    have hlt : inum < sb.ninodes := by omega
    have htype : (s.dinode sb inum).type = 0 := by simpa using List.find?_some hfound
    have hfits : ({ Dinode.zero with type := type } : Dinode).Fits :=
      ⟨Nat.two_pow_pos 32, fun _ => Nat.two_pow_pos 32⟩
    have hvolume := @volume_setDinode sb s inum _ hlt hfits
    have hspent : Spent sb W s (s.setDinode sb inum { Dinode.zero with type := type }) 0 0 :=
      spent_of_volume rfl (by rw [hvolume]; rfl)
    simp only [wp_bind, wp_set, wp_pure]
    refine wp_logWrite (fun hopen => ?_) fun e he =>
      stop e (Short.of_spent hspent he (by omega) (by omega))
    refine post inum _ hrange.1 hlt ?_ hvolume
      (Tracks.write _ hopen (sb.home_iblock hlt))
      (hspent.trans (spent_note (m := 1) _ (by split <;> omega)))
    unfold Volume.allocated
    rw [volume_inode hlt]
    simp [htype]

end Store

end Xv6
