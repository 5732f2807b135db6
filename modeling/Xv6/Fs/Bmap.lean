import Xv6.Fs.Volume

/-! The buffers seen as a volume. While an inode is locked its in-memory copy is in force. -/
namespace Xv6

open Function Volume
open Lib Lib.Exec

variable (sb : Superblock)

namespace Store

def volume (s : Store) : Volume where
  inode i := if i < sb.ninodes then s.dinode sb i else Dinode.zero
  block b := if sb.dataStart ≤ b then s.buf b else Block.zero
  used b := decide (b < sb.size) && s.used sb b

/-- The volume with the in-memory inode `ip` in force. -/
def seen (s : Store) (ip : Inode) : Volume := (s.volume sb).setInode ip.inum ip.toDinode

variable {sb} {s s' : Store} {b : Nat}

theorem volume_congr (hinode : ∀ i, i < sb.ninodes → s'.dinode sb i = s.dinode sb i)
    (hblock : ∀ b, sb.dataStart ≤ b → s'.buf b = s.buf b)
    (hused : ∀ b, b < sb.size → s'.used sb b = s.used sb b) : s'.volume sb = s.volume sb := by
  unfold volume
  congr 1
  · funext i
    split
    · rename_i hi
      exact hinode i hi
    · rfl
  · funext b
    split
    · rename_i hb
      exact hblock b hb
    · rfl
  · funext b
    by_cases hb : b < sb.size
    · rw [hused b hb]
    · simp [hb]

@[simp] theorem volume_note (s : Store) (b : Nat) : (s.note b).volume sb = s.volume sb := rfl

theorem volume_block (h : sb.dataStart ≤ b) : (s.volume sb).block b = s.buf b := if_pos h

theorem volume_used (h : b < sb.size) : (s.volume sb).used b = s.used sb b := by
  simp [volume, h]

theorem volume_inode {i : Nat} (h : i < sb.ninodes) : (s.volume sb).inode i = s.dinode sb i :=
  if_pos h

theorem iblock_lt_dataStart {i : Nat} (h : i < sb.ninodes) : sb.IBLOCK i < sb.dataStart :=
  Nat.lt_trans (sb.iblock_lt h) sb.bmapstart_lt_dataStart

theorem freeBlocks_of_volume (h : (s'.volume sb).used = (s.volume sb).used) :
    s'.freeBlocks sb = s.freeBlocks sb := by
  apply freeBlocks_congr
  intro c hc
  rw [← volume_used hc, h, volume_used hc]

theorem bitmapUsed_of_owned {ip : Inode} (h : (s.seen sb ip).Owned sb) : BitmapUsed sb s := by
  intro x _ hhigh hlt
  rw [← volume_used hlt]
  exact h.reserved x hhigh hlt

theorem volume_setData {data : Block} (h : sb.dataStart ≤ b) :
    (s.setData b data).volume sb = (s.volume sb).setBlock b data := by
  unfold volume Volume.setBlock
  congr 1
  · funext i
    dsimp only
    split
    · rename_i hi
      have hne : sb.IBLOCK i ≠ b := by
        have hlt := @iblock_lt_dataStart sb i hi
        omega
      unfold dinode
      rw [buf_setData_ne hne]
    · rfl
  · funext c
    dsimp only
    by_cases hc : c = b
    · rw [hc, if_pos h, update_self, buf_setData_self]
    · rw [update_of_ne hc, buf_setData_ne hc]
  · funext c
    dsimp only
    by_cases hc : c < sb.size
    · have hne : sb.BBLOCK c ≠ b := by
        have hlt := sb.bblock_lt hc
        omega
      rw [used_congr (buf_setData_ne hne)]
    · simp [hc]

theorem iblock_mod_ne {i j : Nat} (h : j ≠ i) (hblock : sb.IBLOCK j = sb.IBLOCK i) :
    j % IPB ≠ i % IPB := by
  simp only [Superblock.IBLOCK, IPB, BSIZE] at hblock ⊢
  omega

theorem volume_setDinode {i : Nat} {d : Dinode} (hi : i < sb.ninodes) (fits : d.Fits) :
    (s.setDinode sb i d).volume sb = (s.volume sb).setInode i d := by
  have hslot : ∀ j : Nat, j % IPB < IPB := fun j => Nat.mod_lt _ (by decide)
  have hlow := sb.iblock_lt hi
  unfold volume Volume.setInode
  congr 1
  · funext j
    dsimp only
    obtain rfl | hj := eq_or_ne j i
    · rw [if_pos hi, update_self]
      unfold dinode setDinode
      rw [buf_setData_self, Block.dinode_setDinode (hslot j) fits]
    · rw [update_of_ne hj]
      split
      · unfold dinode setDinode
        by_cases hblock : sb.IBLOCK j = sb.IBLOCK i
        · rw [hblock, buf_setData_self,
            Block.dinode_setDinode_ne (hslot j) (iblock_mod_ne hj hblock)]
          rfl
        · rw [buf_setData_ne hblock]
      · rfl
  · funext b
    dsimp only
    split
    · rename_i hb
      apply buf_setData_ne
      have hregion := sb.bmapstart_lt_dataStart
      omega
    · rfl
  · funext c
    have hne : sb.BBLOCK c ≠ sb.IBLOCK i := by
      have hge := sb.bmapstart_le_bblock c
      omega
    have hused : (s.setDinode sb i d).used sb c = s.used sb c := used_congr (buf_setData_ne hne)
    rw [hused]

end Store

variable {sb} {s s' : Store} {b : Nat}

theorem Allocated.volume (h : Allocated sb s b s') (hdata : sb.dataStart ≤ b) :
    s'.volume sb = (s.volume sb).alloc b := by
  have hregion := sb.bmapstart_lt_dataStart
  unfold Store.volume Volume.alloc Volume.setBlock Volume.setUsed
  congr 1
  · funext i
    dsimp only
    split
    · rename_i hi
      have hlt := sb.iblock_lt hi
      unfold Store.dinode
      rw [h.frame _ (by omega) (.inl hlt)]
    · rfl
  · funext c
    dsimp only
    by_cases hc : c = b
    · rw [hc, if_pos hdata, update_self, h.zero]
    · rw [update_of_ne hc]
      split
      · rename_i hge
        exact h.frame c hc (.inr hge)
      · rfl
  · funext c
    dsimp only
    by_cases hc : c < sb.size
    · rw [h.used c hc]
      by_cases hcb : c = b
      · simp [hcb, h.lt]
      · simp [hcb]
    · have hcb : c ≠ b := by
        have hlt := h.lt
        omega
      simp [hc, hcb]

theorem Freed.volume (h : Freed sb s b s') :
    s'.volume sb = (s.volume sb).setUsed b false := by
  unfold Store.volume Volume.setUsed
  congr 1
  · funext i
    dsimp only
    split
    · rename_i hi
      unfold Store.dinode
      rw [h.frame _ (.inl (sb.iblock_lt hi))]
    · rfl
  · funext c
    dsimp only
    split
    · rename_i hge
      exact h.frame c (.inr hge)
    · rfl
  · funext c
    rw [h.used]
    by_cases hcb : c = b
    · simp [hcb]
    · simp [hcb]

def metaBlocks (sb : Superblock) (i : Nat) : Finset Nat :=
  insert (sb.IBLOCK i) ((Finset.range sb.size).image sb.BBLOCK)

theorem bblock_mem_metaBlocks (i : Nat) {c : Nat} (h : c < sb.size) :
    sb.BBLOCK c ∈ metaBlocks sb i := by
  unfold metaBlocks
  simp only [Finset.mem_insert, Finset.mem_image, Finset.mem_range]
  exact .inr ⟨c, h, rfl⟩

theorem iblock_mem_metaBlocks (i : Nat) : sb.IBLOCK i ∈ metaBlocks sb i :=
  Finset.mem_insert_self ..

namespace Store

variable {W : Finset Nat} {ip : Inode}

theorem spent_of_volume (hlog : s'.log = s.log)
    (hused : (s'.volume sb).used = (s.volume sb).used) : Spent sb W s s' 0 0 :=
  Spent.of_log_eq hlog (Nat.le_of_eq (freeBlocks_of_volume hused).symm)

theorem spent_setData {data : Block} (h : sb.dataStart ≤ b) :
    Spent sb W s (s.setData b data) 0 0 :=
  spent_of_volume rfl (by rw [volume_setData h]; rfl)

variable {E : Panic → Prop} {Q : Nat × Inode → Store → Prop}

theorem wp_iupdate {Q : Unit → Store → Prop} (hinum : ip.inum < sb.ninodes)
    (fits : ip.toDinode.Fits) (hW : sb.IBLOCK ip.inum ∈ W)
    (post : ∀ s', s'.volume sb = s.seen sb ip → Tracks sb ∅ s s' →
      LogsOnly sb (sb.IBLOCK ip.inum) s s' → Spent sb W s s' 0 0 → Q () s')
    (stop : ∀ e, Short sb W s 0 0 e → E e) : wp (iupdate sb ip) Q E s := by
  have hvolume : (s.setDinode sb ip.inum ip.toDinode).volume sb = s.seen sb ip :=
    volume_setDinode hinum fits
  have hspent : Spent sb W s (s.setDinode sb ip.inum ip.toDinode) 0 0 :=
    spent_of_volume rfl (by rw [hvolume]; rfl)
  unfold iupdate
  simp only [wp_bind, wp_modify]
  refine wp_logWrite (fun hopen => ?_) fun e he =>
    stop e (Short.of_spent hspent he (by omega) (by omega))
  apply post
  · rw [volume_note, hvolume]
  · exact Tracks.write _ hopen (sb.home_iblock hinum)
  · exact fun x _ => mem_lh_note
  · exact hspent.trans (spent_note (m := 0) _ (by simp [hW]))

theorem seen_of_volume_alloc (h : s'.volume sb = (s.volume sb).alloc b) :
    s'.seen sb ip = (s.seen sb ip).alloc b := by
  unfold seen
  rw [h]
  rfl

theorem seen_inode (s : Store) (ip : Inode) : (s.seen sb ip).inode ip.inum = ip.toDinode :=
  inode_setInode_self ..

theorem seen_allocated (s : Store) (htype : ip.type ≠ 0) : (s.seen sb ip).allocated ip.inum := by
  unfold Volume.allocated
  rw [seen_inode]
  exact htype

theorem seen_setAddr (h : s'.volume sb = (s.volume sb).alloc b) (k : Nat) :
    s'.seen sb (ip.setAddr k b) = ((s.seen sb ip).alloc b).setInode ip.inum
      (((s.seen sb ip).inode ip.inum).setAddr k b) := by
  rw [← seen_of_volume_alloc h, seen_inode]
  unfold seen
  rw [setInode_setInode]
  rfl

/-- Block `bn` of file `i` has no disk block yet, or one that the log has. -/
def SlotLogged (s : Store) (v : Volume) (i bn : Nat) : Prop :=
  ∀ b, v.hold (i, blockSlot bn) = some b → b ∈ s.log.lh

theorem slotLogged_grown {v v' : Volume} {i p bn : Nat} (owned : v.Owned sb)
    (grown : v.Grown i p b v') (hlt : b < sb.size) (hfree : v.used b = false)
    (hnone : v.hold (i, p) = none) (logs : LogsOnly sb b s s') :
    SlotLogged s' v' i bn ↔ SlotLogged s v i bn := by
  unfold SlotLogged
  rw [grown.hold]
  by_cases hp : blockSlot bn = p
  · -- a new block has just been zeroed and logged
    rw [hp, update_self, hnone]
    refine iff_of_true ?_ fun _ h => by cases h
    intro c hc
    cases hc
    exact (logs b (owned.data_of_free hlt hfree)).mpr (.inr rfl)
  · rw [update_of_ne (by simp [hp])]
    refine forall₂_congr fun c hc => ?_
    rw [logs c (owned.bounds hc).1, or_iff_left (owned.ne_of_free hfree hc)]

theorem slotLogged_note {v : Volume} {i p bn : Nat} (owned : v.Owned sb)
    (hold : v.hold (i, p) = some b) (hp : p ≠ blockSlot bn) :
    SlotLogged (s.note b) v i bn ↔ SlotLogged s v i bn := by
  refine forall₂_congr fun c hc => ?_
  rw [mem_lh_note, or_iff_left]
  rintro rfl
  exact hp (Prod.mk.inj (owned.holding.inj _ _ _ hold hc)).2

structure BmapDone (sb : Superblock) (s : Store) (ip : Inode) (bn addr : Nat) (ip' : Inode)
    (s' : Store) : Prop where
  ip_eq : ∃ addrs, ip' = ip.setAddrs addrs
  filled : (s.seen sb ip).Filled sb ip.inum bn (s'.seen sb ip')
  hold : (s'.seen sb ip').hold (ip.inum, blockSlot bn) = some addr
  inode : (s'.volume sb).inode = (s.volume sb).inode
  tracks : Tracks sb ∅ s s'
  logged : ∀ k, SlotLogged s' (s'.seen sb ip') ip.inum k ↔ SlotLogged s (s.seen sb ip) ip.inum k

theorem wp_balloc_seen {Q : Nat → Store → Prop} (owned : (s.seen sb ip).Owned sb)
    (hW : ∀ c, c < sb.size → sb.BBLOCK c ∈ W)
    (post : ∀ b s', b < sb.size → b ≠ 0 → (s.seen sb ip).used b = false →
      s'.volume sb = (s.volume sb).alloc b → Tracks sb ∅ s s' → LogsOnly sb b s s' →
      Spent sb W s s' 1 1 → Q b s')
    (stop : ∀ e, Short sb W s 1 1 e → E e) : wp (balloc sb) Q E s := by
  refine wp_balloc (bitmapUsed_of_owned owned) hW ?_ stop
  intro b s' halloc hspent
  have hfree : (s.seen sb ip).used b = false := by
    change (s.volume sb).used b = false
    rw [volume_used halloc.lt, halloc.free]
  have hdata : sb.dataStart ≤ b := owned.data_of_free halloc.lt hfree
  have hpos := sb.dataStart_pos
  exact post b s' halloc.lt (by omega) hfree (halloc.volume hdata)
    (halloc.tracks (sb.home_data hdata halloc.lt)) halloc.logs hspent

theorem wp_bmapEntry {k : Nat} (owned : (s.seen sb ip).Owned sb) (htype : ip.type ≠ 0)
    (hk : k < NINDIRECT) (hind : ip.addr NDIRECT ≠ 0) (hW : ∀ c, c < sb.size → sb.BBLOCK c ∈ W)
    (post : ∀ addr s', BmapDone sb s ip (NDIRECT + k) addr ip s' → Spent sb W s s' 1 2 →
      Q (addr, ip) s') (stop : ∀ e, Short sb W s 1 2 e → E e) : wp (bmapEntry sb ip k) Q E s := by
  have hself : (s.seen sb ip).inode ip.inum = ip.toDinode := seen_inode s ip
  have halloc : (s.seen sb ip).allocated ip.inum := seen_allocated s htype
  have hindirect : ((s.seen sb ip).inode ip.inum).addr NDIRECT ≠ 0 := by
    rw [hself]
    exact hind
  have hheld := Volume.Owned.hold_indirect halloc hindirect
  obtain ⟨hdata, hlimit, -⟩ := owned.bounds hheld
  rw [hself] at hdata hlimit
  have hblock : (s.seen sb ip).block (ip.addr NDIRECT) = s.buf (ip.addr NDIRECT) :=
    volume_block hdata
  have hslot : blockSlot (NDIRECT + k) = NDIRECT + 1 + k := by
    unfold blockSlot
    rw [if_neg (by omega)]
    omega
  have hentry : (s.seen sb ip).slot ip.inum (NDIRECT + 1 + k) =
      (s.bread (ip.addr NDIRECT)).get (4 * k) 4 := by
    rw [slot_entry hk hindirect, hself, hblock]
    rfl
  unfold bmapEntry
  simp only [wp_bind, wp_get]
  by_cases hzero : (s.bread (ip.addr NDIRECT)).get (4 * k) 4 = 0
  · rw [wp_then hzero]
    have hnone : (s.seen sb ip).hold (ip.inum, blockSlot (NDIRECT + k)) = none := by
      rw [hslot, hold_eq_none_iff halloc, hentry, hzero]
    simp only [wp_bind, wp_modify, wp_pure]
    refine wp_balloc_seen owned hW ?_ fun e he => stop e (he.mono (by omega) (by omega))
    intro b s₁ hlt hb hfree hvolume htracks hlogs hspent
    have hsize := sb.size_lt
    have hgrown := owned.grown_entry halloc hk hindirect hfree hb (by omega)
    rw [hself] at hgrown
    let indirect := (s₁.bread (ip.addr NDIRECT)).set (4 * k) 4 b
    have hwrite : (s₁.setData (ip.addr NDIRECT) indirect).volume sb =
        (s₁.volume sb).setBlock (ip.addr NDIRECT) indirect := volume_setData hdata
    have hseen : (s₁.setData (ip.addr NDIRECT) indirect).seen sb ip =
        ((s.seen sb ip).alloc b).setBlock (ip.addr NDIRECT)
          ((((s.seen sb ip).alloc b).block (ip.addr NDIRECT)).set (4 * k) 4 b) := by
      have hread : s₁.bread (ip.addr NDIRECT) = (s₁.volume sb).block (ip.addr NDIRECT) :=
        (volume_block hdata).symm
      rw [← seen_of_volume_alloc hvolume]
      unfold seen
      rw [hwrite]
      simp only [indirect, hread]
      rfl
    have hspentWrite : Spent sb W s (s₁.setData (ip.addr NDIRECT) indirect) 1 1 :=
      hspent.trans (spent_setData hdata)
    refine wp_logWrite (fun hopen => ?_) fun e he =>
      stop e (Short.of_spent hspentWrite he (by omega) (by omega))
    rw [← hseen, ← hslot] at hgrown
    have hkept : ((s₁.setData (ip.addr NDIRECT) indirect).seen sb ip).hold (ip.inum, NDIRECT) =
        some (ip.addr NDIRECT) := by
      rw [hgrown.hold, update_of_ne (by simp [(blockSlot_ne_indirect _).symm]), hheld, hself]
    have hnew := hgrown.owned owned hlt hfree hnone
    apply post
    · refine ⟨⟨_, rfl⟩, Volume.Filled.of_grown owned hlt hfree hnone hgrown, ?_, ?_,
        htracks.trans (Tracks.write indirect hopen (sb.home_data hdata hlimit)), fun k' => ?_⟩
      · exact (congrFun hgrown.hold _).trans (update_self ..)
      · rw [volume_note, hwrite, hvolume]
        rfl
      · exact (slotLogged_note hnew hkept (blockSlot_ne_indirect k').symm).trans
          (slotLogged_grown owned hgrown hlt hfree hnone hlogs)
    · exact hspentWrite.trans (spent_note (m := 1) _ (by split <;> omega))
  · rw [wp_else hzero, wp_pure]
    have hhold : (s.seen sb ip).hold (ip.inum, blockSlot (NDIRECT + k)) =
        some ((s.bread (ip.addr NDIRECT)).get (4 * k) 4) := by
      rw [hslot]
      exact hold_eq_some_iff.mpr ⟨halloc, hentry, hzero⟩
    apply post
    · refine ⟨⟨_, rfl⟩, ?_, hhold, rfl, Tracks.refl s, fun _ => Iff.rfl⟩
      exact Volume.Filled.of_present owned (by rw [Volume.fileBlock, hhold, Option.map_some])
    · exact Spent.refl.mono (by omega) (by omega)

theorem wp_balloc_setAddr {Q : Nat → Store → Prop} {k : Nat} (owned : (s.seen sb ip).Owned sb)
    (htype : ip.type ≠ 0) (hk : k ≤ NDIRECT) (hzero : ip.addr k = 0)
    (hW : ∀ c, c < sb.size → sb.BBLOCK c ∈ W)
    (post : ∀ b s', b < sb.size → b ≠ 0 → (s.seen sb ip).used b = false →
      (s.seen sb ip).hold (ip.inum, k) = none →
      (s.seen sb ip).Grown ip.inum k b (s'.seen sb (ip.setAddr k b)) →
      (s'.volume sb).inode = (s.volume sb).inode → Tracks sb ∅ s s' → LogsOnly sb b s s' →
      Spent sb W s s' 1 1 → Q b s')
    (stop : ∀ e, Short sb W s 1 1 e → E e) : wp (balloc sb) Q E s := by
  have halloc : (s.seen sb ip).allocated ip.inum := seen_allocated s htype
  have hempty : ((s.seen sb ip).inode ip.inum).addr k = 0 := by rw [seen_inode, hzero]
  refine wp_balloc_seen owned hW ?_ stop
  intro b s' hlt hb hfree hvolume htracks hlogs hspent
  have hgrown := owned.grown_addr halloc hk hempty hfree hb
  rw [← seen_setAddr hvolume] at hgrown
  apply post b s' hlt hb hfree ?_ hgrown ?_ htracks hlogs hspent
  · rw [hold_eq_none_iff halloc, slot_of_le hk, hempty]
  · rw [hvolume]
    rfl

/-- Below `MAXFILE`, `bmap` returns the block's address. -/
theorem wp_bmap {bn : Nat} (owned : (s.seen sb ip).Owned sb) (htype : ip.type ≠ 0)
    (hbn : bn < MAXFILE) (hW : ∀ c, c < sb.size → sb.BBLOCK c ∈ W)
    (post : ∀ addr ip' s', BmapDone sb s ip bn addr ip' s' → Spent sb W s s' 2 3 → Q (addr, ip') s')
    (stop : ∀ e, Short sb W s 2 3 e → E e) : wp (bmap sb ip bn) Q E s := by
  have halloc : (s.seen sb ip).allocated ip.inum := seen_allocated s htype
  unfold bmap
  by_cases hdirect : bn < NDIRECT
  · have hslot : blockSlot bn = bn := if_pos hdirect
    rw [wp_then hdirect, wp_ite]
    by_cases hzero : ip.addr bn = 0
    · rw [if_pos hzero]
      simp only [wp_bind, wp_pure]
      refine wp_balloc_setAddr owned htype (Nat.le_of_lt hdirect) hzero hW ?_
        fun e he => stop e (he.mono (by omega) (by omega))
      intro b s' hlt _ hfree hnone hgrown hinode htracks hlogs hspent
      refine post b _ s' ⟨⟨_, rfl⟩, ?_, ?_, hinode, htracks, fun k =>
        slotLogged_grown owned hgrown hlt hfree hnone hlogs⟩ (hspent.mono (by omega) (by omega))
      · apply Volume.Filled.of_grown owned hlt hfree
        · rw [hslot, hnone]
        · rw [hslot]
          exact hgrown
      · rw [hgrown.hold, hslot, update_self]
    · rw [if_neg hzero, wp_pure]
      have hhold : (s.seen sb ip).hold (ip.inum, blockSlot bn) = some (ip.addr bn) := by
        rw [hslot]
        refine hold_eq_some_iff.mpr ⟨halloc, ?_, hzero⟩
        rw [slot_of_le (Nat.le_of_lt hdirect), seen_inode]
      refine post _ ip s ⟨⟨_, rfl⟩, ?_, hhold, rfl, Tracks.refl s, fun _ => Iff.rfl⟩
        (Spent.refl.mono (by omega) (by omega))
      exact Volume.Filled.of_present owned (by rw [Volume.fileBlock, hhold, Option.map_some])
  · obtain ⟨k, rfl⟩ := Nat.exists_eq_add_of_le (Nat.le_of_not_lt hdirect)
    have hk : k < NINDIRECT := Nat.lt_of_add_lt_add_left hbn
    rw [wp_else hdirect, Nat.add_sub_cancel_left, wp_then hk, wp_ite]
    by_cases hzero : ip.addr NDIRECT = 0
    · rw [if_pos hzero, wp_bind]
      refine wp_balloc_setAddr owned htype (Nat.le_refl _) hzero hW ?_
        fun e he => stop e (he.mono (by omega) (by omega))
      intro b s₁ hlt hb hfree hnone hgrown hinode htracks hlogs hspent
      refine wp_bmapEntry (hgrown.owned owned hlt hfree hnone) htype hk ?_ hW ?_
        fun e he => stop e (Short.of_spent hspent he (by omega) (by omega))
      · exact (Dinode.addr_setAddr_self ..).trans_ne hb
      intro addr s₂ done hspent₂
      refine post addr _ s₂ ⟨⟨_, rfl⟩, Volume.Filled.of_indirect hgrown done.filled, done.hold,
        done.inode.trans hinode, htracks.trans done.tracks, fun k => (done.logged k).trans
          (slotLogged_grown owned hgrown hlt hfree hnone hlogs)⟩ (hspent.trans hspent₂)
    · rw [if_neg hzero]
      refine wp_bmapEntry owned htype hk hzero hW ?_ fun e he => stop e (he.mono (by omega) (by omega))
      intro addr s' done hspent
      exact post addr ip s' done (hspent.mono (by omega) (by omega))

theorem wp_bmap_present {bn addr : Nat} (owned : (s.seen sb ip).Owned sb)
    (hhold : (s.seen sb ip).hold (ip.inum, blockSlot bn) = some addr) (post : Q (addr, ip) s) :
    wp (bmap sb ip bn) Q E s := by
  obtain ⟨halloc, hslot, hne⟩ := hold_eq_some_iff.mp hhold
  unfold bmap
  by_cases hdirect : bn < NDIRECT
  · have haddr : ip.addr bn = addr := by
      rw [blockSlot, if_pos hdirect, slot_of_le (Nat.le_of_lt hdirect), seen_inode] at hslot
      exact hslot
    rw [wp_then hdirect, wp_ite, haddr, if_neg hne, wp_pure]
    exact post
  · obtain ⟨k, rfl⟩ := Nat.exists_eq_add_of_le (Nat.le_of_not_lt hdirect)
    have hplace : blockSlot (NDIRECT + k) = NDIRECT + 1 + k := by
      unfold blockSlot
      rw [if_neg hdirect]
      omega
    rw [hplace] at hslot
    have hk : k < NINDIRECT := by
      by_contra hge
      rw [slot_eq_zero_of_ge (Nat.add_le_add_left (Nat.le_of_not_lt hge) _)] at hslot
      exact hne hslot.symm
    have hind : ((s.seen sb ip).inode ip.inum).addr NDIRECT ≠ 0 := by
      intro hzero
      rw [slot_eq_zero_of_no_indirect (by omega) hzero] at hslot
      exact hne hslot.symm
    have hdata := (owned.bounds (Volume.Owned.hold_indirect halloc hind)).1
    rw [slot_entry hk hind] at hslot
    rw [seen_inode] at hind hdata hslot
    have hread : (s.bread (ip.addr NDIRECT)).get (4 * k) 4 = addr := by
      rw [← hslot]
      exact congrArg (fun data => Block.get data (4 * k) 4) (volume_block hdata).symm
    rw [wp_else hdirect, Nat.add_sub_cancel_left, wp_then hk, wp_else hind]
    unfold bmapEntry
    simp only [wp_bind, wp_get]
    rw [hread, wp_else hne, wp_pure]
    exact post

end Store

end Xv6
