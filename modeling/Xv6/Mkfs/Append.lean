import Xv6.Fs.Node
import Xv6.Mkfs.Image

/-! What `ialloc` and `iappend` of `mkfs` do to the image, whose free map is written last. -/
namespace Xv6.Mkfs

open Function Image
open Lib Lib.Exec

def blocksFor (len : Nat) : Nat :=
  (len + BSIZE - 1) / BSIZE + if NDIRECT * BSIZE < len then 1 else 0

/-- The blocks that a byte at `off` needs after those before it. -/
def newBlocks (off : Nat) : Nat :=
  if off % BSIZE = 0 then if off = NDIRECT * BSIZE then 2 else 1 else 0

theorem blocksFor_add {off n : Nat} (hpos : 0 < n) (hle : n ≤ BSIZE - off % BSIZE) :
    blocksFor (off + n) = blocksFor off + newBlocks off := by
  unfold blocksFor newBlocks
  split_ifs <;> simp only [NDIRECT, BSIZE] at * <;> omega

theorem blocksFor_mono {m n : Nat} (h : m ≤ n) : blocksFor m ≤ blocksFor n := by
  unfold blocksFor
  split_ifs <;> simp only [NDIRECT, BSIZE] at * <;> omega

/-- The file has its blocks up to `len` and no others. -/
structure Extent (v : Volume) (i len : Nat) : Prop where
  block : ∀ bn, v.hold (i, blockSlot bn) = none ↔ len ≤ bn * BSIZE
  indirect : (v.inode i).addr NDIRECT = 0 ↔ len ≤ NDIRECT * BSIZE

structure Laid (s : Image) : Prop where
  length_eq : s.length = FSSIZE
  start_le : nmeta ≤ s.freeblock
  zero : ∀ b, s.freeblock ≤ b → s.sector b = Block.zero

theorem dataStart_layout {ninodes : Nat} (hn : ninodes < 208) :
    (layout ninodes hn).dataStart = nmeta := by
  change 2 + nlog + ninodeblocks + FSSIZE / BPB + 1 = nmeta
  decide

namespace Image

variable {ninodes : Nat} (hn : ninodes < 208)

def volume (s : Image) : Volume :=
  { s.store.volume (layout ninodes hn) with used := fun b => decide (b < s.freeblock) }

def seen (s : Image) (i : Nat) (din : Dinode) : Volume := (s.volume hn).setInode i din

def setSector (s : Image) (b : Nat) (data : Block) : Image :=
  { s with sector := update s.sector b data }

variable {hn} {s s' : Image} {b i : Nat} {data : Block} {din : Dinode}

theorem volume_block (hn : ninodes < 208) (h : nmeta ≤ b) : (s.volume hn).block b = s.sector b :=
  if_pos (by rwa [dataStart_layout])

theorem volume_inode (h : i < ninodes) :
    (s.volume hn).inode i = (s.sector (sb.IBLOCK i)).dinode (i % IPB) := if_pos h

theorem volume_setSector (h : nmeta ≤ b) :
    (s.setSector b data).volume hn = (s.volume hn).setBlock b data := by
  have hstore : (s.setSector b data).store.volume (layout ninodes hn) =
      (s.store.setData b data).volume (layout ninodes hn) := rfl
  unfold volume
  rw [hstore, Store.volume_setData (by rwa [dataStart_layout])]
  rfl

theorem volume_setDinode (h : i < ninodes) (fits : din.Fits) :
    (s.setSector (sb.IBLOCK i) ((s.sector (sb.IBLOCK i)).setDinode (i % IPB) din)).volume hn =
      (s.volume hn).setInode i din := by
  have hstore : (s.setSector (sb.IBLOCK i)
      ((s.sector (sb.IBLOCK i)).setDinode (i % IPB) din)).store.volume (layout ninodes hn) =
      (s.store.setDinode (layout ninodes hn) i din).volume (layout ninodes hn) := rfl
  unfold volume
  rw [hstore, Store.volume_setDinode (show i < (layout ninodes hn).ninodes from h) fits]
  rfl

theorem seen_inode (s : Image) (i : Nat) (din : Dinode) : (s.seen hn i din).inode i = din :=
  update_self ..

theorem seen_setSector (h : nmeta ≤ b) :
    (s.setSector b data).seen hn i din = (s.seen hn i din).setBlock b data := by
  unfold seen
  rw [volume_setSector h]
  rfl

theorem seen_allocated (hn : ninodes < 208) (s : Image) (i : Nat) (h : din.type ≠ 0) :
    (s.seen hn i din).allocated i := by
  unfold Volume.allocated
  rw [seen_inode]
  exact h

theorem volume_next (laid : Laid s) :
    { s with freeblock := s.freeblock + 1 }.volume hn = (s.volume hn).alloc s.freeblock := by
  have hblock := (volume_block hn laid.start_le).trans (laid.zero _ (Nat.le_refl _))
  unfold Volume.alloc Volume.setUsed Volume.setBlock
  have hsame : update (s.volume hn).block s.freeblock Block.zero = (s.volume hn).block :=
    update_eq_self_iff.mpr hblock.symm
  have hused : (fun b => decide (b < s.freeblock + 1)) =
      update (s.volume hn).used s.freeblock true := by
    funext b
    by_cases hb : b = s.freeblock
    · rw [hb, update_self, decide_eq_true_eq]
      exact Nat.lt_succ_self _
    · rw [update_of_ne hb]
      exact decide_eq_decide.mpr (by omega)
  rw [hsame, ← hused]
  rfl

theorem seen_next (laid : Laid s) :
    { s with freeblock := s.freeblock + 1 }.seen hn i din = (s.seen hn i din).alloc s.freeblock := by
  unfold seen
  rw [volume_next laid]
  rfl

end Image

variable {ninodes : Nat} {hn : ninodes < 208} {s s' : Image} {b i off : Nat} {data : Block}
  {din : Dinode} {E : Exit → Prop}

namespace Laid

theorem next (h : Laid s) : Laid { s with freeblock := s.freeblock + 1 } where
  length_eq := h.length_eq
  start_le := Nat.le_succ_of_le h.start_le
  zero b hb := h.zero b (by change s.freeblock + 1 ≤ b at hb; omega)

theorem setSector (h : Laid s) (hb : b < s.freeblock) : Laid (s.setSector b data) where
  length_eq := h.length_eq
  start_le := h.start_le
  zero c hc := by
    change s.freeblock ≤ c at hc
    exact (update_of_ne (by omega) ..).trans (h.zero c hc)

end Laid

theorem freeblock_le {v : Volume} (owned : v.Owned (layout ninodes hn))
    (hused : v.used = fun b => decide (b < s.freeblock)) : s.freeblock ≤ FSSIZE := by
  by_contra hgt
  have hlt : FSSIZE < FSSIZE := owned.used_lt FSSIZE (by rw [hused]; exact decide_eq_true (by omega))
  exact absurd hlt (Nat.lt_irrefl _)

variable {Q : Block → Image → Prop}

theorem wp_rsect {sec : Nat} (laid : Laid s) (hsec : sec < FSSIZE) (post : Q (s.sector sec) s) :
    wp (rsect sec) Q E s := by
  have hmod : sec % 2 ^ 22 = sec := Nat.mod_eq_of_lt (by simp only [FSSIZE] at hsec; omega)
  unfold rsect
  simp only [wp_bind, wp_get]
  rw [hmod, wp_then (by rw [laid.length_eq]; exact hsec)]
  exact post

theorem wp_rsect_end {sec : Nat} (hlen : s.length = FSSIZE) (hge : FSSIZE ≤ sec)
    (hlt : sec < 2 ^ 22) (stop : E .die) : wp (rsect sec) Q E s := by
  unfold rsect
  simp only [wp_bind, wp_get]
  rw [Nat.mod_eq_of_lt hlt, wp_else (by omega)]
  exact stop

theorem wp_wsect {Q : Unit → Image → Prop} {sec : Nat} (laid : Laid s) (hsec : sec < FSSIZE)
    (post : Q () (s.setSector sec data)) : wp (wsect sec data) Q E s := by
  have hmod : sec % 2 ^ 22 = sec := Nat.mod_eq_of_lt (by simp only [FSSIZE] at hsec; omega)
  have hlen : max s.length (sec + 1) = s.length := by
    rw [laid.length_eq]
    omega
  unfold wsect
  rw [wp_modify, hmod, hlen]
  exact post

theorem iblock_lt_nmeta (h : i < 208) : sb.IBLOCK i < nmeta := by
  have hstart : sb.inodestart = 32 := rfl
  have hmeta : nmeta = 46 := rfl
  unfold Superblock.IBLOCK
  rw [hstart, hmeta]
  simp only [IPB, BSIZE]
  omega

theorem nmeta_lt : nmeta < FSSIZE := by decide

theorem wp_rinode {Q : Dinode → Image → Prop} (hn : ninodes < 208) (laid : Laid s) (hi : i < ninodes)
    (post : Q ((s.volume hn).inode i) s) : wp (rinode i) Q E s := by
  have hblock := iblock_lt_nmeta (Nat.lt_trans hi hn)
  unfold rinode
  rw [wp_bind]
  refine wp_rsect laid (Nat.lt_trans hblock nmeta_lt) ?_
  rw [volume_inode hi] at post
  exact post

theorem wp_winode {Q : Unit → Image → Prop} (hn : ninodes < 208) (laid : Laid s) (hi : i < ninodes)
    (fits : din.Fits)
    (post : ∀ s', Laid s' → s'.volume hn = (s.volume hn).setInode i din →
      s'.freeblock = s.freeblock → s'.freeinode = s.freeinode → Q () s') :
    wp (winode i din) Q E s := by
  have hblock := iblock_lt_nmeta (Nat.lt_trans hi hn)
  have hlt := Nat.lt_trans hblock nmeta_lt
  unfold winode
  rw [wp_bind]
  refine wp_rsect laid hlt (wp_wsect laid hlt ?_)
  exact post _ (laid.setSector (Nat.lt_of_lt_of_le hblock laid.start_le))
    (volume_setDinode hi fits) rfl rfl

structure BlockDone (hn : ninodes < 208) (s : Image) (i : Nat) (din : Dinode) (off x : Nat)
    (din' : Dinode) (s' : Image) : Prop where
  laid : Laid s'
  addrs : ∃ addrs, din' = { din with addrs := addrs }
  filled : (s.seen hn i din).Filled (layout ninodes hn) i (off / BSIZE) (s'.seen hn i din')
  hold : (s'.seen hn i din').hold (i, blockSlot (off / BSIZE)) = some x
  indirect : din'.addr NDIRECT = 0 ↔ off < NDIRECT * BSIZE
  next : s'.freeblock = s.freeblock + newBlocks off
  freeinode : s'.freeinode = s.freeinode

section Blocks

theorem used_freeblock (hn : ninodes < 208) (s : Image) (i : Nat) (din : Dinode) :
    (s.seen hn i din).used s.freeblock = false :=
  decide_eq_false (Nat.lt_irrefl _)

variable (laid : Laid s) (owned : (s.seen hn i din).Owned (layout ninodes hn)) (htype : din.type ≠ 0)

include laid owned htype

theorem grown_next {k : Nat} (hk : k ≤ NDIRECT) (hzero : din.addr k = 0) :
    (s.seen hn i din).Grown i k s.freeblock
      ({ s with freeblock := s.freeblock + 1 }.seen hn i (din.setAddr k s.freeblock)) := by
  have hpos : s.freeblock ≠ 0 := by
    have hstart := laid.start_le
    have hmeta : nmeta = 46 := rfl
    omega
  have hgrown := owned.grown_addr (seen_allocated hn s i htype) hk
    (by rw [seen_inode]; exact hzero) (used_freeblock hn s i din) hpos
  rw [seen_inode, ← seen_next laid] at hgrown
  unfold Image.seen at hgrown ⊢
  rw [Volume.setInode_setInode] at hgrown
  exact hgrown

end Blocks

theorem blockSlot_entry (k : Nat) : blockSlot (NDIRECT + k) = NDIRECT + 1 + k := by
  unfold blockSlot
  rw [if_neg (by omega)]
  omega

/-- The block it adds may be past the end. -/
theorem wp_indirectEntry {Q : Nat → Image → Prop} {k : Nat} (laid : Laid s)
    (owned : (s.seen hn i din).Owned (layout ninodes hn)) (htype : din.type ≠ 0)
    (hk : k < NINDIRECT) (hind : din.addr NDIRECT ≠ 0)
    (found : ∀ x, (s.seen hn i din).hold (i, blockSlot (NDIRECT + k)) = some x → Q x s)
    (added : ∀ s', (s.seen hn i din).hold (i, blockSlot (NDIRECT + k)) = none →
      s.freeblock < FSSIZE → Laid s' →
      (s.seen hn i din).Filled (layout ninodes hn) i (NDIRECT + k) (s'.seen hn i din) →
      (s'.seen hn i din).hold (i, blockSlot (NDIRECT + k)) = some s.freeblock →
      s'.freeblock = s.freeblock + 1 → s'.freeinode = s.freeinode → Q s.freeblock s')
    (full : ∀ s', (s.seen hn i din).hold (i, blockSlot (NDIRECT + k)) = none →
      s.freeblock = FSSIZE → s'.length = FSSIZE → Q s.freeblock s') :
    wp (indirectEntry din k) Q E s := by
  have halloc := seen_allocated hn s i htype
  have hindirect : ((s.seen hn i din).inode i).addr NDIRECT ≠ 0 := by
    rw [seen_inode]
    exact hind
  obtain ⟨hdata, hlimit, hused⟩ := owned.bounds (Volume.Owned.hold_indirect halloc hindirect)
  rw [seen_inode] at hdata hlimit hused
  rw [dataStart_layout] at hdata
  have hbelow : din.addr NDIRECT < s.freeblock := of_decide_eq_true hused
  have hblock : (s.seen hn i din).block (din.addr NDIRECT) = s.sector (din.addr NDIRECT) :=
    volume_block hn hdata
  have hentry : (s.seen hn i din).slot i (NDIRECT + 1 + k) =
      (s.sector (din.addr NDIRECT)).get (4 * k) 4 := by
    rw [Volume.slot_entry hk hindirect, seen_inode, hblock]
  have hslot := blockSlot_entry k
  unfold indirectEntry
  rw [wp_bind]
  refine wp_rsect laid hlimit ?_
  by_cases hzero : (s.sector (din.addr NDIRECT)).get (4 * k) 4 = 0
  · have hnone : (s.seen hn i din).hold (i, blockSlot (NDIRECT + k)) = none := by
      rw [hslot, Volume.hold_eq_none_iff halloc, hentry, hzero]
    have hfb := freeblock_le owned rfl
    rw [wp_then hzero]
    unfold nextBlock
    simp only [wp_bind, wp_get, wp_set, wp_pure]
    refine wp_wsect laid.next hlimit ?_
    by_cases hfull : s.freeblock = FSSIZE
    · exact full _ hnone hfull laid.length_eq
    · have hpos : s.freeblock ≠ 0 := by
        have hstart := laid.start_le
        have hmeta : nmeta = 46 := rfl
        omega
      have hgrown := owned.grown_entry halloc hk hindirect (used_freeblock hn s i din) hpos
        (by simp only [FSSIZE] at hfb; omega)
      rw [seen_inode, ← seen_next laid] at hgrown
      have hread : ({ s with freeblock := s.freeblock + 1 }.seen hn i din).block
          (din.addr NDIRECT) = s.sector (din.addr NDIRECT) := volume_block hn hdata
      rw [hread, ← seen_setSector hdata] at hgrown
      refine added _ hnone (by omega) (laid.next.setSector (Nat.lt_succ_of_lt hbelow)) ?_ ?_ rfl rfl
      · rw [← hslot] at hgrown
        exact Volume.Filled.of_grown owned (by change s.freeblock < FSSIZE; omega)
          (used_freeblock hn s i din) hnone hgrown
      · rw [hslot]
        exact (congrFun hgrown.hold _).trans (update_self ..)
  · rw [wp_else hzero, wp_pure]
    apply found
    rw [hslot]
    exact Volume.hold_eq_some_iff.mpr ⟨halloc, hentry, hzero⟩

theorem mul_div_le (off : Nat) : off ≤ off / BSIZE * BSIZE ↔ off % BSIZE = 0 := by
  simp only [BSIZE]
  omega

theorem wp_blockFor {Q : Nat × Dinode → Image → Prop} (laid : Laid s)
    (owned : (s.seen hn i din).Owned (layout ninodes hn)) (htype : din.type ≠ 0)
    (extent : Extent (s.seen hn i din) i off) (hoff : off / BSIZE < MAXFILE)
    (post : ∀ x din' s', BlockDone hn s i din off x din' s' → Q (x, din') s')
    (full : ∀ x din' s', FSSIZE < s.freeblock + newBlocks off → s'.length = FSSIZE → FSSIZE ≤ x →
      x < 2 ^ 22 → Q (x, din') s')
    (stop : FSSIZE < s.freeblock + newBlocks off → E .die) :
    wp (blockFor din (off / BSIZE)) Q E s := by
  have halloc := seen_allocated hn s i htype
  have hfb := freeblock_le owned rfl
  have hsize : FSSIZE = 1000 := rfl
  have habsent := extent.block (off / BSIZE)
  rw [mul_div_le] at habsent
  have hind := extent.indirect
  rw [seen_inode] at hind
  have hdirect_iff : off / BSIZE < NDIRECT ↔ off < NDIRECT * BSIZE := Nat.div_lt_iff_lt_mul (by decide)
  unfold blockFor
  by_cases hdirect : off / BSIZE < NDIRECT
  · have hslot : blockSlot (off / BSIZE) = off / BSIZE := if_pos hdirect
    have hlow := hdirect_iff.mp hdirect
    rw [hslot, Volume.hold_eq_none_iff halloc, Volume.slot_of_le (Nat.le_of_lt hdirect),
      seen_inode] at habsent
    rw [wp_then hdirect, wp_ite]
    by_cases hzero : din.addr (off / BSIZE) = 0
    · have hnew : newBlocks off = 1 := by
        unfold newBlocks
        rw [if_pos (habsent.mp hzero), if_neg (Nat.ne_of_lt hlow)]
      have hnone : (s.seen hn i din).hold (i, blockSlot (off / BSIZE)) = none := by
        rw [hslot, Volume.hold_eq_none_iff halloc, Volume.slot_of_le (Nat.le_of_lt hdirect),
          seen_inode, hzero]
      rw [if_pos hzero]
      unfold nextBlock
      simp only [wp_bind, wp_get, wp_set, wp_pure]
      by_cases hfull : s.freeblock = FSSIZE
      · exact full _ _ _ (by omega) laid.length_eq (by omega) (by omega)
      · have hgrown := grown_next laid owned htype (Nat.le_of_lt hdirect) hzero
        refine post _ _ _ ⟨laid.next, ⟨_, rfl⟩, ?_, ?_, ?_, ?_, rfl⟩
        · rw [← hslot] at hgrown
          refine Volume.Filled.of_grown owned (by change s.freeblock < FSSIZE; omega)
            (used_freeblock hn s i din) hnone ?_
          rwa [hslot] at hgrown ⊢
        · rw [hgrown.hold, hslot, update_self]
        · rw [Dinode.addr_setAddr_ne (Nat.le_of_lt hdirect) (Nat.le_refl _) (Nat.ne_of_gt hdirect),
            hind]
          exact iff_of_true (Nat.le_of_lt hlow) hlow
        · rw [hnew]
    · have hnew : newBlocks off = 0 := by
        unfold newBlocks
        rw [if_neg (mt habsent.mpr hzero)]
      have hhold : (s.seen hn i din).hold (i, blockSlot (off / BSIZE)) =
          some (din.addr (off / BSIZE)) := by
        rw [hslot]
        refine Volume.hold_eq_some_iff.mpr ⟨halloc, ?_, hzero⟩
        rw [Volume.slot_of_le (Nat.le_of_lt hdirect), seen_inode]
      rw [if_neg hzero, wp_pure]
      refine post _ _ _ ⟨laid, ⟨_, rfl⟩, ?_, hhold, ?_, by rw [hnew, Nat.add_zero], rfl⟩
      · exact Volume.Filled.of_present owned (by rw [Volume.fileBlock, hhold, Option.map_some])
      · rw [hind]
        exact iff_of_true (Nat.le_of_lt hlow) hlow
  · obtain ⟨k, hk⟩ := Nat.exists_eq_add_of_le (Nat.le_of_not_lt hdirect)
    have hlow : ¬ off < NDIRECT * BSIZE := fun h => hdirect (hdirect_iff.mpr h)
    have hentry : k < NINDIRECT := Nat.lt_of_add_lt_add_left (hk ▸ hoff)
    rw [wp_else hdirect, wp_ite, hk, Nat.add_sub_cancel_left]
    rw [hk] at habsent
    by_cases hzero : din.addr NDIRECT = 0
    · have heq : off = NDIRECT * BSIZE := by
        have hle := hind.mp hzero
        omega
      have hmod : off % BSIZE = 0 := by
        rw [heq, Nat.mul_mod_left]
      have hnew : newBlocks off = 2 := by
        unfold newBlocks
        rw [if_pos hmod, if_pos heq]
      rw [if_pos hzero]
      unfold nextBlock
      simp only [wp_bind, wp_get, wp_set, wp_pure]
      by_cases hfull : s.freeblock = FSSIZE
      · unfold indirectEntry
        rw [wp_bind, Dinode.addr_setAddr_self]
        exact wp_rsect_end laid.length_eq (by omega) (by omega) (stop (by omega))
      · have hfree := used_freeblock hn s i din
        have hgrown := grown_next laid owned htype (Nat.le_refl _) hzero
        have hplace : (s.seen hn i din).hold (i, NDIRECT) = none := by
          rw [Volume.hold_eq_none_iff halloc, Volume.slot_of_le (Nat.le_refl _), seen_inode,
            hzero]
        have hlt : s.freeblock < (layout ninodes hn).size := by
          change s.freeblock < FSSIZE
          omega
        have hpos : s.freeblock ≠ 0 := by
          have hstart := laid.start_le
          have hmeta : nmeta = 46 := rfl
          omega
        have hlink : (din.setAddr NDIRECT s.freeblock).addr NDIRECT ≠ 0 := by
          rw [Dinode.addr_setAddr_self]
          exact hpos
        refine wp_indirectEntry laid.next (hgrown.owned owned hlt hfree hplace) htype hentry hlink
          ?_ ?_ ?_
        · intro x hx
          have hsame : (s.seen hn i din).hold (i, blockSlot (NDIRECT + k)) = some x := by
            rw [hgrown.hold, update_of_ne (by simp [Volume.blockSlot_ne_indirect])] at hx
            exact hx
          rw [habsent.mpr hmod] at hsame
          cases hsame
        · intro s' _ _ hlaid hfilled hhold hnext hinode
          refine post _ _ _ ⟨hlaid, ⟨_, rfl⟩, ?_, ?_, iff_of_false hlink hlow, ?_, hinode⟩
          · rw [hk]
            exact Volume.Filled.of_indirect hgrown hfilled
          · rw [hk]
            exact hhold
          · rw [hnext, hnew]
        · intro s' _ hnext hlength
          have hnext' : s.freeblock + 1 = FSSIZE := hnext
          exact full _ _ _ (by omega) hlength (by change FSSIZE ≤ s.freeblock + 1; omega)
            (by change s.freeblock + 1 < 2 ^ 22; omega)
    · have hbig : off ≠ NDIRECT * BSIZE := fun heq => hzero (hind.mpr (Nat.le_of_eq heq))
      rw [if_neg hzero, wp_bind]
      refine wp_indirectEntry laid owned htype hentry hzero ?_ ?_ ?_
      · intro x hx
        have hnew : newBlocks off = 0 := by
          unfold newBlocks
          rw [if_neg]
          intro hmod
          rw [habsent.mpr hmod] at hx
          cases hx
        refine post _ _ _ ⟨laid, ⟨_, rfl⟩, ?_, by rw [hk]; exact hx, iff_of_false hzero hlow,
          by rw [hnew, Nat.add_zero], rfl⟩
        rw [hk]
        exact Volume.Filled.of_present owned (by rw [Volume.fileBlock, hx, Option.map_some])
      · intro s' hnone _ hlaid hfilled hhold hnext hinode
        refine post _ _ _ ⟨hlaid, ⟨_, rfl⟩, by rw [hk]; exact hfilled, by rw [hk]; exact hhold,
          iff_of_false hzero hlow, ?_, hinode⟩
        unfold newBlocks
        rw [hnext, if_pos (habsent.mp hnone), if_neg hbig]
      · intro s' hnone hnext hlength
        refine full _ _ _ ?_ hlength (by omega) (by omega)
        unfold newBlocks
        rw [if_pos (habsent.mp hnone), if_neg hbig]
        omega

theorem BlockDone.extent {x n : Nat} {din' : Dinode} (h : BlockDone hn s i din off x din' s')
    (extent : Extent (s.seen hn i din) i off) (hpos : 0 < n) (hle : n ≤ BSIZE - off % BSIZE) :
    Extent (s'.seen hn i din') i (off + n) where
  block bn := by
    have hsame : (s'.seen hn i din').hold (i, blockSlot bn) = none ↔
        bn ≠ off / BSIZE ∧ (s.seen hn i din).hold (i, blockSlot bn) = none := by
      by_cases hbn : bn = off / BSIZE
      · rw [hbn, h.hold]
        exact iff_of_false nofun fun hand => hand.1 rfl
      · have hfile := h.filled.file_ne i bn (by simp [hbn])
        unfold Volume.fileBlock at hfile
        rw [← Option.map_eq_none_iff (f := (s'.seen hn i din').block), hfile,
          Option.map_eq_none_iff]
        exact (and_iff_right hbn).symm
    rw [hsame, extent.block]
    simp only [BSIZE] at hle ⊢
    omega
  indirect := by
    rw [seen_inode, h.indirect]
    simp only [NDIRECT, BSIZE] at hle ⊢
    omega

/-- All bytes are stored, unless the image or the file is full. -/
theorem wp_iappendLoop {Q : Dinode × Nat → Image → Prop} {v : Volume} {src : Source}
    {fuel start count base : Nat} {p : List UInt8} (laid : Laid s) (htype : din.type ≠ 0)
    (written : v.Written (layout ninodes hn) i start count src (s.seen hn i din))
    (extent : Extent (s.seen hn i din) i (start + count)) (hfuel : p.length ≤ fuel)
    (hsrc : ∀ k, k < p.length → src (count + k) = some (p.getD k 0))
    (hnext : s.freeblock = base + blocksFor (start + count))
    (post : ∀ din' s', Laid s' → (∃ addrs, din' = { din with addrs := addrs }) →
      v.Written (layout ninodes hn) i start (count + p.length) src (s'.seen hn i din') →
      Extent (s'.seen hn i din') i (start + (count + p.length)) →
      s'.freeblock = base + blocksFor (start + (count + p.length)) → s'.freeinode = s.freeinode →
      Q (din', start + (count + p.length)) s')
    (stop : ∀ e, FSSIZE < base + blocksFor (start + (count + p.length)) ∨
      MAXFILE * BSIZE < start + (count + p.length) → E e) :
    wp (iappendLoop fuel din (start + count) p) Q E s := by
  induction fuel generalizing s din count p with
  | zero =>
    have hnil : p = [] := List.length_eq_zero_iff.mp (by omega)
    subst hnil
    exact post din s laid ⟨_, rfl⟩ written extent hnext rfl
  | succ fuel ih =>
    unfold iappendLoop
    rw [wp_ite]
    obtain rfl | hnil := eq_or_ne p []
    · rw [if_pos rfl]
      exact post din s laid ⟨_, rfl⟩ written extent hnext rfl
    have hlen : 0 < p.length := List.length_pos_of_ne_nil hnil
    have hbelow : (start + count) % BSIZE < BSIZE := Nat.mod_lt _ (by decide)
    rw [if_neg hnil, wp_ite]
    by_cases hmax : (start + count) / BSIZE < MAXFILE
    · have hroom : (((start + count) / BSIZE + 1) * BSIZE - (start + count)) =
          BSIZE - (start + count) % BSIZE := by
        simp only [BSIZE]
        omega
      have hinside : start + count - (start + count) / BSIZE * BSIZE = (start + count) % BSIZE := by
        simp only [BSIZE]
        omega
      rw [if_pos hmax, hroom, hinside]
      generalize hm : min p.length (BSIZE - (start + count) % BSIZE) = m
      have hblocks : blocksFor (start + count + m) =
          blocksFor (start + count) + newBlocks (start + count) :=
        blocksFor_add (by omega) (by omega)
      have hmono : blocksFor (start + count + m) ≤ blocksFor (start + (count + p.length)) :=
        blocksFor_mono (by omega)
      simp only [wp_bind]
      refine wp_blockFor laid written.owned htype extent hmax ?_ ?_ ?_
      · intro x din₁ s₁ done
        obtain ⟨addrs, hdin⟩ := done.addrs
        obtain ⟨hdata, hlimit, hused⟩ := done.filled.owned.bounds done.hold
        rw [dataStart_layout] at hdata
        have hx : x < s₁.freeblock := of_decide_eq_true hused
        have hread : s₁.sector x = (s₁.seen hn i din₁).block x := (volume_block hn hdata).symm
        have htake : (p.take m).length = m := by
          rw [List.length_take]
          omega
        have hbytes : ∀ k, k < (p.take m).length → src (count + k) = some ((p.take m).getD k 0) := by
          intro k hk
          rw [hsrc k (by omega), List.getD_eq_getElem?_getD, List.getD_eq_getElem?_getD,
            List.getElem?_take, if_pos (by omega)]
        have hchunk := written.chunk done.filled done.hold (by omega) hbytes
        rw [htake, ← hread, ← seen_setSector hdata] at hchunk
        refine wp_rsect done.laid hlimit (wp_wsect done.laid hlimit ?_)
        have hextent := done.extent extent (n := m) (by omega) (by omega)
        have hext : Extent ((s₁.setSector x (Block.ofFn (ByteField.putBytes (s₁.sector x).byte
            ((start + count) % BSIZE) (p.take m)))).seen hn i din₁) i (start + (count + m)) := by
          rw [seen_setSector hdata]
          refine ⟨fun bn => ?_, ?_⟩
          · rw [done.filled.owned.hold_setBlock done.hold, hextent.block, Nat.add_assoc]
          · rw [← Nat.add_assoc]
            exact hextent.indirect
        have hdrop : (p.drop m).length = p.length - m := List.length_drop
        have htotal : count + m + (p.drop m).length = count + p.length := by omega
        rw [Nat.add_assoc start count m]
        refine ih (done.laid.setSector hx) (by rw [hdin]; exact htype) hchunk hext (by omega) ?_ ?_
          ?_ ?_
        · intro k hk
          have hbyte := hsrc (m + k) (by omega)
          rw [Nat.add_assoc, hbyte, List.getD_eq_getElem?_getD, List.getD_eq_getElem?_getD,
            List.getElem?_drop]
        · change s₁.freeblock = _
          rw [done.next, hnext, ← Nat.add_assoc start, hblocks, Nat.add_assoc]
        · rintro din' s' hlaid ⟨addrs', hdin'⟩ hwritten hextent' hnext' hinode
          rw [htotal] at hwritten hextent' hnext' ⊢
          refine post din' s' hlaid ⟨addrs', ?_⟩ hwritten hextent' hnext'
            (hinode.trans done.freeinode)
          rw [hdin', hdin]
        · intro e hfull
          rw [htotal] at hfull
          exact stop e hfull
      · intro x din' s' hfull hlength hge hlt
        exact wp_rsect_end hlength hge hlt (stop _ (.inl (by omega)))
      · intro hfull
        exact stop _ (.inl (by omega))
    · rw [if_neg hmax]
      apply stop
      right
      have hle := Nat.div_mul_le_self (start + count) BSIZE
      have hmul : MAXFILE * BSIZE ≤ (start + count) / BSIZE * BSIZE :=
        Nat.mul_le_mul_right _ (Nat.le_of_not_lt hmax)
      omega

end Xv6.Mkfs
