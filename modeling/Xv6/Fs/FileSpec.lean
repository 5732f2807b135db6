import Xv6.Fs.Truncate

/-! Files as byte sequences: `readi`, `writei` and `itrunc` on a locked inode. -/
namespace Xv6

open Lib Lib.Exec ByteField

/-- Every block number in an inode is a used data block and occurs once, every used data block
occurs, and no block below a file's size is missing. -/
structure BlocksOwned (sb : Superblock) (v : Volume) : Prop where
  inRange : ∀ i p, v.allocated i → v.slot i p ≠ 0 →
    sb.dataStart ≤ v.slot i p ∧ v.slot i p < sb.size ∧ v.used (v.slot i p) = true
  once : ∀ i p j q, v.allocated i → v.allocated j → v.slot i p ≠ 0 → v.slot i p = v.slot j q →
    i = j ∧ p = q
  covered : ∀ b, sb.dataStart ≤ b → b < sb.size → v.used b = true →
    ∃ i p, v.allocated i ∧ v.slot i p = b
  mapped : ∀ i, v.allocated i → ∀ bn, bn * BSIZE < (v.inode i).size → v.slot i (blockSlot bn) ≠ 0

/-- Blocks are owned, and those before the data region marked used, as by `mkfs`. -/
structure WellFormed (sb : Superblock) (s : Store) : Prop where
  blocks : BlocksOwned sb (s.volume sb)
  reserved : ∀ b, b < sb.dataStart → s.used sb b = true

/-- A locked in-memory inode that agrees with the disk. -/
structure Held (sb : Superblock) (s : Store) (ip : Inode) : Prop where
  inum_lt : ip.inum < sb.ninodes
  dinode_eq : ip.toDinode = s.dinode sb ip.inum
  allocated : ip.type ≠ 0

variable {sb : Superblock} {s s' : Store} {ip : Inode}

theorem wellFormed_iff : WellFormed sb s ↔ (s.volume sb).Owned sb ∧ (s.volume sb).Mapped := by
  have hdata : sb.dataStart ≤ sb.size := sb.bmap_le
  have hpos := sb.dataStart_pos
  constructor
  · rintro ⟨blocks, reserved⟩
    refine ⟨⟨⟨?_, ?_⟩, ?_, ?_⟩, ?_⟩
    · rintro ⟨i, p⟩ ⟨j, q⟩ b hheld hheld'
      obtain ⟨halloc, hslot, hne⟩ := Volume.hold_eq_some_iff.mp hheld
      obtain ⟨halloc', hslot', -⟩ := Volume.hold_eq_some_iff.mp hheld'
      obtain ⟨rfl, rfl⟩ := blocks.once i p j q halloc halloc' (hslot ▸ hne) (hslot.trans hslot'.symm)
      rfl
    · intro b
      constructor
      · rintro ⟨hlow, hused⟩
        have hlt : b < sb.size := by
          by_contra hge
          simp [Store.volume, hge] at hused
        obtain ⟨i, p, halloc, hslot⟩ := blocks.covered b hlow hlt hused
        exact ⟨(i, p), Volume.hold_eq_some_iff.mpr ⟨halloc, hslot, by omega⟩⟩
      · rintro ⟨⟨i, p⟩, hp⟩
        obtain ⟨halloc, rfl, hne⟩ := Volume.hold_eq_some_iff.mp hp
        obtain ⟨hlow, -, hused⟩ := blocks.inRange i p halloc hne
        exact ⟨hlow, hused⟩
    · intro b hlow hlt
      rw [Store.volume_used hlt]
      exact reserved b hlow
    · intro b hused
      by_contra hge
      simp [Store.volume, hge] at hused
    · intro i halloc bn hbn
      rw [ne_eq, Volume.hold_eq_none_iff halloc]
      exact blocks.mapped i halloc bn hbn
  · rintro ⟨owned, mapped⟩
    have hold : ∀ i p, (s.volume sb).allocated i → (s.volume sb).slot i p ≠ 0 →
        (s.volume sb).hold (i, p) = some ((s.volume sb).slot i p) :=
      fun i p halloc hne => Volume.hold_eq_some_iff.mpr ⟨halloc, rfl, hne⟩
    refine ⟨⟨?_, ?_, ?_, ?_⟩, ?_⟩
    · intro i p halloc hne
      exact owned.bounds (hold i p halloc hne)
    · intro i p j q hi hj hne heq
      have hsame := owned.holding.inj _ _ _ (hold i p hi hne)
        (heq ▸ hold j q hj (heq ▸ hne))
      exact Prod.mk.inj hsame
    · intro b hlow hlt hused
      obtain ⟨⟨i, p⟩, hp⟩ := (owned.holding.taken_iff b).mp ⟨hlow, hused⟩
      obtain ⟨halloc, hslot, -⟩ := Volume.hold_eq_some_iff.mp hp
      exact ⟨i, p, halloc, hslot⟩
    · intro i halloc bn hbn
      have hheld := mapped i halloc bn hbn
      rwa [ne_eq, Volume.hold_eq_none_iff halloc] at hheld
    · intro b hlow
      have hlt : b < sb.size := by omega
      rw [← Store.volume_used hlt]
      exact owned.reserved b hlow hlt

theorem Held.seen (h : Held sb s ip) : s.seen sb ip = s.volume sb := by
  unfold Store.seen
  rw [h.dinode_eq, ← Store.volume_inode h.inum_lt, Volume.setInode_self]

theorem held_of_seen (hinum : ip.inum < sb.ninodes) (htype : ip.type ≠ 0)
    (h : s.volume sb = s.seen sb ip) : Held sb s ip where
  inum_lt := hinum
  dinode_eq := by
    rw [← Store.volume_inode hinum, h, Store.seen_inode]
  allocated := htype

/-- Replace the bytes from `off` on, extending `old` if needed. -/
def splice (old : List UInt8) (off : Nat) (data : List UInt8) : List UInt8 :=
  old.take off ++ data ++ old.drop (off + data.length)

theorem splice_at_end (old data : List UInt8) :
    (splice old old.length data).take (max old.length (old.length + data.length)) = old ++ data := by
  unfold splice
  rw [List.take_length, List.drop_eq_nil_of_le (by omega), List.append_nil,
    List.take_of_length_le (by rw [List.length_append]; omega)]

theorem splice_getBytes {f g : Nat → UInt8} {size off count : Nat} (hoff : off ≤ size) :
    splice (ByteField.getBytes f 0 size) off (ByteField.getBytes g 0 count) =
      ByteField.getBytes (fun pos => if off ≤ pos ∧ pos < off + count then g (pos - off) else f pos)
        0 (max size (off + count)) := by
  have hsize : max size (off + count) = off + count + (size - (off + count)) := by omega
  unfold splice
  rw [hsize, getBytes_add, getBytes_add, take_getBytes,
    drop_getBytes, Nat.min_eq_left hoff, getBytes_length]
  congr 1
  · congr 1
    · apply getBytes_congr
      intro k hk
      rw [if_neg (by omega)]
    · apply getBytes_congr
      intro k hk
      rw [if_pos (by omega)]
      congr 1
      omega
  · rw [Nat.zero_add]
    apply getBytes_congr
    intro k hk
    rw [if_neg (by omega)]

def Source.bytes (src : Source) (n : Nat) : List UInt8 :=
  ByteField.getBytes (fun k => (src k).getD 0) 0 n

namespace Volume

variable {v v' : Volume} {i j off n : Nat} {src : Source}

theorem contents_congr (hsize : (v'.inode i).size = (v.inode i).size)
    (hbyte : ∀ pos, v'.byteAt i pos = v.byteAt i pos) : v'.contents i = v.contents i := by
  unfold contents
  rw [hsize]
  exact getBytes_congr fun k _ => hbyte _

theorem contents_of_empty (h : (v.inode i).size = 0) : v.contents i = [] := by
  unfold contents
  rw [h]
  rfl

theorem contents_length (v : Volume) (i : Nat) : (v.contents i).length = (v.inode i).size :=
  getBytes_length ..

theorem Stored.splice_eq {tot total : Nat} (h : v.Stored sb i off tot total src v')
    (hoff : off ≤ (v.inode i).size) :
    ByteField.getBytes (v'.byteAt i) 0 (max (v.inode i).size (off + total)) =
      splice (v.contents i) off (src.bytes total) := by
  unfold contents Source.bytes
  rw [splice_getBytes hoff]
  exact getBytes_congr fun k _ => h.byte _

theorem Stored.contents_take {tot total : Nat} (h : v.Stored sb i off tot total src v')
    (hle : tot ≤ total) (hoff : off ≤ (v.inode i).size) :
    v'.contents i =
      (splice (v.contents i) off (src.bytes total)).take (max (v.inode i).size (off + tot)) := by
  obtain ⟨addrs, hinode⟩ := h.inode_eq
  have hmin : min (max (v.inode i).size (off + tot)) (max (v.inode i).size (off + total)) =
      max (v.inode i).size (off + tot) := by omega
  rw [← h.splice_eq hoff, take_getBytes, hmin]
  unfold contents
  rw [hinode]

theorem Stored.contents_eq (h : v.Stored sb i off n n src v') (hoff : off ≤ (v.inode i).size) :
    v'.contents i = splice (v.contents i) off (src.bytes n) := by
  obtain ⟨addrs, hinode⟩ := h.inode_eq
  rw [← h.splice_eq hoff]
  unfold contents
  rw [hinode]

theorem Stored.contents_ne {tot total : Nat} (h : v.Stored sb i off tot total src v') (hj : j ≠ i) :
    v'.contents j = v.contents j :=
  contents_congr (by rw [h.inode_ne j hj]) (h.byte_ne j hj)

theorem Emptied.contents_ne (h : v.Emptied sb i v') (hj : j ≠ i) : v'.contents j = v.contents j :=
  contents_congr (by rw [h.inode_ne j hj]) fun _ => byteAt_congr (h.file_ne j hj _)

theorem Emptied.mapped (h : v.Emptied sb i v') (mapped : v.Mapped) : v'.Mapped := by
  intro j halloc bn hbn
  obtain rfl | hj := eq_or_ne j i
  · rw [h.inode_eq] at hbn
    exact absurd hbn (Nat.not_lt_zero _)
  · rw [h.inode_ne j hj] at hbn
    unfold allocated at halloc
    rw [h.inode_ne j hj] at halloc
    rw [← fileBlock_ne_none_iff, h.file_ne j hj]
    exact fileBlock_ne_none_iff.mpr (mapped j halloc bn hbn)

end Volume

def OthersKept (sb : Superblock) (i : Nat) (s s' : Store) : Prop :=
  ∀ j, j ≠ i → (s'.volume sb).contents j = (s.volume sb).contents j

/-- `writei` replaces the bytes of the range. It can only stop when blocks or log run out. -/
structure WriteiSpec (sb : Superblock) (s : Store) (ip : Inode) (src : Source) (off n : UInt32) :
    Prop where
  refused : ¬ Store.Accepts ip.size off.toNat n.toNat →
    Store.writei sb ip src off n s = .ok ((-1, ip), s)
  stored : Store.Accepts ip.size off.toNat n.toNat →
    wp (Store.writei sb ip src off n)
      (fun r s' => Held sb s' r.2 ∧ r.2.inum = ip.inum ∧ WellFormed sb s' ∧
        OthersKept sb ip.inum s s' ∧
        ((∀ k, k < n.toNat → src k ≠ none) → r.1 = n.toNat ∧
          (s'.volume sb).contents ip.inum =
            splice ((s.volume sb).contents ip.inum) off.toNat (src.bytes n.toNat)))
      (Short sb (metaBlocks sb ip.inum) s (2 * chunks off.toNat n.toNat)
        (4 * chunks off.toNat n.toNat)) s

structure ReadiSpec (sb : Superblock) (s : Store) (ip : Inode) (dst : Nat → Bool)
    (off n : UInt32) : Prop where
  outside : ip.size < off.toNat ∨ 2 ^ 32 ≤ off.toNat + n.toNat →
    Store.readi sb ip dst off n s = .ok ((0, [], ip), s)
  inside : off.toNat ≤ ip.size → off.toNat + n.toNat < 2 ^ 32 →
    (∀ k, k < n.toNat → dst k = true) → ∃ bytes,
      bytes = (((s.volume sb).contents ip.inum).take (off.toNat + n.toNat)).drop off.toNat ∧
      Store.readi sb ip dst off n s = .ok (((bytes.length : Int), bytes, ip), s)

/-- It can only stop when the log runs out. -/
def ItruncSpec (sb : Superblock) (s : Store) (ip : Inode) : Prop :=
  wp (Store.itrunc sb ip)
    (fun ip' s' => Held sb s' ip' ∧ ip'.inum = ip.inum ∧ WellFormed sb s' ∧
      OthersKept sb ip.inum s s' ∧ (s'.volume sb).contents ip.inum = [])
    (Short sb (metaBlocks sb ip.inum) s 0 0) s

theorem Held.volume_allocated (held : Held sb s ip) : (s.volume sb).allocated ip.inum := by
  unfold Volume.allocated
  rw [Store.volume_inode held.inum_lt, ← held.dinode_eq]
  exact held.allocated

theorem Held.volume_size (held : Held sb s ip) : ((s.volume sb).inode ip.inum).size = ip.size := by
  rw [Store.volume_inode held.inum_lt, ← held.dinode_eq]

theorem Held.size_lt (held : Held sb s ip) (mapped : (s.volume sb).Mapped) : ip.size < 2 ^ 31 := by
  have hle := mapped.size_le held.volume_allocated
  rw [held.volume_size] at hle
  exact Nat.lt_of_le_of_lt hle (by decide)

theorem Held.mapped_pos (held : Held sb s ip) (mapped : (s.volume sb).Mapped) {pos : Nat}
    (hpos : pos < ip.size) : (s.volume sb).hold (ip.inum, blockSlot (pos / BSIZE)) ≠ none := by
  apply mapped _ held.volume_allocated
  rw [held.volume_size]
  exact Nat.lt_of_le_of_lt (Nat.div_mul_le_self pos BSIZE) hpos

theorem Held.readiSpec_of_mapped {dst : Nat → Bool} {off n : UInt32} (held : Held sb s ip)
    (owned : (s.volume sb).Owned sb) (hsmall : ip.size < 2 ^ 31)
    (mapped : ∀ pos, pos < off.toNat + n.toNat → pos < ip.size →
      (s.volume sb).hold (ip.inum, blockSlot (pos / BSIZE)) ≠ none) :
    ReadiSpec sb s ip dst off n := by
  have hseen := held.seen
  have hsize := held.volume_size
  have hrun : ∀ r, (ip.size < off.toNat ∨ 2 ^ 32 ≤ off.toNat + n.toNat → r = (0, [], ip)) →
      (off.toNat ≤ ip.size → off.toNat + n.toNat < 2 ^ 32 →
        ∀ bytes, bytes = eitherCopyout dst 0 (ByteField.getBytes ((s.volume sb).byteAt ip.inum)
          off.toNat (Store.readCount ip.size off.toNat n.toNat)) →
        r = (if bytes.length < Store.readCount ip.size off.toNat n.toNat then -1
          else (Store.readCount ip.size off.toNat n.toNat : Int), bytes, ip)) →
      Store.readi sb ip dst off n s = .ok (r, s) := by
    intro r houtside hinside
    have hwp : wp (Store.readi sb ip dst off n) (fun a t => a = r ∧ t = s) (fun _ => False) s := by
      refine Store.wp_readi (by rwa [hseen]) hsmall (by rwa [hseen]) ?_ ?_
      · exact fun hout => ⟨(houtside hout).symm, rfl⟩
      · rw [hseen]
        exact fun hin hfit bytes hbytes => ⟨(hinside hin hfit bytes hbytes).symm, rfl⟩
    obtain ⟨a, t, hrun, rfl, rfl⟩ := returns_of_wp hwp fun _ he => he
    exact hrun
  constructor
  · intro hout
    exact hrun _ (fun _ => rfl) fun _ _ => by omega
  · intro hin hfit hdst
    have hcount : Store.readCount ip.size off.toNat n.toNat ≤ n.toNat := by
      unfold Store.readCount
      omega
    have hcopy : eitherCopyout dst 0 (ByteField.getBytes ((s.volume sb).byteAt ip.inum) off.toNat
        (Store.readCount ip.size off.toNat n.toNat)) =
        ByteField.getBytes ((s.volume sb).byteAt ip.inum) off.toNat
          (Store.readCount ip.size off.toNat n.toNat) := by
      apply eitherCopyout_all
      intro k hk
      rw [getBytes_length] at hk
      rw [Nat.zero_add]
      exact hdst k (by omega)
    refine ⟨_, rfl, hrun _ (fun _ => by omega) ?_⟩
    rintro _ _ bytes rfl
    rw [hcopy, getBytes_length, if_neg (Nat.lt_irrefl _)]
    unfold Volume.contents
    rw [take_getBytes, drop_getBytes, hsize, Nat.zero_add,
      getBytes_length]
    rfl

section Refinement

variable (wf : WellFormed sb s) (held : Held sb s ip)

include wf held

theorem writeiSpec (src : Source) (off n : UInt32) : WriteiSpec sb s ip src off n := by
  obtain ⟨owned, mapped⟩ := wellFormed_iff.mp wf
  have hseen := held.seen
  refine ⟨fun hrefused => by rw [Store.writei_refused hrefused]; rfl, ?_⟩
  intro haccepts
  refine Store.wp_writei held.inum_lt (by rwa [hseen]) (by rwa [hseen]) held.allocated
    (fun c hc => bblock_mem_metaBlocks ip.inum hc) (iblock_mem_metaBlocks ip.inum) haccepts ?_
    (fun _ he => he)
  intro tot total addrs ip' s' hip hle htotal hcomplete hstored hvolume _ _ _
  rw [hseen] at hstored
  subst hip
  refine ⟨held_of_seen held.inum_lt held.allocated hvolume, rfl,
    wellFormed_iff.mpr ⟨hstored.owned, hstored.mapped⟩, fun j hj => hstored.contents_ne hj, ?_⟩
  intro hreadable
  have htot : tot = n.toNat := by
    rcases hcomplete with heq | ⟨hlt, hnone⟩
    · exact heq
    · exact absurd hnone (hreadable total hlt)
  have htotal' : total = n.toNat := by omega
  subst htot
  rw [htotal'] at hstored
  refine ⟨rfl, hstored.contents_eq ?_⟩
  rw [Store.volume_inode held.inum_lt, ← held.dinode_eq]
  exact haccepts.1

theorem readiSpec (dst : Nat → Bool) (off n : UInt32) : ReadiSpec sb s ip dst off n := by
  obtain ⟨owned, mapped⟩ := wellFormed_iff.mp wf
  exact held.readiSpec_of_mapped owned (held.size_lt mapped) fun pos _ => held.mapped_pos mapped

theorem itruncSpec : ItruncSpec sb s ip := by
  obtain ⟨owned, mapped⟩ := wellFormed_iff.mp wf
  have hseen := held.seen
  refine Store.wp_itrunc held.inum_lt (by rwa [hseen]) held.allocated
    (fun c hc => bblock_mem_metaBlocks ip.inum hc) (iblock_mem_metaBlocks ip.inum) ?_
    (fun _ he => he)
  rintro ip' s' rfl hemptied hvolume _ _
  rw [hseen] at hemptied
  refine ⟨held_of_seen held.inum_lt held.allocated hvolume, rfl,
    wellFormed_iff.mpr ⟨hemptied.owned, hemptied.mapped mapped⟩,
    fun j hj => hemptied.contents_ne hj, ?_⟩
  apply Volume.contents_of_empty
  rw [hemptied.inode_eq]

end Refinement

/-- `readi`, `writei` and `itrunc` act on the byte sequence of an inode. -/
theorem files_refine_sequences (wf : WellFormed sb s) (held : Held sb s ip) (src : Source)
    (dst : Nat → Bool) (off n : UInt32) :
    WriteiSpec sb s ip src off n ∧ ReadiSpec sb s ip dst off n ∧ ItruncSpec sb s ip :=
  ⟨writeiSpec wf held src off n, readiSpec wf held dst off n, itruncSpec wf held⟩

/-! A small disk with one file: log in blocks 2 to 31, inodes in block 32, free map in block 33. -/

theorem smallLog_le : 2 ≤ 2 ∧ 2 + 30 ≤ 32 := by decide
theorem small_le40 : 35 ≤ 40 := by decide
theorem forty_le : 40 ≤ 40 := Nat.le_refl 40

theorem smallSb_bmap_le {size : Nat} (hlow : 35 ≤ size) (hhigh : size ≤ 40) :
    33 + size / BPB + 1 ≤ size := by
  simp only [BPB, BSIZE]
  omega

theorem smallSb_size_lt {size : Nat} (hhigh : size ≤ 40) : size < 2 ^ 30 := by omega

def smallSb (size : Nat) (hlow : 35 ≤ size) (hhigh : size ≤ 40) : Superblock where
  size := size
  ninodes := 2
  nlog := 30
  logstart := 2
  inodestart := 32
  bmapstart := 33
  log_le := smallLog_le
  inode_le := by decide
  bmap_le := smallSb_bmap_le hlow hhigh
  ninodes_le := by decide
  size_lt := smallSb_size_lt hhigh

def smallFile : Inode where
  type := T_FILE
  major := 0
  minor := 0
  nlink := 1
  size := 1024
  addrs k := if k = 0 then 34 else 0
  dev := ROOTDEV
  inum := 1
  ref := 1
  valid := true
  locked := true

def smallStore : Store where
  disk := fun _ => Block.zero
  buf b :=
    if b = 32 then Block.zero.setDinode 1 smallFile.toDinode
    else if b = 33 then Block.ofFn fun i => if i < 4 then 255 else if i = 4 then 7 else 0
    else Block.zero
  log := { start := 2, size := 30, outstanding := 1 }

theorem Volume.slot_first {v : Volume} {i b : Nat}
    (haddrs : (v.inode i).addrs = fun k => if k = 0 then b else 0) (p : Nat) :
    v.slot i p = if p = 0 then b else 0 := by
  have haddr : ∀ k, k ≤ NDIRECT → (v.inode i).addr k = if k = 0 then b else 0 := by
    intro k hk
    have hzero : Fin.ofNat (NDIRECT + 1) k = 0 ↔ k = 0 := by
      rw [Fin.ext_iff]
      change k % (NDIRECT + 1) = 0 ↔ k = 0
      rw [Nat.mod_eq_of_lt (Nat.lt_succ_of_le hk)]
    simp only [Dinode.addr, haddrs, hzero]
  by_cases hp : p ≤ NDIRECT
  · rw [Volume.slot_of_le hp, haddr p hp]
  · rw [Volume.slot_eq_zero_of_no_indirect (by omega) (haddr NDIRECT le_rfl), if_neg (by omega)]

/-- Files of at most one block, `home i` for file `i`. -/
theorem BlocksOwned.of_first {v : Volume} (home : Nat → Nat)
    (haddrs : ∀ i, v.allocated i → (v.inode i).addrs = fun k => if k = 0 then home i else 0)
    (hshort : ∀ i, v.allocated i → (v.inode i).size ≤ BSIZE)
    (hinj : ∀ i j, v.allocated i → v.allocated j → home i = home j → i = j)
    (hrange : ∀ i, v.allocated i → sb.dataStart ≤ home i ∧ home i < sb.size)
    (hused : ∀ b, sb.dataStart ≤ b → b < sb.size →
      (v.used b = true ↔ ∃ i, v.allocated i ∧ home i = b)) : BlocksOwned sb v := by
  have hslot : ∀ i p, v.allocated i → v.slot i p = if p = 0 then home i else 0 :=
    fun i p hi => Volume.slot_first (haddrs i hi) p
  have hfirst : ∀ i p, v.allocated i → v.slot i p ≠ 0 → p = 0 ∧ v.slot i p = home i := by
    intro i p hi hne
    rw [hslot i p hi] at hne ⊢
    split at hne
    · exact ⟨‹p = 0›, if_pos ‹p = 0›⟩
    · exact absurd rfl hne
  refine ⟨?_, ?_, ?_, ?_⟩
  · intro i p hi hne
    obtain ⟨hlow, hhigh⟩ := hrange i hi
    rw [(hfirst i p hi hne).2]
    exact ⟨hlow, hhigh, (hused _ hlow hhigh).mpr ⟨i, hi, rfl⟩⟩
  · intro i p j q hi hj hne heq
    obtain ⟨rfl, hhome⟩ := hfirst i p hi hne
    obtain ⟨rfl, hhome'⟩ := hfirst j q hj (heq ▸ hne)
    exact ⟨hinj i j hi hj (hhome.symm.trans (heq.trans hhome')), rfl⟩
  · intro b hlow hhigh hmarked
    obtain ⟨i, hi, rfl⟩ := (hused b hlow hhigh).mp hmarked
    exact ⟨i, 0, hi, (hslot i 0 hi).trans (if_pos rfl)⟩
  · intro i hi bn hbn
    have hzero : bn = 0 := by
      by_contra hne
      have hle := Nat.le_mul_of_pos_left BSIZE (Nat.pos_of_ne_zero hne)
      exact absurd (hshort i hi) (by omega)
    have hpos := sb.dataStart_pos
    have hlow := (hrange i hi).1
    rw [hzero, hslot i _ hi, if_pos (show blockSlot 0 = 0 from rfl)]
    omega

section Small

variable {size : Nat} (hlow : 35 ≤ size) (hhigh : size ≤ 40)

theorem smallStore_dinode_one : smallStore.dinode (smallSb size hlow hhigh) 1 = smallFile.toDinode :=
  Block.dinode_setDinode (by decide) ⟨by decide, by decide⟩

theorem smallSb_dataStart : (smallSb size hlow hhigh).dataStart = 34 := by
  have hdiv : size / BPB = 0 := Nat.div_eq_of_lt (by simp only [BPB, BSIZE]; omega)
  change 33 + size / BPB + 1 = 34
  rw [hdiv]

theorem smallStore_used {b : Nat} (hb : b < 40) :
    smallStore.used (smallSb size hlow hhigh) b = decide (b ≤ 34) := by
  have hmap : ∀ c : Fin 40, BitMap.test (Block.ofFn fun i =>
      if i < 4 then 255 else if i = 4 then 7 else 0).byte c.val = decide (c.val ≤ 34) := by
    decide +kernel
  have hdiv : b / BPB = 0 := Nat.div_eq_of_lt (by simp only [BPB, BSIZE]; omega)
  have hmod : b % BPB = b := Nat.mod_eq_of_lt (by simp only [BPB, BSIZE]; omega)
  unfold Store.used Superblock.BBLOCK
  rw [hdiv, hmod]
  exact hmap ⟨b, hb⟩

theorem smallStore_held : Held (smallSb size hlow hhigh) smallStore smallFile where
  inum_lt := Nat.one_lt_two
  dinode_eq := (smallStore_dinode_one hlow hhigh).symm
  allocated := by decide

theorem small_blocksOwned (hinodes : s.buf 32 = smallStore.buf 32)
    (hused : ∀ b, 34 ≤ b → b < size → s.used (smallSb size hlow hhigh) b = decide (b ≤ 34)) :
    BlocksOwned (smallSb size hlow hhigh) (s.volume (smallSb size hlow hhigh)) := by
  have hstart := smallSb_dataStart hlow hhigh
  have hone : (s.volume (smallSb size hlow hhigh)).inode 1 = smallFile.toDinode := by
    rw [Store.volume_inode (show 1 < (smallSb size hlow hhigh).ninodes from Nat.one_lt_two)]
    exact (congrArg (Block.dinode · 1) hinodes).trans (smallStore_dinode_one hlow hhigh)
  have hzero : ((s.volume (smallSb size hlow hhigh)).inode 0).type = 0 := by
    have hslot : (Block.zero.setDinode 1 smallFile.toDinode).dinode 0 = Block.zero.dinode 0 :=
      Block.dinode_setDinode_ne (by decide) (by decide)
    rw [Store.volume_inode (show 0 < (smallSb size hlow hhigh).ninodes from Nat.two_pos)]
    change ((s.buf 32).dinode 0).type = 0
    rw [hinodes]
    change ((Block.zero.setDinode 1 smallFile.toDinode).dinode 0).type = 0
    rw [hslot]
    simp [Block.dinode]
  have halloc : ∀ i, (s.volume (smallSb size hlow hhigh)).allocated i ↔ i = 1 := by
    intro i
    unfold Volume.allocated
    constructor
    · intro h
      by_contra hne
      by_cases hi : i < 2
      · obtain rfl : i = 0 := by omega
        exact h hzero
      · exact h (congrArg Dinode.type (if_neg hi))
    · rintro rfl
      rw [hone]
      decide
  refine .of_first (fun _ => 34) ?_ ?_ ?_ ?_ ?_
  · intro i hi
    rw [(halloc i).mp hi, hone]
    rfl
  · intro i hi
    rw [(halloc i).mp hi, hone]
    exact le_rfl
  · intro i j hi hj _
    rw [(halloc i).mp hi, (halloc j).mp hj]
  · intro _ _
    exact ⟨hstart.le, hlow⟩
  · intro b hb hlt
    rw [hstart] at hb
    rw [Store.volume_used hlt, hused b hb hlt, decide_eq_true_eq]
    simp only [halloc, exists_eq_left]
    omega

theorem smallStore_wellFormed : WellFormed (smallSb size hlow hhigh) smallStore where
  blocks := by
    refine small_blocksOwned hlow hhigh rfl fun b _ hb => ?_
    exact smallStore_used hlow hhigh (by omega)
  reserved := by
    intro b hb
    rw [smallSb_dataStart] at hb
    rw [smallStore_used hlow hhigh (by omega), decide_eq_true_eq]
    omega

end Small

/-- On the small disk an append returns. -/
theorem files_refine_sequences_small :
    Room (smallSb 40 (by decide) (by decide)) (metaBlocks (smallSb 40 (by decide) (by decide)) 1)
        smallStore (2 * chunks 1024 1) (4 * chunks 1024 1) ∧
      WriteiSpec (smallSb 40 (by decide) (by decide)) smallStore smallFile (fun _ => some 7) 1024 1 ∧
      ReadiSpec (smallSb 40 (by decide) (by decide)) smallStore smallFile (fun _ => true) 1024 1 ∧
      ItruncSpec (smallSb 40 (by decide) (by decide)) smallStore smallFile :=
  ⟨⟨by decide, by decide +kernel, by decide +kernel, by decide +kernel⟩,
    files_refine_sequences (smallStore_wellFormed _ _) (smallStore_held _ _) _ _ _ _⟩

/-- Without a free block an append panics in `balloc`. -/
theorem writei_panics_on_full_disk :
    WellFormed (smallSb 35 (by decide) (by decide)) smallStore ∧
      Held (smallSb 35 (by decide) (by decide)) smallStore smallFile ∧
      Store.Accepts smallFile.size 1024 1 ∧
      stopOf (Store.writei (smallSb 35 (by decide) (by decide)) smallFile (fun _ => some 7) 1024 1)
        smallStore = some .outOfBlocks := by
  refine ⟨smallStore_wellFormed _ _, smallStore_held _ _, ⟨by decide, by decide, by decide⟩, ?_⟩
  decide +kernel

end Xv6
