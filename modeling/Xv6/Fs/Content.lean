import Xv6.Fs.Bmap

/-! Reading and writing files: `readi` is a query, and `writei` replaces a range of bytes of
one file. -/
namespace Xv6

open Lib Lib.Exec

section Copy

variable {src : Source} {dst : Nat → Bool} {start len : Nat}

theorem eitherCopyin_length_le : (eitherCopyin src start len).length ≤ len := by
  induction len generalizing start with
  | zero => exact Nat.le_refl 0
  | succ len ih =>
    unfold eitherCopyin
    split
    · exact Nat.zero_le _
    · exact Nat.succ_le_succ ih

theorem eitherCopyin_getD {k : Nat} (h : k < (eitherCopyin src start len).length) :
    src (start + k) = some ((eitherCopyin src start len).getD k 0) := by
  induction len generalizing start k with
  | zero => simp [eitherCopyin] at h
  | succ len ih =>
    unfold eitherCopyin at h ⊢
    split at h
    · simp at h
    · rename_i byte hbyte
      cases k with
      | zero => simpa using hbyte
      | succ k =>
        have htail := ih (Nat.lt_of_succ_lt_succ h)
        simpa [Nat.add_assoc, Nat.add_comm 1] using htail

theorem eitherCopyin_readable (h : ∀ k, k < start → src k ≠ none) {k : Nat}
    (hk : k < start + (eitherCopyin src start len).length) : src k ≠ none := by
  by_cases hold : k < start
  · exact h k hold
  · have hbyte := @eitherCopyin_getD src start len (k - start) (by omega)
    rw [Nat.add_sub_cancel' (by omega)] at hbyte
    rw [hbyte]
    exact Option.some_ne_none _

theorem eitherCopyin_short (h : (eitherCopyin src start len).length < len) :
    src (start + (eitherCopyin src start len).length) = none := by
  induction len generalizing start with
  | zero => omega
  | succ len ih =>
    unfold eitherCopyin at h ⊢
    split
    · simpa
    · rename_i byte hbyte
      simp only [hbyte, List.length_cons] at h ⊢
      have htail := ih (Nat.lt_of_succ_lt_succ h)
      rw [← htail]
      congr 1
      omega

theorem eitherCopyout_all {bytes : List UInt8} (h : ∀ k, k < bytes.length → dst (start + k) = true) :
    eitherCopyout dst start bytes = bytes := by
  induction bytes generalizing start with
  | nil => rfl
  | cons byte bytes ih =>
    have hhead : dst start = true := h 0 (by simp)
    have htail : eitherCopyout dst (start + 1) bytes = bytes := by
      apply ih
      intro k hk
      rw [Nat.add_assoc, Nat.add_comm 1]
      exact h (k + 1) (by simpa using hk)
    rw [eitherCopyout, if_pos hhead, htail]

theorem eitherCopyout_length_le {bytes : List UInt8} :
    (eitherCopyout dst start bytes).length ≤ bytes.length := by
  induction bytes generalizing start with
  | nil => exact Nat.le_refl 0
  | cons byte bytes ih =>
    unfold eitherCopyout
    split
    · exact Nat.succ_le_succ ih
    · exact Nat.zero_le _

theorem eitherCopyout_append (dst : Nat → Bool) (start : Nat) (left right : List UInt8) :
    eitherCopyout dst start (left ++ right) =
      if (eitherCopyout dst start left).length < left.length then eitherCopyout dst start left
      else eitherCopyout dst start left ++ eitherCopyout dst (start + left.length) right := by
  induction left generalizing start with
  | nil => simp [eitherCopyout]
  | cons byte left ih =>
    simp only [List.cons_append, eitherCopyout]
    by_cases hdst : dst start = true
    · simp only [if_pos hdst, ih, List.length_cons, Nat.add_lt_add_iff_right]
      rw [apply_ite (List.cons byte), List.cons_append,
        show start + 1 + left.length = start + (left.length + 1) by omega]
    · simp [hdst]

end Copy

theorem toInt32_of_lt {x : Nat} (h : x < 2 ^ 31) : toInt32 x = x := by
  have hnat : (BitVec.ofNat 32 x).toNat = x := by
    rw [BitVec.toNat_ofNat, Nat.mod_eq_of_lt (by omega)]
  unfold toInt32
  rw [BitVec.toInt_eq_toNat_of_lt (by omega), hnat]

theorem add_lt_self_iff (off n : UInt32) : off + n < off ↔ 2 ^ 32 ≤ off.toNat + n.toNat := by
  have hoff := off.toNat_lt
  have hn := n.toNat_lt
  rw [UInt32.lt_iff_toNat_lt, UInt32.toNat_add]
  omega

/-- The blocks that `n` bytes from `off` on touch: rounds of `readi` and `writei`. -/
def chunks (off n : Nat) : Nat :=
  if n = 0 then 0 else (off + n - 1) / BSIZE + 1 - off / BSIZE

theorem chunks_step {off n : Nat} (h : 0 < n) :
    chunks off n = chunks (off + min n (BSIZE - off % BSIZE))
      (n - min n (BSIZE - off % BSIZE)) + 1 := by
  generalize hm : min n (BSIZE - off % BSIZE) = m
  unfold chunks
  rw [if_neg (by omega)]
  simp only [BSIZE] at hm ⊢
  split <;> omega

namespace Volume

variable {sb : Superblock} {v v' : Volume} {i j b bn pos : Nat}

theorem byteAt_of_hold (h : v.hold (i, blockSlot (pos / BSIZE)) = some b) :
    v.byteAt i pos = (v.block b).byte (pos % BSIZE) := by
  unfold byteAt fileBlock
  rw [h]
  rfl

theorem getBytes_block {off m : Nat} (h : v.hold (i, blockSlot (off / BSIZE)) = some b)
    (hm : m ≤ BSIZE - off % BSIZE) :
    ByteField.getBytes (v.block b).byte (off % BSIZE) m = ByteField.getBytes (v.byteAt i) off m := by
  apply ByteField.getBytes_congr
  intro k hk
  have hdiv : (off + k) / BSIZE = off / BSIZE := by
    simp only [BSIZE] at hm ⊢
    omega
  have hmod : (off + k) % BSIZE = off % BSIZE + k := by
    simp only [BSIZE] at hm ⊢
    omega
  rw [byteAt_of_hold (by rw [hdiv, h]), hmod]

end Volume

namespace Store

variable {sb : Superblock} {s s' : Store} {ip : Inode} {W : Finset Nat}

/-- The rounds deliver the range up to the first byte that cannot be stored. -/
theorem wp_readiLoop {dst : Nat → Bool} {n fuel tot off : Nat} {out : List UInt8}
    {Q : Int × List UInt8 × Inode → Store → Prop} {E : Panic → Prop}
    (owned : (s.seen sb ip).Owned sb)
    (mapped : ∀ pos, off ≤ pos → pos < off + (n - tot) →
      (s.seen sb ip).hold (ip.inum, blockSlot (pos / BSIZE)) ≠ none)
    (hfuel : n - tot ≤ fuel) (htot : tot ≤ n)
    (post : ∀ bytes, bytes = eitherCopyout dst tot
        (ByteField.getBytes ((s.seen sb ip).byteAt ip.inum) off (n - tot)) →
      Q (if bytes.length < n - tot then -1 else toInt32 n, out ++ bytes, ip) s) :
    wp (readiLoop sb dst n fuel ip tot off out) Q E s := by
  induction fuel generalizing tot off out with
  | zero =>
    have hdone : tot = n := by omega
    subst hdone
    have hend := post _ rfl
    simp only [Nat.sub_self] at hend
    unfold readiLoop
    simpa [ByteField.getBytes, eitherCopyout] using hend
  | succ fuel ih =>
    unfold readiLoop
    rw [wp_ite]
    by_cases hmore : tot < n
    · have hbelow : off % BSIZE < BSIZE := Nat.mod_lt _ (by decide)
      obtain ⟨addr, haddr⟩ := Option.ne_none_iff_exists'.mp (mapped off (by omega) (by omega))
      have hread : s.bread addr = (s.seen sb ip).block addr :=
        (volume_block (owned.bounds haddr).1).symm
      generalize hm : min (n - tot) (BSIZE - off % BSIZE) = m
      have hsplit : n - tot = m + (n - (tot + m)) := by omega
      have happend := eitherCopyout_append dst tot
        (ByteField.getBytes ((s.seen sb ip).byteAt ip.inum) off m)
        (ByteField.getBytes ((s.seen sb ip).byteAt ip.inum) (off + m) (n - (tot + m)))
      rw [← ByteField.getBytes_add, ← hsplit, ByteField.getBytes_length] at happend
      rw [if_pos hmore, wp_bind]
      refine wp_bmap_present owned haddr ?_
      simp only [wp_bind, wp_get]
      rw [hread, Volume.getBytes_block haddr (by omega), wp_ite]
      split
      · rename_i hshort
        rw [if_pos hshort] at happend
        have hend := post _ happend.symm
        rw [if_pos (by omega)] at hend
        exact hend
      · rename_i hfull
        rw [if_neg hfull] at happend
        have hlength := @eitherCopyout_length_le dst tot
          (ByteField.getBytes ((s.seen sb ip).byteAt ip.inum) off m)
        rw [ByteField.getBytes_length] at hlength
        apply ih
        · intro pos hlow hhigh
          exact mapped pos (by omega) (by omega)
        · omega
        · omega
        · rintro bytes rfl
          have hend := post _ happend.symm
          rw [List.length_append, ← List.append_assoc] at hend
          convert hend using 3
          omega
    · have hdone : tot = n := by omega
      subst hdone
      have hend := post _ rfl
      simp only [Nat.sub_self] at hend
      rw [if_neg hmore]
      simpa [ByteField.getBytes, eitherCopyout] using hend

end Store

theorem Volume.Mapped.size_le {v : Volume} (h : v.Mapped) {i : Nat} (halloc : v.allocated i) :
    (v.inode i).size ≤ MAXFILE * BSIZE := by
  by_contra hlong
  have hheld := h i halloc MAXFILE (by omega)
  apply hheld
  rw [hold_eq_none_iff halloc, slot_eq_zero_of_ge (by decide)]

namespace Store

variable {sb : Superblock} {s s' : Store} {ip : Inode} {W : Finset Nat}

def readCount (size off n : Nat) : Nat := min (off + n) size - off

/-- `readi` delivers the range as far as it lies in the file, up to the first byte that cannot
be stored. -/
theorem wp_readi {dst : Nat → Bool} {off n : UInt32}
    {Q : Int × List UInt8 × Inode → Store → Prop} {E : Panic → Prop}
    (owned : (s.seen sb ip).Owned sb) (hsize : ip.size < 2 ^ 31)
    (mapped : ∀ pos, pos < off.toNat + n.toNat → pos < ip.size →
      (s.seen sb ip).hold (ip.inum, blockSlot (pos / BSIZE)) ≠ none)
    (outside : ip.size < off.toNat ∨ 2 ^ 32 ≤ off.toNat + n.toNat → Q (0, [], ip) s)
    (inside : off.toNat ≤ ip.size → off.toNat + n.toNat < 2 ^ 32 →
      ∀ bytes, bytes = eitherCopyout dst 0 (ByteField.getBytes ((s.seen sb ip).byteAt ip.inum)
        off.toNat (readCount ip.size off.toNat n.toNat)) →
      Q (if bytes.length < readCount ip.size off.toNat n.toNat then -1
        else (readCount ip.size off.toNat n.toNat : Int), bytes, ip) s) :
    wp (readi sb ip dst off n) Q E s := by
  unfold readi
  rw [wp_ite]
  simp only [add_lt_self_iff]
  split
  · rename_i hout
    exact outside (by omega)
  · rename_i hin
    have hfit : off.toNat + n.toNat < 2 ^ 32 := by omega
    have hsum : (off + n).toNat = off.toNat + n.toNat := by
      rw [UInt32.toNat_add, Nat.mod_eq_of_lt hfit]
    have hcount : (if (off + n).toNat > ip.size then ip.size - off.toNat else n.toNat) =
        readCount ip.size off.toNat n.toNat := by
      unfold readCount
      rw [hsum]
      split <;> omega
    have hbound : readCount ip.size off.toNat n.toNat < 2 ^ 31 := by
      unfold readCount
      omega
    rw [hcount]
    apply wp_readiLoop owned
    · intro pos hlow hhigh
      unfold readCount at hhigh
      exact mapped pos (by omega) (by omega)
    · omega
    · omega
    · intro bytes hbytes
      rw [toInt32_of_lt hbound]
      exact inside (by omega) hfit bytes hbytes

end Store

namespace Volume

variable {sb : Superblock} {v v' : Volume} {i j b bn pos : Nat}

theorem Owned.hold_setBlock (h : v.Owned sb) (hb : v.hold (i, blockSlot bn) = some b)
    (data : Block) : (v.setBlock b data).hold = v.hold :=
  Volume.hold_setBlock (h.ne_indirect hb (blockSlot_ne_indirect bn))

theorem Owned.setBlock (h : v.Owned sb) (hb : v.hold (i, blockSlot bn) = some b) (data : Block) :
    (v.setBlock b data).Owned sb where
  holding := by
    rw [h.hold_setBlock hb]
    exact h.holding
  reserved := h.reserved
  used_lt := h.used_lt

theorem Owned.fileBlock_setBlock_ne (h : v.Owned sb) (hb : v.hold (i, blockSlot bn) = some b)
    (data : Block) {k : Nat} (hne : (j, k) ≠ (i, bn)) :
    (v.setBlock b data).fileBlock j k = v.fileBlock j k := by
  unfold fileBlock
  rw [h.hold_setBlock hb]
  cases hheld : v.hold (j, blockSlot k) with
  | none => rfl
  | some c =>
    have hcb : c ≠ b := by
      apply h.holding.ne_of_ne hheld hb
      intro heq
      obtain ⟨rfl, hslot⟩ := Prod.mk.inj heq
      exact hne (by rw [blockSlot_inj hslot])
    exact congrArg some (Function.update_of_ne hcb ..)

theorem Owned.fileBlock_setBlock_self (h : v.Owned sb) (hb : v.hold (i, blockSlot bn) = some b)
    (data : Block) : (v.setBlock b data).fileBlock i bn = some data := by
  unfold fileBlock
  rw [h.hold_setBlock hb, hb]
  exact congrArg some (Function.update_self ..)

theorem byteAt_congr (h : v'.fileBlock i (pos / BSIZE) = v.fileBlock i (pos / BSIZE)) :
    v'.byteAt i pos = v.byteAt i pos := by
  unfold byteAt
  rw [h]

/-- A missing block reads as zeros. -/
theorem Filled.byteAt (h : v.Filled sb i bn v') : v'.byteAt j pos = v.byteAt j pos := by
  by_cases hne : (j, pos / BSIZE) = (i, bn)
  · obtain ⟨rfl, hbn⟩ := Prod.mk.inj hne
    unfold Volume.byteAt
    rw [hbn, h.file_eq]
    cases v.fileBlock j bn with
    | none => simp
    | some data => rfl
  · exact byteAt_congr (h.file_ne _ _ hne)

theorem Filled.kept (h : v.Filled sb i bn v') {k : Nat} (hk : v.fileBlock j k ≠ none) :
    v'.fileBlock j k ≠ none := by
  by_cases hne : (j, k) = (i, bn)
  · obtain ⟨rfl, rfl⟩ := Prod.mk.inj hne
    rw [h.file_eq]
    exact Option.some_ne_none _
  · rw [h.file_ne _ _ hne]
    exact hk

structure Written (sb : Superblock) (v : Volume) (i off count : Nat) (src : Source)
    (v' : Volume) : Prop where
  owned : v'.Owned sb
  inode_ne : ∀ j, j ≠ i → v'.inode j = v.inode j
  inode_eq : ∃ addrs, v'.inode i = { v.inode i with addrs := addrs }
  file_ne : ∀ j, j ≠ i → ∀ k, v'.fileBlock j k = v.fileBlock j k
  kept : ∀ k, v.fileBlock i k ≠ none → v'.fileBlock i k ≠ none
  covered : ∀ pos, off ≤ pos → pos < off + count → v'.fileBlock i (pos / BSIZE) ≠ none
  byte : ∀ pos, v'.byteAt i pos =
    if off ≤ pos ∧ pos < off + count then (src (pos - off)).getD 0 else v.byteAt i pos

theorem Written.start (h : v.Owned sb) (i off : Nat) (src : Source) :
    v.Written sb i off 0 src v where
  owned := h
  inode_ne _ _ := rfl
  inode_eq := ⟨_, rfl⟩
  file_ne _ _ _ := rfl
  kept _ hk := hk
  covered pos hlow hhigh := by omega
  byte pos := by rw [if_neg (by omega)]

theorem byteAt_putBytes {off : Nat} {bytes : List UInt8} (h : v.Owned sb)
    (hb : v.hold (i, blockSlot (off / BSIZE)) = some b) (hfit : bytes.length ≤ BSIZE - off % BSIZE) :
    (v.setBlock b (Block.ofFn (ByteField.putBytes (v.block b).byte (off % BSIZE) bytes))).byteAt i
      pos = if off ≤ pos ∧ pos < off + bytes.length then bytes.getD (pos - off) 0
        else v.byteAt i pos := by
  have hbelow : pos % BSIZE < BSIZE := Nat.mod_lt _ (by decide)
  by_cases hblock : pos / BSIZE = off / BSIZE
  · have hdata := h.fileBlock_setBlock_self hb
      (Block.ofFn (ByteField.putBytes (v.block b).byte (off % BSIZE) bytes))
    have hpos : v.byteAt i pos = (v.block b).byte (pos % BSIZE) :=
      byteAt_of_hold (by rw [hblock, hb])
    rw [hpos]
    unfold byteAt
    rw [hblock, hdata]
    dsimp only
    rw [Block.byte_ofFn _ hbelow]
    unfold ByteField.putBytes
    have hsame : off % BSIZE ≤ pos % BSIZE ∧ pos % BSIZE < off % BSIZE + bytes.length ↔
        off ≤ pos ∧ pos < off + bytes.length := by
      simp only [BSIZE] at hblock ⊢
      omega
    have hindex : off ≤ pos → pos % BSIZE - off % BSIZE = pos - off := by
      simp only [BSIZE] at hblock ⊢
      omega
    by_cases hin : off ≤ pos ∧ pos < off + bytes.length
    · rw [if_pos hin, if_pos (hsame.mpr hin), hindex hin.1]
    · rw [if_neg hin, if_neg (fun hcond => hin (hsame.mp hcond))]
  · rw [if_neg]
    · exact byteAt_congr (h.fileBlock_setBlock_ne hb _ (by simp [hblock]))
    · simp only [BSIZE] at hblock hfit
      omega

theorem Written.byte_next {off count : Nat} {src : Source} (h : v.Written sb i off count src v')
    (hstart : count = 0 ∨ (off + count) % BSIZE = 0) (hpos : pos / BSIZE = (off + count) / BSIZE) :
    v'.byteAt i pos = v.byteAt i pos := by
  have hold : ¬ (off ≤ pos ∧ pos < off + count) := by
    simp only [BSIZE] at hpos hstart
    omega
  rw [h.byte, if_neg hold]

theorem Written.chunk {off count : Nat} {src : Source} {w x : Volume} {bytes : List UInt8}
    (h : v.Written sb i off count src w) (filled : w.Filled sb i ((off + count) / BSIZE) x)
    (hb : x.hold (i, blockSlot ((off + count) / BSIZE)) = some b)
    (hfit : bytes.length ≤ BSIZE - (off + count) % BSIZE)
    (hsrc : ∀ k, k < bytes.length → src (count + k) = some (bytes.getD k 0)) :
    v.Written sb i off (count + bytes.length) src
      (x.setBlock b (Block.ofFn
        (ByteField.putBytes (x.block b).byte ((off + count) % BSIZE) bytes))) where
  owned := filled.owned.setBlock hb _
  inode_ne j hj := (filled.inode_ne j hj).trans (h.inode_ne j hj)
  inode_eq := by
    obtain ⟨addrs, heq⟩ := filled.inode_eq
    obtain ⟨addrs', heq'⟩ := h.inode_eq
    exact ⟨addrs, by rw [inode_setBlock, heq, heq']⟩
  file_ne j hj k := by
    rw [filled.owned.fileBlock_setBlock_ne hb _ (by simp [hj]), filled.file_ne j k (by simp [hj]),
      h.file_ne j hj]
  kept k hk := by
    obtain rfl | hkbn := eq_or_ne k ((off + count) / BSIZE)
    · rw [filled.owned.fileBlock_setBlock_self hb]
      exact Option.some_ne_none _
    · rw [filled.owned.fileBlock_setBlock_ne hb _ (by simp [hkbn])]
      exact filled.kept (h.kept k hk)
  covered pos hlow hhigh := by
    by_cases hbn : pos / BSIZE = (off + count) / BSIZE
    · rw [hbn, filled.owned.fileBlock_setBlock_self hb]
      exact Option.some_ne_none _
    · have hold : pos < off + count := by
        simp only [BSIZE] at hbn hfit
        omega
      rw [filled.owned.fileBlock_setBlock_ne hb _ (by simp [hbn])]
      exact filled.kept (h.covered pos hlow hold)
  byte pos := by
    rw [byteAt_putBytes filled.owned hb hfit, filled.byteAt, h.byte]
    by_cases hnew : off + count ≤ pos ∧ pos < off + count + bytes.length
    · have hbyte := hsrc (pos - (off + count)) (by omega)
      rw [show count + (pos - (off + count)) = pos - off by omega] at hbyte
      rw [if_pos hnew, if_pos (by omega), hbyte, Option.getD_some]
    · rw [if_neg hnew]
      by_cases hold : off ≤ pos ∧ pos < off + count
      · rw [if_pos hold, if_pos (by omega)]
      · rw [if_neg hold, if_neg (by omega)]

end Volume

namespace Store

variable {sb : Superblock} {s s' : Store} {ip : Inode} {W : Finset Nat}

theorem seen_setData {b : Nat} {data : Block} (h : sb.dataStart ≤ b) :
    (s.setData b data).seen sb ip = (s.seen sb ip).setBlock b data := by
  unfold seen
  rw [volume_setData h]
  rfl

/-- The block at `pos`, if a copy into it was cut short: changed but not logged. -/
def looseBlocks (v : Volume) (i pos : Nat) (short : Prop) : Set Nat :=
  { b | short ∧ v.hold (i, blockSlot (pos / BSIZE)) = some b }

/-- A write cut short: byte `total` cannot be read, and the copy that meets it began at byte
`tot`. A block outside `lh` was in the file before. -/
structure Cut (v : Volume) (i : Nat) (src : Source) (off tot total : Nat) (s : Store)
    (v' : Volume) (lh : List Nat) : Prop where
  readable : ∀ k, k < total → src k ≠ none
  fault : src total = none
  within : total < tot + (BSIZE - (off + tot) % BSIZE)
  aligned : tot = 0 ∨ (off + tot) % BSIZE = 0
  block : ∃ b, v'.hold (i, blockSlot ((off + tot) / BSIZE)) = some b ∧ (b ∉ lh →
    ∀ pos, pos / BSIZE = (off + tot) / BSIZE → (s.buf b).byte (pos % BSIZE) = v.byteAt i pos)

theorem Cut.before {v : Volume} {i off tot total : Nat} {src : Source} {s₁ : Store} {v' : Volume}
    {lh : List Nat} (h : Cut v i src off tot total s₁ v' lh) (tracks : Tracks sb ∅ s s₁)
    (hgrows : s₁.log.lh ⊆ lh) : Cut v i src off tot total s v' lh := by
  obtain ⟨b, hhold, hbyte⟩ := h.block
  refine { h with block := ⟨b, hhold, fun hb => ?_⟩ }
  have hsame : s₁.buf b = s.buf b := by
    by_contra hne
    rcases tracks.modified b hne with hmem | hloose
    · exact hb (hgrows hmem)
    · exact hloose
  rw [← hsame]
  exact hbyte hb

/-- The loop of `writei` stops after `tot` bytes, with `total` in the buffers. -/
structure WriteDone (sb : Superblock) (v : Volume) (src : Source) (off n : Nat) (s : Store)
    (ip : Inode) (tot total : Nat) (ip' : Inode) (s' : Store) : Prop where
  le_total : tot ≤ total
  total_le : total ≤ n
  ip_eq : ∃ addrs, ip' = ip.setAddrs addrs
  written : v.Written sb ip.inum off total src (s'.seen sb ip')
  inode : (s'.volume sb).inode = (s.volume sb).inode
  tracks : Tracks sb (looseBlocks (s'.seen sb ip') ip.inum (off + tot) (tot < n)) s s'
  complete : tot = n ∨ total < n ∧ src total = none
  cut : tot < n → Cut v ip.inum src off tot total s (s'.seen sb ip') s'.log.lh
  logged : tot < n → (SlotLogged s' (s'.seen sb ip') ip.inum ((off + tot) / BSIZE) ↔
    SlotLogged s (s.seen sb ip) ip.inum ((off + tot) / BSIZE))

theorem WriteDone.all {v : Volume} {src : Source} {off n : Nat}
    (written : v.Written sb ip.inum off n src (s.seen sb ip)) :
    WriteDone sb v src off n s ip n n ip s :=
  ⟨Nat.le_refl _, Nat.le_refl _, ⟨_, rfl⟩, written, rfl, Tracks.refl s, .inl rfl,
    fun hlt => absurd hlt (Nat.lt_irrefl _), fun _ => Iff.rfl⟩

theorem wp_writeiLoop {v : Volume} {src : Source} {n fuel tot off : Nat}
    {Q : Nat × Nat × Inode → Store → Prop} {E : Panic → Prop}
    (hW : ∀ c, c < sb.size → sb.BBLOCK c ∈ W) (hfit : off + n ≤ MAXFILE * BSIZE)
    (written : v.Written sb ip.inum off tot src (s.seen sb ip)) (htype : ip.type ≠ 0)
    (hfuel : n - tot ≤ fuel) (htot : tot ≤ n) (hreadable : ∀ k, k < tot → src k ≠ none)
    (haligned : tot < n → tot = 0 ∨ (off + tot) % BSIZE = 0)
    (post : ∀ tot' total ip' s', WriteDone sb v src off n s ip tot' total ip' s' →
      Spent sb W s s' (2 * chunks (off + tot) (n - tot)) (4 * chunks (off + tot) (n - tot)) →
      Q (tot', off + tot', ip') s')
    (stop : ∀ e, Short sb W s (2 * chunks (off + tot) (n - tot))
      (4 * chunks (off + tot) (n - tot)) e → E e) :
    wp (writeiLoop sb src n fuel ip tot (off + tot)) Q E s := by
  induction fuel generalizing s ip tot with
  | zero =>
    obtain rfl : tot = n := by omega
    exact post tot tot ip s (.all written) (Spent.refl.mono (Nat.zero_le _) (Nat.zero_le _))
  | succ fuel ih =>
    unfold writeiLoop
    rw [wp_ite]
    by_cases hmore : tot < n
    · have hbelow : (off + tot) % BSIZE < BSIZE := Nat.mod_lt _ (by decide)
      have hbn : (off + tot) / BSIZE < MAXFILE := by
        rw [Nat.div_lt_iff_lt_mul (by decide)]
        omega
      have hround := @chunks_step (off + tot) (n - tot) (by omega)
      generalize hm : min (n - tot) (BSIZE - (off + tot) % BSIZE) = m at hround
      rw [if_pos hmore, wp_bind]
      refine wp_bmap written.owned htype hbn hW ?_
        fun e he => stop e (he.mono (by omega) (by omega))
      intro addr ip₁ s₁ done hspent
      obtain ⟨addrs, rfl⟩ := done.ip_eq
      obtain ⟨hdata, hlimit, -⟩ := done.filled.owned.bounds done.hold
      have hread : s₁.bread addr = (s₁.seen sb (ip.setAddrs addrs)).block addr :=
        (volume_block hdata).symm
      have hlength := @eitherCopyin_length_le src tot m
      simp only [wp_bind, wp_modify]
      rw [hread]
      generalize hbytes : eitherCopyin src tot m = bytes at hlength
      have hsrc : ∀ k, k < bytes.length → src (tot + k) = some (bytes.getD k 0) := by
        subst hbytes
        exact fun k hk => eitherCopyin_getD hk
      have hreadable' : ∀ k, k < tot + bytes.length → src k ≠ none := by
        subst hbytes
        exact fun k hk => eitherCopyin_readable hreadable hk
      have hchunk := written.chunk done.filled done.hold (by omega) hsrc
      generalize hblock : Block.ofFn (ByteField.putBytes
        ((s₁.seen sb (ip.setAddrs addrs)).block addr).byte ((off + tot) % BSIZE) bytes) =
        block at hchunk
      rw [← seen_setData hdata] at hchunk
      have hinode : ((s₁.setData addr block).volume sb).inode = (s.volume sb).inode := by
        rw [volume_setData hdata]
        exact done.inode
      have hspentWrite : Spent sb W s (s₁.setData addr block) 2 3 :=
        hspent.trans (spent_setData hdata)
      have hholds : ((s₁.setData addr block).seen sb (ip.setAddrs addrs)).hold =
          (s₁.seen sb (ip.setAddrs addrs)).hold := by
        rw [seen_setData hdata, done.filled.owned.hold_setBlock done.hold]
      have hplace : ((s₁.setData addr block).seen sb (ip.setAddrs addrs)).hold
          (ip.inum, blockSlot ((off + tot) / BSIZE)) = some addr := by
        rw [hholds]
        exact done.hold
      have hlogged : ∀ k, SlotLogged (s₁.setData addr block)
          ((s₁.setData addr block).seen sb (ip.setAddrs addrs)) ip.inum k ↔
          SlotLogged s (s.seen sb ip) ip.inum k := by
        intro k
        rw [← done.logged k]
        unfold SlotLogged
        rw [hholds]
        rfl
      rw [wp_ite]
      split
      · rename_i hshort
        have hfirst : ∀ pos, pos / BSIZE = (off + tot) / BSIZE →
            (s₁.buf addr).byte (pos % BSIZE) = v.byteAt ip.inum pos := by
          intro pos hpos
          have hbyte := written.byte_next (haligned hmore) hpos
          rw [← done.filled.byteAt, Volume.byteAt_of_hold (by rw [hpos]; exact done.hold),
            ← hread] at hbyte
          exact hbyte
        have hhere : Cut v ip.inum src off tot (tot + bytes.length) s₁
            ((s₁.setData addr block).seen sb (ip.setAddrs addrs)) s₁.log.lh := by
          refine ⟨hreadable', ?_, by omega, haligned hmore, addr, hplace, fun _ => hfirst⟩
          subst hbytes
          exact eitherCopyin_short hshort
        have hcut := hhere.before done.tracks fun _ hb => hb
        subst hbytes
        refine post tot _ _ _ ⟨Nat.le_add_right _ _, by omega, ⟨_, rfl⟩, hchunk, hinode,
          (done.tracks.mono fun _ hb => hb.elim).trans
            (Tracks.unlogged addr block ⟨hmore, hplace⟩),
          .inr ⟨by omega, eitherCopyin_short hshort⟩, fun _ => hcut, fun _ => hlogged _⟩
          (hspentWrite.mono (by omega) (by omega))
      · rename_i hfull
        have hlen : bytes.length = m := by omega
        rw [hlen] at hchunk
        have hspentLog : Spent sb W s ((s₁.setData addr block).note addr) 2 4 :=
          hspentWrite.trans (spent_note (m := 1) _ (by split <;> omega))
        rw [wp_bind]
        refine wp_logWrite (fun hopen => ?_) fun e he =>
          stop e (Short.of_spent hspentWrite he (by omega) (by omega))
        have htracks : Tracks sb ∅ s ((s₁.setData addr block).note addr) :=
          done.tracks.trans (Tracks.write block hopen (sb.home_data hdata hlimit))
        rw [Nat.add_assoc]
        have hnext : n - (tot + m) = n - tot - m := by omega
        rw [hlen] at hreadable'
        refine @ih ((s₁.setData addr block).note addr) (ip.setAddrs addrs) (tot + m) hchunk htype
          (by omega) (by omega) hreadable' (fun hlt => .inr ?_) ?_ ?_
        · simp only [BSIZE] at hm ⊢
          omega
        · intro tot' total ip' s' rest hspent'
          obtain ⟨addrs', hip'⟩ := rest.ip_eq
          rw [← Nat.add_assoc, hnext] at hspent'
          refine post tot' total ip' s' ⟨rest.le_total, rest.total_le, ⟨addrs', hip'⟩, rest.written,
            rest.inode.trans hinode, (htracks.mono fun _ hb => hb.elim).trans rest.tracks,
            rest.complete, fun hlt => (rest.cut hlt).before htracks rest.tracks.grows, fun hlt => ?_⟩
            ((hspentLog.trans hspent').mono (by omega) (by omega))
          -- the chunk at hand is in another block of the file than the one that fails later
          obtain ⟨readable, hfault, within, aligned, -⟩ := rest.cut hlt
          have htotal : tot + m ≤ total := by
            by_contra hbefore
            exact hreadable' total (by omega) hfault
          have hcomplete := rest.complete
          have hother : (off + tot) / BSIZE ≠ (off + tot') / BSIZE := by
            simp only [BSIZE] at hm within aligned ⊢
            omega
          refine (rest.logged hlt).trans (Iff.trans ?_ (hlogged _))
          exact slotLogged_note (s := s₁.setData addr block) hchunk.owned hplace
            fun heq => hother (Volume.blockSlot_inj heq)
        · intro e he
          rw [← Nat.add_assoc, hnext] at he
          exact stop e (Short.of_spent hspentLog he (by omega) (by omega))
    · obtain rfl : tot = n := by omega
      rw [if_neg hmore, wp_pure]
      exact post tot tot ip s (.all written) (Spent.refl.mono (Nat.zero_le _) (Nat.zero_le _))

end Store

namespace Volume

variable {sb : Superblock} {v v' : Volume} {i j b bn pos : Nat}

theorem fileBlock_ne_none_iff :
    v.fileBlock i bn ≠ none ↔ v.hold (i, blockSlot bn) ≠ none := by
  unfold fileBlock
  rw [ne_eq, Option.map_eq_none_iff]

theorem Owned.fits (h : v.Owned sb) (halloc : v.allocated i) (hsize : (v.inode i).size < 2 ^ 32) :
    (v.inode i).Fits where
  size_lt := hsize
  addrs_lt k := by
    have hlimit := sb.size_lt
    have haddr : (v.inode i).addr k.val = (v.inode i).addrs k := by
      unfold Dinode.addr
      congr 1
      exact Fin.ext (Nat.mod_eq_of_lt k.isLt)
    rw [← haddr]
    by_cases hzero : (v.inode i).addr k.val = 0
    · omega
    · have hheld : v.hold (i, k.val) = some ((v.inode i).addr k.val) :=
        hold_eq_some_iff.mpr ⟨halloc, slot_of_le (Nat.le_of_lt_succ k.isLt), hzero⟩
      have hbound := (h.bounds hheld).2.1
      omega

theorem hold_setInode_same {d : Dinode} (htype : d.type = (v.inode i).type)
    (haddrs : d.addrs = (v.inode i).addrs) : (v.setInode i d).hold = v.hold := by
  funext ⟨j, p⟩
  obtain rfl | hj := eq_or_ne j i
  · have haddr : ∀ k, d.addr k = (v.inode j).addr k := by
      intro k
      unfold Dinode.addr
      rw [haddrs]
    apply hold_congr
    · unfold allocated
      rw [inode_setInode_self, htype]
    · unfold slot
      simp only [inode_setInode_self, haddr, block_setInode]
  · exact hold_setInode_ne hj

theorem Owned.setInode_same (h : v.Owned sb) {d : Dinode} (htype : d.type = (v.inode i).type)
    (haddrs : d.addrs = (v.inode i).addrs) : (v.setInode i d).Owned sb where
  holding := by
    rw [hold_setInode_same htype haddrs]
    exact h.holding
  reserved := h.reserved
  used_lt := h.used_lt

/-- A finished `writei` that reports `tot` bytes, with `total` in the buffers. -/
structure Stored (sb : Superblock) (v : Volume) (i off tot total : Nat) (src : Source)
    (v' : Volume) : Prop where
  owned : v'.Owned sb
  mapped : v'.Mapped
  inode_ne : ∀ j, j ≠ i → v'.inode j = v.inode j
  inode_eq : ∃ addrs, v'.inode i =
    { v.inode i with addrs := addrs, size := max (v.inode i).size (off + tot) }
  byte_ne : ∀ j, j ≠ i → ∀ pos, v'.byteAt j pos = v.byteAt j pos
  byte : ∀ pos, v'.byteAt i pos =
    if off ≤ pos ∧ pos < off + total then (src (pos - off)).getD 0 else v.byteAt i pos

theorem Written.stored {off tot total : Nat} {src : Source} {w : Volume}
    (h : v.Written sb i off total src w) (mapped : v.Mapped) (htot : tot ≤ total)
    (hoff : off ≤ (v.inode i).size) :
    v.Stored sb i off tot total src
      (w.setInode i { w.inode i with size := max (v.inode i).size (off + tot) }) := by
  have hhold := hold_setInode_same (v := w) (i := i)
    (d := { w.inode i with size := max (v.inode i).size (off + tot) }) rfl rfl
  have hfile : ∀ j k,
      (w.setInode i { w.inode i with size := max (v.inode i).size (off + tot) }).fileBlock
      j k = w.fileBlock j k := by
    intro j k
    unfold fileBlock
    rw [hhold]
    rfl
  obtain ⟨addrs, heq⟩ := h.inode_eq
  refine ⟨h.owned.setInode_same rfl rfl, ?_, ?_, ?_, ?_, ?_⟩
  · intro j halloc bn hlt
    rw [← fileBlock_ne_none_iff, hfile]
    unfold allocated at halloc
    obtain rfl | hj := eq_or_ne j i
    · rw [inode_setInode_self] at hlt halloc
      by_cases hinside : bn * BSIZE < (v.inode j).size
      · apply h.kept
        rw [heq] at halloc
        exact fileBlock_ne_none_iff.mpr (mapped j halloc bn hinside)
      · have hcovered := h.covered (bn * BSIZE) (by omega) (by
          have hmax : bn * BSIZE < max (v.inode j).size (off + tot) := hlt
          omega)
        rwa [Nat.mul_div_cancel _ (by decide)] at hcovered
    · rw [inode_setInode_ne hj, h.inode_ne j hj] at hlt halloc
      rw [h.file_ne j hj]
      exact fileBlock_ne_none_iff.mpr (mapped j halloc bn hlt)
  · intro j hj
    rw [inode_setInode_ne hj, h.inode_ne j hj]
  · exact ⟨addrs, by rw [inode_setInode_self, heq]⟩
  · intro j hj pos
    exact byteAt_congr ((hfile _ _).trans (h.file_ne j hj _))
  · intro pos
    rw [← h.byte]
    exact byteAt_congr (hfile _ _)

end Volume

namespace Store

variable {sb : Superblock} {s s' : Store} {ip : Inode} {W : Finset Nat}

def Accepts (size off n : Nat) : Prop :=
  off ≤ size ∧ off + n < 2 ^ 32 ∧ off + n ≤ MAXFILE * BSIZE

theorem writei_refused {src : Source} {off n : UInt32}
    (h : ¬ Accepts ip.size off.toNat n.toNat) : writei sb ip src off n = pure (-1, ip) := by
  unfold writei
  by_cases hout : off.toNat > ip.size ∨ off + n < off
  · rw [if_pos hout]
  · rw [if_neg hout, if_pos]
    rw [add_lt_self_iff] at hout
    unfold Accepts at h
    rw [UInt32.toNat_add, Nat.mod_eq_of_lt (by omega)]
    omega

/-- `writei` stores what can be read, or stops for want of blocks or of log. -/
theorem wp_writei {src : Source} {off n : UInt32} {Q : Int × Inode → Store → Prop}
    {E : Panic → Prop} (hinum : ip.inum < sb.ninodes) (owned : (s.seen sb ip).Owned sb)
    (mapped : (s.seen sb ip).Mapped) (htype : ip.type ≠ 0)
    (hW : ∀ c, c < sb.size → sb.BBLOCK c ∈ W) (hW' : sb.IBLOCK ip.inum ∈ W)
    (haccepts : Accepts ip.size off.toNat n.toNat)
    (post : ∀ tot total addrs ip' s',
      ip' = { ip.setAddrs addrs with size := max ip.size (off.toNat + tot) } →
      tot ≤ total → total ≤ n.toNat → (tot = n.toNat ∨ total < n.toNat ∧ src total = none) →
      (s.seen sb ip).Stored sb ip.inum off.toNat tot total src (s'.volume sb) →
      s'.volume sb = s'.seen sb ip' →
      Tracks sb (looseBlocks (s'.volume sb) ip.inum (off.toNat + tot) (tot < n.toNat)) s s' →
      Spent sb W s s' (2 * chunks off.toNat n.toNat) (4 * chunks off.toNat n.toNat) →
      (tot < n.toNat → Cut (s.seen sb ip) ip.inum src off.toNat tot total s (s'.volume sb) s'.log.lh ∧
        (SlotLogged s' (s'.volume sb) ip.inum ((off.toNat + tot) / BSIZE) ↔
          SlotLogged s (s.seen sb ip) ip.inum ((off.toNat + tot) / BSIZE))) →
      Q ((tot : Int), ip') s')
    (stop : ∀ e, Short sb W s (2 * chunks off.toNat n.toNat) (4 * chunks off.toNat n.toNat) e →
      E e) : wp (writei sb ip src off n) Q E s := by
  have halloc : (s.seen sb ip).allocated ip.inum := seen_allocated s htype
  have hsize : ip.size ≤ MAXFILE * BSIZE := by
    have hle := mapped.size_le halloc
    rwa [seen_inode] at hle
  have hlimit : MAXFILE * BSIZE < 2 ^ 31 := by decide
  obtain ⟨hinside, hfit, hmax⟩ := haccepts
  have hin : ¬ (off.toNat > ip.size ∨ off + n < off) := by
    rw [add_lt_self_iff]
    omega
  unfold writei
  rw [wp_else hin, wp_ite, UInt32.toNat_add, Nat.mod_eq_of_lt hfit, if_neg (by omega)]
  rw [wp_bind]
  have hstart := Volume.Written.start owned ip.inum off.toNat src
  refine @wp_writeiLoop sb s ip W (s.seen sb ip) src n.toNat n.toNat 0 off.toNat _ _ hW (by omega)
    hstart htype (by omega) (by omega) (fun _ hk => absurd hk (Nat.not_lt_zero _))
    (fun _ => .inl rfl) ?_ stop
  intro tot total ip₁ s₁ done hspent
  rw [Nat.add_zero, Nat.sub_zero] at hspent
  obtain ⟨addrs, rfl⟩ := done.ip_eq
  have htotal := done.total_le
  have hle := done.le_total
  let ip₂ : Inode := { ip.setAddrs addrs with size := max ip.size (off.toNat + tot) }
  have hip : (if off.toNat + tot > (ip.setAddrs addrs).size then
      { ip.setAddrs addrs with size := off.toNat + tot } else ip.setAddrs addrs) = ip₂ := by
    change (if off.toNat + tot > ip.size then _ else _) = _
    split
    · simp only [ip₂, Nat.max_eq_right (show ip.size ≤ off.toNat + tot by omega)]
    · simp only [ip₂, Nat.max_eq_left (show off.toNat + tot ≤ ip.size by omega)]
      rfl
  have hstored := done.written.stored mapped done.le_total (by rw [seen_inode]; omega)
  have hseen : s₁.seen sb ip₂ = (s₁.seen sb (ip.setAddrs addrs)).setInode ip.inum
      { (s₁.seen sb (ip.setAddrs addrs)).inode ip.inum with
        size := max ((s.seen sb ip).inode ip.inum).size (off.toNat + tot) } := by
    have hinode : (s₁.seen sb (ip.setAddrs addrs)).inode ip.inum = (ip.setAddrs addrs).toDinode :=
      seen_inode s₁ (ip.setAddrs addrs)
    rw [hinode, seen_inode]
    unfold seen
    exact (Volume.setInode_setInode ..).symm
  rw [← hseen] at hstored
  have hfits : ip₂.toDinode.Fits := by
    have halloc₂ : (s₁.seen sb ip₂).allocated ip₂.inum := seen_allocated s₁ htype
    have hfits := hstored.owned.fits halloc₂
    rw [seen_inode] at hfits
    apply hfits
    change max ip.size (off.toNat + tot) < 2 ^ 32
    omega
  simp only [wp_bind, wp_pure, hip]
  refine wp_iupdate hinum hfits hW' ?_ fun e he =>
    stop e (Short.of_spent hspent he (by omega) (by omega))
  intro s' hvolume htracks hlogs hspent'
  rw [toInt32_of_lt (by omega)]
  have hhold : (s'.volume sb).hold = (s₁.seen sb (ip.setAddrs addrs)).hold := by
    rw [hvolume, hseen]
    exact Volume.hold_setInode_same rfl rfl
  have hloose := done.tracks.trans (htracks.mono fun _ hb => hb.elim)
  unfold looseBlocks at hloose
  rw [← hhold] at hloose
  refine post tot total addrs ip₂ s' rfl done.le_total htotal done.complete ?_ ?_
    hloose (hspent.trans hspent') ?_
  · rw [hvolume]
    exact hstored
  · unfold seen
    rw [hvolume]
    unfold seen
    rw [Volume.setInode_setInode]
  · intro hlt
    obtain ⟨readable, fault, within, aligned, b, hb, hbyte⟩ := done.cut hlt
    refine ⟨⟨readable, fault, within, aligned, b, by rw [hhold]; exact hb,
      fun hnot => hbyte fun hmem => hnot (htracks.grows hmem)⟩, Iff.trans ?_ (done.logged hlt)⟩
    unfold SlotLogged
    rw [hhold]
    refine forall₂_congr fun c hc => ?_
    have hdata := (done.written.owned.bounds hc).1
    have hlow := sb.iblock_lt hinum
    have hregion := sb.bmapstart_lt_dataStart
    rw [hlogs c hdata, or_iff_left]
    change c ≠ sb.IBLOCK ip.inum
    omega

end Store

end Xv6
