import Xv6.Fs.FileSpec

/-! Writes cut short by an unreadable source, which leave a buffer changed but not logged. -/
namespace Xv6

open Lib Lib.Exec

/-- The first byte that cannot be read, or `n`. -/
def Source.fault (src : Source) (n : Nat) : Nat := (eitherCopyin src 0 n).length

/-- Where the copy that meets byte `fault` of the source began: at the start of the block that
byte `fault` goes to, or at the first byte. -/
def cutStart (off fault : Nat) : Nat := (off + fault) / BSIZE * BSIZE - off

/-- Buffers outside the log have the contents of the disk. -/
def Store.Clean (s : Store) : Prop := ∀ b, b ∉ s.log.lh → s.buf b = s.disk b

/-- `t` is `s` after some buffers outside the log were recycled and read again. -/
structure Store.Reread (s t : Store) : Prop where
  log : t.log = s.log
  buf : ∀ b, t.buf b = s.buf b ∨ b ∉ s.log.lh ∧ t.buf b = s.disk b

def wanted (sb : Superblock) (s : Store) (ip : Inode) (src : Source) (off tot i : Nat) :
    List UInt8 :=
  if i = ip.inum then splice ((s.volume sb).contents i) off (src.bytes tot)
  else (s.volume sb).contents i

/-- The write has changed what it reports. -/
structure OnlyReported (sb : Superblock) (s : Store) (ip : Inode) (src : Source) (off tot : Nat)
    (s' : Store) : Prop where
  visible : ∀ t, s'.Reread t → ∀ jp start count, Held sb t jp → start.toNat ≤ jp.size →
    start.toNat + count.toNat < 2 ^ 32 → ∃ bytes,
      bytes = ((wanted sb s ip src off tot jp.inum).take (start.toNat + count.toNat)).drop start.toNat ∧
      Store.readi sb jp (fun _ => true) start count t = .ok (((bytes.length : Int), bytes, jp), t)
  logged : ∀ b, s'.buf b ≠ s.buf b → b ∈ s'.log.lh

variable {sb : Superblock} {s s' t : Store} {ip : Inode} {src : Source} {off n tot total b : Nat}

theorem Source.fault_eq (hreadable : ∀ k, k < total → src k ≠ none) (hfault : src total = none)
    (hle : total ≤ n) : src.fault n = total := by
  have hlength := @eitherCopyin_length_le src 0 n
  unfold fault
  rcases Nat.lt_trichotomy (eitherCopyin src 0 n).length total with hlt | heq | hgt
  · have hnone := @eitherCopyin_short src 0 n (by omega)
    rw [Nat.zero_add] at hnone
    exact absurd hnone (hreadable _ hlt)
  · exact heq
  · have hsome := eitherCopyin_getD hgt
    rw [Nat.zero_add, hfault] at hsome
    cases hsome

theorem Store.Reread.refl (s : Store) : s.Reread s := ⟨rfl, fun _ => .inl rfl⟩

/-- With all changes logged, a recycled buffer comes back as it was. -/
theorem Store.Reread.buf_eq {loose : Set Nat} (h : s'.Reread t) (clean : s.Clean)
    (tracks : Tracks sb loose s s') (logged : ∀ b, s'.buf b ≠ s.buf b → b ∈ s'.log.lh) :
    t.buf = s'.buf := by
  funext b
  rcases h.buf b with heq | ⟨hb, heq⟩
  · exact heq
  · have hsame : s'.buf b = s.buf b := by
      by_contra hne
      exact hb (logged b hne)
    rw [heq, hsame, tracks.disk, clean b fun hmem => hb (tracks.grows hmem)]

theorem Store.Reread.volume_eq (h : t.buf = s.buf) : t.volume sb = s.volume sb := by
  unfold volume dinode used
  rw [h]

theorem wanted_eq (held : Held sb s ip) (hoff : off ≤ ip.size) :
    wanted sb s ip src off tot ip.inum = ByteField.getBytes (fun pos =>
      if off ≤ pos ∧ pos < off + tot then (src (pos - off)).getD 0
      else (s.volume sb).byteAt ip.inum pos) 0 (max ip.size (off + tot)) := by
  have hsize := held.volume_size
  unfold wanted Volume.contents Source.bytes
  rw [if_pos rfl, splice_getBytes (by rwa [hsize]), hsize]

theorem onlyReported_of_logged {loose : Set Nat} (wf : WellFormed sb s') (clean : s.Clean)
    (tracks : Tracks sb loose s s') (logged : ∀ b, s'.buf b ≠ s.buf b → b ∈ s'.log.lh)
    (hcontents : ∀ i, (s'.volume sb).contents i = wanted sb s ip src off tot i) :
    OnlyReported sb s ip src off tot s' := by
  refine ⟨?_, logged⟩
  intro t reread jp start count held hstart hfit
  have hvolume : t.volume sb = s'.volume sb :=
    Store.Reread.volume_eq (reread.buf_eq clean tracks logged)
  have hwf : WellFormed sb t := by
    rw [wellFormed_iff, hvolume, ← wellFormed_iff]
    exact wf
  have hread := (readiSpec hwf held (fun _ => true) start count).inside hstart hfit fun _ _ => rfl
  rwa [hvolume, hcontents] at hread

theorem OnlyReported.contents_eq {ip' : Inode} (h : OnlyReported sb s ip src off tot s')
    (wf : WellFormed sb s') (held : Held sb s' ip')
    (hlength : (wanted sb s ip src off tot ip'.inum).length = ip'.size) :
    (s'.volume sb).contents ip'.inum = wanted sb s ip src off tot ip'.inum := by
  have hsmall := held.size_lt (wellFormed_iff.mp wf).2
  have hcount : (UInt32.ofNat ip'.size).toNat = ip'.size :=
    UInt32.toNat_ofNat_of_lt' (hsmall.trans (by decide))
  have hzero : (0 : UInt32).toNat = 0 := rfl
  obtain ⟨bytes, hbytes, hrun⟩ := h.visible s' (Store.Reread.refl s') ip' 0 (UInt32.ofNat ip'.size)
    held (by omega) (by omega)
  obtain ⟨bytes', hbytes', hrun'⟩ := (readiSpec wf held (fun _ => true) 0
    (UInt32.ofNat ip'.size)).inside (by omega) (by omega) fun _ _ => rfl
  rw [hrun] at hrun'
  have hsame : bytes = bytes' := by
    simp only [Except.ok.injEq, Prod.mk.injEq] at hrun'
    exact hrun'.1.2.1
  have hfull : ((s'.volume sb).contents ip'.inum).length = ip'.size :=
    (Volume.contents_length _ _).trans held.volume_size
  rw [hzero, hcount, Nat.zero_add, List.drop_zero, List.take_of_length_le (by omega)] at hbytes hbytes'
  rw [← hbytes', ← hsame, hbytes]

theorem contents_eq_wanted_iff (held : Held sb s ip) (hoff : off ≤ ip.size) (hle : tot ≤ total)
    (stored : (s.volume sb).Stored sb ip.inum off tot total src (s'.volume sb)) :
    (s'.volume sb).contents ip.inum = wanted sb s ip src off tot ip.inum ↔
      ∀ j, tot ≤ j → j < total → off + j < ip.size →
        (src j).getD 0 = (s.volume sb).byteAt ip.inum (off + j) := by
  obtain ⟨addrs, hinode⟩ := stored.inode_eq
  have hsize := held.volume_size
  have hcontents : (s'.volume sb).contents ip.inum =
      ByteField.getBytes ((s'.volume sb).byteAt ip.inum) 0 (max ip.size (off + tot)) := by
    unfold Volume.contents
    rw [hinode]
    simp only [hsize]
  rw [wanted_eq held hoff, hcontents]
  constructor
  · intro heq j hlow hhigh hinside
    have hbyte := congrArg (fun l => l.getD (off + j) 0) heq
    rw [ByteField.getBytes_getD (by omega), ByteField.getBytes_getD (by omega), Nat.zero_add,
      stored.byte, if_pos (by omega), if_neg (by omega), Nat.add_sub_cancel_left] at hbyte
    exact hbyte
  · intro hbytes
    apply ByteField.getBytes_congr
    intro pos hpos
    rw [Nat.zero_add, stored.byte]
    by_cases hreported : off ≤ pos ∧ pos < off + tot
    · rw [if_pos (by omega), if_pos hreported]
    · rw [if_neg hreported]
      by_cases hcopied : off ≤ pos ∧ pos < off + total
      · have hbyte := hbytes (pos - off) (by omega) (by omega) (by omega)
        rw [if_pos hcopied, hbyte, Nat.add_sub_cancel' hcopied.1]
      · rw [if_neg hcopied]

/-- The block of the failed copy is unchanged if it got the bytes it had. -/
theorem buf_eq_iff (hlow : sb.dataStart ≤ b)
    (stored : (s.volume sb).Stored sb ip.inum off tot total src (s'.volume sb))
    (within : total < tot + (BSIZE - (off + tot) % BSIZE))
    (aligned : tot = 0 ∨ (off + tot) % BSIZE = 0)
    (hhold : (s'.volume sb).hold (ip.inum, blockSlot ((off + tot) / BSIZE)) = some b)
    (hold : ∀ pos, pos / BSIZE = (off + tot) / BSIZE →
      (s.buf b).byte (pos % BSIZE) = (s.volume sb).byteAt ip.inum pos) :
    s'.buf b = s.buf b ↔ ∀ j, tot ≤ j → j < total →
      (src j).getD 0 = (s.volume sb).byteAt ip.inum (off + j) := by
  have hnew : ∀ pos, pos / BSIZE = (off + tot) / BSIZE →
      (s'.buf b).byte (pos % BSIZE) = (s'.volume sb).byteAt ip.inum pos := by
    intro pos hpos
    rw [Volume.byteAt_of_hold (by rw [hpos]; exact hhold), Store.volume_block hlow]
  constructor
  · intro heq j hj hj'
    have hpos : (off + j) / BSIZE = (off + tot) / BSIZE := by
      simp only [BSIZE] at within ⊢
      omega
    rw [← hold _ hpos, ← heq, hnew _ hpos, stored.byte, if_pos (by omega), Nat.add_sub_cancel_left]
  · intro hbytes
    apply Block.ext
    intro i hi
    have hpos : ((off + tot) / BSIZE * BSIZE + i) / BSIZE = (off + tot) / BSIZE := by
      simp only [BSIZE] at hi ⊢
      omega
    have hmod : ((off + tot) / BSIZE * BSIZE + i) % BSIZE = i := by
      simp only [BSIZE] at hi ⊢
      omega
    have hfirst := hnew _ hpos
    have hsecond := hold _ hpos
    rw [hmod] at hfirst hsecond
    rw [hfirst, hsecond, stored.byte]
    by_cases hcopied : off ≤ (off + tot) / BSIZE * BSIZE + i ∧
        (off + tot) / BSIZE * BSIZE + i < off + total
    · have hstart : off + tot ≤ (off + tot) / BSIZE * BSIZE + i := by
        simp only [BSIZE] at aligned hcopied ⊢
        omega
      rw [if_pos hcopied]
      have hbyte := hbytes ((off + tot) / BSIZE * BSIZE + i - off) (by omega) (by omega)
      rw [hbyte, Nat.add_sub_cancel' hcopied.1]
    · rw [if_neg hcopied]

/-- A short write changes only what it reports if and only if each byte of the failed copy was
there before, or lies past the end of the file in a block that is new or was logged before. -/
theorem short_write_exact_iff {off n : UInt32} {ip' : Inode} (wf : WellFormed sb s)
    (held : Held sb s ip) (clean : s.Clean) (haccepts : Store.Accepts ip.size off.toNat n.toNat)
    (run : Store.writei sb ip src off n s = .ok (((tot : Int), ip'), s')) (hshort : tot < n.toNat) :
    OnlyReported sb s ip src off.toNat tot s' ↔
      ∀ j, cutStart off.toNat (src.fault n.toNat) ≤ j → j < src.fault n.toNat →
        src j = some ((s.volume sb).byteAt ip.inum (off.toNat + j)) ∨
        ip.size ≤ off.toNat + j ∧ ∀ b, (s.volume sb).hold (ip.inum,
          blockSlot ((off.toNat + src.fault n.toNat) / BSIZE)) = some b → b ∈ s.log.lh := by
  obtain ⟨owned, mapped⟩ := wellFormed_iff.mp wf
  have hseen := held.seen
  have hwp : wp (Store.writei sb ip src off n) (fun r s' => ∃ tot total : Nat, r.1 = tot ∧
      tot ≤ total ∧ total ≤ n.toNat ∧
      (s.volume sb).Stored sb ip.inum off.toNat tot total src (s'.volume sb) ∧
      Held sb s' r.2 ∧ r.2.inum = ip.inum ∧ r.2.size = max ip.size (off.toNat + tot) ∧
      Tracks sb (Store.looseBlocks (s'.volume sb) ip.inum (off.toNat + tot) (tot < n.toNat)) s s' ∧
      (tot < n.toNat → Store.Cut (s.volume sb) ip.inum src off.toNat tot total s (s'.volume sb)
        s'.log.lh ∧ (s'.SlotLogged (s'.volume sb) ip.inum ((off.toNat + tot) / BSIZE) ↔
          s.SlotLogged (s.volume sb) ip.inum ((off.toNat + tot) / BSIZE)))) (fun _ => True) s := by
    refine Store.wp_writei held.inum_lt (by rwa [hseen]) (by rwa [hseen]) held.allocated
      (fun c hc => bblock_mem_metaBlocks ip.inum hc) (iblock_mem_metaBlocks ip.inum) haccepts ?_
      (fun _ _ => trivial)
    intro tot total addrs ip' s' hip hle htotal _ hstored hvolume htracks _ hcut
    rw [hseen] at hstored hcut
    subst hip
    exact ⟨tot, total, rfl, hle, htotal, hstored, held_of_seen held.inum_lt held.allocated hvolume,
      rfl, rfl, htracks, hcut⟩
  obtain ⟨tot', total, hr, hle, htotal, stored, held', hinum, hsize, tracks, hcut⟩ :=
    post_of_wp hwp run
  have htot : tot' = tot := (Int.ofNat.inj hr).symm
  subst htot
  obtain ⟨⟨readable, fault, within, aligned, b, hhold, hbefore⟩, hslot⟩ := hcut hshort
  have hfault := Source.fault_eq readable fault htotal
  have hstart : cutStart off.toNat total = tot' := by
    unfold cutStart
    simp only [BSIZE] at within aligned ⊢
    omega
  have hblock : (off.toNat + total) / BSIZE = (off.toNat + tot') / BSIZE := by
    simp only [BSIZE] at within ⊢
    omega
  have hmem : s.SlotLogged (s.volume sb) ip.inum ((off.toNat + tot') / BSIZE) ↔ b ∈ s'.log.lh := by
    rw [← hslot]
    unfold Store.SlotLogged
    rw [hhold]
    simp
  have hlow := (stored.owned.bounds hhold).1
  have hsome : ∀ j, j < total → src j = some ((src j).getD 0) := by
    intro j hj
    cases hbyte : src j with
    | none => exact absurd hbyte (readable j hj)
    | some byte => rfl
  have hwf : WellFormed sb s' := wellFormed_iff.mpr ⟨stored.owned, stored.mapped⟩
  have hlength : (wanted sb s ip src off.toNat tot' ip'.inum).length = ip'.size := by
    rw [hinum, wanted_eq held haccepts.1, ByteField.getBytes_length, hsize]
  have hlogged : (∀ c, s'.buf c ≠ s.buf c → c ∈ s'.log.lh) ↔
      (b ∉ s'.log.lh → s'.buf b = s.buf b) := by
    constructor
    · intro h hb
      by_contra hne
      exact hb (h b hne)
    · intro h c hc
      rcases tracks.modified c hc with hmem | ⟨-, hloose⟩
      · exact hmem
      · rw [hhold] at hloose
        cases hloose
        by_contra hb
        exact hc (h hb)
  have hvisible := contents_eq_wanted_iff held haccepts.1 hle stored
  rw [hfault, hstart, hblock]
  constructor
  · intro h j hj hj'
    by_cases hb : b ∈ s'.log.lh
    · by_cases hinside : off.toNat + j < ip.size
      · have hcontents := h.contents_eq hwf held' hlength
        rw [hinum, hvisible] at hcontents
        rw [← hcontents j hj hj' hinside]
        exact .inl (hsome j hj')
      · exact .inr ⟨by omega, hmem.mpr hb⟩
    · have hsame := (buf_eq_iff hlow stored within aligned hhold (hbefore hb)).mp
        (hlogged.mp h.logged hb)
      rw [← hsame j hj hj']
      exact .inl (hsome j hj')
  · intro h
    refine onlyReported_of_logged hwf clean tracks (hlogged.mpr fun hb => ?_) ?_
    · refine (buf_eq_iff hlow stored within aligned hhold (hbefore hb)).mpr ?_
      intro j hj hj'
      rcases h j hj hj' with heq | ⟨-, hslot'⟩
      · rw [heq, Option.getD_some]
      · exact absurd (hmem.mp hslot') hb
    · intro i
      by_cases hi : i = ip.inum
      · rw [hi, hvisible]
        intro j hj hj' hinside
        rcases h j hj hj' with heq | ⟨houtside, -⟩
        · rw [heq, Option.getD_some]
        · omega
      · rw [stored.contents_ne hi]
        exact (if_neg hi).symm

def syncedStore : Store := { smallStore with disk := smallStore.buf }

def syncedSb : Superblock := smallSb 40 small_le40 forty_le

def fourBytes (byte : UInt8) : Source := fun k => if k < 4 then some byte else none

/-- Write eight bytes, four of which can be read, over zeros: the count, the first byte read
back, its buffer, and whether its block is logged. -/
def writeEight (byte : UInt8) : Option (Int × List UInt8 × UInt8 × Bool) :=
  match Store.writei syncedSb smallFile (fourBytes byte) 0 8 syncedStore with
  | .error _ => none
  | .ok ((tot, ip), s) =>
    match Store.readi syncedSb ip (fun _ => true) 0 1 s with
    | .error _ => none
    | .ok ((_, bytes, _), _) => some (tot, bytes, (s.buf 34).byte 0, decide (34 ∈ s.log.lh))

theorem run_of_writeEight {byte got : UInt8} {bytes : List UInt8} {logged : Bool}
    (h : writeEight byte = some (0, bytes, got, logged)) : ∃ ip' s',
      Store.writei syncedSb smallFile (fourBytes byte) 0 8 syncedStore = .ok (((0 : Nat), ip'), s') ∧
      (s'.buf 34).byte 0 = got ∧ decide (34 ∈ s'.log.lh) = logged := by
  unfold writeEight at h
  split at h
  · cases h
  · rename_i tot ip' s' hrun
    split at h
    · cases h
    · simp only [Option.some.injEq, Prod.mk.injEq] at h
      obtain ⟨rfl, -, hgot, hlogged⟩ := h
      exact ⟨ip', s', hrun, hgot, hlogged⟩

theorem syncedStore_facts : WellFormed syncedSb syncedStore ∧ Held syncedSb syncedStore smallFile ∧
    syncedStore.Clean ∧ Store.Accepts smallFile.size (0 : UInt32).toNat (8 : UInt32).toNat := by
  have hwf : WellFormed syncedSb smallStore := smallStore_wellFormed _ _
  have hheld : Held syncedSb smallStore smallFile := smallStore_held _ _
  exact ⟨⟨hwf.blocks, hwf.reserved⟩, ⟨hheld.inum_lt, hheld.dinode_eq, hheld.allocated⟩, fun _ _ => rfl,
    ⟨by decide, by decide, by decide⟩⟩

/-- Zeros over zeros do no harm. -/
theorem short_write_exact_iff_zeros : ∃ ip' s',
    Store.writei syncedSb smallFile (fourBytes 0) 0 8 syncedStore = .ok (((0 : Nat), ip'), s') ∧
      OnlyReported syncedSb syncedStore smallFile (fourBytes 0) 0 0 s' := by
  obtain ⟨wf, held, clean, haccepts⟩ := syncedStore_facts
  obtain ⟨ip', s', hrun, -⟩ := run_of_writeEight (show writeEight 0 = some (0, [0], 0, false) by
    decide +kernel)
  refine ⟨ip', s', hrun, (short_write_exact_iff wf held clean haccepts hrun (by decide)).mpr ?_⟩
  intro j _ hj
  have hbytes : ∀ j, j < 4 →
      fourBytes 0 j = some ((syncedStore.volume syncedSb).byteAt 1 (0 + j)) := by
    decide +kernel
  have hfour : (fourBytes 0).fault 8 = 4 := by decide
  exact .inl (hbytes j (hfour ▸ hj))

/-- Sevens over zeros: no byte is reported, and the file reads 7. -/
theorem short_write_visible : WellFormed syncedSb syncedStore ∧ Held syncedSb syncedStore smallFile ∧
    syncedStore.Clean ∧ Store.Accepts smallFile.size (0 : UInt32).toNat (8 : UInt32).toNat ∧
    writeEight 7 = some (0, [7], 7, false) ∧
    ∃ ip' s', Store.writei syncedSb smallFile (fourBytes 7) 0 8 syncedStore =
        .ok (((0 : Nat), ip'), s') ∧
      ¬ OnlyReported syncedSb syncedStore smallFile (fourBytes 7) 0 0 s' := by
  obtain ⟨wf, held, clean, haccepts⟩ := syncedStore_facts
  have hseven : writeEight 7 = some (0, [7], 7, false) := by decide +kernel
  obtain ⟨ip', s', hrun, hgot, hlogged⟩ := run_of_writeEight hseven
  refine ⟨wf, held, clean, haccepts, hseven, ip', s', hrun, fun h => ?_⟩
  have hbyte : (syncedStore.buf 34).byte 0 = 0 := by decide
  have hmem := h.logged 34 fun heq => by
    rw [heq, hbyte] at hgot
    cases hgot
  simp [hmem] at hlogged

end Xv6
