import Mathlib.Data.Finset.Card
import Mathlib.Data.Finset.Range
import Xv6.Lib.BitMap
import Xv6.Fs.Layout

/-! The block allocator, and the resources it draws on. -/
namespace Xv6

open Function Finset Store
open Lib Lib.Exec

variable (sb : Superblock)

namespace Store

def note (s : Store) (blockno : Nat) : Store :=
  s.setLh (if blockno ∈ s.log.lh then s.log.lh else s.log.lh ++ [blockno])

def logWrite (blockno : Nat) : Exec Store Panic Unit := fun s =>
  match s.log.write blockno with
  | .ok log => .ok ((), { s with log := log })
  | .error e => .error e

def bzero (bno : Nat) : Exec Store Panic Unit := do
  modify fun s => s.setData bno Block.zero
  logWrite bno

def used (s : Store) (b : Nat) : Bool :=
  BitMap.test (s.buf (sb.BBLOCK b)).byte (b % BPB)

/-- The inner loop of `balloc`: the first clear bit in the map block of `b`. -/
def clearBitOf (s : Store) (b : Nat) : Option Nat :=
  (List.range (min BPB (sb.size - b))).find? fun bi =>
    !BitMap.test (s.bread (sb.BBLOCK b)).byte bi

def balloc : Exec Store Panic Nat := do
  let s ← get
  match (List.range ((sb.size + BPB - 1) / BPB)).findSome? fun k =>
    (s.clearBitOf sb (k * BPB)).map (k * BPB, ·) with
  | none => throw .outOfBlocks
  | some (b, bi) => do
    set (s.setData (sb.BBLOCK b) (Block.ofFn (BitMap.mark (s.bread (sb.BBLOCK b)).byte bi)))
    logWrite (sb.BBLOCK b)
    bzero (b + bi)
    return b + bi

def firstFreeIn (s : Store) (k : Nat) : Option Nat :=
  (s.clearBitOf sb (k * BPB)).map (k * BPB + ·)

def firstFree (s : Store) : Option Nat :=
  (List.range ((sb.size + BPB - 1) / BPB)).findSome? (s.firstFreeIn sb)

def markBit (s : Store) (b : Nat) : Store :=
  s.setData (sb.BBLOCK b) (Block.ofFn (BitMap.mark (s.bread (sb.BBLOCK b)).byte (b % BPB)))

def clearBit (s : Store) (b : Nat) : Store :=
  s.setData (sb.BBLOCK b) (Block.ofFn (BitMap.clear (s.bread (sb.BBLOCK b)).byte (b % BPB)))

def bfree (b : Nat) : Exec Store Panic Unit := do
  let s ← get
  if s.used sb b = false then throw .freeingFreeBlock
  else do
    set (s.clearBit sb b)
    logWrite (sb.BBLOCK b)

end Store

def Log.Open (log : Log) : Prop :=
  log.lh.length < LOGSIZE ∧ log.lh.length + 1 < log.size ∧ 1 ≤ log.outstanding

/-- Nothing reached the disk, and every change but those in `loose` was logged. -/
structure Tracks (loose : Set Nat) (s s' : Store) : Prop where
  disk : s'.disk = s.disk
  log : s'.log = { s.log with lh := s'.log.lh }
  grows : s.log.lh ⊆ s'.log.lh
  fits : s'.log.lh = s.log.lh ∨ s'.log.lh.length ≤ LOGSIZE ∧ s'.log.lh.length + 1 ≤ s.log.size
  home : ∀ b, b ∈ s'.log.lh → b ∈ s.log.lh ∨ sb.Home b
  nodup : s.log.lh.Nodup → s'.log.lh.Nodup
  modified : ∀ b, s'.buf b ≠ s.buf b → b ∈ s'.log.lh ∨ b ∈ loose

/-! Resources. -/

def Store.freeBlocks (s : Store) : Nat :=
  ((Finset.range sb.size).filter fun b => s.used sb b = false).card

def Store.unlogged (s : Store) (W : Finset Nat) : Nat :=
  (W.filter fun b => b ∉ s.log.lh).card

/-- `blocks` free blocks, and log space for `W` and `writes` blocks besides. -/
structure Room (W : Finset Nat) (s : Store) (blocks writes : Nat) : Prop where
  outstanding : 1 ≤ s.log.outstanding
  blocks_le : blocks ≤ s.freeBlocks sb
  header_lt : s.log.lh.length + s.unlogged W + writes < LOGSIZE
  log_lt : s.log.lh.length + s.unlogged W + writes + 1 < s.log.size

/-- Out of blocks or of log. -/
def Panic.Exhausted (e : Panic) : Prop :=
  e = .outOfBlocks ∨ e = .tooBigTransaction ∨ e = .logWriteOutsideTrans

/-- Stopped for want of resources, with less than this at the start. -/
def Short (W : Finset Nat) (s : Store) (blocks writes : Nat) (e : Panic) : Prop :=
  e.Exhausted ∧ ¬ Room sb W s blocks writes

/-- At most these resources were taken. -/
def Spent (W : Finset Nat) (s s' : Store) (blocks writes : Nat) : Prop :=
  ∀ k m, Room sb W s (k + blocks) (m + writes) → Room sb W s' k m

variable {sb} {W : Finset Nat} {s s' s'' : Store}

theorem Room.mono {k m k' m' : Nat} (h : Room sb W s k m) (hk : k' ≤ k) (hm : m' ≤ m) :
    Room sb W s k' m' where
  outstanding := h.outstanding
  blocks_le := Nat.le_trans hk h.blocks_le
  header_lt := by
    have hroom := h.header_lt
    omega
  log_lt := by
    have hroom := h.log_lt
    omega

theorem Spent.refl : Spent sb W s s 0 0 := fun _ _ h => h

theorem Spent.trans {k m k' m' : Nat} (first : Spent sb W s s' k m)
    (second : Spent sb W s' s'' k' m') : Spent sb W s s'' (k + k') (m + m') := by
  intro j l h
  apply second
  apply first
  exact h.mono (by omega) (by omega)

theorem Spent.mono {k m k' m' : Nat} (h : Spent sb W s s' k m) (hk : k ≤ k') (hm : m ≤ m') :
    Spent sb W s s' k' m' := fun _ _ room => h _ _ (room.mono (by omega) (by omega))

theorem Short.of_spent {k m k' m' K M : Nat} {e : Panic} (spent : Spent sb W s s' k m)
    (h : Short sb W s' k' m' e) (hk : k + k' ≤ K) (hm : m + m' ≤ M) : Short sb W s K M e := by
  refine ⟨h.1, fun room => h.2 ?_⟩
  apply spent
  exact room.mono (by omega) (by omega)

theorem Short.mono {k m K M : Nat} {e : Panic} (h : Short sb W s k m e) (hk : k ≤ K)
    (hm : m ≤ M) : Short sb W s K M e :=
  Short.of_spent Spent.refl h (by omega) (by omega)

theorem Spent.of_log_eq {k : Nat} (hlog : s'.log = s.log)
    (hfree : s.freeBlocks sb ≤ s'.freeBlocks sb + k) : Spent sb W s s' k 0 := by
  intro j l h
  have hblocks := h.blocks_le
  refine ⟨?_, by omega, ?_, ?_⟩
  · rw [hlog]
    exact h.outstanding
  · unfold Store.unlogged
    rw [hlog]
    exact h.header_lt
  · unfold Store.unlogged
    rw [hlog]
    exact h.log_lt

namespace Store

theorem unlogged_note_le (s : Store) (blockno : Nat) :
    (s.note blockno).log.lh.length + (s.note blockno).unlogged W ≤
      s.log.lh.length + s.unlogged W + if blockno ∈ W then 0 else 1 := by
  unfold note unlogged
  by_cases hlogged : blockno ∈ s.log.lh
  · simp [setLh, hlogged]
  simp only [setLh, if_neg hlogged, List.length_append, List.length_singleton]
  by_cases hmem : blockno ∈ W
  · have hsub : (W.filter fun b => b ∉ s.log.lh ++ [blockno]) ⊂ W.filter fun b => b ∉ s.log.lh := by
      rw [ssubset_iff_of_subset]
      · exact ⟨blockno, by simp [hmem, hlogged], by simp⟩
      · intro b hb
        simp only [mem_filter, List.mem_append, not_or] at hb ⊢
        exact ⟨hb.1, hb.2.1⟩
    have hcard := card_lt_card hsub
    rw [if_pos hmem]
    omega
  · have hsub : (W.filter fun b => b ∉ s.log.lh ++ [blockno]) ⊆ W.filter fun b => b ∉ s.log.lh := by
      intro b hb
      simp only [mem_filter, List.mem_append, not_or] at hb ⊢
      exact ⟨hb.1, hb.2.1⟩
    have hcard := card_le_card hsub
    rw [if_neg hmem]
    omega

theorem spent_note (blockno : Nat) {m : Nat} (hm : (if blockno ∈ W then 0 else 1) ≤ m) :
    Spent sb W s (s.note blockno) 0 m := by
  intro j l h
  have hnote := @unlogged_note_le W s blockno
  have hheader := h.header_lt
  have hlog := h.log_lt
  exact ⟨h.outstanding, h.blocks_le, by omega, by
    change (s.note blockno).log.lh.length + (s.note blockno).unlogged W + l + 1 < s.log.size
    omega⟩

theorem logWrite_eq (s : Store) (blockno : Nat) :
    logWrite blockno s =
      if s.log.lh.length ≥ LOGSIZE ∨ s.log.lh.length + 1 ≥ s.log.size then
        .error .tooBigTransaction
      else if s.log.outstanding < 1 then .error .logWriteOutsideTrans
      else .ok ((), s.note blockno) := by
  unfold logWrite Log.write note setLh
  by_cases hfull : s.log.lh.length ≥ LOGSIZE ∨ s.log.lh.length + 1 ≥ s.log.size
  · simp [hfull]
  by_cases houtside : s.log.outstanding < 1
  · simp [hfull, houtside]
  by_cases hlogged : blockno ∈ s.log.lh
  · simp [hfull, houtside, hlogged]
  · simp [hfull, houtside, hlogged]

theorem wp_logWrite {Q : Unit → Store → Prop} {E : Panic → Prop} {blockno : Nat}
    (post : s.log.Open → Q () (s.note blockno)) (stop : ∀ e, Short sb W s 0 0 e → E e) :
    wp (logWrite blockno) Q E s := by
  unfold wp
  rw [logWrite_eq]
  split_ifs with hfull houtside
  · refine stop _ ⟨.inr (.inl rfl), fun room => ?_⟩
    have hheader := room.header_lt
    have hlog := room.log_lt
    omega
  · refine stop _ ⟨.inr (.inr rfl), fun room => ?_⟩
    have hopen := room.outstanding
    omega
  · exact post ⟨by omega, by omega, by omega⟩

@[simp] theorem buf_note (s : Store) (blockno : Nat) : (s.note blockno).buf = s.buf := rfl

@[simp] theorem buf_setData_self (s : Store) (blockno : Nat) (data : Block) :
    (s.setData blockno data).buf blockno = data := update_self ..

theorem buf_setData_ne {s : Store} {blockno b : Nat} {data : Block} (h : b ≠ blockno) :
    (s.setData blockno data).buf b = s.buf b := update_of_ne h ..

theorem mem_lh_note {b c : Nat} : c ∈ (s.note b).log.lh ↔ c ∈ s.log.lh ∨ c = b := by
  unfold note setLh
  by_cases hb : b ∈ s.log.lh
  · simp only [if_pos hb]
    constructor
    · exact .inl
    · rintro (hc | rfl)
      · exact hc
      · exact hb
  · simp [if_neg hb]

end Store

namespace Tracks

variable {loose : Set Nat}

theorem refl (s : Store) : Tracks sb loose s s where
  disk := rfl
  log := rfl
  grows := fun _ h => h
  fits := .inl rfl
  home _ h := .inl h
  nodup h := h
  modified _ h := absurd rfl h

theorem trans (first : Tracks sb loose s s') (second : Tracks sb loose s' s'') :
    Tracks sb loose s s'' where
  disk := second.disk.trans first.disk
  log := by rw [second.log, first.log]
  grows := fun _ h => second.grows (first.grows h)
  fits := by
    have hsize : s'.log.size = s.log.size := by rw [first.log]
    rcases second.fits with heq | hle
    · rw [heq]
      exact first.fits
    · exact .inr (hsize ▸ hle)
  home b hb := by
    rcases second.home b hb with hmem | hlow
    · exact first.home b hmem
    · exact .inr hlow
  nodup h := second.nodup (first.nodup h)
  modified b hb := by
    by_cases hmid : s'.buf b = s.buf b
    · exact second.modified b (by rwa [hmid])
    · rcases first.modified b hmid with hmem | hloose
      · exact .inl (second.grows hmem)
      · exact .inr hloose

theorem mono {loose' : Set Nat} (h : Tracks sb loose s s') (hsub : ∀ b, b ∈ loose → b ∈ loose') :
    Tracks sb loose' s s' :=
  { h with modified := fun b hb => (h.modified b hb).imp id (hsub b) }

theorem write {b : Nat} (data : Block) (hopen : s.log.Open) (hb : sb.Home b) :
    Tracks sb loose s ((s.setData b data).note b) where
  disk := rfl
  log := rfl
  grows _ h := mem_lh_note.mpr (.inl h)
  fits := by
    right
    obtain ⟨hheader, hroom, -⟩ := hopen
    unfold Store.note Store.setLh Store.setData
    split
    · exact ⟨Nat.le_of_lt hheader, Nat.le_of_lt hroom⟩
    · rw [List.length_append]
      exact ⟨hheader, hroom⟩
  home c hc := by
    rcases mem_lh_note.mp hc with hmem | rfl
    · exact .inl hmem
    · exact .inr hb
  nodup h := by
    unfold Store.note Store.setLh Store.setData
    split
    · exact h
    · rename_i hnew
      exact List.nodup_append.mpr ⟨h, List.nodup_singleton b, by
        rintro c hc _ hmem rfl
        exact hnew (List.mem_singleton.mp hmem ▸ hc)⟩
  modified c hc := by
    left
    rw [mem_lh_note]
    by_contra hne
    exact hc (update_of_ne (fun heq => hne (.inr heq)) ..)

theorem unlogged (b : Nat) (data : Block) (hb : b ∈ loose) : Tracks sb loose s (s.setData b data) where
  disk := rfl
  log := rfl
  grows _ h := h
  fits := .inl rfl
  home _ h := .inl h
  nodup h := h
  modified c hc := by
    right
    by_contra hne
    have hcb : c ≠ b := by
      rintro rfl
      exact hne hb
    exact hc (update_of_ne hcb ..)

end Tracks

namespace Store

theorem used_congr {b : Nat} (h : s'.buf (sb.BBLOCK b) = s.buf (sb.BBLOCK b)) :
    s'.used sb b = s.used sb b := by
  unfold used
  rw [h]

theorem mod_bpb_div_lt (b : Nat) : b % BPB / 8 < BSIZE := by
  simp only [BPB, BSIZE]
  omega

theorem bblock_ne_of_mod_eq {b c : Nat} (h : c ≠ b) (hmod : c % BPB = b % BPB) :
    sb.BBLOCK c ≠ sb.BBLOCK b := by
  simp only [Superblock.BBLOCK, BPB, BSIZE] at hmod ⊢
  omega

theorem used_setBit_ne {bytes : Nat → UInt8} {b c : Nat} (h : c ≠ b)
    (hother : ∀ j, j ≠ b % BPB →
      BitMap.test bytes j = BitMap.test (s.buf (sb.BBLOCK b)).byte j) :
    (s.setData (sb.BBLOCK b) (Block.ofFn bytes)).used sb c = s.used sb c := by
  unfold used
  by_cases hblock : sb.BBLOCK c = sb.BBLOCK b
  · have hmod : c % BPB ≠ b % BPB := fun hmod => bblock_ne_of_mod_eq h hmod hblock
    rw [hblock, buf_setData_self, ← hother _ hmod]
    exact BitMap.test_congr (Block.byte_ofFn _ (mod_bpb_div_lt c))
  · rw [buf_setData_ne hblock]

theorem used_markBit (s : Store) (b : Nat) :
    (s.markBit sb b).used sb = update (s.used sb) b true := by
  funext c
  obtain rfl | h := eq_or_ne c b
  · rw [update_self]
    unfold used markBit
    rw [buf_setData_self, BitMap.test_congr (Block.byte_ofFn _ (mod_bpb_div_lt c))]
    exact BitMap.test_mark_self _ _
  · rw [update_of_ne h]
    exact used_setBit_ne h fun j hj => BitMap.test_mark_ne hj

theorem used_clearBit (s : Store) (b : Nat) :
    (s.clearBit sb b).used sb = update (s.used sb) b false := by
  funext c
  obtain rfl | h := eq_or_ne c b
  · rw [update_self]
    unfold used clearBit
    rw [buf_setData_self, BitMap.test_congr (Block.byte_ofFn _ (mod_bpb_div_lt c))]
    exact BitMap.test_clear_self _ _
  · rw [update_of_ne h]
    exact used_setBit_ne h fun j hj => BitMap.test_clear_ne hj

theorem base_add_mod {k bi : Nat} (h : bi < BPB) : (k * BPB + bi) % BPB = bi := by
  rw [Nat.add_comm, Nat.add_mul_mod_self_right, Nat.mod_eq_of_lt h]

theorem bblock_base_add {k bi : Nat} (h : bi < BPB) :
    sb.BBLOCK (k * BPB + bi) = sb.BBLOCK (k * BPB) := by
  have hpos : 0 < BPB := by decide
  have hdiv : (k * BPB + bi) / BPB = k := by
    rw [Nat.add_comm, Nat.add_mul_div_right _ _ hpos, Nat.div_eq_of_lt h, Nat.zero_add]
  unfold Superblock.BBLOCK
  rw [hdiv, Nat.mul_div_cancel _ hpos]

theorem used_base_add (s : Store) {k bi : Nat} (h : bi < BPB) :
    s.used sb (k * BPB + bi) = BitMap.test (s.bread (sb.BBLOCK (k * BPB))).byte bi := by
  unfold used bread
  rw [base_add_mod h, bblock_base_add h]

/-- `balloc` finds the first free block and marks it. -/
theorem wp_balloc_search {Q : Nat → Store → Prop} {E : Panic → Prop}
    (out : s.firstFree sb = none → E .outOfBlocks)
    (found : ∀ b, s.firstFree sb = some b →
      wp (do logWrite (sb.BBLOCK b); bzero b; return b) Q E (s.markBit sb b)) :
    wp (balloc sb) Q E s := by
  have hfirst : s.firstFree sb = ((List.range ((sb.size + BPB - 1) / BPB)).findSome? fun k =>
      (s.clearBitOf sb (k * BPB)).map (k * BPB, ·)).map fun p => p.1 + p.2 := by
    unfold firstFree
    rw [List.map_findSome?]
    congr 1
    funext k
    unfold firstFreeIn
    rw [Function.comp_apply, Option.map_map]
    rfl
  unfold balloc
  simp only [wp_bind, wp_get]
  split
  · rename_i hnone
    exact out (by rw [hfirst, hnone, Option.map_none])
  · rename_i base bi hsome
    obtain ⟨k, -, hbit⟩ := List.exists_of_findSome?_eq_some hsome
    obtain ⟨bi', hfind, hpair⟩ := Option.map_eq_some_iff.mp hbit
    obtain ⟨rfl, rfl⟩ := Prod.mk.inj hpair
    have hbi : bi' < BPB := by
      have hlt := List.mem_range.mp (List.mem_of_find?_eq_some hfind)
      omega
    have hrun := found (k * BPB + bi') (by rw [hfirst, hsome, Option.map_some])
    unfold markBit at hrun
    rw [base_add_mod hbi, bblock_base_add hbi] at hrun
    simpa only [wp_bind, wp_set] using hrun

theorem firstFreeIn_eq_some {k b : Nat} (h : s.firstFreeIn sb k = some b) :
    b < sb.size ∧ s.used sb b = false ∧ ∀ c, k * BPB ≤ c → c < b → s.used sb c = true := by
  unfold firstFreeIn at h
  obtain ⟨bi, hfind, rfl⟩ := Option.map_eq_some_iff.mp h
  obtain ⟨hclear, hrange, hbefore⟩ := List.find?_range_eq_some.mp hfind
  have hbi : bi < BPB ∧ bi < sb.size - k * BPB := by
    have hlt := List.mem_range.mp hrange
    omega
  refine ⟨by omega, ?_, ?_⟩
  · rw [used_base_add s hbi.1]
    simpa using hclear
  · intro c hlow hhigh
    obtain ⟨d, rfl⟩ := Nat.exists_eq_add_of_le hlow
    rw [used_base_add s (by omega)]
    simpa using hbefore d (by omega)

theorem firstFreeIn_eq_none {k c : Nat} (h : s.firstFreeIn sb k = none) (hlow : k * BPB ≤ c)
    (hhigh : c < k * BPB + BPB) (hsize : c < sb.size) : s.used sb c = true := by
  unfold firstFreeIn at h
  have hnone := List.find?_eq_none.mp (Option.map_eq_none_iff.mp h)
  obtain ⟨d, rfl⟩ := Nat.exists_eq_add_of_le hlow
  have hmem : d ∈ List.range (min BPB (sb.size - k * BPB)) := by
    rw [List.mem_range]
    omega
  rw [used_base_add s (by omega)]
  simpa using hnone d hmem

theorem firstFree_eq_none {c : Nat} (h : s.firstFree sb = none) (hsize : c < sb.size) :
    s.used sb c = true := by
  have hnone := List.findSome?_eq_none_iff.mp h (c / BPB) (by
    rw [List.mem_range]
    simp only [BPB, BSIZE]
    omega)
  have hpos : 0 < BPB := by decide
  have hdiv := Nat.div_add_mod' c BPB
  have hmod := Nat.mod_lt c hpos
  exact firstFreeIn_eq_none hnone (by omega) (by omega) hsize

theorem mem_of_range_eq_append {n k j : Nat} {before after : List Nat}
    (h : List.range n = before ++ k :: after) (hj : j < k) : j ∈ before := by
  have hk : (List.range n)[before.length]? = some k := by
    rw [h]
    simp
  obtain ⟨hlt, heq⟩ := List.getElem?_eq_some_iff.mp hk
  rw [List.getElem_range] at heq
  have hget : (before ++ k :: after)[j]? = some j := by
    rw [← h, List.getElem?_range (by simp at hlt; omega)]
  rw [List.getElem?_append_left (by omega)] at hget
  exact List.mem_of_getElem? hget

theorem firstFree_eq_some {b : Nat} (h : s.firstFree sb = some b) :
    b < sb.size ∧ s.used sb b = false ∧ ∀ c, c < b → s.used sb c = true := by
  obtain ⟨before, k, after, hrange, hfound, hbefore⟩ := List.findSome?_eq_some_iff.mp h
  obtain ⟨hlt, hfree, hfirst⟩ := firstFreeIn_eq_some hfound
  refine ⟨hlt, hfree, fun c hc => ?_⟩
  by_cases hblock : k * BPB ≤ c
  · exact hfirst c hblock hc
  · -- blocks of the free map before `k` had no free bit
    have hpos : 0 < BPB := by decide
    have hk : c / BPB < k := (Nat.div_lt_iff_lt_mul hpos).mpr (by omega)
    have hmem : c / BPB ∈ before := mem_of_range_eq_append hrange hk
    have hdiv := Nat.div_add_mod' c BPB
    have hmod := Nat.mod_lt c hpos
    exact firstFreeIn_eq_none (hbefore _ hmem) (by omega) (by omega) (by omega)

end Store

/-- Of the data blocks, `b` is the one that was logged. -/
def LogsOnly (sb : Superblock) (b : Nat) (s s' : Store) : Prop :=
  ∀ x, sb.dataStart ≤ x → (x ∈ s'.log.lh ↔ x ∈ s.log.lh ∨ x = b)

/-- `balloc` marks and zeroes the smallest free block `b`. -/
structure Allocated (sb : Superblock) (s : Store) (b : Nat) (s' : Store) : Prop where
  lt : b < sb.size
  free : s.used sb b = false
  first : ∀ c, c < b → s.used sb c = true
  used : ∀ c, c < sb.size → s'.used sb c = update (s.used sb) b true c
  zero : s'.buf b = Block.zero
  frame : ∀ x, x ≠ b → x < sb.bmapstart ∨ sb.dataStart ≤ x → s'.buf x = s.buf x
  tracks : sb.Home b → Tracks sb ∅ s s'
  logs : LogsOnly sb b s s'

def BitmapUsed (sb : Superblock) (s : Store) : Prop :=
  ∀ x, sb.bmapstart ≤ x → x < sb.dataStart → x < sb.size → s.used sb x = true

theorem freeBlocks_congr (h : ∀ c, c < sb.size → s'.used sb c = s.used sb c) :
    s'.freeBlocks sb = s.freeBlocks sb := by
  unfold Store.freeBlocks
  congr 1
  apply filter_congr
  intro c hc
  rw [h c (mem_range.mp hc)]

theorem freeBlocks_update {b : Nat} (hlt : b < sb.size) (hfree : s.used sb b = false)
    (h : ∀ c, c < sb.size → s'.used sb c = update (s.used sb) b true c) :
    s'.freeBlocks sb + 1 = s.freeBlocks sb := by
  unfold Store.freeBlocks
  have hmem : b ∈ (Finset.range sb.size).filter fun c => s.used sb c = false := by
    simp [hlt, hfree]
  have herase : ((Finset.range sb.size).filter fun c => s'.used sb c = false) =
      ((Finset.range sb.size).filter fun c => s.used sb c = false).erase b := by
    apply Finset.ext
    intro c
    simp only [mem_filter, mem_range, mem_erase]
    obtain rfl | hc := eq_or_ne c b
    · simp [h c hlt]
    · constructor
      · rintro ⟨hc', hused⟩
        rw [h c hc', update_of_ne hc] at hused
        exact ⟨hc, hc', hused⟩
      · rintro ⟨_, hc', hused⟩
        rw [h c hc', update_of_ne hc]
        exact ⟨hc', hused⟩
  rw [herase, card_erase_add_one hmem]

theorem wp_balloc {Q : Nat → Store → Prop} {E : Panic → Prop} (bitmap : BitmapUsed sb s)
    (hW : ∀ c, c < sb.size → sb.BBLOCK c ∈ W)
    (post : ∀ b s', Allocated sb s b s' → Spent sb W s s' 1 1 → Q b s')
    (stop : ∀ e, Short sb W s 1 1 e → E e) : wp (Store.balloc sb) Q E s := by
  apply wp_balloc_search
  · intro hfound
    refine stop _ ⟨.inl rfl, fun room => ?_⟩
    have hempty : s.freeBlocks sb = 0 := by
      unfold Store.freeBlocks
      rw [card_eq_zero, filter_eq_empty_iff]
      intro c hc
      simp [firstFree_eq_none hfound (mem_range.mp hc)]
    have hblocks := room.blocks_le
    omega
  · intro b hfound
    obtain ⟨hlt, hfree, hfirst⟩ := firstFree_eq_some hfound
    have hdata : b < sb.bmapstart ∨ sb.dataStart ≤ b := by
      by_contra hin
      have hused := bitmap b (by omega) (by omega) hlt
      rw [hfree] at hused
      cases hused
    have hmap : ∀ c, c < sb.size → sb.BBLOCK c ≠ b := by
      intro c hc
      have hlow := sb.bmapstart_le_bblock c
      have hhigh := sb.bblock_lt hc
      omega
    -- mark, log the map block, zero the block, log it
    let marked := s.markBit sb b
    let logged := marked.note (sb.BBLOCK b)
    let zeroed := logged.setData b Block.zero
    have husedMark : marked.used sb = update (s.used sb) b true := used_markBit s b
    have husedZero : ∀ c, c < sb.size →
        (zeroed.note b).used sb c = update (s.used sb) b true c := by
      intro c hc
      rw [← husedMark]
      apply used_congr
      exact buf_setData_ne (hmap c hc)
    have hmarkFree : marked.freeBlocks sb + 1 = s.freeBlocks sb :=
      freeBlocks_update hlt hfree fun c _ => by rw [husedMark]
    have hspentMark : Spent sb W s marked 1 0 := Spent.of_log_eq rfl (by omega)
    have hspentLog : Spent sb W s logged 1 0 :=
      hspentMark.trans (spent_note (m := 0) _ (by simp [hW b hlt]))
    have hzeroFree : logged.freeBlocks sb = zeroed.freeBlocks sb := by
      apply freeBlocks_congr
      intro c hc
      apply Eq.trans _ (husedZero c hc).symm
      rw [← husedMark]
      rfl
    have hzero : Spent sb W logged zeroed 0 0 := Spent.of_log_eq rfl (Nat.le_of_eq hzeroFree)
    have hspentZero : Spent sb W s zeroed 1 0 := hspentLog.trans hzero
    have hspent : Spent sb W s (zeroed.note b) 1 1 :=
      hspentZero.trans (spent_note (m := 1) b (by split <;> omega))
    have hframe : ∀ x, x ≠ b → x < sb.bmapstart ∨ sb.dataStart ≤ x →
        (zeroed.note b).buf x = s.buf x := by
      intro x hx hregion
      have hmapne : x ≠ sb.BBLOCK b := by
        have hlow := sb.bmapstart_le_bblock b
        have hhigh := sb.bblock_lt hlt
        omega
      exact (buf_setData_ne hx).trans (buf_setData_ne hmapne)
    simp only [wp_bind, Store.bzero, wp_modify, wp_pure]
    refine wp_logWrite (fun hopenMark => ?_) fun e he =>
      stop e (Short.of_spent hspentMark he (by omega) (by omega))
    refine wp_logWrite (fun hopenZero => ?_) fun e he =>
      stop e (Short.of_spent hspentZero he (by omega) (by omega))
    have hmark : Tracks sb ∅ s logged := Tracks.write _ hopenMark (sb.home_bblock hlt)
    have hzeroed : sb.Home b → Tracks sb ∅ logged (zeroed.note b) :=
      fun hb => Tracks.write _ hopenZero hb
    have htracks : sb.Home b → Tracks sb ∅ s (zeroed.note b) :=
      fun hb => hmark.trans (hzeroed hb)
    have hlogs : LogsOnly sb b s (zeroed.note b) := by
      intro x hx
      have hne : x ≠ sb.BBLOCK b := by
        have hhigh := sb.bblock_lt hlt
        omega
      rw [mem_lh_note]
      change x ∈ logged.log.lh ∨ x = b ↔ _
      rw [mem_lh_note, or_iff_left hne]
      rfl
    exact post b _ ⟨hlt, hfree, hfirst, husedZero, buf_setData_self .., hframe, htracks, hlogs⟩
      hspent

structure Freed (sb : Superblock) (s : Store) (b : Nat) (s' : Store) : Prop where
  used : s'.used sb = update (s.used sb) b false
  frame : ∀ x, x < sb.bmapstart ∨ sb.dataStart ≤ x → s'.buf x = s.buf x
  tracks : Tracks sb ∅ s s'

theorem wp_bfree {Q : Unit → Store → Prop} {E : Panic → Prop} {b : Nat} (hlt : b < sb.size)
    (hused : s.used sb b = true) (hW : sb.BBLOCK b ∈ W)
    (post : ∀ s', Freed sb s b s' → Spent sb W s s' 0 0 → Q () s')
    (stop : ∀ e, Short sb W s 0 0 e → E e) : wp (Store.bfree sb b) Q E s := by
  let cleared := s.clearBit sb b
  have husedClear : cleared.used sb = update (s.used sb) b false :=
    used_clearBit s b
  have hfree : s.freeBlocks sb ≤ cleared.freeBlocks sb := by
    unfold Store.freeBlocks
    apply card_le_card
    intro c hc
    simp only [mem_filter, husedClear] at hc ⊢
    refine ⟨hc.1, ?_⟩
    by_cases hcb : c = b
    · rw [hcb, update_self]
    · rw [update_of_ne hcb]
      exact hc.2
  have hspent : Spent sb W s cleared 0 0 := Spent.of_log_eq rfl hfree
  unfold Store.bfree
  simp only [wp_bind, wp_get, hused, Bool.true_eq_false, if_false, wp_set]
  refine wp_logWrite (fun hopen => ?_) fun e he =>
    stop e (Short.of_spent hspent he (by omega) (by omega))
  apply post
  · refine ⟨husedClear, fun x hregion => ?_, Tracks.write _ hopen (sb.home_bblock hlt)⟩
    apply buf_setData_ne
    have hlow := sb.bmapstart_le_bblock b
    have hhigh := sb.bblock_lt hlt
    omega
  · exact hspent.trans (spent_note (m := 0) _ (by simp [hW]))

end Xv6
