import Mathlib.Data.List.Nodup
import Xv6.Log.Header

/-! Crash atomicity of the redo log: disks before the commit point, committed, and installed. -/
namespace Xv6

open Function List
open Lib

namespace Store

/-- The disk writes that `run` issues, in order. -/
def writesOf (s : Store) (run : Store → Store) : List (Nat × Block) :=
  (run { s with wrote := [] }).wrote

def crashAfter (s : Store) (run : Store → Store) (count : Nat) : Nat → Block :=
  Writes.apply s.disk ((s.writesOf run).take count)

end Store

/-- Every attempt but the last stops after some of its disk writes. -/
inductive Recovers (start size : Nat) : (Nat → Block) → (Nat → Block) → Prop where
  | completed (disk : Nat → Block) :
      Recovers start size disk (Store.reboot start size disk).recoverFromLog.disk
  | interrupted (disk : Nat → Block) (count : Nat) (final : Nat → Block) :
      Recovers start size
        ((Store.reboot start size disk).crashAfter Store.recoverFromLog count) final →
      Recovers start size disk final

structure Log.Committable (log : Log) : Prop where
  nonempty : 1 ≤ log.lh.length
  room : log.lh.length ≤ min LOGSIZE (log.size - 1)
  distinct : log.lh.Nodup
  uint : ∀ b ∈ log.lh, b < 2 ^ 32
  outside : ∀ b ∈ log.lh, b < log.start ∨ log.start + log.size ≤ b

/-- What a disk may look like after crash and recovery. -/
structure AllOrNothing (s : Store) (committed : Prop) (final : Nat → Block) : Prop where
  either : (∀ b ∈ s.log.lh, final b = s.disk b) ∨ (∀ b ∈ s.log.lh, final b = s.buf b)
  others : ∀ b, b ∉ s.log.lh → b < s.log.start ∨ s.log.start + s.log.size ≤ b →
    final b = s.disk b
  erased : (final s.log.start).headCount = 0
  new_of_committed : committed → ∀ b ∈ s.log.lh, final b = s.buf b
  old_of_not_committed : ¬ committed → ∀ b ∈ s.log.lh, final b = s.disk b

namespace Store

def moves (s : Store) (pairs : List (Nat × Nat)) : Store :=
  pairs.foldl (fun t p => t.moveBlock p.1 p.2) s

/-- Home block and log block of each entry. -/
def logPairs (log : Log) : List (Nat × Nat) :=
  (List.range log.lh.length).map fun tail => (log.lh.getD tail 0, log.start + tail + 1)

theorem writeLog_eq (s : Store) : s.writeLog = s.moves (logPairs s.log) := by
  simp [writeLog, moves, logPairs, foldl_map]

theorem installTrans_eq (s : Store) :
    s.installTrans = s.moves ((logPairs s.log).map Prod.swap) := by
  simp [installTrans, moves, logPairs, foldl_map]

/-- Moves whose targets are no sources write initial contents. -/
theorem moves_eq {s : Store} {pairs : List (Nat × Nat)}
    (apart : ∀ p ∈ pairs, ∀ q ∈ pairs, q.1 ≠ p.2) :
    s.moves pairs =
      { s with
        disk := Writes.apply s.disk (pairs.map fun p => (p.2, s.buf p.1))
        buf := Writes.apply s.buf (pairs.map fun p => (p.2, s.buf p.1))
        wrote := s.wrote ++ pairs.map fun p => (p.2, s.buf p.1) } := by
  induction pairs generalizing s with
  | nil => simp [moves]
  | cons p tail ih =>
    have hsources : ∀ q ∈ tail, (s.moveBlock p.1 p.2).buf q.1 = s.buf q.1 := by
      intro q hq
      exact update_of_ne (apart p (by simp) q (by simp [hq])) _ _
    have hwrites : (tail.map fun q => (q.2, (s.moveBlock p.1 p.2).buf q.1)) =
        tail.map fun q => (q.2, s.buf q.1) :=
      map_congr_left fun q hq => by rw [hsources q hq]
    have htail := ih (s := s.moveBlock p.1 p.2)
      fun q hq r hr => apart q (by simp [hq]) r (by simp [hr])
    rw [hwrites] at htail
    change (s.moveBlock p.1 p.2).moves tail = _
    rw [htail]
    simp [moveBlock, bwrite, setData, bread, Writes.apply_cons]

end Store

variable {p : Nat × Nat}

theorem mem_logPairs {log : Log} (h : p ∈ Store.logPairs log) :
    p.1 ∈ log.lh ∧ log.start < p.2 ∧ p.2 ≤ log.start + log.lh.length := by
  simp only [Store.logPairs, mem_map, mem_range] at h
  obtain ⟨tail, htail, rfl⟩ := h
  refine ⟨?_, by omega, by omega⟩
  simp [htail]

namespace Log.Committable

variable {log : Log}

theorem room_size (ready : log.Committable) : log.lh.length < log.size := by
  have h := ready.room
  have hpos := ready.nonempty
  omega

theorem short (ready : log.Committable) : log.lh.length ≤ LOGSIZE := by
  have h := ready.room
  omega

theorem apart (ready : log.Committable) :
    ∀ p ∈ Store.logPairs log, ∀ q ∈ Store.logPairs log, q.1 ≠ p.2 := by
  intro p hp q hq heq
  have hlog := (mem_logPairs hp).2
  have hhome := ready.outside _ (mem_logPairs hq).1
  have hroom := ready.room_size
  omega

theorem apart_swap (ready : log.Committable) :
    ∀ p ∈ (Store.logPairs log).map Prod.swap, ∀ q ∈ (Store.logPairs log).map Prod.swap,
      q.1 ≠ p.2 := by
  intro p hp q hq
  obtain ⟨p', hp', rfl⟩ := mem_map.mp hp
  obtain ⟨q', hq', rfl⟩ := mem_map.mp hq
  exact (ready.apart q' hq' p' hp').symm

end Log.Committable

namespace Store

def logWrites (log : Log) (contents : Nat → Block) : List (Nat × Block) :=
  (logPairs log).map fun p => (p.2, contents p.1)

def homeWrites (log : Log) (contents : Nat → Block) : List (Nat × Block) :=
  (logPairs log).map fun p => (p.1, contents p.1)

variable {s : Store}

theorem installErase_eq (ready : s.log.Committable) (contents : Nat → Block)
    (logged : ∀ p ∈ logPairs s.log, s.buf p.2 = contents p.1) :
    let erase := (s.log.start, (s.buf s.log.start).setHead [])
    (s.installTrans.setLh []).writeHead.wrote =
        s.wrote ++ (homeWrites s.log contents ++ [erase]) ∧
      (s.installTrans.setLh []).writeHead.disk =
        Writes.apply s.disk (homeWrites s.log contents ++ [erase]) := by
  have hwrites : ((logPairs s.log).map Prod.swap).map (fun p => (p.2, s.buf p.1)) =
      homeWrites s.log contents := by
    rw [map_map]
    exact map_congr_left fun p hp => congrArg (Prod.mk p.1) (logged p hp)
  have hheader : Writes.apply s.buf (homeWrites s.log contents) s.log.start =
      s.buf s.log.start := by
    apply Writes.apply_untouched
    intro w hw
    obtain ⟨p, hp, rfl⟩ := mem_map.mp hw
    have hhome := ready.outside _ (mem_logPairs hp).1
    have hroom := ready.room_size
    change p.1 ≠ s.log.start
    omega
  rw [installTrans_eq, moves_eq ready.apart_swap, hwrites]
  constructor
  · simp [writeHead, bwrite, setData, setLh, bread, hheader]
  · simp [writeHead, bwrite, setData, setLh, bread, hheader, Writes.apply_append]

theorem writeLogHead_eq (ready : s.log.Committable) :
    let header := (s.buf s.log.start).setHead s.log.lh
    s.writeLog.writeHead =
      { s with
        disk := Writes.apply s.disk (logWrites s.log s.buf ++ [(s.log.start, header)])
        buf := Writes.apply s.buf (logWrites s.log s.buf ++ [(s.log.start, header)])
        wrote := s.wrote ++ (logWrites s.log s.buf ++ [(s.log.start, header)]) } := by
  have hheader : Writes.apply s.buf (logWrites s.log s.buf) s.log.start = s.buf s.log.start := by
    apply Writes.apply_untouched
    intro w hw
    obtain ⟨p, hp, rfl⟩ := mem_map.mp hw
    have hlog := (mem_logPairs hp).2
    change p.2 ≠ s.log.start
    omega
  rw [writeLog_eq, moves_eq ready.apart]
  change (writeHead { s with
      disk := Writes.apply s.disk (logWrites s.log s.buf)
      buf := Writes.apply s.buf (logWrites s.log s.buf)
      wrote := s.wrote ++ logWrites s.log s.buf }) = _
  simp [writeHead, bwrite, setData, bread, hheader, Writes.apply_append]

theorem logWrites_keys_nodup (log : Log) (contents : Nat → Block) :
    ((logWrites log contents).map Prod.fst).Nodup := by
  have hkeys : (logWrites log contents).map Prod.fst =
      (List.range log.lh.length).map fun tail => log.start + tail + 1 := by
    simp [logWrites, logPairs, Function.comp_def]
  rw [hkeys]
  apply nodup_range.map
  intro i j h
  simpa using h

theorem homeWrites_keys (log : Log) (contents : Nat → Block) :
    (homeWrites log contents).map Prod.fst = log.lh := by
  simp only [homeWrites, logPairs, map_map]
  apply ext_getElem
  · simp
  · intro i hleft hright
    simp [hright]

theorem logged_apply (log : Log) (store contents : Nat → Block) (header : Block)
    (hp : p ∈ logPairs log) :
    Writes.apply store (logWrites log contents ++ [(log.start, header)]) p.2 = contents p.1 := by
  have hlog := (mem_logPairs hp).2
  rw [Writes.apply_append, Writes.apply_cons, Writes.apply_nil,
    update_of_ne (by omega)]
  exact Writes.apply_mem (w := (p.2, contents p.1)) (logWrites_keys_nodup log contents)
    (mem_map_of_mem hp)

theorem writesOf_commit (ready : s.log.Committable) : ∃ erase : Block,
    s.writesOf commit = (logWrites s.log s.buf ++
      [(s.log.start, (s.buf s.log.start).setHead s.log.lh)]) ++
      (homeWrites s.log s.buf ++ [(s.log.start, erase.setHead [])]) := by
  have hpos : ({ s with wrote := [] } : Store).log.lh.length > 0 := ready.nonempty
  have hhead := writeLogHead_eq (s := { s with wrote := [] }) ready
  simp only [nil_append] at hhead
  unfold writesOf commit
  rw [if_pos hpos, hhead]
  refine ⟨_, (installErase_eq ?_ s.buf ?_).1⟩
  · exact ready
  · exact fun p hp => logged_apply _ _ _ _ hp

theorem writesOf_writeLogHead (ready : s.log.Committable) :
    (s.writesOf fun t => t.writeLog.writeHead).length = s.log.lh.length + 1 := by
  have hhead := writeLogHead_eq (s := { s with wrote := [] }) ready
  simp only [nil_append] at hhead
  simp [writesOf, hhead, logWrites, logPairs]

end Store

/-! Disk states relative to the machine `s` that `commit` started from. -/

/-- Only log blocks may have changed. -/
structure Uncommitted (s : Store) (disk : Nat → Block) : Prop where
  header : (disk s.log.start).headCount = 0
  home : ∀ b, b < s.log.start ∨ s.log.start + s.log.size ≤ b → disk b = s.disk b

/-- Header and log blocks describe the transaction. -/
structure Committed (s : Store) (disk : Nat → Block) : Prop where
  header : (disk s.log.start).head = s.log.lh
  logged : ∀ p ∈ Store.logPairs s.log, disk p.2 = s.buf p.1
  others : ∀ b, b ∉ s.log.lh → b < s.log.start ∨ s.log.start + s.log.size ≤ b →
    disk b = s.disk b

/-- The home blocks are new and the header is erased. -/
structure Installed (s : Store) (disk : Nat → Block) : Prop where
  header : (disk s.log.start).headCount = 0
  home : ∀ b ∈ s.log.lh, disk b = s.buf b
  others : ∀ b, b ∉ s.log.lh → b < s.log.start ∨ s.log.start + s.log.size ≤ b →
    disk b = s.disk b

variable {s : Store} {disk final : Nat → Block}

theorem Uncommitted.update_log (h : Uncommitted s disk) (ready : s.log.Committable)
    (hp : p ∈ Store.logPairs s.log) (contents : Block) :
    Uncommitted s (update disk p.2 contents) := by
  have hlog := (mem_logPairs hp).2
  have hroom := ready.room_size
  constructor
  · rw [update_of_ne (by omega)]
    exact h.header
  · intro b hb
    rw [update_of_ne (by omega)]
    exact h.home b hb

theorem Uncommitted.erase (h : Uncommitted s disk) (ready : s.log.Committable) (block : Block) :
    Uncommitted s (update disk s.log.start (block.setHead [])) := by
  have hroom := ready.room_size
  constructor
  · rw [update_self]
    exact Block.headCount_setHead_nil block
  · intro b hb
    rw [update_of_ne (by omega)]
    exact h.home b hb

theorem Uncommitted.commit_point (h : Uncommitted s disk) (ready : s.log.Committable)
    (logged : ∀ p ∈ Store.logPairs s.log, disk p.2 = s.buf p.1) (block : Block) :
    Committed s (update disk s.log.start (block.setHead s.log.lh)) := by
  have hroom := ready.room_size
  refine ⟨?_, ?_, ?_⟩
  · rw [update_self]
    exact Block.head_setHead ready.short ready.uint
  · intro p hp
    have hlog := (mem_logPairs hp).2
    rw [update_of_ne (by omega)]
    exact logged p hp
  · intro b _ hb
    rw [update_of_ne (by omega)]
    exact h.home b hb

theorem Committed.update_home (h : Committed s disk) (ready : s.log.Committable)
    {b : Nat} (hb : b ∈ s.log.lh) (contents : Block) :
    Committed s (update disk b contents) := by
  have hhome := ready.outside b hb
  have hroom := ready.room_size
  refine ⟨?_, ?_, ?_⟩
  · rw [update_of_ne (by omega)]
    exact h.header
  · intro p hp
    have hlog := (mem_logPairs hp).2
    rw [update_of_ne (by omega)]
    exact h.logged p hp
  · intro c hc hout
    rw [update_of_ne (by rintro rfl; exact hc hb)]
    exact h.others c hc hout

/-- A prefix leaves the disk committed or installed. -/
theorem Committed.install (h : Committed s disk) (ready : s.log.Committable) (block : Block)
    (count : Nat) :
    let final := Writes.apply disk ((Store.homeWrites s.log s.buf ++
      [(s.log.start, block.setHead [])]).take count)
    if count ≤ s.log.lh.length then Committed s final else Installed s final := by
  have hlength : (Store.homeWrites s.log s.buf).length = s.log.lh.length := by
    rw [← length_map (f := Prod.fst), Store.homeWrites_keys]
  have hstep : ∀ w ∈ Store.homeWrites s.log s.buf, ∀ store, Committed s store →
      Committed s (update store w.1 w.2) := by
    intro w hw store hstore
    obtain ⟨p, hp, rfl⟩ := mem_map.mp hw
    exact hstore.update_home ready (mem_logPairs hp).1 _
  simp only [Writes.apply_take_append, hlength]
  split
  · exact Writes.apply_take_of_preserved hstep h count
  · -- the last write erases the header of a disk whose home blocks are all new
    have hall := Writes.apply_of_preserved hstep h
    have hroom := ready.room_size
    rw [take_of_length_le (by simp only [length_singleton]; omega),
      Writes.apply_cons, Writes.apply_nil]
    refine ⟨?_, ?_, ?_⟩
    · rw [update_self]
      exact Block.headCount_setHead_nil block
    · intro b hb
      have hout := ready.outside b hb
      rw [update_of_ne (by omega)]
      have hkey : b ∈ (Store.homeWrites s.log s.buf).map Prod.fst := by
        rw [Store.homeWrites_keys]
        exact hb
      obtain ⟨w, hw, rfl⟩ := mem_map.mp hkey
      obtain ⟨p, _, rfl⟩ := mem_map.mp (show w ∈ (Store.logPairs s.log).map _ from hw)
      exact Writes.apply_mem (by rw [Store.homeWrites_keys]; exact ready.distinct) hw
    · intro b hb hout
      rw [update_of_ne (by omega)]
      exact hall.others b hb hout

end Xv6
