import Xv6.Log.Crash

/-! Recovery from every disk that a crashed `commit` can leave. -/
namespace Xv6

open Function
open Lib

namespace Store

variable {start size : Nat} {disk : Nat → Block}

theorem recover_erased (h : (disk start).headCount = 0) :
    (reboot start size disk).writesOf recoverFromLog =
        [(start, (disk start).setHead [])] ∧
      (reboot start size disk).recoverFromLog.disk =
        update disk start ((disk start).setHead []) := by
  have hread : (reboot start size disk).readHead = reboot start size disk := by
    simp [readHead, reboot, bread, setLh, Block.head_of_headCount h]
  have hinstall : (reboot start size disk).installTrans = reboot start size disk := by
    simp [installTrans, reboot]
  constructor
  · have hfresh : ({ reboot start size disk with wrote := [] } : Store) =
        reboot start size disk := rfl
    rw [writesOf, recoverFromLog, hfresh, hread, hinstall]
    simp [writeHead, bwrite, setData, setLh, bread, reboot]
  · rw [recoverFromLog, hread, hinstall]
    simp [writeHead, bwrite, setData, setLh, bread, reboot]

end Store

variable {s : Store} {disk final : Nat → Block}

/-- Recovery issues the writes that the interrupted `commit` would have gone on with. -/
theorem Committed.recover (h : Committed s disk) (ready : s.log.Committable) :
    let writes := Store.homeWrites s.log s.buf ++
      [(s.log.start, (disk s.log.start).setHead [])]
    (Store.reboot s.log.start s.log.size disk).writesOf Store.recoverFromLog = writes ∧
      (Store.reboot s.log.start s.log.size disk).recoverFromLog.disk =
        Writes.apply disk writes := by
  let log : Log := { start := s.log.start, size := s.log.size, lh := s.log.lh }
  let loaded : Store := { disk := disk, buf := disk, log := log }
  have hready : loaded.log.Committable :=
    ⟨ready.nonempty, ready.room, ready.distinct, ready.uint, ready.outside⟩
  have hread : (Store.reboot s.log.start s.log.size disk).readHead = loaded := by
    simp [Store.readHead, Store.reboot, Store.bread, Store.setLh, h.header, loaded, log]
  have hrun := Store.installErase_eq hready s.buf h.logged
  constructor
  · change (Store.reboot s.log.start s.log.size disk).recoverFromLog.wrote = _
    rw [Store.recoverFromLog, hread]
    exact hrun.1
  · rw [Store.recoverFromLog, hread]
    exact hrun.2

theorem Uncommitted.of_recovers
    (run : Recovers s.log.start s.log.size disk final) (ready : s.log.Committable)
    (h : Uncommitted s disk) : Uncommitted s final := by
  induction run with
  | completed disk =>
    rw [(Store.recover_erased h.header).2]
    exact h.erase ready _
  | interrupted disk count final _ ih =>
    apply ih
    rw [Store.crashAfter, (Store.recover_erased h.header).1]
    apply Writes.apply_take_of_preserved (P := Uncommitted s) _ h
    intro w hw store hstore
    rw [List.mem_singleton.mp hw]
    exact hstore.erase ready _

theorem Installed.of_recovers_installed
    (run : Recovers s.log.start s.log.size disk final) (ready : s.log.Committable)
    (h : Committed s disk ∨ Installed s disk) : Installed s final := by
  have herase : ∀ {store : Nat → Block} {block : Block}, Installed s store →
      Installed s (update store s.log.start (block.setHead [])) := by
    intro store block hstore
    have hroom := ready.room_size
    refine ⟨?_, ?_, ?_⟩
    · rw [update_self]
      exact Block.headCount_setHead_nil block
    · intro b hb
      have hout := ready.outside b hb
      rw [update_of_ne (by omega)]
      exact hstore.home b hb
    · intro b hb hout
      rw [update_of_ne (by omega)]
      exact hstore.others b hb hout
  induction run with
  | completed disk =>
    rcases h with hcommitted | hinstalled
    · have hall := hcommitted.install ready (disk s.log.start) (s.log.lh.length + 1)
      rw [(hcommitted.recover ready).2]
      rw [List.take_of_length_le (by
        simp [Store.homeWrites, Store.logPairs]), if_neg (by omega)] at hall
      exact hall
    · rw [(Store.recover_erased hinstalled.header).2]
      exact herase hinstalled
  | interrupted disk count final _ ih =>
    apply ih
    rcases h with hcommitted | hinstalled
    · have hprefix := hcommitted.install ready (disk s.log.start) count
      rw [Store.crashAfter, (hcommitted.recover ready).1]
      dsimp only at hprefix
      split at hprefix
      · exact .inl hprefix
      · exact .inr hprefix
    · right
      rw [Store.crashAfter, (Store.recover_erased hinstalled.header).1]
      apply Writes.apply_take_of_preserved (P := Installed s) _ hinstalled
      intro w hw store hstore
      rw [List.mem_singleton.mp hw]
      exact herase hstore

/-- Where a crash of `commit` leaves the disk. -/
theorem crashAfter_commit (ready : s.log.Committable)
    (empty : (s.disk s.log.start).headCount = 0) (count : Nat) :
    if count ≤ s.log.lh.length then Uncommitted s (s.crashAfter Store.commit count)
    else Committed s (s.crashAfter Store.commit count) ∨
      Installed s (s.crashAfter Store.commit count) := by
  obtain ⟨erase, hwrites⟩ := Store.writesOf_commit ready
  have hinit : Uncommitted s s.disk := ⟨empty, fun _ _ => rfl⟩
  have hlength : (Store.logWrites s.log s.buf).length = s.log.lh.length := by
    simp [Store.logWrites, Store.logPairs]
  have hstep : ∀ w ∈ Store.logWrites s.log s.buf, ∀ store, Uncommitted s store →
      Uncommitted s (update store w.1 w.2) := by
    intro w hw store hstore
    obtain ⟨p, hp, rfl⟩ := List.mem_map.mp hw
    exact hstore.update_log ready hp _
  simp only [Store.crashAfter, hwrites, List.append_assoc]
  rw [Writes.apply_take_append, hlength]
  split
  · exact Writes.apply_take_of_preserved hstep hinit count
  · -- the header reached the disk: from here on the transaction is committed
    obtain ⟨rest, hrest⟩ : ∃ rest, count - s.log.lh.length = rest + 1 :=
      ⟨count - s.log.lh.length - 1, by omega⟩
    have hlogged : ∀ p ∈ Store.logPairs s.log,
        Writes.apply s.disk (Store.logWrites s.log s.buf) p.2 = s.buf p.1 := fun p hp =>
      Writes.apply_mem (w := (p.2, s.buf p.1)) (Store.logWrites_keys_nodup _ _)
        (List.mem_map_of_mem hp)
    have hcommitted := (Writes.apply_of_preserved hstep hinit).commit_point ready hlogged
      (s.buf s.log.start)
    have hinstall := hcommitted.install ready erase rest
    rw [hrest, List.singleton_append, List.take_succ_cons, Writes.apply_cons]
    dsimp only at hinstall
    split at hinstall
    · exact .inl hinstall
    · exact .inr hinstall

/-- For every crash point of `commit` and any crashes during recovery, the transaction is on
disk entirely or not at all, as the first `write_head` decides. -/
theorem commit_allOrNothing (ready : s.log.Committable)
    (empty : (s.disk s.log.start).headCount = 0) (count : Nat)
    (run : Recovers s.log.start s.log.size (s.crashAfter Store.commit count) final) :
    AllOrNothing s ((s.writesOf fun t => t.writeLog.writeHead).length ≤ count) final := by
  have hcrash := crashAfter_commit ready empty count
  rw [Store.writesOf_writeLogHead ready]
  split at hcrash
  · have hfinal := Uncommitted.of_recovers run ready hcrash
    have hold : ∀ b ∈ s.log.lh, final b = s.disk b := fun b hb =>
      hfinal.home b (ready.outside b hb)
    exact ⟨.inl hold, fun b _ hb => hfinal.home b hb, hfinal.header,
      fun hcommitted => by omega, fun _ => hold⟩
  · have hfinal := Installed.of_recovers_installed run ready hcrash
    exact ⟨.inr hfinal.home, hfinal.others, hfinal.header, fun _ => hfinal.home,
      fun hnot => by omega⟩

/-- About to commit block 100, with the given header on disk. -/
def oneBlockStore (header : Block) : Store where
  disk b := if b = 2 then header else if b = 3 then Block.ofFn fun _ => 7 else Block.zero
  buf b := if b = 100 then Block.ofFn fun _ => 9 else Block.zero
  log := { start := 2, size := 30, lh := [100] }

theorem oneBlockStore_committable (header : Block) : (oneBlockStore header).log.Committable where
  nonempty := Nat.le_refl 1
  room := by simp [oneBlockStore, LOGSIZE, MAXOPBLOCKS]
  distinct := List.nodup_singleton 100
  uint := by simp [oneBlockStore]
  outside := by simp [oneBlockStore]

theorem commit_allOrNothing_oneBlock :
    let s := oneBlockStore Block.zero
    AllOrNothing s ((s.writesOf fun t => t.writeLog.writeHead).length ≤ 2)
      (Store.reboot 2 30 (s.crashAfter Store.commit 2)).recoverFromLog.disk :=
  commit_allOrNothing (oneBlockStore_committable _) (by decide) 2 (.completed _)

/-- A header left over is installed again after a crash before the first write. -/
theorem stale_header_not_allOrNothing :
    let s := oneBlockStore (Block.zero.setHead [100])
    s.log.Committable ∧
      ¬ ∀ count final, Recovers s.log.start s.log.size (s.crashAfter Store.commit count) final →
        AllOrNothing s ((s.writesOf fun t => t.writeLog.writeHead).length ≤ count) final := by
  refine ⟨oneBlockStore_committable _, fun hall => ?_⟩
  have hatomic := hall 0 _ (.completed _)
  have hstale : ((Store.reboot 2 30 ((oneBlockStore (Block.zero.setHead [100])).crashAfter
      Store.commit 0)).recoverFromLog.disk 100).byte 0 = 7 := by decide
  rcases hatomic.either with hold | hnew
  · have hbyte := congrArg (fun block => block.byte 0) (hold 100 (by decide))
    exact absurd (hstale.symm.trans hbyte) (by decide)
  · have hbyte := congrArg (fun block => block.byte 0) (hnew 100 (by decide))
    exact absurd (hstale.symm.trans hbyte) (by decide)

end Xv6
