import Xv6.Bio.Cache

/-! The buffer cache, the log and the disk at work together. A step is one critical section,
with the disk transfer made under a sleep lock. `bget` may recycle any unused buffer. -/
namespace Xv6.BlockStore

open Function

/-- The loops of `write_log` and `install_trans`, which copy between log blocks and home blocks. -/
inductive Loop where
  | writeLog
  | installTrans
  deriving DecidableEq

inductive Commit where
  /-- Before `bread` of the log block. -/
  | readLog (loop : Loop) (tail : Nat)
  /-- Before `bread` of the home block. -/
  | readHome (loop : Loop) (tail : Nat) (l : Fin NBUF)
  /-- Before `memmove` and `bwrite`. -/
  | copy (loop : Loop) (tail : Nat) (l h : Fin NBUF)
  /-- In `install_trans`, before `bunpin`. -/
  | unpin (tail : Nat) (l h : Fin NBUF)
  /-- Before the two calls of `brelse`. -/
  | relseFirst (loop : Loop) (tail : Nat) (l h : Fin NBUF)
  | relseLast (loop : Loop) (tail : Nat) (b : Fin NBUF)
  /-- In `write_head`, which a second time erases the transaction. -/
  | readHead (erase : Bool)
  | writeHead (erase : Bool) (b : Fin NBUF)
  | relseHead (erase : Bool) (b : Fin NBUF)
  /-- Before `log.lh.n = 0`. -/
  | clear
  /-- Back in `end_op`. -/
  | finish
  deriving DecidableEq

/-- In its own code (`none`) or in `commit`, or in `bread` before `acquiresleep`, or in
`brelse` after `releasesleep`. -/
inductive Pc where
  | run (k : Option Commit)
  | lock (b : Fin NBUF) (k : Option Commit)
  | drop (b : Fin NBUF) (k : Option Commit)
  deriving DecidableEq

structure State (P : Type) where
  cache : Bcache
  /-- Who holds the sleep lock. -/
  lock : Fin NBUF → Option P
  disk : Nat → Block
  log : Log
  pc : P → Pc
  /-- The data last logged for each block. -/
  store : Nat → Block
  /-- Changed and not logged since. -/
  changed : Fin NBUF → Bool := fun _ => false
  /-- Entries that `install_trans` has written home. -/
  installed : Nat := 0
  /-- Entries that it has unpinned. -/
  unpinned : Nat := 0

inductive Act where
  | bread (blockno : UInt32)
  /-- Assign to the data of a buffer. -/
  | change (b : Fin NBUF) (data : Block)
  | logWrite (b : Fin NBUF)
  | brelse (b : Fin NBUF)
  | beginOp
  | endOp
  /-- Go on with the call. -/
  | next

/-- A step of `p`; `victim` is the buffer that a `bget` recycles, or that of the block. -/
structure Event (P : Type) where
  p : P
  act : Act
  victim : Fin NBUF

def DEV : UInt32 := 1

def bget (c : Bcache) (blockno : UInt32) (b : Fin NBUF) : Option Bcache :=
  if (c.buf b).dev = DEV ∧ (c.buf b).blockno = blockno then
    some (c.setBuf b fun x => { x with refcnt := x.refcnt + 1 })
  else if (∀ b', ¬((c.buf b').dev = DEV ∧ (c.buf b').blockno = blockno)) ∧
      (c.buf b).refcnt = 0 then
    some (c.setBuf b fun x => { x with dev := DEV, blockno := blockno, valid := false, refcnt := 1 })
  else none

namespace State

variable {P : Type} [DecidableEq P] (s : State P)

def goto (p : P) (pc : Pc) : State P := { s with pc := update s.pc p pc }

def setLock (b : Fin NBUF) (holder : Option P) : State P :=
  { s with lock := update s.lock b holder }

def setData (b : Fin NBUF) (data : Block) : State P :=
  { s with cache := s.cache.setBuf b fun x => { x with data := data } }

def blockno (b : Fin NBUF) : Nat := (s.cache.buf b).blockno.toNat

def data (b : Fin NBUF) : Block := (s.cache.buf b).data

def logBlock (tail : Nat) : Nat := s.log.start + tail + 1

def homeBlock (tail : Nat) : Nat := s.log.lh.getD tail 0

def Home (n : Nat) : Prop := n < s.log.start ∨ s.log.start + s.log.size ≤ n

instance (n : Nat) : Decidable (s.Home n) := inferInstanceAs (Decidable (_ ∨ _))

def callBread (p : P) (blockno : Nat) (victim : Fin NBUF) (k : Option Commit) :
    Option (State P) :=
  (bget s.cache (UInt32.ofNat blockno) victim).map fun c =>
    { s with cache := c }.goto p (.lock victim k)

def fill (b : Fin NBUF) : State P :=
  if (s.cache.buf b).valid then s
  else { s with
    cache := s.cache.setBuf b fun x => { x with data := s.disk (s.blockno b), valid := true } }

def finishBread (p : P) (b : Fin NBUF) (k : Option Commit) : Option (State P) :=
  if (s.lock b).isSome then none
  else some (((s.fill b).setLock b (some p)).goto p (.run k))

def callBrelse (p : P) (b : Fin NBUF) (k : Option Commit) : State P :=
  (s.setLock b none).goto p (.drop b k)

def bwrite (b : Fin NBUF) (data : Block) : State P :=
  { s.setData b data with disk := update s.disk (s.blockno b) data }

def logWrite (b : Fin NBUF) (log : Log) : State P :=
  { s with
    log := log
    cache := if s.blockno b ∈ s.log.lh then s.cache else s.cache.bpin b
    store := update s.store (s.blockno b) (s.data b)
    changed := update s.changed b false }

def clientStep (p : P) (victim : Fin NBUF) : Act → Option (Except Panic (State P))
  | .bread blockno => (s.callBread p blockno.toNat victim none).map .ok
  | .change b data => some (.ok { s.setData b data with changed := update s.changed b true })
  | .logWrite b =>
    match s.log.write (s.blockno b) with
    | .error e => some (.error e)
    | .ok log => some (.ok (s.logWrite b log))
  | .brelse b => some (.ok (s.callBrelse p b none))
  | .beginOp =>
    if s.log.committing ∨ s.log.lh.length + (s.log.outstanding + 1) * MAXOPBLOCKS > LOGSIZE then
      none -- sleeps
    else some (.ok { s with log := { s.log with outstanding := s.log.outstanding + 1 } })
  | .endOp =>
    if s.log.outstanding = 0 then none -- not in an operation
    else if s.log.committing then some (.error .logCommitting)
    else if s.log.outstanding = 1 then
      some (.ok ({ s with log := { s.log with outstanding := 0, committing := true } }.goto p
        (.run (some (if s.log.lh.length > 0 then .readLog .writeLog 0 else .finish)))))
    else some (.ok { s with log := { s.log with outstanding := s.log.outstanding - 1 } })
  | .next => none

def commitStep (p : P) (victim : Fin NBUF) : Commit → Option (State P)
  | .readLog loop tail =>
    if tail < s.log.lh.length then
      s.callBread p (s.logBlock tail) victim (some (.readHome loop tail victim))
    else
      match loop with
      | .writeLog => some (s.goto p (.run (some (.readHead false))))
      | .installTrans => some (s.goto p (.run (some .clear)))
  | .readHome loop tail l => s.callBread p (s.homeBlock tail) victim (some (.copy loop tail l victim))
  | .copy .writeLog tail l h =>
    some ((s.bwrite l (s.data h)).goto p (.run (some (.relseFirst .writeLog tail l h))))
  | .copy .installTrans tail l h =>
    some ({ s.bwrite h (s.data l) with installed := s.installed + 1 }.goto p
      (.run (some (.unpin tail l h))))
  | .unpin tail l h =>
    some ({ s with cache := s.cache.bunpin h, unpinned := s.unpinned + 1 }.goto p
      (.run (some (.relseFirst .installTrans tail l h))))
  | .relseFirst .writeLog tail l h => some (s.callBrelse p h (some (.relseLast .writeLog tail l)))
  | .relseFirst .installTrans tail l h =>
    some (s.callBrelse p l (some (.relseLast .installTrans tail h)))
  | .relseLast loop tail b => some (s.callBrelse p b (some (.readLog loop (tail + 1))))
  | .readHead erase => s.callBread p s.log.start victim (some (.writeHead erase victim))
  | .writeHead erase b =>
    some ((s.bwrite b ((s.data b).setHead s.log.lh)).goto p (.run (some (.relseHead erase b))))
  | .relseHead erase b =>
    some (s.callBrelse p b (some (if erase then .finish else .readLog .installTrans 0)))
  | .clear =>
    some ({ s with log := { s.log with lh := [] }, installed := 0, unpinned := 0 }.goto p
      (.run (some (.readHead true))))
  | .finish =>
    some ({ s with log := { s.log with committing := false } }.goto p (.run none))

def step (event : Event P) : Option (Except Panic (State P)) :=
  match s.pc event.p, event.act with
  | .run none, act => s.clientStep event.p event.victim act
  | .run (some c), .next => (s.commitStep event.p event.victim c).map .ok
  | .lock b k, .next => (s.finishBread event.p b k).map .ok
  | .drop b k, .next => some (.ok ({ s with cache := s.cache.brelse b }.goto event.p (.run k)))
  | _, _ => none

/-- Processes change, log and release buffers they have locked, keep out of the log's blocks,
and log what they change. -/
def Allowed (event : Event P) : Prop :=
  match event.act with
  | .change b _ | .logWrite b => s.lock b = some event.p ∧ s.Home (s.blockno b)
  | .brelse b => s.lock b = some event.p ∧ s.changed b = false
  | _ => True

def boot (disk : Nat → Block) (start size : Nat) : State P where
  cache := .binit
  lock _ := none
  disk := disk
  log := { start := start, size := size }
  pc _ := .run none
  store := disk

end State

variable {P : Type} [DecidableEq P]

inductive Reachable (disk : Nat → Block) (start size : Nat) : State P → Prop where
  | boot : Reachable disk start size (.boot disk start size)
  | step {s next : State P} {event : Event P} (reach : Reachable disk start size s)
      (allowed : s.Allowed event) (run : s.step event = some (.ok next)) :
      Reachable disk start size next

/-- The calls of `bread`: from where, of which block, and where they return to. -/
inductive Reads (log : Log) (b : Fin NBUF) : Option Commit → Nat → Option Commit → Prop where
  | client (blockno : UInt32) : Reads log b none blockno.toNat none
  | log (loop : Loop) (tail : Nat) (more : tail < log.lh.length) :
      Reads log b (some (.readLog loop tail)) (log.start + tail + 1)
        (some (.readHome loop tail b))
  | home (loop : Loop) (tail : Nat) (l : Fin NBUF) :
      Reads log b (some (.readHome loop tail l)) (log.lh.getD tail 0)
        (some (.copy loop tail l b))
  | head (erase : Bool) :
      Reads log b (some (.readHead erase)) log.start (some (.writeHead erase b))

inductive Releases (s : State P) (p : P) (b : Fin NBUF) : Option Commit → Option Commit → Prop where
  | client (locked : s.lock b = some p) (logged : s.changed b = false) : Releases s p b none none
  | writeLogHome (tail : Nat) (l : Fin NBUF) :
      Releases s p b (some (.relseFirst .writeLog tail l b)) (some (.relseLast .writeLog tail l))
  | installLog (tail : Nat) (h : Fin NBUF) :
      Releases s p b (some (.relseFirst .installTrans tail b h))
        (some (.relseLast .installTrans tail h))
  | last (loop : Loop) (tail : Nat) :
      Releases s p b (some (.relseLast loop tail b)) (some (.readLog loop (tail + 1)))
  | head (erase : Bool) :
      Releases s p b (some (.relseHead erase b))
        (some (if erase then .finish else .readLog .installTrans 0))

inductive Step (s : State P) : State P → Prop where
  | bread (p : P) (b : Fin NBUF) (n : Nat) (k k' : Option Commit) (c : Bcache)
      (here : s.pc p = .run k) (reads : Reads s.log b k n k')
      (got : Bcache.Got s.cache DEV (UInt32.ofNat n) b c) :
      Step s ({ s with cache := c }.goto p (.lock b k'))
  | acquire (p : P) (b : Fin NBUF) (k : Option Commit) (here : s.pc p = .lock b k)
      (free : s.lock b = none) : Step s (((s.fill b).setLock b (some p)).goto p (.run k))
  | release (p : P) (b : Fin NBUF) (k k' : Option Commit) (here : s.pc p = .run k)
      (releases : Releases s p b k k') : Step s (s.callBrelse p b k')
  | drop (p : P) (b : Fin NBUF) (k : Option Commit) (here : s.pc p = .drop b k) :
      Step s ({ s with cache := s.cache.brelse b }.goto p (.run k))
  | change (p : P) (b : Fin NBUF) (data : Block) (here : s.pc p = .run none)
      (locked : s.lock b = some p) (home : s.Home (s.blockno b)) :
      Step s { s.setData b data with changed := update s.changed b true }
  | logWrite (p : P) (b : Fin NBUF) (log : Log) (here : s.pc p = .run none)
      (locked : s.lock b = some p) (home : s.Home (s.blockno b))
      (records : s.log.write (s.blockno b) = .ok log) :
      Step s (s.logWrite b log)
  | count (outstanding : Int) (ready : s.log.committing = false) :
      Step s { s with log := { s.log with outstanding := outstanding } }
  | commit (p : P) (here : s.pc p = .run none) (ready : s.log.committing = false) :
      Step s ({ s with log := { s.log with outstanding := 0, committing := true } }.goto p
        (.run (some (if s.log.lh.length > 0 then .readLog .writeLog 0 else .finish))))
  | wroteLog (p : P) (tail : Nat) (here : s.pc p = .run (some (.readLog .writeLog tail)))
      (done : s.log.lh.length ≤ tail) : Step s (s.goto p (.run (some (.readHead false))))
  | installedAll (p : P) (tail : Nat) (here : s.pc p = .run (some (.readLog .installTrans tail)))
      (done : s.log.lh.length ≤ tail) : Step s (s.goto p (.run (some .clear)))
  | copyLog (p : P) (tail : Nat) (l h : Fin NBUF)
      (here : s.pc p = .run (some (.copy .writeLog tail l h))) :
      Step s ((s.bwrite l (s.data h)).goto p (.run (some (.relseFirst .writeLog tail l h))))
  | copyHome (p : P) (tail : Nat) (l h : Fin NBUF)
      (here : s.pc p = .run (some (.copy .installTrans tail l h))) :
      Step s ({ s.bwrite h (s.data l) with installed := s.installed + 1 }.goto p
        (.run (some (.unpin tail l h))))
  | unpin (p : P) (tail : Nat) (l h : Fin NBUF) (here : s.pc p = .run (some (.unpin tail l h))) :
      Step s ({ s with cache := s.cache.bunpin h, unpinned := s.unpinned + 1 }.goto p
        (.run (some (.relseFirst .installTrans tail l h))))
  | writeHead (p : P) (erase : Bool) (b : Fin NBUF)
      (here : s.pc p = .run (some (.writeHead erase b))) :
      Step s ((s.bwrite b ((s.data b).setHead s.log.lh)).goto p (.run (some (.relseHead erase b))))
  | clear (p : P) (here : s.pc p = .run (some .clear)) :
      Step s ({ s with log := { s.log with lh := [] }, installed := 0, unpinned := 0 }.goto p
        (.run (some (.readHead true))))
  | finish (p : P) (here : s.pc p = .run (some .finish)) :
      Step s ({ s with log := { s.log with committing := false } }.goto p (.run none))

variable {s next : State P} {p : P} {victim : Fin NBUF}

theorem got_of_bget {c c' : Bcache} {blockno : UInt32} {b : Fin NBUF}
    (h : bget c blockno b = some c') : Bcache.Got c DEV blockno b c' := by
  unfold bget at h
  split at h
  · rename_i cached
    cases h
    exact .hit cached
  · split at h
    · rename_i hunused
      cases h
      exact .recycled hunused.2 hunused.1
    · cases h

theorem step_of_callBread {n : Nat} {k k' : Option Commit} (here : s.pc p = .run k)
    (reads : Reads s.log victim k n k') (h : s.callBread p n victim k' = some next) : Step s next := by
  obtain ⟨c, hget, rfl⟩ := Option.map_eq_some_iff.mp h
  exact .bread p victim n k k' c here reads (got_of_bget hget)

theorem step_of_client {act : Act} (here : s.pc p = .run none) (allowed : s.Allowed ⟨p, act, victim⟩)
    (h : s.clientStep p victim act = some (.ok next)) : Step s next := by
  cases act with
  | bread blockno =>
    obtain ⟨t, ht, heq⟩ := Option.map_eq_some_iff.mp h
    cases heq
    exact step_of_callBread here (.client blockno) ht
  | change b data =>
    cases h
    exact .change p b data here allowed.1 allowed.2
  | logWrite b =>
    simp only [State.clientStep] at h
    split at h
    · cases h
    · rename_i log records
      cases h
      exact .logWrite p b log here allowed.1 allowed.2 records
  | brelse b =>
    cases h
    exact .release p b none none here (.client allowed.1 allowed.2)
  | beginOp =>
    simp only [State.clientStep] at h
    split at h
    · cases h
    · rename_i hwaits
      cases h
      exact .count _ (by simpa using fun hc => hwaits (.inl hc))
  | endOp =>
    simp only [State.clientStep] at h
    split at h
    · cases h
    · split at h
      · cases h
      · rename_i ready
        split at h
        · cases h
          exact .commit p here (by simpa using ready)
        · cases h
          exact .count _ (by simpa using ready)
  | next => cases h

theorem step_of_commit {c : Commit} (here : s.pc p = .run (some c))
    (h : s.commitStep p victim c = some next) : Step s next := by
  cases c with
  | readLog loop tail =>
    simp only [State.commitStep] at h
    split at h
    · rename_i more
      exact step_of_callBread here (.log loop tail more) h
    · rename_i done
      cases loop with
      | writeLog =>
        cases h
        exact .wroteLog p tail here (Nat.le_of_not_lt done)
      | installTrans =>
        cases h
        exact .installedAll p tail here (Nat.le_of_not_lt done)
  | readHome loop tail l => exact step_of_callBread here (.home loop tail l) h
  | copy loop tail l h' =>
    cases loop with
    | writeLog =>
      cases h
      exact .copyLog p tail l h' here
    | installTrans =>
      cases h
      exact .copyHome p tail l h' here
  | unpin tail l h' =>
    cases h
    exact .unpin p tail l h' here
  | relseFirst loop tail l h' =>
    cases loop with
    | writeLog =>
      cases h
      exact .release p h' _ _ here (.writeLogHome tail l)
    | installTrans =>
      cases h
      exact .release p l _ _ here (.installLog tail h')
  | relseLast loop tail b =>
    cases h
    exact .release p b _ _ here (.last loop tail)
  | readHead erase => exact step_of_callBread here (.head erase) h
  | writeHead erase b =>
    cases h
    exact .writeHead p erase b here
  | relseHead erase b =>
    cases h
    exact .release p b _ _ here (.head erase)
  | clear =>
    cases h
    exact .clear p here
  | finish =>
    cases h
    exact .finish p here

theorem step_of_event {event : Event P} (allowed : s.Allowed event)
    (h : s.step event = some (.ok next)) : Step s next := by
  obtain ⟨p, act, victim⟩ := event
  unfold State.step at h
  dsimp only at h
  split at h
  · rename_i here
    exact step_of_client here allowed h
  · rename_i c here
    obtain ⟨t, ht, heq⟩ := Option.map_eq_some_iff.mp h
    cases heq
    exact step_of_commit here ht
  · rename_i b k here
    obtain ⟨t, ht, heq⟩ := Option.map_eq_some_iff.mp h
    cases heq
    unfold State.finishBread at ht
    split at ht
    · cases ht
    · rename_i free
      cases ht
      exact .acquire p b k here (by simpa using free)
  · rename_i b k here
    cases h
    exact .drop p b k here
  · cases h

end Xv6.BlockStore
