import Mathlib.Algebra.BigOperators.Fin
import Xv6.Bio.BlockStore

/-! The invariant of the block store: places in `commit`, reference counts and logged data. -/
namespace Xv6.BlockStore

variable {P : Type}

def Pc.commit : Pc → Option Commit
  | .run k | .lock _ k | .drop _ k => k

/-- A buffer that is referred to without its lock. -/
def Pc.uses : Pc → Option (Fin NBUF)
  | .lock b _ | .drop b _ => some b
  | .run _ => none

def Pc.waits : Pc → Option (Fin NBUF)
  | .lock b _ => some b
  | _ => none

namespace Commit

def held (log : Log) : Commit → List (Fin NBUF × Nat)
  | .readHome _ tail l | .relseLast .writeLog tail l => [(l, log.start + tail + 1)]
  | .copy _ tail l h | .unpin tail l h | .relseFirst _ tail l h =>
    [(l, log.start + tail + 1), (h, log.lh.getD tail 0)]
  | .relseLast .installTrans tail h => [(h, log.lh.getD tail 0)]
  | .writeHead _ b | .relseHead _ b => [(b, log.start)]
  | _ => []

/-- How many of `n` log blocks have been written. -/
def written (n : Nat) : Commit → Nat
  | .readLog .writeLog tail | .readHome .writeLog tail _ | .copy .writeLog tail _ _ => tail
  | .relseFirst .writeLog tail _ _ | .relseLast .writeLog tail _ => tail + 1
  | .readHead true | .writeHead true _ | .relseHead true _ | .clear | .finish => 0
  | _ => n

def installed (n : Nat) : Commit → Nat
  | .readLog .installTrans tail | .readHome .installTrans tail _
  | .copy .installTrans tail _ _ => tail
  | .unpin tail _ _ | .relseFirst .installTrans tail _ _ | .relseLast .installTrans tail _ =>
    tail + 1
  | .clear => n
  | _ => 0

def unpinned (n : Nat) : Commit → Nat
  | .unpin tail _ _ => tail
  | c => c.installed n

/-- The entry at work is one of the header. -/
def InRange (n : Nat) : Commit → Prop
  | .readLog _ tail => tail ≤ n
  | .readHome _ tail _ | .copy _ tail _ _ | .unpin tail _ _ | .relseFirst _ tail _ _
  | .relseLast _ tail _ => tail < n
  | .readHead true | .writeHead true _ | .relseHead true _ | .finish => n = 0
  | _ => True

end Commit

namespace State

variable (s : State P)

def Is (b : Fin NBUF) (n : Nat) : Prop := (s.cache.buf b).dev = DEV ∧ s.blockno b = n

def uninstalled : List Nat := s.log.lh.drop s.installed

def pins : List Nat := s.log.lh.drop s.unpinned

variable [Fintype P]

def users (b : Fin NBUF) : Nat := ∑ p, if (s.pc p).uses = some b then 1 else 0

/-- The references of the lock's holder, of those waiting or about to drop it, and of the log. -/
def references (b : Fin NBUF) : Nat :=
  (if (s.lock b).isSome then 1 else 0) + s.users b +
    if (s.cache.buf b).dev = DEV ∧ s.blockno b ∈ s.pins then 1 else 0

end State

structure Progress (s : State P) (c : Commit) : Prop where
  range : c.InRange s.log.lh.length
  written : ∀ i, i < c.written s.log.lh.length → s.disk (s.logBlock i) = s.store (s.homeBlock i)
  installed : s.installed = c.installed s.log.lh.length
  unpinned : s.unpinned = c.unpinned s.log.lh.length

structure Local (s : State P) (p : P) : Prop where
  held : ∀ c, (s.pc p).commit = some c → ∀ x ∈ c.held s.log, s.Is x.1 x.2 ∧
    ((s.pc p).waits = some x.1 ∨ s.lock x.1 = some p ∧ s.changed x.1 = false)
  progress : ∀ c, (s.pc p).commit = some c → s.log.committing = true ∧ Progress s c

structure LogShape (s : State P) : Prop where
  fits : 0 < s.log.size ∧ s.log.start + s.log.size ≤ 2 ^ 32
  nodup : s.log.lh.Nodup
  home : ∀ n ∈ s.log.lh, s.Home n ∧ n < 2 ^ 32
  room : s.log.lh.length = 0 ∨ s.log.lh.length + 1 ≤ s.log.size
  ready : s.log.committing = false → s.installed = 0 ∧ s.unpinned = 0
  closed : s.log.committing = true → s.log.outstanding = 0
  order : s.unpinned ≤ s.installed
  lone : ∀ p q c d, (s.pc p).commit = some c → (s.pc q).commit = some d → p = q

structure Counts [Fintype P] (s : State P) : Prop where
  unique : ∀ b b' n, s.Is b n → s.Is b' n → b = b'
  counted : ∀ b, (s.cache.buf b).refcnt = UInt32.ofNat (s.references b)
  uses : ∀ p b, (s.pc p).uses = some b → (s.cache.buf b).dev = DEV
  locked : ∀ b, (s.lock b).isSome → (s.cache.buf b).dev = DEV

structure Contents (s : State P) : Prop where
  changed : ∀ b, s.changed b = true → (s.lock b).isSome
  valid : ∀ b, (s.lock b).isSome → (s.cache.buf b).valid = true
  home : ∀ b n, s.Is b n → s.Home n → (s.cache.buf b).valid = true → s.changed b = false →
    s.data b = s.store n
  log : ∀ b n, s.Is b n → ¬s.Home n → (s.cache.buf b).valid = true → s.data b = s.disk n
  disk : ∀ n, s.Home n → s.disk n = s.store n ∨ n ∈ s.uninstalled
  pinned : ∀ n ∈ s.pins, ∃ b, s.Is b n ∧ (s.cache.buf b).valid = true

structure Invariant [Fintype P] (s : State P) : Prop where
  process : ∀ p, Local s p
  log : LogShape s
  counts : Counts s
  contents : Contents s

end Xv6.BlockStore
