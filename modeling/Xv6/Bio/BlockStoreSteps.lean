import Xv6.Bio.BlockStoreInvariant
import Xv6.Bio.Refcount

/-! Every step of a process keeps the invariant of the block store. -/
namespace Xv6.BlockStore

open Function
open Bcache

variable {P : Type} {s s' : State P} {p q : P} {b : Fin NBUF} {n : Nat}
  {k k' : Option Commit} {pc : Pc}

/-- What `q` relies on is left alone. -/
structure Undisturbed (s s' : State P) (q : P) : Prop where
  pc : s'.pc q = s.pc q
  lock : ∀ b, s.lock b = some q → s'.lock b = some q
  changed : ∀ b, s.lock b = some q → s'.changed b = s.changed b
  ident : ∀ b n, (s.cache.buf b).refcnt ≠ 0 → s.Is b n → s'.Is b n
  quiet : ∀ c, (s.pc q).commit = some c → s'.log = s.log ∧ s'.disk = s.disk ∧
    s'.store = s.store ∧ s'.installed = s.installed ∧ s'.unpinned = s.unpinned

theorem Pc.uses_of_waits (h : pc.waits = some b) : pc.uses = some b := by
  cases pc with
  | lock l k => exact h
  | run k => cases h
  | drop l k => cases h

structure SameBuf (x y : Buf) : Prop where
  dev : y.dev = x.dev
  blockno : y.blockno = x.blockno
  valid : y.valid = x.valid
  data : y.data = x.data

/-- The log is where it was, with the same blocks to install and unpin. -/
structure SameLog (s s' : State P) : Prop where
  start : s'.log.start = s.log.start
  size : s'.log.size = s.log.size
  pins : s'.pins = s.pins
  uninstalled : s'.uninstalled = s.uninstalled

theorem SameLog.home (h : SameLog s s') (n : Nat) : s'.Home n ↔ s.Home n := by
  unfold State.Home
  rw [h.start, h.size]

theorem LogShape.of_same (h : LogShape s) (same : s'.log = s.log)
    (installed : s'.installed = s.installed) (unpinned : s'.unpinned = s.unpinned)
    (commit : ∀ q c, (s'.pc q).commit = some c → ∃ d, (s.pc q).commit = some d) :
    LogShape s' := by
  refine ⟨?_, ?_, ?_, ?_, ?_, ?_, ?_, ?_⟩
  · rw [same]
    exact h.fits
  · rw [same]
    exact h.nodup
  · unfold State.Home
    rw [same]
    exact h.home
  · rw [same]
    exact h.room
  · rw [same, installed, unpinned]
    exact h.ready
  · rw [same]
    exact h.closed
  · rw [installed, unpinned]
    exact h.order
  · intro p q c d hp hq
    obtain ⟨c', hp'⟩ := commit p c hp
    obtain ⟨d', hq'⟩ := commit q d hq
    exact h.lone p q c' d' hp' hq'

theorem Contents.of_same (h : Contents s) (same : SameLog s s')
    (buf : ∀ b, SameBuf (s.cache.buf b) (s'.cache.buf b)) (disk : s'.disk = s.disk)
    (store : s'.store = s.store) (changed : s'.changed = s.changed)
    (locked : ∀ b, s.changed b = true → (s'.lock b).isSome)
    (valid : ∀ b, (s'.lock b).isSome → (s.cache.buf b).valid = true) : Contents s' := by
  have his : ∀ b n, s'.Is b n ↔ s.Is b n := by
    intro b n
    unfold State.Is State.blockno
    rw [(buf b).dev, (buf b).blockno]
  have hdata : ∀ b, s'.data b = s.data b := fun b => (buf b).data
  refine ⟨?_, ?_, ?_, ?_, ?_, ?_⟩
  · rw [changed]
    exact locked
  · intro b hb
    rw [(buf b).valid]
    exact valid b hb
  · intro b n
    rw [his, same.home, (buf b).valid, changed, hdata, store]
    exact h.home b n
  · intro b n
    rw [his, same.home, (buf b).valid, hdata, disk]
    exact h.log b n
  · intro n
    rw [same.home, disk, store, same.uninstalled]
    exact h.disk n
  · intro n
    rw [same.pins]
    intro hn
    obtain ⟨b, hb, hvalid⟩ := h.pinned n hn
    exact ⟨b, (his b n).mpr hb, (buf b).valid.trans hvalid⟩

theorem sameBuf_setRefcnt (c : Bcache) (b b' : Fin NBUF) (f : UInt32 → UInt32) :
    SameBuf (c.buf b') ((c.setBuf b fun x => { x with refcnt := f x.refcnt }).buf b') := by
  obtain rfl | hb := eq_or_ne b' b
  · rw [setBuf_self]
    exact ⟨rfl, rfl, rfl, rfl⟩
  · rw [setBuf_of_ne _ hb]
    exact ⟨rfl, rfl, rfl, rfl⟩

theorem Invariant.mem_lh {tail : Nat} (htail : tail < s.log.lh.length) :
    s.log.lh.getD tail 0 ∈ s.log.lh := by
  have hget : s.log.lh.getD tail 0 = s.log.lh[tail] := by simp [htail]
  rw [hget]
  exact List.getElem_mem htail

theorem Invariant.progress_of_releases {c c' : Commit} (h : Releases s p b (some c) (some c'))
    (hp : Progress s c) : Progress s c' := by
  cases h with
  | writeLogHome tail l => exact ⟨hp.range, hp.written, hp.installed, hp.unpinned⟩
  | installLog tail h => exact ⟨hp.range, hp.written, hp.installed, hp.unpinned⟩
  | last loop tail =>
    cases loop with
    | writeLog => exact ⟨hp.range, hp.written, hp.installed, hp.unpinned⟩
    | installTrans => exact ⟨hp.range, hp.written, hp.installed, hp.unpinned⟩
  | head erase =>
    cases erase with
    | true => exact ⟨hp.range, hp.written, hp.installed, hp.unpinned⟩
    | false => exact ⟨Nat.zero_le _, hp.written, hp.installed, hp.unpinned⟩

theorem Invariant.progress_of_reads {c c' : Commit} (h : Reads s.log b (some c) n (some c'))
    (hp : Progress s c) : Progress s c' := by
  cases h with
  | log loop tail more =>
    cases loop <;> exact ⟨more, hp.written, hp.installed, hp.unpinned⟩
  | home loop tail l =>
    cases loop <;> exact ⟨hp.range, hp.written, hp.installed, hp.unpinned⟩
  | head erase =>
    cases erase <;> exact ⟨hp.range, hp.written, hp.installed, hp.unpinned⟩

section Counted

variable [Fintype P]

theorem references_le (s : State P) (b : Fin NBUF) : s.references b ≤ Fintype.card P + 2 := by
  have husers : s.users b ≤ Fintype.card P := by
    unfold State.users
    rw [Finset.sum_boole]
    exact Finset.card_le_univ _
  unfold State.references
  split <;> split <;> omega

theorem Counts.refcnt_eq_zero (h : Counts s) (few : Fintype.card P + 2 < 2 ^ 32) :
    (s.cache.buf b).refcnt = 0 ↔ s.references b = 0 := by
  have hle := references_le s b
  rw [h.counted b]
  constructor
  · intro hzero
    have hnat := congrArg UInt32.toNat hzero
    have hsize : UInt32.size = 2 ^ 32 := rfl
    rw [UInt32.toNat_ofNat_of_lt' (by omega)] at hnat
    exact hnat
  · intro hzero
    rw [hzero]
    rfl

theorem Counts.of_same (h : Counts s)
    (ident : ∀ b, (s'.cache.buf b).dev = (s.cache.buf b).dev ∧ s'.blockno b = s.blockno b)
    (counted : ∀ b, (s'.cache.buf b).refcnt = UInt32.ofNat (s'.references b))
    (uses : ∀ p b, (s'.pc p).uses = some b → (s.cache.buf b).dev = DEV)
    (locked : ∀ b, (s'.lock b).isSome → (s.cache.buf b).dev = DEV) : Counts s' := by
  refine ⟨?_, counted, ?_, ?_⟩
  · intro b b' n
    unfold State.Is
    rw [(ident b).1, (ident b).2, (ident b').1, (ident b').2]
    exact h.unique b b' n
  · intro p b hb
    rw [(ident b).1]
    exact uses p b hb
  · intro b hb
    rw [(ident b).1]
    exact locked b hb

namespace Invariant

variable (inv : Invariant s)

include inv

theorem log_ne_home {tail : Nat} (i : Nat) (htail : tail < s.log.lh.length)
    (hi : i ≤ s.log.lh.length) : s.log.start + i ≠ s.log.lh.getD tail 0 := by
  intro heq
  have hhome := (inv.log.home _ (mem_lh htail)).1
  rw [← heq] at hhome
  have hroom := inv.log.room
  unfold State.Home at hhome
  omega

theorem locked_of_held {c : Commit} {x : Fin NBUF × Nat} (here : s.pc p = .run (some c))
    (hx : x ∈ c.held s.log) : s.Is x.1 x.2 ∧ s.lock x.1 = some p ∧ s.changed x.1 = false := by
  obtain ⟨his, hwaits | hlock⟩ := (inv.process p).held c (by rw [here]; rfl) x hx
  · rw [here] at hwaits
    cases hwaits
  · exact ⟨his, hlock⟩

theorem locked_of_releases (here : s.pc p = .run k) (h : Releases s p b k k') :
    s.lock b = some p ∧ s.changed b = false := by
  cases h with
  | client locked logged => exact ⟨locked, logged⟩
  | writeLogHome tail l =>
    exact (inv.locked_of_held (x := (b, s.log.lh.getD tail 0)) here (by simp [Commit.held])).2
  | installLog tail h =>
    exact (inv.locked_of_held (x := (b, s.log.start + tail + 1)) here (by simp [Commit.held])).2
  | last loop tail =>
    cases loop with
    | writeLog =>
      exact (inv.locked_of_held (x := (b, s.log.start + tail + 1)) here (by simp [Commit.held])).2
    | installTrans =>
      exact (inv.locked_of_held (x := (b, s.log.lh.getD tail 0)) here (by simp [Commit.held])).2
  | head erase =>
    exact (inv.locked_of_held (x := (b, s.log.start)) here (by simp [Commit.held])).2

theorem held_of_releases {c : Commit} (here : s.pc p = .run k) (h : Releases s p b k (some c))
    {x : Fin NBUF × Nat} (hx : x ∈ c.held s.log) :
    s.Is x.1 x.2 ∧ s.lock x.1 = some p ∧ s.changed x.1 = false ∧ x.1 ≠ b := by
  generalize hk' : some c = k' at h
  cases h with
  | client locked logged => cases hk'
  | writeLogHome tail l =>
    cases hk'
    have hrange := ((inv.process p).progress _ (by rw [here]; rfl)).2.range
    obtain ⟨hhome, -⟩ := inv.locked_of_held (x := (b, s.log.lh.getD tail 0)) here
      (by simp [Commit.held])
    obtain rfl : x = (l, s.log.start + tail + 1) := by simpa [Commit.held] using hx
    obtain ⟨hlog, hlock⟩ := inv.locked_of_held (x := (l, s.log.start + tail + 1)) here
      (by simp [Commit.held])
    refine ⟨hlog, hlock.1, hlock.2, ?_⟩
    rintro rfl
    exact inv.log_ne_home (tail + 1) hrange hrange (hlog.2.symm.trans hhome.2)
  | installLog tail h =>
    cases hk'
    have hrange := ((inv.process p).progress _ (by rw [here]; rfl)).2.range
    obtain ⟨hlog, -⟩ := inv.locked_of_held (x := (b, s.log.start + tail + 1)) here
      (by simp [Commit.held])
    obtain rfl : x = (h, s.log.lh.getD tail 0) := by simpa [Commit.held] using hx
    obtain ⟨hhome, hlock⟩ := inv.locked_of_held (x := (h, s.log.lh.getD tail 0)) here
      (by simp [Commit.held])
    refine ⟨hhome, hlock.1, hlock.2, ?_⟩
    rintro rfl
    exact inv.log_ne_home (tail + 1) hrange hrange (hlog.2.symm.trans hhome.2)
  | last loop tail =>
    cases hk'
    simp [Commit.held] at hx
  | head erase =>
    cases hk'
    cases erase <;> simp [Commit.held] at hx

theorem lt_of_reads (here : s.pc p = .run k) (h : Reads s.log b k n k') : n < 2 ^ 32 := by
  have hfits := inv.log.fits
  have hroom := inv.log.room
  cases h with
  | client blockno => exact blockno.toNat_lt
  | log loop tail more => omega
  | home loop tail l =>
    have hrange := ((inv.process p).progress _ (by rw [here]; rfl)).2.range
    exact (inv.log.home _ (mem_lh hrange)).2
  | head erase => omega

/-- A block that is not read yet is up to date on disk. -/
theorem disk_of_invalid (his : s.Is b n) (home : s.Home n)
    (invalid : (s.cache.buf b).valid = false) : s.disk n = s.store n := by
  obtain hdisk | hmem := inv.contents.disk n home
  · exact hdisk
  · have hpin : n ∈ s.pins := by
      unfold State.pins
      unfold State.uninstalled at hmem
      exact List.drop_subset_drop_left _ inv.log.order hmem
    obtain ⟨b', his', valid⟩ := inv.contents.pinned n hpin
    rw [inv.counts.unique b b' n his his', valid] at invalid
    cases invalid

end Invariant

end Counted

variable [DecidableEq P]

namespace State

variable (s)

@[simp] theorem goto_self (p : P) (pc : Pc) : (s.goto p pc).pc p = pc :=
  update_self ..

theorem goto_of_ne {p q : P} (pc : Pc) (hq : q ≠ p) : (s.goto p pc).pc q = s.pc q :=
  update_of_ne hq ..

@[simp] theorem goto_cache (p : P) (pc : Pc) : (s.goto p pc).cache = s.cache := rfl

@[simp] theorem goto_lock (p : P) (pc : Pc) : (s.goto p pc).lock = s.lock := rfl

@[simp] theorem goto_log (p : P) (pc : Pc) : (s.goto p pc).log = s.log := rfl

end State

/-- A step of `p` that changes no data and at most one lock. -/
structure Bookkeeping (s s' : State P) (p : P) (pc : Pc) : Prop where
  pc : s'.pc = update s.pc p pc
  buf : ∀ b, SameBuf (s.cache.buf b) (s'.cache.buf b)
  lock : ∀ b, s'.lock b = s.lock b ∨
    (s.lock b = some p ∧ s.changed b = false ∧ s'.lock b = none) ∨
    (s.lock b = none ∧ (s.cache.buf b).dev = DEV ∧ (s.cache.buf b).valid = true ∧
      s'.lock b = some p)
  log : s'.log = s.log
  disk : s'.disk = s.disk
  store : s'.store = s.store
  changed : s'.changed = s.changed
  installed : s'.installed = s.installed
  unpinned : s'.unpinned = s.unpinned

namespace Bookkeeping

variable (h : Bookkeeping s s' p pc)

include h

theorem pc_of_ne (hq : q ≠ p) : s'.pc q = s.pc q := by
  rw [h.pc, update_of_ne hq]

theorem pc_self : s'.pc p = pc := by
  rw [h.pc, update_self]

theorem is_iff (b : Fin NBUF) (n : Nat) : s'.Is b n ↔ s.Is b n := by
  unfold State.Is State.blockno
  rw [(h.buf b).dev, (h.buf b).blockno]

theorem sameLog : SameLog s s' := by
  refine ⟨by rw [h.log], by rw [h.log], ?_, ?_⟩
  · unfold State.pins
    rw [h.log, h.unpinned]
  · unfold State.uninstalled
    rw [h.log, h.installed]

theorem undisturbed (hq : q ≠ p) : Undisturbed s s' q := by
  refine ⟨h.pc_of_ne hq, ?_, ?_, fun b n _ => (h.is_iff b n).mpr,
    fun _ _ => ⟨h.log, h.disk, h.store, h.installed, h.unpinned⟩⟩
  · intro b hlock
    obtain hsame | ⟨hown, -⟩ | ⟨hnone, -⟩ := h.lock b
    · exact hsame.trans hlock
    · exact absurd (Option.some.inj (hlock.symm.trans hown)) hq
    · cases hlock.symm.trans hnone
  · intro b _
    rw [h.changed]

theorem progress {c : Commit} (hc : Progress s c) : Progress s' c := by
  refine ⟨?_, ?_, ?_, ?_⟩
  · rw [h.log]
    exact hc.range
  · unfold State.logBlock State.homeBlock
    rw [h.log, h.disk, h.store]
    exact hc.written
  · rw [h.log, h.installed]
    exact hc.installed
  · rw [h.log, h.unpinned]
    exact hc.unpinned

end Bookkeeping

variable [Fintype P]

theorem users_goto (s : State P) (p : P) (pc : Pc) (b : Fin NBUF) :
    (s.goto p pc).users b + (if (s.pc p).uses = some b then 1 else 0) =
      s.users b + if pc.uses = some b then 1 else 0 := by
  unfold State.users
  rw [← Finset.add_sum_erase _ _ (Finset.mem_univ p),
    ← Finset.add_sum_erase Finset.univ (fun q => if (s.pc q).uses = some b then 1 else 0)
      (Finset.mem_univ p)]
  have hrest : ∑ q ∈ Finset.univ.erase p, (if ((s.goto p pc).pc q).uses = some b then 1 else 0) =
      ∑ q ∈ Finset.univ.erase p, if (s.pc q).uses = some b then 1 else 0 := by
    apply Finset.sum_congr rfl
    intro q hq
    rw [State.goto_of_ne _ _ (Finset.ne_of_mem_erase hq)]
  rw [hrest, State.goto_self]
  omega

theorem users_pos (h : (s.pc p).uses = some b) : 0 < s.users b := by
  unfold State.users
  rw [← Finset.add_sum_erase _ _ (Finset.mem_univ p), if_pos h]
  omega

/-- Nobody refers to the buffer. -/
structure Unused (s : State P) (b : Fin NBUF) : Prop where
  lock : s.lock b = none
  uses : ∀ p, (s.pc p).uses ≠ some b
  pins : ∀ n ∈ s.pins, ¬s.Is b n

theorem Counts.unused (h : Counts s) (few : Fintype.card P + 2 < 2 ^ 32)
    (zero : (s.cache.buf b).refcnt = 0) : Unused s b := by
  have hzero := (h.refcnt_eq_zero few).mp zero
  unfold State.references at hzero
  refine ⟨?_, ?_, ?_⟩
  · cases hlock : s.lock b with
    | none => rfl
    | some q =>
      rw [hlock] at hzero
      simp at hzero
  · intro p hp
    have hpos := users_pos hp
    omega
  · intro n hn his
    simp [his.1, his.2, hn] at hzero

theorem refcnt_of_held (inv : Invariant s) (few : Fintype.card P + 2 < 2 ^ 32)
    (h : (s.pc q).waits = some b ∨ s.lock b = some q) : (s.cache.buf b).refcnt ≠ 0 := by
  intro hzero
  have hunused := inv.counts.unused few hzero
  obtain hwaits | hlock := h
  · exact hunused.uses q (Pc.uses_of_waits hwaits)
  · rw [hunused.lock] at hlock
    cases hlock

theorem Invariant.undisturbed (inv : Invariant s) (few : Fintype.card P + 2 < 2 ^ 32)
    (f : Undisturbed s s' q) : Local s' q := by
  have h := inv.process q
  refine ⟨?_, ?_⟩
  · intro c hc x hx
    rw [f.pc] at hc ⊢
    rw [(f.quiet c hc).1] at hx
    obtain ⟨his, hwaits | ⟨hlock, hclean⟩⟩ := h.held c hc x hx
    · exact ⟨f.ident _ _ (refcnt_of_held inv few (.inl hwaits)) his, .inl hwaits⟩
    · refine ⟨f.ident _ _ (refcnt_of_held inv few (.inr hlock)) his, .inr ⟨f.lock _ hlock, ?_⟩⟩
      rw [f.changed _ hlock, hclean]
  · intro c hc
    rw [f.pc] at hc
    obtain ⟨hlog, hdisk, hstore, hinstalled, hunpinned⟩ := f.quiet c hc
    obtain ⟨hcommitting, hprogress⟩ := h.progress c hc
    rw [hlog]
    refine ⟨hcommitting, ⟨?_, ?_, ?_, ?_⟩⟩
    · rw [hlog]
      exact hprogress.range
    · unfold State.logBlock State.homeBlock
      rw [hlog, hdisk, hstore]
      exact hprogress.written
    · rw [hlog, hinstalled]
      exact hprogress.installed
    · rw [hlog, hunpinned]
      exact hprogress.unpinned

theorem Invariant.of_frame (inv : Invariant s) (few : Fintype.card P + 2 < 2 ^ 32)
    (f : ∀ q, q ≠ p → Undisturbed s s' q) (own : Local s' p) (log : LogShape s')
    (counts : Counts s') (contents : Contents s') : Invariant s' := by
  refine ⟨?_, log, counts, contents⟩
  intro q
  by_cases hq : q = p
  · rw [hq]
    exact own
  · exact inv.undisturbed few (f q hq)

theorem Invariant.bookkeep (inv : Invariant s) (few : Fintype.card P + 2 < 2 ^ 32)
    (h : Bookkeeping s s' p pc)
    (counted : ∀ b, (s'.cache.buf b).refcnt = UInt32.ofNat (s'.references b))
    (uses : ∀ b, pc.uses = some b → (s.cache.buf b).dev = DEV)
    (commit : ∀ c, pc.commit = some c → ∃ d, (s.pc p).commit = some d) (own : Local s' p) :
    Invariant s' := by
  refine inv.of_frame few (fun _ => h.undisturbed) own (inv.log.of_same h.log h.installed h.unpinned ?_)
    (inv.counts.of_same ?_ counted ?_ ?_)
    (inv.contents.of_same h.sameLog h.buf h.disk h.store h.changed ?_ ?_)
  · intro q c hc
    by_cases hq : q = p
    · rw [hq] at hc ⊢
      exact commit c (by rwa [h.pc_self] at hc)
    · rw [h.pc_of_ne hq] at hc
      exact ⟨c, hc⟩
  · intro b
    unfold State.blockno
    exact ⟨(h.buf b).dev, congrArg UInt32.toNat (h.buf b).blockno⟩
  · intro q b hb
    by_cases hq : q = p
    · rw [hq, h.pc_self] at hb
      exact uses b hb
    · rw [h.pc_of_ne hq] at hb
      exact inv.counts.uses q b hb
  · intro b hb
    obtain hsame | ⟨-, -, hnone⟩ | ⟨-, hdev, -⟩ := h.lock b
    · exact inv.counts.locked b (hsame ▸ hb)
    · rw [hnone] at hb
      cases hb
    · exact hdev
  · intro b hb
    obtain hsame | ⟨-, hclean, -⟩ | ⟨-, -, -, hlock⟩ := h.lock b
    · rw [hsame]
      exact inv.contents.changed b hb
    · rw [hclean] at hb
      cases hb
    · rw [hlock]
      rfl
  · intro b hb
    obtain hsame | ⟨-, -, hnone⟩ | ⟨-, -, hvalid, -⟩ := h.lock b
    · exact inv.contents.valid b (hsame ▸ hb)
    · rw [hnone] at hb
      cases hb
    · exact hvalid

theorem Bookkeeping.references (h : Bookkeeping s s' p pc) (b : Fin NBUF) :
    s'.references b + ((if (s.lock b).isSome then 1 else 0) +
        if (s.pc p).uses = some b then 1 else 0) =
      s.references b + ((if (s'.lock b).isSome then 1 else 0) +
        if pc.uses = some b then 1 else 0) := by
  have husers := users_goto s p pc b
  have heq : s'.users b = (s.goto p pc).users b := by
    unfold State.users
    rw [h.pc]
    rfl
  have hblock : s'.blockno b = s.blockno b := congrArg UInt32.toNat (h.buf b).blockno
  unfold State.references
  rw [h.sameLog.pins, (h.buf b).dev, hblock, heq]
  omega

namespace Invariant

variable (inv : Invariant s) (few : Fintype.card P + 2 < 2 ^ 32)

include inv few

theorem drop (here : s.pc p = .drop b k) :
    Invariant ({ s with cache := s.cache.brelse b }.goto p (.run k)) := by
  have hbook : Bookkeeping s ({ s with cache := s.cache.brelse b }.goto p (.run k)) p (.run k) := by
    refine ⟨rfl, ?_, fun _ => .inl rfl, rfl, rfl, rfl, rfl, rfl, rfl⟩
    intro b'
    rw [State.goto_cache]
    dsimp only
    rw [brelse_buf]
    exact sameBuf_setRefcnt s.cache b b' (· - 1)
  refine inv.bookkeep few hbook ?_ (fun _ h => by cases h) ?_ ⟨?_, ?_⟩
  · intro b'
    rw [State.goto_cache]
    dsimp only
    rw [brelse_buf]
    refine Cache.counted_sub inv.counts.counted ?_ b'
    intro l
    have hrefs := hbook.references l
    have hlock : ({ s with cache := s.cache.brelse b }.goto p (.run k)).lock l = s.lock l := rfl
    simp only [hlock, here, Pc.uses, Option.some.injEq, reduceCtorEq, if_false] at hrefs
    by_cases hl : l = b
    · simp only [hl, if_true] at hrefs ⊢
      omega
    · simp only [hl, Ne.symm hl, if_false] at hrefs ⊢
      omega
  · intro c hc
    rw [here]
    exact ⟨c, hc⟩
  · intro c hc x hx
    rw [hbook.pc_self] at hc
    obtain ⟨his, hwaits | hlock⟩ := (inv.process p).held c (by rw [here]; exact hc) x hx
    · rw [here] at hwaits
      cases hwaits
    · exact ⟨(hbook.is_iff _ _).mpr his, .inr hlock⟩
  · intro c hc
    rw [hbook.pc_self] at hc
    obtain ⟨hcommitting, hprogress⟩ := (inv.process p).progress c (by rw [here]; exact hc)
    exact ⟨hcommitting, hbook.progress hprogress⟩

theorem acquire (here : s.pc p = .lock b k) (free : s.lock b = none)
    (valid : (s.cache.buf b).valid = true) :
    Invariant ((s.setLock b (some p)).goto p (.run k)) := by
  have hself : (s.setLock b (some p)).lock b = some p := update_self ..
  have hother : ∀ l, l ≠ b → (s.setLock b (some p)).lock l = s.lock l := fun l hl =>
    update_of_ne hl ..
  have hdev : (s.cache.buf b).dev = DEV := inv.counts.uses p b (by rw [here]; rfl)
  have hclean : s.changed b = false := by
    cases hchanged : s.changed b with
    | false => rfl
    | true =>
      have hlocked := inv.contents.changed b hchanged
      rw [free] at hlocked
      cases hlocked
  have hbook : Bookkeeping s ((s.setLock b (some p)).goto p (.run k)) p (.run k) := by
    refine ⟨rfl, fun _ => ⟨rfl, rfl, rfl, rfl⟩, ?_, rfl, rfl, rfl, rfl, rfl, rfl⟩
    intro l
    obtain rfl | hl := eq_or_ne l b
    · exact .inr (.inr ⟨free, hdev, valid, hself⟩)
    · exact .inl (hother l hl)
  refine inv.bookkeep few hbook ?_ (fun _ h => by cases h) ?_ ⟨?_, ?_⟩
  · intro l
    have hrefs := hbook.references l
    simp only [here, Pc.uses, Option.some.injEq, reduceCtorEq, if_false, State.goto_lock] at hrefs
    have heq : ((s.setLock b (some p)).goto p (.run k)).references l = s.references l := by
      obtain rfl | hl := eq_or_ne l b
      · simp only [free, hself, Option.isSome_some, Option.isSome_none, if_true] at hrefs
        simpa using hrefs
      · simp only [hother l hl, Ne.symm hl, if_false] at hrefs
        omega
    rw [heq]
    exact inv.counts.counted l
  · intro c hc
    rw [here]
    exact ⟨c, hc⟩
  · intro c hc x hx
    rw [hbook.pc_self] at hc
    obtain ⟨his, hown⟩ := (inv.process p).held c (by rw [here]; exact hc) x hx
    refine ⟨his, .inr ?_⟩
    rw [here] at hown
    by_cases hx : x.1 = b
    · rw [hx]
      exact ⟨hself, hclean⟩
    · obtain hwaits | hlock := hown
      · exact absurd (Option.some.inj hwaits).symm hx
      · exact ⟨(hother _ hx).trans hlock.1, hlock.2⟩
  · intro c hc
    rw [hbook.pc_self] at hc
    obtain ⟨hcommitting, hprogress⟩ := (inv.process p).progress c (by rw [here]; exact hc)
    exact ⟨hcommitting, hbook.progress hprogress⟩

theorem release (here : s.pc p = .run k) (h : Releases s p b k k') :
    Invariant (s.callBrelse p b k') := by
  obtain ⟨locked, clean⟩ := inv.locked_of_releases here h
  have hself : (s.callBrelse p b k').lock b = none := update_self ..
  have hother : ∀ l, l ≠ b → (s.callBrelse p b k').lock l = s.lock l := fun l hl =>
    update_of_ne hl ..
  have hcommit : ∀ c', k' = some c' → ∃ c, k = some c := by
    rintro c' rfl
    cases h <;> exact ⟨_, rfl⟩
  have hbook : Bookkeeping s (s.callBrelse p b k') p (.drop b k') := by
    refine ⟨rfl, fun _ => ⟨rfl, rfl, rfl, rfl⟩, ?_, rfl, rfl, rfl, rfl, rfl, rfl⟩
    intro l
    obtain rfl | hl := eq_or_ne l b
    · exact .inr (.inl ⟨locked, clean, hself⟩)
    · exact .inl (hother l hl)
  refine inv.bookkeep few hbook ?_ ?_ ?_ ⟨?_, ?_⟩
  · intro l
    have hrefs := hbook.references l
    simp only [here, Pc.uses, Option.some.injEq, reduceCtorEq, if_false] at hrefs
    have heq : (s.callBrelse p b k').references l = s.references l := by
      obtain rfl | hl := eq_or_ne l b
      · simp only [locked, hself, Option.isSome_some, Option.isSome_none, if_true] at hrefs
        simpa using hrefs
      · simp only [hother l hl, Ne.symm hl, if_false] at hrefs
        omega
    rw [heq]
    exact inv.counts.counted l
  · intro l hl
    cases hl
    exact inv.counts.locked b (by rw [locked]; rfl)
  · intro c' hc'
    obtain ⟨c, rfl⟩ := hcommit c' hc'
    rw [here]
    exact ⟨c, rfl⟩
  · intro c' hc' x hx
    rw [hbook.pc_self] at hc'
    obtain rfl : k' = some c' := hc'
    obtain ⟨his, hlock, hclean, hne⟩ := inv.held_of_releases here h hx
    exact ⟨his, .inr ⟨(hother _ hne).trans hlock, hclean⟩⟩
  · intro c' hc'
    rw [hbook.pc_self] at hc'
    obtain rfl : k' = some c' := hc'
    obtain ⟨c, rfl⟩ := hcommit c' rfl
    obtain ⟨hcommitting, hprogress⟩ := (inv.process p).progress c (by rw [here]; rfl)
    exact ⟨hcommitting, hbook.progress (progress_of_releases h hprogress)⟩

theorem hit (here : s.pc p = .run k) (reads : Reads s.log b k n k') (his : s.Is b n) :
    Invariant ({ s with cache := s.cache.setBuf b fun x => { x with refcnt := x.refcnt + 1 } }.goto p
      (.lock b k')) := by
  have hbook : Bookkeeping s ({ s with
      cache := s.cache.setBuf b fun x => { x with refcnt := x.refcnt + 1 } }.goto p (.lock b k')) p
      (.lock b k') :=
    ⟨rfl, fun l => sameBuf_setRefcnt s.cache b l (· + 1), fun _ => .inl rfl, rfl, rfl, rfl, rfl, rfl,
      rfl⟩
  refine inv.bookkeep few hbook ?_ ?_ ?_ ⟨?_, ?_⟩
  · refine Cache.counted_add inv.counts.counted ?_
    intro l
    have hrefs := hbook.references l
    have hlock : ({ s with cache := s.cache.setBuf b fun x =>
        { x with refcnt := x.refcnt + 1 } }.goto p (.lock b k')).lock l = s.lock l := rfl
    simp only [hlock, here, Pc.uses, Option.some.injEq, reduceCtorEq, if_false] at hrefs
    by_cases hl : l = b
    · simp only [hl, if_true] at hrefs ⊢
      omega
    · simp only [hl, Ne.symm hl, if_false] at hrefs ⊢
      omega
  · intro l hl
    cases hl
    exact his.1
  · rintro c' rfl
    rw [here]
    cases reads <;> exact ⟨_, rfl⟩
  · intro c' hc' x hx
    rw [hbook.pc_self] at hc' ⊢
    obtain rfl : k' = some c' := hc'
    rw [hbook.is_iff]
    generalize hk' : some c' = k' at reads
    cases reads with
    | client blockno => cases hk'
    | log loop tail more =>
      cases hk'
      obtain rfl : x = (b, s.log.start + tail + 1) := by simpa [Commit.held] using hx
      exact ⟨his, .inl rfl⟩
    | home loop tail l =>
      cases hk'
      obtain rfl | rfl : x = (l, s.log.start + tail + 1) ∨ x = (b, s.log.lh.getD tail 0) := by
        simpa [Commit.held] using hx
      · have hheld := inv.locked_of_held (x := (l, s.log.start + tail + 1)) here
          (by simp [Commit.held])
        exact ⟨hheld.1, .inr hheld.2⟩
      · exact ⟨his, .inl rfl⟩
    | head erase =>
      cases hk'
      obtain rfl : x = (b, s.log.start) := by simpa [Commit.held] using hx
      exact ⟨his, .inl rfl⟩
  · intro c' hc'
    rw [hbook.pc_self] at hc'
    obtain rfl : k' = some c' := hc'
    obtain ⟨c, rfl⟩ : ∃ c, k = some c := by cases reads <;> exact ⟨_, rfl⟩
    obtain ⟨hcommitting, hprogress⟩ := (inv.process p).progress c (by rw [here]; rfl)
    exact ⟨hcommitting, hbook.progress (progress_of_reads reads hprogress)⟩

theorem fill (here : (s.pc p).uses = some b) (free : s.lock b = none) : Invariant (s.fill b) := by
  unfold State.fill
  split
  · exact inv
  · rename_i hinvalid
    have invalid : (s.cache.buf b).valid = false := by simpa using hinvalid
    set c := s.cache.setBuf b fun x => { x with data := s.disk (s.blockno b), valid := true }
      with hc
    have hself : c.buf b = { s.cache.buf b with data := s.disk (s.blockno b), valid := true } :=
      setBuf_self _
    have hother : ∀ l, l ≠ b → c.buf l = s.cache.buf l := fun l hl => setBuf_of_ne _ hl
    have hident : ∀ l, (c.buf l).dev = (s.cache.buf l).dev ∧
        (c.buf l).blockno = (s.cache.buf l).blockno ∧
        (c.buf l).refcnt = (s.cache.buf l).refcnt := by
      intro l
      by_cases hl : l = b
      · rw [hl, hself]
        exact ⟨rfl, rfl, rfl⟩
      · rw [hother l hl]
        exact ⟨rfl, rfl, rfl⟩
    have hblock : ∀ l, State.blockno { s with cache := c } l = s.blockno l := fun l =>
      congrArg UInt32.toNat (hident l).2.1
    have his : ∀ l m, State.Is { s with cache := c } l m ↔ s.Is l m := by
      intro l m
      unfold State.Is
      rw [hblock, (hident l).1]
    have hrefs : ∀ l, State.references { s with cache := c } l = s.references l := by
      intro l
      unfold State.references
      rw [hblock, (hident l).1]
      rfl
    refine ⟨fun q => inv.undisturbed few ⟨rfl, fun _ h => h, fun _ _ => rfl,
        fun l m _ h => (his l m).mpr h, fun _ _ => ⟨rfl, rfl, rfl, rfl, rfl⟩⟩,
      inv.log.of_same rfl rfl rfl fun q d hd => ⟨d, hd⟩,
      inv.counts.of_same (fun l => ⟨(hident l).1, hblock l⟩) ?_ inv.counts.uses
        inv.counts.locked, ⟨inv.contents.changed, ?_, ?_, ?_, inv.contents.disk, ?_⟩⟩
    · intro l
      rw [hrefs, ← inv.counts.counted]
      exact (hident l).2.2
    · intro l hl
      have hne : l ≠ b := by
        rintro rfl
        dsimp only at hl
        rw [free] at hl
        cases hl
      dsimp only
      rw [hother l hne]
      exact inv.contents.valid l hl
    · intro l m hlm home valid clean
      rw [his] at hlm
      unfold State.data
      dsimp only at valid ⊢
      obtain rfl | hl := eq_or_ne l b
      · rw [hself]
        dsimp only
        rw [hlm.2]
        exact inv.disk_of_invalid hlm home invalid
      · rw [hother l hl] at valid ⊢
        exact inv.contents.home l m hlm home valid clean
    · intro l m hlm home valid
      rw [his] at hlm
      unfold State.data
      dsimp only at valid ⊢
      obtain rfl | hl := eq_or_ne l b
      · rw [hself]
        dsimp only
        rw [hlm.2]
      · rw [hother l hl] at valid ⊢
        exact inv.contents.log l m hlm home valid
    · intro m hm
      obtain ⟨l, hlm, valid⟩ := inv.contents.pinned m hm
      have hne : l ≠ b := by
        rintro rfl
        rw [invalid] at valid
        cases valid
      refine ⟨l, (his l m).mpr hlm, ?_⟩
      dsimp only
      rw [hother l hne, valid]

theorem recycle {blockno : UInt32} (zero : (s.cache.buf b).refcnt = 0)
    (missing : ∀ b', ¬((s.cache.buf b').dev = DEV ∧ (s.cache.buf b').blockno = blockno)) :
    Invariant { s with cache := s.cache.setBuf b fun x =>
      { x with dev := DEV, blockno := blockno, valid := false } } := by
  have hunused := inv.counts.unused few zero
  set c := s.cache.setBuf b fun x => { x with dev := DEV, blockno := blockno, valid := false }
    with hc
  have hself : c.buf b = { s.cache.buf b with dev := DEV, blockno := blockno, valid := false } :=
    setBuf_self _
  have hother : ∀ l, l ≠ b → c.buf l = s.cache.buf l := fun l hl => setBuf_of_ne _ hl
  have his : ∀ l m, l ≠ b → (State.Is { s with cache := c } l m ↔ s.Is l m) := by
    intro l m hl
    unfold State.Is State.blockno
    dsimp only
    rw [hother l hl]
  have hpins : blockno.toNat ∉ s.pins := by
    intro hmem
    obtain ⟨l, hl, -⟩ := inv.contents.pinned _ hmem
    exact missing l ⟨hl.1, UInt32.toNat_inj.mp hl.2⟩
  have hlock : ∀ l, (s.lock l).isSome → l ≠ b := by
    rintro l hl rfl
    rw [hunused.lock] at hl
    cases hl
  have hrefs : ∀ l, State.references { s with cache := c } l = s.references l := by
    intro l
    unfold State.references
    obtain rfl | hl := eq_or_ne l b
    · have hnew : ¬((c.buf l).dev = DEV ∧ (c.buf l).blockno.toNat ∈ s.pins) := by
        rw [hself]
        exact fun h => hpins h.2
      have hold : ¬((s.cache.buf l).dev = DEV ∧ s.blockno l ∈ s.pins) := fun h =>
        hunused.pins _ h.2 ⟨h.1, rfl⟩
      rw [if_neg hold]
      exact congrArg _ (if_neg hnew)
    · unfold State.blockno
      dsimp only
      rw [hother l hl]
      rfl
  refine ⟨fun q => inv.undisturbed few ⟨rfl, fun _ h => h, fun _ _ => rfl, ?_,
      fun _ _ => ⟨rfl, rfl, rfl, rfl, rfl⟩⟩,
    inv.log.of_same rfl rfl rfl fun q d hd => ⟨d, hd⟩, ⟨?_, ?_, ?_, ?_⟩,
    ⟨inv.contents.changed, ?_, ?_, ?_, inv.contents.disk, ?_⟩⟩
  · intro l m hne hl
    have hlb : l ≠ b := by
      rintro rfl
      exact hne zero
    exact (his l m hlb).mpr hl
  · -- the block had no copy, and the others keep theirs
    have hlone : ∀ l m, l ≠ b → State.Is { s with cache := c } l m →
        ¬State.Is { s with cache := c } b m := by
      intro l m hl hlm hbm
      rw [his l m hl] at hlm
      unfold State.Is State.blockno at hbm
      dsimp only at hbm
      rw [hself] at hbm
      exact missing l ⟨hlm.1, UInt32.toNat_inj.mp (hlm.2.trans hbm.2.symm)⟩
    intro l l' m hl hl'
    by_cases h : l = b <;> by_cases h' : l' = b
    · rw [h, h']
    · rw [h] at hl
      exact absurd hl (hlone l' m h' hl')
    · rw [h'] at hl'
      exact absurd hl' (hlone l m h hl)
    · exact inv.counts.unique l l' m ((his l m h).mp hl) ((his l' m h').mp hl')
  · intro l
    rw [hrefs, ← inv.counts.counted]
    by_cases hl : l = b
    · dsimp only
      rw [hl, hself]
    · dsimp only
      rw [hother l hl]
  · intro q l hq
    have hl : l ≠ b := by
      rintro rfl
      exact hunused.uses q hq
    dsimp only
    rw [hother l hl]
    exact inv.counts.uses q l hq
  · intro l hl
    dsimp only
    rw [hother l (hlock l hl)]
    exact inv.counts.locked l hl
  · intro l hl
    dsimp only
    rw [hother l (hlock l hl)]
    exact inv.contents.valid l hl
  · intro l m hlm home valid clean
    have hl : l ≠ b := by
      rintro rfl
      dsimp only at valid
      rw [hself] at valid
      cases valid
    rw [his l m hl] at hlm
    unfold State.data
    dsimp only at valid ⊢
    rw [hother l hl] at valid ⊢
    exact inv.contents.home l m hlm home valid clean
  · intro l m hlm home valid
    have hl : l ≠ b := by
      rintro rfl
      dsimp only at valid
      rw [hself] at valid
      cases valid
    rw [his l m hl] at hlm
    unfold State.data
    dsimp only at valid ⊢
    rw [hother l hl] at valid ⊢
    exact inv.contents.log l m hlm home valid
  · intro m hm
    obtain ⟨l, hlm, valid⟩ := inv.contents.pinned m hm
    have hl : l ≠ b := by
      rintro rfl
      exact hunused.pins m hm hlm
    refine ⟨l, (his l m hl).mpr hlm, ?_⟩
    dsimp only
    rw [hother l hl, valid]

theorem bread {c : Bcache} (here : s.pc p = .run k) (reads : Reads s.log b k n k')
    (got : Got s.cache DEV (UInt32.ofNat n) b c) :
    Invariant ({ s with cache := c }.goto p (.lock b k')) := by
  have hn : (UInt32.ofNat n).toNat = n := by
    have hlt := inv.lt_of_reads here reads
    exact UInt32.toNat_ofNat_of_lt' (by omega)
  cases got with
  | hit cached => exact inv.hit few here reads ⟨cached.1, (congrArg UInt32.toNat cached.2).trans hn⟩
  | recycled unused missing =>
    have hrecycled := inv.recycle few unused missing
    have his : State.Is { s with cache := s.cache.setBuf b fun x =>
        { x with dev := DEV, blockno := UInt32.ofNat n, valid := false } } b n := by
      unfold State.Is State.blockno
      dsimp only
      rw [setBuf_self]
      exact ⟨rfl, hn⟩
    have hhit := hrecycled.hit few (p := p) here reads his
    have hcache : (s.cache.setBuf b fun x =>
        { x with dev := DEV, blockno := UInt32.ofNat n, valid := false }).setBuf b
          (fun x => { x with refcnt := x.refcnt + 1 }) =
        s.cache.setBuf b fun x =>
          { x with dev := DEV, blockno := UInt32.ofNat n, valid := false, refcnt := 1 } := by
      unfold Bcache.setBuf
      simp only [update_idem, update_self, unused]
      rfl
    dsimp only at hhit
    rw [hcache] at hhit
    exact hhit

end Invariant

end Xv6.BlockStore
