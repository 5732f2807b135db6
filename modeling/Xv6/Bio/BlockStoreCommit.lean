import Xv6.Bio.BlockStoreSteps

/-! The steps that change data, and those of `commit`, keep the invariant of the block store. -/
namespace Xv6.BlockStore

open Function List
open Bcache

variable {P : Type} [DecidableEq P] [Fintype P] {s s' : State P} {p q : P} {b : Fin NBUF} {n : Nat}
  {d : Block} {c c' : Commit}

structure Rewrites (s s' : State P) (b : Fin NBUF) (d : Block) : Prop where
  cache : s'.cache = s.cache.setBuf b fun x => { x with data := d }
  lock : s'.lock = s.lock
  log : s'.log = s.log
  unpinned : s'.unpinned = s.unpinned
  uses : ∀ q, (s'.pc q).uses = (s.pc q).uses

namespace Rewrites

variable (h : Rewrites s s' b d)

include h
omit [DecidableEq P] [Fintype P]

theorem buf_self : s'.cache.buf b = { s.cache.buf b with data := d } := by
  rw [h.cache, setBuf_self]

theorem buf_of_ne {l : Fin NBUF} (hl : l ≠ b) : s'.cache.buf l = s.cache.buf l := by
  rw [h.cache, setBuf_of_ne _ hl]

theorem ident (l : Fin NBUF) : (s'.cache.buf l).dev = (s.cache.buf l).dev ∧
    (s'.cache.buf l).blockno = (s.cache.buf l).blockno ∧
    (s'.cache.buf l).refcnt = (s.cache.buf l).refcnt ∧
    (s'.cache.buf l).valid = (s.cache.buf l).valid := by
  by_cases hl : l = b
  · rw [hl, h.buf_self]
    exact ⟨rfl, rfl, rfl, rfl⟩
  · rw [h.buf_of_ne hl]
    exact ⟨rfl, rfl, rfl, rfl⟩

theorem blockno_eq (l : Fin NBUF) : s'.blockno l = s.blockno l :=
  congrArg UInt32.toNat (h.ident l).2.1

theorem is_iff (l : Fin NBUF) (m : Nat) : s'.Is l m ↔ s.Is l m := by
  unfold State.Is
  rw [h.blockno_eq, (h.ident l).1]

theorem home_iff (m : Nat) : s'.Home m ↔ s.Home m := by
  unfold State.Home
  rw [h.log]

theorem pins_eq : s'.pins = s.pins := by
  unfold State.pins
  rw [h.log, h.unpinned]

theorem counts [Fintype P] (hs : Counts s) : Counts s' := by
  refine hs.of_same (fun l => ⟨(h.ident l).1, h.blockno_eq l⟩) ?_ ?_ ?_
  · intro l
    have hrefs : s'.references l = s.references l := by
      unfold State.references State.users
      rw [h.lock, h.pins_eq, (h.ident l).1, h.blockno_eq]
      simp only [h.uses]
    rw [(h.ident l).2.2.1, hrefs]
    exact hs.counted l
  · intro q l hl
    rw [h.uses] at hl
    exact hs.uses q l hl
  · intro l hl
    rw [h.lock] at hl
    exact hs.locked l hl

/-- The data stays right if `d` is what the block should hold and only it changes on disk. -/
theorem contents [Fintype P] (hc : Counts s) (hs : Contents s) (his : s.Is b n)
    (store : s'.store = s.store)
    (disk : ∀ m, m ≠ n → s'.disk m = s.disk m)
    (changed : ∀ l, l ≠ b → s'.changed l = s.changed l)
    (locked : (s.lock b).isSome)
    (home : s.Home n → s'.changed b = false → d = s.store n)
    (log : ¬s.Home n → d = s'.disk n)
    (current : ∀ m, s.Home m → s'.disk m = s.store m ∨ m ∈ s'.uninstalled) : Contents s' := by
  have hne : ∀ l m, l ≠ b → s.Is l m → m ≠ n := by
    rintro l m hl hlm rfl
    exact hl (hc.unique l b m hlm his)
  refine ⟨?_, ?_, ?_, ?_, ?_, ?_⟩
  · intro l hl
    rw [h.lock]
    by_cases hlb : l = b
    · rw [hlb]
      exact locked
    · rw [changed l hlb] at hl
      exact hs.changed l hl
  · intro l hl
    rw [h.lock] at hl
    rw [(h.ident l).2.2.2]
    exact hs.valid l hl
  · intro l m hlm hhome valid clean
    rw [h.is_iff] at hlm
    rw [h.home_iff] at hhome
    rw [(h.ident l).2.2.2] at valid
    rw [store]
    unfold State.data
    obtain rfl | hlb := eq_or_ne l b
    · obtain rfl : n = m := his.2.symm.trans hlm.2
      rw [h.buf_self]
      exact home hhome clean
    · rw [h.buf_of_ne hlb]
      rw [changed l hlb] at clean
      exact hs.home l m hlm hhome valid clean
  · intro l m hlm hhome valid
    rw [h.is_iff] at hlm
    rw [h.home_iff] at hhome
    rw [(h.ident l).2.2.2] at valid
    unfold State.data
    obtain rfl | hlb := eq_or_ne l b
    · obtain rfl : n = m := his.2.symm.trans hlm.2
      rw [h.buf_self]
      exact log hhome
    · rw [h.buf_of_ne hlb, disk m (hne l m hlb hlm)]
      exact hs.log l m hlm hhome valid
  · intro m hm
    rw [h.home_iff] at hm
    rw [store]
    exact current m hm
  · intro m hm
    rw [h.pins_eq] at hm
    obtain ⟨l, hlm, valid⟩ := hs.pinned m hm
    exact ⟨l, (h.is_iff l m).mpr hlm, (h.ident l).2.2.2.trans valid⟩

end Rewrites

omit [DecidableEq P] [Fintype P] in
theorem LogShape.of_committing (h : LogShape s) (log : s'.log = s.log)
    (committing : s.log.committing = true) (order : s'.unpinned ≤ s'.installed)
    (commit : ∀ q c, (s'.pc q).commit = some c → ∃ d, (s.pc q).commit = some d) :
    LogShape s' := by
  refine ⟨?_, ?_, ?_, ?_, ?_, ?_, order, ?_⟩
  · rw [log]
    exact h.fits
  · rw [log]
    exact h.nodup
  · unfold State.Home
    rw [log]
    exact h.home
  · rw [log]
    exact h.room
  · intro hready
    rw [log, committing] at hready
    cases hready
  · rw [log]
    exact h.closed
  · intro p q c d hp hq
    obtain ⟨c', hp'⟩ := commit p c hp
    obtain ⟨d', hq'⟩ := commit q d hq
    exact h.lone p q c' d' hp' hq'

omit [Fintype P] in
theorem commit_of_goto (here : s.pc p = .run (some c)) (pc : s'.pc = (s.goto p (.run (some c'))).pc)
    (q : P) (e : Commit) (h : (s'.pc q).commit = some e) : ∃ d, (s.pc q).commit = some d := by
  rw [pc] at h
  by_cases hq : q = p
  · rw [hq, here]
    exact ⟨c, rfl⟩
  · rw [State.goto_of_ne _ _ hq] at h
    exact ⟨e, h⟩

omit [Fintype P] in
theorem uses_of_goto {k k' : Option Commit} (here : s.pc p = .run k)
    (pc : s'.pc = (s.goto p (.run k')).pc) (q : P) : (s'.pc q).uses = (s.pc q).uses := by
  rw [pc]
  by_cases hq : q = p
  · rw [hq, here, State.goto_self]
    rfl
  · rw [State.goto_of_ne _ _ hq]

namespace Invariant

variable (inv : Invariant s)

include inv

omit [DecidableEq P] in
theorem idle (ready : s.log.committing = false) (q : P) : (s.pc q).commit ≠ some c := by
  intro hc
  have hcommitting := ((inv.process q).progress c hc).1
  rw [ready] at hcommitting
  cases hcommitting

omit [DecidableEq P] in
theorem progress_of_run (here : s.pc p = .run (some c)) :
    s.log.committing = true ∧ Progress s c :=
  (inv.process p).progress c (by rw [here]; rfl)

omit [DecidableEq P] in
theorem alone (here : s.pc p = .run (some c)) (hq : q ≠ p) {e : Commit} :
    (s.pc q).commit ≠ some e := fun hc =>
  hq (inv.log.lone q p e c hc (by rw [here]; rfl))

/-- Other processes do not see a step within `commit`. -/
theorem undisturbed_commit (here : s.pc p = .run (some c)) (hq : q ≠ p)
    (pc : s'.pc = (s.goto p (.run (some c'))).pc) (lock : s'.lock = s.lock)
    (changed : s'.changed = s.changed) (ident : ∀ l m, s.Is l m → s'.Is l m) :
    Undisturbed s s' q := by
  refine ⟨?_, ?_, ?_, fun l m _ => ident l m, fun e he => absurd he (inv.alone here hq)⟩
  · rw [pc, State.goto_of_ne _ _ hq]
  · intro l hl
    rw [lock, hl]
  · intro l _
    rw [changed]

theorem own_commit (here : s.pc p = .run (some c)) (pc : s'.pc = (s.goto p (.run (some c'))).pc)
    (lock : s'.lock = s.lock) (log : s'.log = s.log) (changed : s'.changed = s.changed)
    (ident : ∀ l m, s.Is l m → s'.Is l m) (held : ∀ x ∈ c'.held s.log, x ∈ c.held s.log)
    (progress : Progress s' c') : Local s' p := by
  have hself : s'.pc p = .run (some c') := by rw [pc, State.goto_self]
  refine ⟨?_, ?_⟩
  · intro e he x hx
    rw [hself] at he
    cases he
    rw [log] at hx
    obtain ⟨his, hlock, hclean⟩ := inv.locked_of_held here (held x hx)
    rw [lock, changed]
    exact ⟨ident _ _ his, .inr ⟨hlock, hclean⟩⟩
  · intro e he
    rw [hself] at he
    cases he
    rw [log]
    exact ⟨(inv.progress_of_run here).1, progress⟩

variable (few : Fintype.card P + 2 < 2 ^ 32)

include few

theorem change {data : Block} (here : s.pc p = .run none) (locked : s.lock b = some p)
    (home : s.Home (s.blockno b)) :
    Invariant { s.setData b data with changed := update s.changed b true } := by
  have hrewrites : Rewrites s
      { s.setData b data with changed := update s.changed b true } b data :=
    ⟨rfl, rfl, rfl, rfl, fun _ => rfl⟩
  have hdev := inv.counts.locked b (by rw [locked]; rfl)
  have hother : ∀ l, l ≠ b → update s.changed b true l = s.changed l := fun l hl =>
    update_of_ne hl ..
  refine inv.of_frame few (p := p) ?_ ⟨?_, ?_⟩
    (inv.log.of_same rfl rfl rfl fun q e he => ⟨e, he⟩) (hrewrites.counts inv.counts)
    (hrewrites.contents inv.counts inv.contents ⟨hdev, rfl⟩ rfl (fun _ _ => rfl) hother
      (by rw [locked]; rfl) ?_ (fun h => absurd home h) inv.contents.disk)
  · intro q hq
    refine ⟨rfl, fun _ h => h, ?_, fun l m _ => (hrewrites.is_iff l m).mpr,
      fun _ _ => ⟨rfl, rfl, rfl, rfl, rfl⟩⟩
    intro l hl
    apply hother
    rintro rfl
    exact hq (Option.some.inj (hl.symm.trans locked))
  · intro e he
    rw [show ({ s.setData b data with changed := update s.changed b true } : State P).pc p =
      s.pc p from rfl, here] at he
    cases he
  · intro e he
    rw [show ({ s.setData b data with changed := update s.changed b true } : State P).pc p =
      s.pc p from rfl, here] at he
    cases he
  · intro _ hclean
    dsimp only at hclean
    rw [update_self] at hclean
    cases hclean

omit few in
theorem commit_bwrite (here : s.pc p = .run (some c)) (held : (b, n) ∈ c.held s.log)
    (cache : s'.cache = s.cache.setBuf b fun x => { x with data := d })
    (disk : s'.disk = update s.disk n d) (pc : s'.pc = (s.goto p (.run (some c'))).pc)
    (lock : s'.lock = s.lock) (log : s'.log = s.log) (changed : s'.changed = s.changed)
    (store : s'.store = s.store) (unpinned : s'.unpinned = s.unpinned)
    (order : s.unpinned ≤ s'.installed)
    (keeps : ∀ x ∈ c'.held s.log, x ∈ c.held s.log) (progress : Progress s' c')
    (current : s.Home n → d = s.store n)
    (installed : ∀ m, m ≠ n → m ∈ s.uninstalled → m ∈ s'.uninstalled)
    (few : Fintype.card P + 2 < 2 ^ 32) : Invariant s' := by
  have hrewrites : Rewrites s s' b d :=
    ⟨cache, lock, log, unpinned, uses_of_goto here pc⟩
  obtain ⟨his, hlock, hclean⟩ := inv.locked_of_held here held
  have hident : ∀ l m, s.Is l m → s'.Is l m := fun l m => (hrewrites.is_iff l m).mpr
  have hself : s'.disk n = d := by rw [disk, update_self]
  have hother : ∀ m, m ≠ n → s'.disk m = s.disk m := by
    intro m hm
    rw [disk, update_of_ne hm]
  refine inv.of_frame few (fun q hq => inv.undisturbed_commit here hq pc lock changed hident)
    (inv.own_commit here pc lock log changed hident keeps progress)
    (inv.log.of_committing log (inv.progress_of_run here).1 (unpinned ▸ order)
      (commit_of_goto here pc))
    (hrewrites.counts inv.counts)
    (hrewrites.contents inv.counts inv.contents his store hother (fun l _ => by rw [changed])
      (by rw [hlock]; rfl) (fun home _ => current home) (fun _ => hself.symm) ?_)
  intro m hm
  by_cases hmn : m = n
  · rw [hmn] at hm ⊢
    rw [hself]
    exact .inl (current hm)
  · rw [hother m hmn]
    exact (inv.contents.disk m hm).imp id (installed m hmn)

omit few [DecidableEq P] in
theorem data_of_held_home {h : Fin NBUF} (here : s.pc p = .run (some c))
    (held : (h, n) ∈ c.held s.log) (home : s.Home n) : s.data h = s.store n := by
  obtain ⟨his, hlock, hclean⟩ := inv.locked_of_held here held
  exact inv.contents.home h n his home (inv.contents.valid h (by rw [hlock]; rfl)) hclean

omit few [DecidableEq P] in
theorem data_of_held_log {l : Fin NBUF} (here : s.pc p = .run (some c))
    (held : (l, n) ∈ c.held s.log) (log : ¬s.Home n) : s.data l = s.disk n := by
  obtain ⟨his, hlock, -⟩ := inv.locked_of_held here held
  exact inv.contents.log l n his log (inv.contents.valid l (by rw [hlock]; rfl))

omit few [DecidableEq P] in
/-- The log's blocks hold the header and copies of its entries. -/
theorem not_home {i : Nat} (hi : i ≤ s.log.lh.length) : ¬s.Home (s.log.start + i) := by
  have hfits := inv.log.fits
  have hroom := inv.log.room
  unfold State.Home
  omega

variable {tail : Nat}

theorem copyLog {l h : Fin NBUF} (here : s.pc p = .run (some (.copy .writeLog tail l h))) :
    Invariant ((s.bwrite l (s.data h)).goto p (.run (some (.relseFirst .writeLog tail l h)))) := by
  have hprogress := (inv.progress_of_run here).2
  have hrange : tail < s.log.lh.length := hprogress.range
  have hl : (l, s.log.start + tail + 1) ∈ (Commit.copy .writeLog tail l h).held s.log := by
    simp [Commit.held]
  have hh : (h, s.log.lh.getD tail 0) ∈ (Commit.copy .writeLog tail l h).held s.log := by
    simp [Commit.held]
  have hblock : s.blockno l = s.log.start + tail + 1 := (inv.locked_of_held here hl).1.2
  have hlog : ¬s.Home (s.log.start + tail + 1) := inv.not_home (i := tail + 1) hrange
  have hdata : s.data h = s.store (s.log.lh.getD tail 0) :=
    inv.data_of_held_home here hh (inv.log.home _ (mem_lh hrange)).1
  refine inv.commit_bwrite here hl rfl (by rw [← hblock]; rfl) rfl rfl rfl rfl rfl rfl inv.log.order
    (fun _ hx => hx) ⟨hrange, ?_, hprogress.installed, hprogress.unpinned⟩
    (fun home => absurd home hlog) (fun _ _ hm => hm) few
  intro i hi
  have hwritten : i < tail ∨ i = tail := Nat.lt_succ_iff_lt_or_eq.mp hi
  change update s.disk (s.blockno l) (s.data h) (s.logBlock i) = s.store (s.homeBlock i)
  rw [hblock]
  obtain hlt | rfl := hwritten
  · rw [update_of_ne (by unfold State.logBlock; omega)]
    exact hprogress.written i hlt
  · rw [show s.logBlock i = s.log.start + i + 1 from rfl, update_self]
    exact hdata

theorem copyHome {l h : Fin NBUF} (here : s.pc p = .run (some (.copy .installTrans tail l h))) :
    Invariant ({ s.bwrite h (s.data l) with installed := s.installed + 1 }.goto p
      (.run (some (.unpin tail l h)))) := by
  have hprogress := (inv.progress_of_run here).2
  have hrange : tail < s.log.lh.length := hprogress.range
  have hinstalled : s.installed = tail := hprogress.installed
  have hl : (l, s.log.start + tail + 1) ∈ (Commit.copy .installTrans tail l h).held s.log := by
    simp [Commit.held]
  have hh : (h, s.log.lh.getD tail 0) ∈ (Commit.copy .installTrans tail l h).held s.log := by
    simp [Commit.held]
  have hblock : s.blockno h = s.log.lh.getD tail 0 := (inv.locked_of_held here hh).1.2
  have hdata : s.data l = s.store (s.log.lh.getD tail 0) :=
    (inv.data_of_held_log here hl (inv.not_home (i := tail + 1) hrange)).trans
      (hprogress.written tail hrange)
  refine inv.commit_bwrite here hh rfl (by rw [← hblock]; rfl) rfl rfl rfl rfl rfl rfl
    (Nat.le_succ_of_le inv.log.order) (fun _ hx => hx)
    ⟨hrange, ?_, congrArg (· + 1) hinstalled, hprogress.unpinned⟩ (fun _ => hdata) ?_ few
  · intro i hi
    change update s.disk (s.blockno h) (s.data l) (s.logBlock i) = s.store (s.homeBlock i)
    have hne : s.logBlock i ≠ s.log.lh.getD tail 0 := inv.log_ne_home (i + 1) hrange hi
    rw [hblock, update_of_ne hne]
    exact hprogress.written i hi
  · intro m hm hmem
    have hdrop : s.log.lh.drop tail = s.log.lh.getD tail 0 :: s.log.lh.drop (tail + 1) := by
      rw [drop_eq_getElem_cons hrange]
      simp [hrange]
    unfold State.uninstalled at hmem ⊢
    rw [hinstalled, hdrop] at hmem
    change m ∈ s.log.lh.drop (s.installed + 1)
    rw [hinstalled]
    exact (mem_cons.mp hmem).resolve_left hm

theorem writeHead {erase : Bool} (here : s.pc p = .run (some (.writeHead erase b))) :
    Invariant ((s.bwrite b ((s.data b).setHead s.log.lh)).goto p
      (.run (some (.relseHead erase b)))) := by
  have hprogress := (inv.progress_of_run here).2
  have hb : (b, s.log.start) ∈ (Commit.writeHead erase b).held s.log := by simp [Commit.held]
  have hblock : s.blockno b = s.log.start := (inv.locked_of_held here hb).1.2
  have hlog : ¬s.Home s.log.start := inv.not_home (i := 0) (Nat.zero_le _)
  have hprogress' : Progress s (.relseHead erase b) := by
    cases erase <;>
      exact ⟨hprogress.range, hprogress.written, hprogress.installed, hprogress.unpinned⟩
  refine inv.commit_bwrite here hb rfl (by rw [← hblock]; rfl) rfl rfl rfl rfl rfl rfl inv.log.order
    (fun _ hx => hx) ⟨hprogress'.range, ?_, hprogress'.installed, hprogress'.unpinned⟩
    (fun home => absurd home hlog) (fun _ _ hm => hm) few
  intro i hi
  change update s.disk (s.blockno b) _ (s.logBlock i) = s.store (s.homeBlock i)
  rw [hblock, update_of_ne (by unfold State.logBlock; omega)]
  exact hprogress'.written i hi

theorem moveOn (here : s.pc p = .run (some c)) (held : c'.held s.log = []) (progress : Progress s c') :
    Invariant (s.goto p (.run (some c'))) := by
  have hbook : Bookkeeping s (s.goto p (.run (some c'))) p (.run (some c')) :=
    ⟨rfl, fun _ => ⟨rfl, rfl, rfl, rfl⟩, fun _ => .inl rfl, rfl, rfl, rfl, rfl, rfl, rfl⟩
  refine inv.bookkeep few hbook ?_ (fun _ h => by cases h) (fun _ _ => ⟨c, by rw [here]; rfl⟩) ?_
  · intro l
    have hrefs : (s.goto p (.run (some c'))).references l = s.references l := by
      have hrefs := hbook.references l
      have hlock : (s.goto p (.run (some c'))).lock l = s.lock l := rfl
      simp only [hlock, here, Pc.uses, reduceCtorEq, if_false] at hrefs
      omega
    rw [hrefs]
    exact inv.counts.counted l
  · refine inv.own_commit here rfl rfl rfl rfl (fun _ _ h => h) ?_ (hbook.progress progress)
    rw [held]
    intro x hx
    cases hx

theorem wroteLog (here : s.pc p = .run (some (.readLog .writeLog tail)))
    (done : s.log.lh.length ≤ tail) : Invariant (s.goto p (.run (some (.readHead false)))) := by
  have h := (inv.progress_of_run here).2
  exact inv.moveOn few here rfl
    ⟨trivial, fun i hi => h.written i (lt_of_lt_of_le hi done), h.installed, h.unpinned⟩

theorem installedAll (here : s.pc p = .run (some (.readLog .installTrans tail)))
    (done : s.log.lh.length ≤ tail) : Invariant (s.goto p (.run (some .clear))) := by
  have h := (inv.progress_of_run here).2
  have hrange : tail ≤ s.log.lh.length := h.range
  have htail : tail = s.log.lh.length := Nat.le_antisymm hrange done
  exact inv.moveOn few here rfl ⟨trivial, fun i hi => absurd hi (Nat.not_lt_zero i),
    h.installed.trans htail, h.unpinned.trans htail⟩

theorem unpin {l h : Fin NBUF} (here : s.pc p = .run (some (.unpin tail l h))) :
    Invariant ({ s with cache := s.cache.bunpin h, unpinned := s.unpinned + 1 }.goto p
      (.run (some (.relseFirst .installTrans tail l h)))) := by
  set s' := { s with cache := s.cache.bunpin h, unpinned := s.unpinned + 1 }.goto p
    (.run (some (.relseFirst .installTrans tail l h))) with hs'
  obtain ⟨hcommitting, hprogress⟩ := inv.progress_of_run here
  have hrange : tail < s.log.lh.length := hprogress.range
  have hunpinned : s.unpinned = tail := hprogress.unpinned
  have hinstalled : s.installed = tail + 1 := hprogress.installed
  have his : s.Is h (s.log.lh.getD tail 0) :=
    (inv.locked_of_held (x := (h, s.log.lh.getD tail 0)) here (by simp [Commit.held])).1
  have hbuf : ∀ b, SameBuf (s.cache.buf b) (s'.cache.buf b) := fun b =>
    sameBuf_setRefcnt s.cache h b (· - 1)
  have hident : ∀ b m, s'.Is b m ↔ s.Is b m := by
    intro b m
    unfold State.Is State.blockno
    rw [(hbuf b).dev, (hbuf b).blockno]
  have huses : ∀ q, (s'.pc q).uses = (s.pc q).uses := uses_of_goto here rfl
  have hpins : s.pins = s.log.lh.getD tail 0 :: s'.pins := by
    have hpins' : s'.pins = s.log.lh.drop (s.unpinned + 1) := rfl
    unfold State.pins at hpins' ⊢
    rw [hpins', hunpinned, drop_eq_getElem_cons hrange]
    simp [hrange]
  have hfresh : s.log.lh.getD tail 0 ∉ s'.pins := by
    have hnodup : s.pins.Nodup := inv.log.nodup.sublist (drop_sublist ..)
    rw [hpins] at hnodup
    exact (nodup_cons.mp hnodup).1
  have hcounted : ∀ b, s.references b = s'.references b + if b = h then 1 else 0 := by
    intro b
    have husers : s'.users b = s.users b := by
      unfold State.users
      simp only [huses]
    have hblock : s'.blockno b = s.blockno b := congrArg UInt32.toNat (hbuf b).blockno
    have hlock : s'.lock b = s.lock b := rfl
    unfold State.references
    rw [husers, hblock, hlock, (hbuf b).dev, hpins]
    obtain rfl | hb := eq_or_ne b h
    · have hpinned : s.blockno b ∈ s.log.lh.getD tail 0 :: s'.pins := by
        rw [his.2]
        exact mem_cons_self
      have hnot : s.blockno b ∉ s'.pins := his.2 ▸ hfresh
      simp only [his.1, hpinned, hnot, and_true, and_false, if_true, if_false, Nat.add_zero]
    · have hne : (s.cache.buf b).dev = DEV → s.blockno b ≠ s.log.lh.getD tail 0 := fun hdev heq =>
        hb (inv.counts.unique b h _ ⟨hdev, heq⟩ his)
      have hiff : ((s.cache.buf b).dev = DEV ∧ s.blockno b ∈ s.log.lh.getD tail 0 :: s'.pins) ↔
          ((s.cache.buf b).dev = DEV ∧ s.blockno b ∈ s'.pins) :=
        and_congr_right fun hdev => by rw [mem_cons]; exact or_iff_right (hne hdev)
      simp only [hiff, hb, if_false, Nat.add_zero]
  refine inv.of_frame few
    (fun q hq => inv.undisturbed_commit here hq rfl rfl rfl fun b m => (hident b m).mpr)
    (inv.own_commit here rfl rfl rfl rfl (fun b m => (hident b m).mpr) (fun _ hx => hx)
      ⟨hrange, hprogress.written, hinstalled, congrArg (· + 1) hunpinned⟩)
    (inv.log.of_committing rfl hcommitting ?_ (commit_of_goto here rfl))
    (inv.counts.of_same (fun b => ⟨(hbuf b).dev, congrArg UInt32.toNat (hbuf b).blockno⟩)
      (Cache.counted_sub inv.counts.counted hcounted) ?_ inv.counts.locked) ?_
  · have hle : s.unpinned + 1 ≤ s.installed := by omega
    exact hle
  · intro q b hb
    rw [huses] at hb
    exact inv.counts.uses q b hb
  · have hcontents := inv.contents
    refine ⟨hcontents.changed, ?_, ?_, ?_, hcontents.disk, ?_⟩
    · intro b hb
      rw [(hbuf b).valid]
      exact hcontents.valid b hb
    · intro b m hbm home valid clean
      rw [hident] at hbm
      rw [(hbuf b).valid] at valid
      exact (hbuf b).data.trans (hcontents.home b m hbm home valid clean)
    · intro b m hbm home valid
      rw [hident] at hbm
      rw [(hbuf b).valid] at valid
      exact (hbuf b).data.trans (hcontents.log b m hbm home valid)
    · intro m hm
      obtain ⟨b, hbm, valid⟩ := hcontents.pinned m (by rw [hpins]; exact mem_cons_of_mem _ hm)
      exact ⟨b, (hident b m).mpr hbm, (hbuf b).valid.trans valid⟩

omit few in
theorem relog {k k' : Option Commit} (here : s.pc p = .run k)
    (pc : s'.pc = (s.goto p (.run k')).pc) (cache : s'.cache = s.cache) (lock : s'.lock = s.lock)
    (disk : s'.disk = s.disk) (store : s'.store = s.store) (changed : s'.changed = s.changed)
    (same : SameLog s s') (log : LogShape s') (others : ∀ q, q ≠ p → ∀ e, (s.pc q).commit ≠ some e)
    (held : ∀ e, k' = some e → e.held s'.log = [])
    (progress : ∀ e, k' = some e → s'.log.committing = true ∧ Progress s' e) : Invariant s' := by
  have hself : s'.pc p = .run k' := by rw [pc, State.goto_self]
  have huses := uses_of_goto here pc
  have hblock : ∀ l, s'.blockno l = s.blockno l := by
    intro l
    unfold State.blockno
    rw [cache]
  refine ⟨?_, log, inv.counts.of_same ?_ ?_ ?_ ?_, inv.contents.of_same same ?_ disk store changed
    ?_ ?_⟩
  · intro q
    by_cases hq : q = p
    · rw [hq]
      refine ⟨?_, ?_⟩
      · intro e he x hx
        rw [hself] at he
        rw [held e he] at hx
        cases hx
      · intro e he
        rw [hself] at he
        exact progress e he
    · have hpc : s'.pc q = s.pc q := by rw [pc, State.goto_of_ne _ _ hq]
      refine ⟨?_, ?_⟩
      · intro e he
        rw [hpc] at he
        exact absurd he (others q hq e)
      · intro e he
        rw [hpc] at he
        exact absurd he (others q hq e)
  · intro l
    rw [cache]
    exact ⟨rfl, hblock l⟩
  · intro l
    have hrefs : s'.references l = s.references l := by
      unfold State.references State.users
      rw [lock, same.pins, hblock, cache]
      simp only [huses]
    rw [cache, hrefs]
    exact inv.counts.counted l
  · intro q l hl
    rw [huses] at hl
    exact inv.counts.uses q l hl
  · rw [lock]
    exact inv.counts.locked
  · intro l
    rw [cache]
    exact ⟨rfl, rfl, rfl, rfl⟩
  · rw [lock]
    exact inv.contents.changed
  · rw [lock]
    exact inv.contents.valid

omit few [DecidableEq P] in
theorem count {outstanding : Int} (ready : s.log.committing = false) :
    Invariant { s with log := { s.log with outstanding := outstanding } } := by
  have hidle : ∀ q e, (s.pc q).commit ≠ some e := fun q e => inv.idle ready q
  refine ⟨fun q => ⟨fun e he => absurd he (hidle q e), fun e he => absurd he (hidle q e)⟩,
    { inv.log with closed := fun hcommitting => ?_ }, { inv.counts with }, { inv.contents with }⟩
  dsimp only at hcommitting
  rw [ready] at hcommitting
  cases hcommitting

omit few in
theorem commit (here : s.pc p = .run none) (ready : s.log.committing = false) :
    Invariant ({ s with log := { s.log with outstanding := 0, committing := true } }.goto p
      (.run (some (if s.log.lh.length > 0 then .readLog .writeLog 0 else .finish)))) := by
  have hidle : ∀ q e, (s.pc q).commit ≠ some e := fun q e => inv.idle ready q
  obtain ⟨hinstalled, hunpinned⟩ := inv.log.ready ready
  refine inv.relog here rfl rfl rfl rfl rfl rfl ⟨rfl, rfl, rfl, rfl⟩
    { inv.log with
      ready := fun h => by cases h
      closed := fun _ => rfl
      lone := ?_ } (fun q _ e => hidle q e) ?_ ?_
  · -- before, no process was in `commit`
    have hp : ∀ q e, (({ s with log := { s.log with outstanding := 0, committing := true } }.goto p
        (.run (some (if s.log.lh.length > 0 then .readLog .writeLog 0 else .finish)))).pc q).commit =
          some e → q = p := by
      intro q e he
      by_contra hq
      rw [State.goto_of_ne _ _ hq] at he
      exact hidle q e he
    intro q q' e e' he he'
    rw [hp q e he, hp q' e' he']
  · rintro e ⟨⟩
    split <;> rfl
  · rintro e ⟨⟩
    refine ⟨rfl, ?_⟩
    split
    · exact ⟨Nat.zero_le _, fun i hi => absurd hi (Nat.not_lt_zero i), hinstalled, hunpinned⟩
    · rename_i hempty
      have hlength : s.log.lh.length = 0 := by omega
      exact ⟨hlength, fun i hi => absurd hi (Nat.not_lt_zero i), hinstalled, hunpinned⟩

omit few in
theorem clear (here : s.pc p = .run (some .clear)) :
    Invariant ({ s with log := { s.log with lh := [] }, installed := 0, unpinned := 0 }.goto p
      (.run (some (.readHead true)))) := by
  obtain ⟨hcommitting, hprogress⟩ := inv.progress_of_run here
  have hinstalled : s.installed = s.log.lh.length := hprogress.installed
  have hunpinned : s.unpinned = s.log.lh.length := hprogress.unpinned
  refine inv.relog here rfl rfl rfl rfl rfl rfl ⟨rfl, rfl, ?_, ?_⟩
    { inv.log with
      nodup := nodup_nil
      home := fun n hn => by cases hn
      room := .inl rfl
      ready := fun _ => ⟨rfl, rfl⟩
      order := Nat.le_refl 0
      lone := ?_ } (fun q hq e => inv.alone here hq) ?_ ?_
  · unfold State.pins
    rw [hunpinned, drop_length]
    rfl
  · unfold State.uninstalled
    rw [hinstalled, drop_length]
    rfl
  · intro q q' e e' he he'
    obtain ⟨d, hd⟩ := commit_of_goto here rfl q e he
    obtain ⟨d', hd'⟩ := commit_of_goto here rfl q' e' he'
    exact inv.log.lone q q' d d' hd hd'
  · rintro e ⟨⟩
    rfl
  · rintro e ⟨⟩
    exact ⟨hcommitting, rfl, fun i hi => absurd hi (Nat.not_lt_zero i), rfl, rfl⟩

omit few in
theorem finish (here : s.pc p = .run (some .finish)) :
    Invariant ({ s with log := { s.log with committing := false } }.goto p (.run none)) := by
  obtain ⟨hcommitting, hprogress⟩ := inv.progress_of_run here
  refine inv.relog here rfl rfl rfl rfl rfl rfl ⟨rfl, rfl, rfl, rfl⟩
    { inv.log with
      ready := fun _ => ⟨hprogress.installed, hprogress.unpinned⟩
      closed := fun h => by cases h
      lone := ?_ } (fun q hq e => inv.alone here hq) (fun e he => by cases he) (fun e he => by cases he)
  intro q q' e e' he _
  by_cases hq : q = p
  · rw [hq, State.goto_self] at he
    cases he
  · rw [State.goto_of_ne _ _ hq] at he
    exact absurd he (inv.alone here hq)

end Invariant

section LogWrite

/-- `log_write` needs an open operation and room. -/
theorem open_of_write {log log' : Log} (h : log.write n = .ok log') :
    1 ≤ log.outstanding ∧ log.lh.length + 1 < log.size := by
  unfold Log.write at h
  split at h
  · cases h
  · split at h
    · cases h
    · omega

omit [DecidableEq P] [Fintype P] in
theorem sameBuf_logWrite {log : Log} (l : Fin NBUF) :
    SameBuf (s.cache.buf l) ((s.logWrite b log).cache.buf l) := by
  unfold State.logWrite
  dsimp only
  split
  · exact ⟨rfl, rfl, rfl, rfl⟩
  · exact sameBuf_setRefcnt s.cache b l (· + 1)

variable (inv : Invariant s) {log : Log} (records : s.log.write (s.blockno b) = .ok log)

include inv records
omit [DecidableEq P]

theorem ready_of_records : s.log.committing = false := by
  have hopen := (open_of_write records).1
  cases hcommitting : s.log.committing with
  | false => rfl
  | true =>
    have hclosed := inv.log.closed hcommitting
    omega

omit inv [Fintype P] in
theorem mem_records (m : Nat) : m ∈ log.lh ↔ m ∈ s.log.lh ∨ m = s.blockno b := by
  obtain ⟨-, rfl⟩ := Log.write_eq_ok records
  dsimp only
  split
  · rename_i hmem
    constructor
    · exact .inl
    · rintro (h | rfl)
      · exact h
      · exact hmem
  · rw [mem_append, mem_singleton]

theorem pins_logWrite : (s.logWrite b log).pins = log.lh := by
  unfold State.pins State.logWrite
  dsimp only
  rw [(inv.log.ready (ready_of_records inv records)).2, drop_zero]

theorem logShape_logWrite (home : s.Home (s.blockno b)) : LogShape (s.logWrite b log) := by
  have hready := ready_of_records inv records
  have hroom := (open_of_write records).2
  obtain ⟨-, hlog⟩ := Log.write_eq_ok records
  have hsame : log.start = s.log.start ∧ log.size = s.log.size := by
    rw [hlog]
    exact ⟨rfl, rfl⟩
  have hhome : ∀ m, (s.logWrite b log).Home m ↔ s.Home m := by
    intro m
    unfold State.Home State.logWrite
    rw [hsame.1, hsame.2]
  refine ⟨?_, ?_, ?_, ?_, fun _ => inv.log.ready hready, ?_, inv.log.order, inv.log.lone⟩
  · have hfits := inv.log.fits
    rw [← hsame.1, ← hsame.2] at hfits
    exact hfits
  · change log.lh.Nodup
    rw [hlog]
    dsimp only
    split
    · exact inv.log.nodup
    · rename_i hfresh
      exact nodup_append.mpr ⟨inv.log.nodup, nodup_singleton _, fun m hm n hn hmn =>
        hfresh (mem_singleton.mp hn ▸ hmn ▸ hm)⟩
  · intro m hm
    rw [hhome]
    obtain hold | rfl := (mem_records records m).mp hm
    · exact inv.log.home m hold
    · exact ⟨home, (s.cache.buf b).blockno.toNat_lt⟩
  · refine .inr ?_
    change log.lh.length + 1 ≤ log.size
    have hlength : log.lh.length ≤ s.log.lh.length + 1 := by
      rw [hlog]
      dsimp only
      split <;> simp
    omega
  · intro hcommitting
    have hcommitting' : log.committing = true := hcommitting
    rw [hlog] at hcommitting'
    exact absurd (hready.symm.trans hcommitting') Bool.false_ne_true

theorem counts_logWrite (locked : (s.lock b).isSome) : Counts (s.logWrite b log) := by
  have hpins := pins_logWrite inv records
  have hpins' : s.pins = s.log.lh := by
    unfold State.pins
    rw [(inv.log.ready (ready_of_records inv records)).2, drop_zero]
  have hsame : ∀ l, SameBuf (s.cache.buf l) ((s.logWrite b log).cache.buf l) := sameBuf_logWrite
  have hblock : ∀ l, (s.logWrite b log).blockno l = s.blockno l := fun l =>
    congrArg UInt32.toNat (hsame l).blockno
  have hdev := inv.counts.locked b locked
  have hrefs : ∀ l, (s.logWrite b log).references l = s.references l +
      if s.blockno b ∉ s.log.lh ∧ l = b then 1 else 0 := by
    intro l
    have hmem := mem_records records (s.blockno l)
    unfold State.references State.users
    rw [hpins, hpins', hblock, (hsame l).dev]
    have hlock : (s.logWrite b log).lock l = s.lock l := rfl
    have hpc : (s.logWrite b log).pc = s.pc := rfl
    rw [hlock, hpc]
    obtain rfl | hl := eq_or_ne l b
    · by_cases hold : s.blockno l ∈ s.log.lh
      · simp [hmem, hold]
      · simp [hmem, hold, hdev]
    · have hiff : ((s.cache.buf l).dev = DEV ∧ s.blockno l ∈ log.lh) ↔
          ((s.cache.buf l).dev = DEV ∧ s.blockno l ∈ s.log.lh) := by
        refine and_congr_right fun hdev' => hmem.trans (or_iff_left fun heq => ?_)
        exact hl (inv.counts.unique l b _ ⟨hdev', heq⟩ ⟨hdev, rfl⟩)
      simp only [hiff, hl, and_false, if_false, Nat.add_zero]
  refine inv.counts.of_same (fun l => ⟨(hsame l).dev, hblock l⟩) ?_ inv.counts.uses
    inv.counts.locked
  by_cases hold : s.blockno b ∈ s.log.lh
  · have hcache : (s.logWrite b log).cache = s.cache := if_pos hold
    intro l
    rw [hcache, hrefs l, if_neg (fun h => h.1 hold)]
    exact inv.counts.counted l
  · have hcache : (s.logWrite b log).cache = s.cache.bpin b := if_neg hold
    rw [hcache]
    refine Cache.counted_add inv.counts.counted fun l => ?_
    rw [hrefs l]
    simp only [hold, not_false_eq_true, true_and]

theorem contents_logWrite (locked : (s.lock b).isSome) : Contents (s.logWrite b log) := by
  have hsame : ∀ l, SameBuf (s.cache.buf l) ((s.logWrite b log).cache.buf l) := sameBuf_logWrite
  have hident : ∀ l m, (s.logWrite b log).Is l m ↔ s.Is l m := by
    intro l m
    unfold State.Is State.blockno
    rw [(hsame l).dev, (hsame l).blockno]
  have hhome : ∀ m, (s.logWrite b log).Home m ↔ s.Home m := by
    obtain ⟨-, rfl⟩ := Log.write_eq_ok records
    exact fun m => Iff.rfl
  have hdata : ∀ l, (s.logWrite b log).data l = s.data l := fun l => (hsame l).data
  have hdev := inv.counts.locked b locked
  have huninstalled : ∀ m, m ∈ (s.logWrite b log).uninstalled ↔
      m ∈ s.uninstalled ∨ m = s.blockno b := by
    have hzero := (inv.log.ready (ready_of_records inv records)).1
    unfold State.uninstalled State.logWrite
    dsimp only
    rw [hzero, drop_zero, drop_zero]
    exact mem_records records
  have hchanged : ∀ l, l ≠ b → (s.logWrite b log).changed l = s.changed l := fun l hl =>
    update_of_ne hl ..
  have hstore : ∀ m, m ≠ s.blockno b → (s.logWrite b log).store m = s.store m := fun m hm =>
    update_of_ne hm ..
  have hlogged : (s.logWrite b log).store (s.blockno b) = s.data b := update_self ..
  refine ⟨?_, ?_, ?_, ?_, ?_, ?_⟩
  · intro l hl
    by_cases hlb : l = b
    · rw [hlb]
      exact locked
    · rw [hchanged l hlb] at hl
      exact inv.contents.changed l hl
  · intro l hl
    rw [(hsame l).valid]
    exact inv.contents.valid l hl
  · intro l m hlm home valid clean
    rw [hident] at hlm
    rw [hhome] at home
    rw [(hsame l).valid] at valid
    rw [hdata]
    obtain rfl | hlb := eq_or_ne l b
    · rw [← hlm.2, hlogged]
    · have hm : m ≠ s.blockno b := fun heq =>
        hlb (inv.counts.unique l b m hlm ⟨hdev, heq.symm⟩)
      rw [hchanged l hlb] at clean
      rw [hstore m hm]
      exact inv.contents.home l m hlm home valid clean
  · intro l m hlm home valid
    rw [hident] at hlm
    rw [hhome] at home
    rw [(hsame l).valid] at valid
    rw [hdata]
    exact inv.contents.log l m hlm home valid
  · intro m home
    rw [hhome] at home
    rw [huninstalled]
    by_cases hm : m = s.blockno b
    · exact .inr (.inr hm)
    · rw [hstore m hm]
      exact (inv.contents.disk m home).imp id .inl
  · intro m hm
    rw [pins_logWrite inv records, mem_records records] at hm
    obtain hold | rfl := hm
    · have hpin : m ∈ s.pins := by
        unfold State.pins
        rwa [(inv.log.ready (ready_of_records inv records)).2, drop_zero]
      obtain ⟨l, hlm, valid⟩ := inv.contents.pinned m hpin
      exact ⟨l, (hident l m).mpr hlm, (hsame l).valid.trans valid⟩
    · exact ⟨b, (hident b _).mpr ⟨hdev, rfl⟩, (hsame b).valid.trans (inv.contents.valid b locked)⟩

theorem Invariant.logWrite (locked : s.lock b = some p) (home : s.Home (s.blockno b)) :
    Invariant (s.logWrite b log) := by
  have hidle : ∀ q e, (s.pc q).commit ≠ some e := fun q e =>
    inv.idle (ready_of_records inv records) q
  have hsome : (s.lock b).isSome := by
    rw [locked]
    rfl
  exact ⟨fun q => ⟨fun e he => absurd he (hidle q e), fun e he => absurd he (hidle q e)⟩,
    logShape_logWrite inv records home, counts_logWrite inv records hsome,
    contents_logWrite inv records hsome⟩

end LogWrite

end Xv6.BlockStore
