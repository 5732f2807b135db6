import Mathlib.Logic.Relation
import Xv6.Bio.BlockStoreCommit

/-! The buffer cache, the log and the disk behave as one store of blocks. -/
namespace Xv6.BlockStore

open Bcache

variable {P : Type} {s next : State P} {p : P} {b : Fin NBUF} {n : Nat}
  {disk : Nat → Block} {start size : Nat}

theorem valid_fill (s : State P) (b : Fin NBUF) : ((s.fill b).cache.buf b).valid = true := by
  unfold State.fill
  split
  · assumption
  · dsimp only
    rw [setBuf_self]

theorem fill_pc (s : State P) (b : Fin NBUF) : (s.fill b).pc = s.pc := by
  unfold State.fill
  split <;> rfl

theorem fill_lock (s : State P) (b : Fin NBUF) : (s.fill b).lock = s.lock := by
  unfold State.fill
  split <;> rfl

theorem is_setBuf {f : Buf → Buf} {l : Fin NBUF} (his : s.Is b n)
    (cache : next.cache.buf = (s.cache.setBuf l f).buf)
    (keeps : ∀ x, (f x).dev = x.dev ∧ (f x).blockno = x.blockno) : next.Is b n := by
  unfold State.Is State.blockno
  rw [cache]
  by_cases hb : b = l
  · rw [hb, setBuf_self, (keeps _).1, (keeps _).2, ← hb]
    exact his
  · rw [setBuf_of_ne _ hb]
    exact his

variable [DecidableEq P]

theorem Step.geometry (h : Step s next) :
    next.log.start = s.log.start ∧ next.log.size = s.log.size := by
  cases h with
  | acquire p b k here free =>
    unfold State.fill
    split <;> exact ⟨rfl, rfl⟩
  | logWrite p b log here locked home records =>
    obtain ⟨-, rfl⟩ := Log.write_eq_ok records
    exact ⟨rfl, rfl⟩
  | _ => exact ⟨rfl, rfl⟩

theorem Step.home_iff (h : Step s next) (n : Nat) : next.Home n ↔ s.Home n := by
  unfold State.Home
  rw [h.geometry.1, h.geometry.2]

/-- A buffer in use keeps its block. -/
theorem Step.is_of_used (h : Step s next) (used : (s.cache.buf b).refcnt ≠ 0) (his : s.Is b n) :
    next.Is b n := by
  cases h with
  | bread p l n' k k' c here reads got =>
    cases got with
    | hit cached =>
      exact is_setBuf (f := fun x => { x with refcnt := x.refcnt + 1 }) his rfl fun _ => ⟨rfl, rfl⟩
    | recycled unused missing =>
      have hb : b ≠ l := by
        rintro rfl
        exact used unused
      unfold State.Is State.blockno
      rw [State.goto_cache]
      dsimp only
      rw [setBuf_of_ne _ hb]
      exact his
  | acquire p l k here free =>
    have hfill : (s.fill l).Is b n := by
      unfold State.fill
      split
      · exact his
      · exact is_setBuf his rfl (by intro; exact ⟨rfl, rfl⟩)
    exact hfill
  | drop p l k here => exact is_setBuf his (brelse_buf) fun _ => ⟨rfl, rfl⟩
  | change p l data here locked home => exact is_setBuf his rfl (by intro; exact ⟨rfl, rfl⟩)
  | logWrite p l log here locked home records =>
    have hsame : SameBuf (s.cache.buf b) ((s.logWrite l log).cache.buf b) := sameBuf_logWrite b
    unfold State.Is State.blockno
    rw [hsame.dev, hsame.blockno]
    exact his
  | copyLog p tail l h here => exact is_setBuf his rfl (by intro; exact ⟨rfl, rfl⟩)
  | copyHome p tail l h here => exact is_setBuf his rfl (by intro; exact ⟨rfl, rfl⟩)
  | unpin p tail l h here => exact is_setBuf his rfl (by intro; exact ⟨rfl, rfl⟩)
  | writeHead p erase l here => exact is_setBuf his rfl (by intro; exact ⟨rfl, rfl⟩)
  | _ => exact his

def ByOthers (p : P) (s next : State P) : Prop :=
  ∃ event : Event P, event.p ≠ p ∧ s.Allowed event ∧ s.step event = some (.ok next)

section Others

variable {q : P} {victim : Fin NBUF}

theorem pc_of_callBread {k : Option Commit} (other : p ≠ q)
    (h : s.callBread q n victim k = some next) : next.pc p = s.pc p := by
  obtain ⟨c, -, rfl⟩ := Option.map_eq_some_iff.mp h
  exact State.goto_of_ne _ _ other

theorem pc_of_client {act : Act} (other : p ≠ q)
    (h : s.clientStep q victim act = some (.ok next)) : next.pc p = s.pc p := by
  cases act with
  | bread blockno =>
    obtain ⟨t, ht, heq⟩ := Option.map_eq_some_iff.mp h
    cases heq
    exact pc_of_callBread other ht
  | change b data =>
    cases h
    rfl
  | logWrite b =>
    simp only [State.clientStep] at h
    split at h
    · cases h
    · cases h
      rfl
  | brelse b =>
    cases h
    exact State.goto_of_ne _ _ other
  | beginOp =>
    simp only [State.clientStep] at h
    split at h
    · cases h
    · cases h
      rfl
  | endOp =>
    simp only [State.clientStep] at h
    split at h
    · cases h
    · split at h
      · cases h
      · split at h
        · cases h
          exact State.goto_of_ne _ _ other
        · cases h
          rfl
  | next => cases h

theorem pc_of_commit {c : Commit} (other : p ≠ q)
    (h : s.commitStep q victim c = some next) : next.pc p = s.pc p := by
  cases c with
  | readLog loop tail =>
    simp only [State.commitStep] at h
    split at h
    · exact pc_of_callBread other h
    · cases loop <;>
      · cases h
        exact State.goto_of_ne _ _ other
  | readHome loop tail l => exact pc_of_callBread other h
  | readHead erase => exact pc_of_callBread other h
  | copy loop tail l h' | relseFirst loop tail l h' =>
    cases loop <;>
    · cases h
      exact State.goto_of_ne _ _ other
  | _ =>
    cases h
    exact State.goto_of_ne _ _ other

theorem pc_of_step {event : Event P} (other : p ≠ event.p) (h : s.step event = some (.ok next)) :
    next.pc p = s.pc p := by
  obtain ⟨q, act, victim⟩ := event
  unfold State.step at h
  dsimp only at h
  split at h
  · exact pc_of_client other h
  · obtain ⟨t, ht, heq⟩ := Option.map_eq_some_iff.mp h
    cases heq
    exact pc_of_commit other ht
  · obtain ⟨t, ht, heq⟩ := Option.map_eq_some_iff.mp h
    cases heq
    unfold State.finishBread at ht
    split at ht
    · cases ht
    · cases ht
      exact (State.goto_of_ne _ _ other).trans (congrFun (fill_pc _ _) p)
  · cases h
    exact State.goto_of_ne _ _ other
  · cases h

end Others

theorem waits_of_bread {blockno : UInt32} (call : s.step ⟨p, .bread blockno, b⟩ = some (.ok next)) :
    next.pc p = .lock b none ∧ next.Is b blockno.toNat := by
  obtain here | hnone : s.pc p = .run none ∨ s.step ⟨p, .bread blockno, b⟩ = none := by
    unfold State.step
    dsimp only
    cases s.pc p with
    | run k =>
      cases k with
      | none => exact .inl rfl
      | some c => exact .inr rfl
    | lock b k => exact .inr rfl
    | drop b k => exact .inr rfl
  · simp only [State.step, here] at call
    obtain ⟨t, ht, heq⟩ := Option.map_eq_some_iff.mp call
    cases heq
    obtain ⟨c, hget, rfl⟩ := Option.map_eq_some_iff.mp ht
    rw [UInt32.ofNat_toNat] at hget
    refine ⟨State.goto_self .., ?_⟩
    unfold State.Is State.blockno
    rw [State.goto_cache]
    cases got_of_bget hget with
    | hit cached =>
      dsimp only
      rw [setBuf_self]
      exact ⟨cached.1, congrArg UInt32.toNat cached.2⟩
    | recycled unused missing =>
      dsimp only
      rw [setBuf_self]
      exact ⟨rfl, rfl⟩
  · rw [hnone] at call
    cases call

instance (s : State P) : (event : Event P) → Decidable (s.Allowed event)
  | ⟨p, .change b _, _⟩ => inferInstanceAs (Decidable (s.lock b = some p ∧ s.Home (s.blockno b)))
  | ⟨p, .logWrite b, _⟩ => inferInstanceAs (Decidable (s.lock b = some p ∧ s.Home (s.blockno b)))
  | ⟨p, .brelse b, _⟩ => inferInstanceAs (Decidable (s.lock b = some p ∧ s.changed b = false))
  | ⟨_, .bread _, _⟩ | ⟨_, .beginOp, _⟩ | ⟨_, .endOp, _⟩ | ⟨_, .next, _⟩ =>
    inferInstanceAs (Decidable True)

def State.run (s : State P) : List (Event P) → Option (State P)
  | [] => some s
  | event :: events =>
    if s.Allowed event then
      match s.step event with
      | some (.ok next) => next.run events
      | _ => none
    else none

theorem Reachable.of_run (h : Reachable disk start size s) {events : List (Event P)}
    (run : s.run events = some next) : Reachable disk start size next := by
  induction events generalizing s with
  | nil =>
    cases run
    exact h
  | cons event events ih =>
    simp only [State.run] at run
    split at run
    · rename_i allowed
      split at run
      · rename_i s' hstep
        exact ih (h.step allowed hstep) run
      · cases run
    · cases run

theorem step_of_run {event : Event P} (h : s.run [event] = some next) :
    s.step event = some (.ok next) := by
  simp only [State.run] at h
  split at h
  · split at h
    · rename_i hstep
      cases h
      exact hstep
    · cases h
  · cases h

variable [Fintype P]

theorem Invariant.step (inv : Invariant s) (few : Fintype.card P + 2 < 2 ^ 32) (h : Step s next) :
    Invariant next := by
  cases h with
  | bread p b n k k' c here reads got => exact inv.bread few here reads got
  | acquire p b k here free =>
    have hfill := inv.fill few (p := p) (by rw [here]; rfl) free
    exact hfill.acquire few (by rw [fill_pc, here]) (by rw [fill_lock, free]) (valid_fill s b)
  | release p b k k' here releases => exact inv.release few here releases
  | drop p b k here => exact inv.drop few here
  | change p b data here locked home => exact inv.change few here locked home
  | logWrite p b log here locked home records => exact inv.logWrite records locked home
  | count outstanding ready => exact inv.count ready
  | commit p here ready => exact inv.commit here ready
  | wroteLog p tail here done => exact inv.wroteLog few here done
  | installedAll p tail here done => exact inv.installedAll few here done
  | copyLog p tail l h here => exact inv.copyLog few here
  | copyHome p tail l h here => exact inv.copyHome few here
  | unpin p tail l h here => exact inv.unpin few here
  | writeHead p erase b here => exact inv.writeHead few here
  | clear p here => exact inv.clear here
  | finish p here => exact inv.finish here

omit [DecidableEq P] in
theorem Invariant.boot (fits : 0 < size ∧ start + size ≤ 2 ^ 32) :
    Invariant (State.boot disk start size : State P) := by
  have hdev : ∀ b, (((State.boot disk start size : State P).cache.buf b).dev) = 0 := fun _ => rfl
  have hnone : ∀ b n, ¬(State.boot disk start size : State P).Is b n := by
    intro b n h
    have hbad := (hdev b).symm.trans h.1
    exact absurd hbad (by decide)
  refine ⟨fun p => ⟨fun c hc => (by cases hc), fun c hc => (by cases hc)⟩,
    ⟨fits, List.nodup_nil, fun n hn => (by cases hn), .inl rfl, fun _ => ⟨rfl, rfl⟩,
      fun h => (by cases h), Nat.le_refl 0, fun p q c d hp => (by cases hp)⟩,
    ⟨fun b b' n h => absurd h (hnone b n), ?_, fun p b h => (by cases h), fun b h => (by cases h)⟩,
    ⟨fun b h => (by cases h), fun b h => (by cases h), fun b n h => absurd h (hnone b n),
      fun b n h => absurd h (hnone b n), fun n _ => .inl rfl, fun n hn => (by cases hn)⟩⟩
  intro b
  have hrefs : (State.boot disk start size : State P).references b = 0 := by
    unfold State.references State.users
    simp [State.boot, Pc.uses, State.pins]
  rw [hrefs]
  rfl

theorem Reachable.invariant (h : Reachable disk start size s) (few : Fintype.card P + 2 < 2 ^ 32)
    (fits : 0 < size ∧ start + size ≤ 2 ^ 32) : Invariant s := by
  induction h with
  | boot => exact Invariant.boot fits
  | step reach allowed run ih => exact ih.step few (step_of_event allowed run)

theorem waits_of_others {s₁ s₂ : State P} (few : Fintype.card P + 2 < 2 ^ 32)
    (fits : 0 < size ∧ start + size ≤ 2 ^ 32) (h : Reachable disk start size s₁)
    (here : s₁.pc p = .lock b none) (his : s₁.Is b n)
    (others : Relation.ReflTransGen (ByOthers p) s₁ s₂) :
    Reachable disk start size s₂ ∧ s₂.pc p = .lock b none ∧ s₂.Is b n ∧
      (s₂.Home n ↔ s₁.Home n) := by
  induction others with
  | refl => exact ⟨h, here, his, Iff.rfl⟩
  | tail _ step ih =>
    obtain ⟨reach, here, his, home⟩ := ih
    obtain ⟨event, other, allowed, run⟩ := step
    have hstep := step_of_event allowed run
    have used := refcnt_of_held (reach.invariant few fits) few (q := p) (.inl (by rw [here]; rfl))
    exact ⟨reach.step allowed run, (pc_of_step other.symm run).trans here,
      hstep.is_of_used used his, (hstep.home_iff n).trans home⟩

/-- A call of `bread` from its first step to its last. -/
theorem data_of_bread {s₁ s₂ s₃ : State P} {blockno : UInt32} {victim : Fin NBUF}
    (few : Fintype.card P + 2 < 2 ^ 32) (fits : 0 < size ∧ start + size ≤ 2 ^ 32)
    (h : Reachable disk start size s) (call : s.step ⟨p, .bread blockno, b⟩ = some (.ok s₁))
    (others : Relation.ReflTransGen (ByOthers p) s₁ s₂)
    (returns : s₂.step ⟨p, .next, victim⟩ = some (.ok s₃)) (home : s.Home blockno.toNat) :
    s₃.Is b blockno.toNat ∧ s₃.lock b = some p ∧ s₃.pc p = .run none ∧
      s₃.data b = s₃.store blockno.toNat := by
  have hallowed : s.Allowed ⟨p, .bread blockno, b⟩ := trivial
  have hreach₁ := h.step hallowed call
  obtain ⟨hpc₁, his₁⟩ := waits_of_bread call
  have hhome₁ : s₁.Home blockno.toNat :=
    ((step_of_event hallowed call).home_iff _).mpr home
  obtain ⟨hreach₂, hpc₂, his₂, hhome₂⟩ := waits_of_others few fits hreach₁ hpc₁ his₁ others
  have hallowed₂ : s₂.Allowed ⟨p, .next, victim⟩ := trivial
  have hreach₃ := hreach₂.step hallowed₂ returns
  have hstep₃ := step_of_event hallowed₂ returns
  have inv₂ := hreach₂.invariant few fits
  have inv₃ := hreach₃.invariant few fits
  have his₃ := hstep₃.is_of_used (refcnt_of_held inv₂ few (q := p) (.inl (by rw [hpc₂]; rfl))) his₂
  have hhome₃ : s₃.Home blockno.toNat := (hstep₃.home_iff _).mpr (hhome₂.mpr hhome₁)
  simp only [State.step, hpc₂] at returns
  obtain ⟨t, ht, heq⟩ := Option.map_eq_some_iff.mp returns
  cases heq
  unfold State.finishBread at ht
  split at ht
  · cases ht
  · rename_i free
    cases ht
    have hlock : (((s₂.fill b).setLock b (some p)).goto p (.run none)).lock b = some p :=
      Function.update_self ..
    have hclean : (((s₂.fill b).setLock b (some p)).goto p (.run none)).changed b = false := by
      have hsame : (s₂.fill b).changed = s₂.changed := by
        unfold State.fill
        split <;> rfl
      change (s₂.fill b).changed b = false
      rw [hsame]
      cases hchanged : s₂.changed b with
      | false => rfl
      | true => exact absurd (inv₂.contents.changed b hchanged) free
    exact ⟨his₃, hlock, State.goto_self .., inv₃.contents.home b _ his₃ hhome₃
      (inv₃.contents.valid b (by rw [hlock]; rfl)) hclean⟩

theorem disk_of_finish {victim : Fin NBUF} (few : Fintype.card P + 2 < 2 ^ 32)
    (fits : 0 < size ∧ start + size ≤ 2 ^ 32) (h : Reachable disk start size s)
    (here : s.pc p = .run (some .finish)) (returns : s.step ⟨p, .next, victim⟩ = some (.ok next))
    (home : next.Home n) : next.disk n = next.store n := by
  have inv := h.invariant few fits
  have hlength : s.log.lh.length = 0 := (inv.progress_of_run here).2.range
  have hempty : s.log.lh = [] := List.eq_nil_of_length_eq_zero hlength
  simp only [State.step, here] at returns
  obtain ⟨t, ht, heq⟩ := Option.map_eq_some_iff.mp returns
  cases heq
  cases ht
  obtain hdisk | hmem := inv.contents.disk n home
  · exact hdisk
  · unfold State.uninstalled at hmem
    rw [hempty, List.drop_nil] at hmem
    cases hmem

/-- A logged block that is not installed stays in the cache. -/
theorem cached_of_uninstalled (few : Fintype.card P + 2 < 2 ^ 32)
    (fits : 0 < size ∧ start + size ≤ 2 ^ 32) (h : Reachable disk start size s)
    (logged : n ∈ s.uninstalled) :
    ∃ b, s.Is b n ∧ (s.cache.buf b).valid = true ∧
      ∀ event next, s.Allowed event → s.step event = some (.ok next) → next.Is b n := by
  have inv := h.invariant few fits
  have hpin : n ∈ s.pins := List.drop_subset_drop_left _ inv.log.order logged
  obtain ⟨b, his, valid⟩ := inv.contents.pinned n hpin
  refine ⟨b, his, valid, fun event next allowed run => ?_⟩
  refine (step_of_event allowed run).is_of_used (fun hzero => ?_) his
  exact (inv.counts.unused few hzero).pins n hpin his

/-- For any number of processes: `bread` of a block outside the log returns the data last
logged, logged blocks stay cached until they are written home, and after `commit` the disk
holds the store. -/
theorem store_of_reachable (few : Fintype.card P + 2 < 2 ^ 32)
    (fits : 0 < size ∧ start + size ≤ 2 ^ 32) (h : Reachable disk start size s) :
    (∀ (p : P) (b victim : Fin NBUF) (blockno : UInt32) (s₁ s₂ s₃ : State P),
      s.step ⟨p, .bread blockno, b⟩ = some (.ok s₁) → Relation.ReflTransGen (ByOthers p) s₁ s₂ →
      s₂.step ⟨p, .next, victim⟩ = some (.ok s₃) → s.Home blockno.toNat →
      s₃.Is b blockno.toNat ∧ s₃.lock b = some p ∧ s₃.pc p = .run none ∧
        s₃.data b = s₃.store blockno.toNat) ∧
    (∀ n ∈ s.uninstalled, ∃ b, s.Is b n ∧ (s.cache.buf b).valid = true ∧
      ∀ event next, s.Allowed event → s.step event = some (.ok next) → next.Is b n) ∧
    (∀ (p : P) (victim : Fin NBUF) (next : State P), s.pc p = .run (some .finish) →
      s.step ⟨p, .next, victim⟩ = some (.ok next) →
      ∀ n, next.Home n → next.disk n = next.store n) :=
  ⟨fun _ _ _ _ _ _ _ call others returns home => data_of_bread few fits h call others returns home,
    fun _ logged => cached_of_uninstalled few fits h logged,
    fun _ _ _ here returns _ home => disk_of_finish few fits h here returns home⟩

/-- A process writes block 9 and commits; the log has three blocks from block 2 on. -/
def committing : List (Event (Fin 1)) :=
  [(.beginOp, 0), (.bread 9, 0), (.next, 0), (.change 0 (.ofFn fun _ => 7), 0), (.logWrite 0, 0),
    (.brelse 0, 0), (.next, 0), (.endOp, 0),
    -- write_log
    (.next, 1), (.next, 0), (.next, 0), (.next, 0), (.next, 0), (.next, 0), (.next, 0), (.next, 0),
    (.next, 0), (.next, 0),
    -- write_head
    (.next, 2), (.next, 0), (.next, 0), (.next, 0), (.next, 0),
    -- install_trans
    (.next, 1), (.next, 0), (.next, 0), (.next, 0), (.next, 0), (.next, 0), (.next, 0), (.next, 0),
    (.next, 0), (.next, 0), (.next, 0),
    -- write_head
    (.next, 0), (.next, 2), (.next, 0), (.next, 0), (.next, 0), (.next, 0)].map
    fun x => ⟨0, x.1, x.2⟩

def emptyDisk : State (Fin 1) := .boot (fun _ => .zero) 2 3

theorem run_committing : (emptyDisk.run committing).map
    (fun s => (s.pc 0, (s.store 9).byte 0, decide (s.Home 9))) =
      some (.run (some .finish), 7, true) := by
  decide +kernel

theorem store_of_reachable_committed : ∃ s s' : State (Fin 1),
    Reachable (fun _ => .zero) 2 3 s ∧ s.pc 0 = .run (some .finish) ∧
      s.step ⟨0, .next, 0⟩ = some (.ok s') ∧ (s'.disk 9).byte 0 = 7 := by
  obtain ⟨s, hrun, hs⟩ := Option.map_eq_some_iff.mp run_committing
  simp only [Prod.mk.injEq, decide_eq_true_eq] at hs
  obtain ⟨hpc, hstore, home⟩ := hs
  have hreach := Reachable.boot.of_run hrun
  have hstep : s.step ⟨0, .next, 0⟩ =
      some (.ok ({ s with log := { s.log with committing := false } }.goto 0 (.run none))) := by
    simp only [State.step, hpc]
    rfl
  have hdisk := (store_of_reachable (by decide) (by decide) hreach).2.2 0 0 _ hpc hstep 9 home
  refine ⟨s, _, hreach, hpc, hstep, ?_⟩
  rw [hdisk]
  exact hstore

/-- Blocks of the log are not part of the store: block 3 holds a copy that nobody logged for it. -/
theorem log_block_differs : ∃ s s₁ s₂ : State (Fin 1), Reachable (fun _ => .zero) 2 3 s ∧
    s.step ⟨0, .bread 3, 1⟩ = some (.ok s₁) ∧ s₁.step ⟨0, .next, 0⟩ = some (.ok s₂) ∧
      s₂.blockno 1 = 3 ∧ s₂.lock 1 = some 0 ∧ (s₂.data 1).byte 0 = 7 ∧
      (s₂.store 3).byte 0 = (Block.zero).byte 0 := by
  have hrun : ((emptyDisk.run (committing ++ [⟨0, .next, 0⟩])).bind fun s =>
      (s.run [⟨0, .bread 3, 1⟩]).bind fun s₁ => (s₁.run [⟨0, .next, 0⟩]).map fun s₂ =>
        (s₂.blockno 1, s₂.lock 1, (s₂.data 1).byte 0, (s₂.store 3).byte 0)) =
      some (3, some 0, 7, (Block.zero).byte 0) := by
    decide +kernel
  obtain ⟨s, hs, hrest⟩ := Option.bind_eq_some_iff.mp hrun
  obtain ⟨s₁, hs₁, hrest⟩ := Option.bind_eq_some_iff.mp hrest
  obtain ⟨s₂, hs₂, hvals⟩ := Option.map_eq_some_iff.mp hrest
  simp only [Prod.mk.injEq] at hvals
  exact ⟨s, s₁, s₂, Reachable.boot.of_run hs, step_of_run hs₁, step_of_run hs₂, hvals⟩

end Xv6.BlockStore
