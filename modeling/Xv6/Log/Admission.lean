import Xv6.Log.GroupSafety

/-! What group commit guarantees. `mkfs` makes the log `LOGSIZE` blocks long, header included,
while `begin_op` hands out `LOGSIZE` blocks: the last one is missing. -/
namespace Xv6.Group

variable {P : Type} [DecidableEq P]

def State.logged (g : State P) : Finset Nat := (g.pending.map Prod.snd).toFinset

/-- Inside an operation, and within its limit with `blockno`. -/
def State.MayLog (g : State P) (p : P) (blockno : Nat) : Prop :=
  ∃ op, g.proc p = .inOp op ∧ (op.blocks.insert blockno).length ≤ MAXOPBLOCKS

theorem State.run_append (g : State P) (pre post : List (Event P)) :
    g.run (pre ++ post) =
      match g.run pre with
      | some (.ok mid) => mid.run post
      | other => other := by
  induction pre generalizing g with
  | nil => rfl
  | cons event rest ih =>
    simp only [List.cons_append, State.run]
    cases hstep : g.step event with
    | none => rfl
    | some result =>
      cases result with
      | error panic => rfl
      | ok next => exact ih next

theorem State.run_error {g : State P} {events : List (Event P)} {panic : Panic}
    (h : g.run events = some (.error panic)) :
    ∃ pre event post mid, events = pre ++ event :: post ∧ g.run pre = some (.ok mid) ∧
      mid.step event = some (.error panic) := by
  induction events generalizing g with
  | nil => simp [State.run] at h
  | cons event rest ih =>
    simp only [State.run] at h
    split at h
    · rename_i next hstep
      obtain ⟨pre, event', post, mid, rfl, hrun, hpanic⟩ := ih h
      exact ⟨event :: pre, event', post, mid, rfl, by simp [State.run, hstep, hrun], hpanic⟩
    · exact ⟨[], event, rest, g, rfl, rfl, h⟩

theorem State.reachable_of_run {initial g : State P} {events : List (Event P)}
    (h : initial.run events = some (.ok g)) : State.Reachable initial g := by
  induction events using List.reverseRecOn generalizing g with
  | nil =>
    simp only [State.run, Option.some.injEq, Except.ok.injEq] at h
    exact h ▸ .refl
  | append_singleton rest event ih =>
    rw [State.run_append] at h
    split at h
    · rename_i mid hrun
      simp only [State.run] at h
      split at h
      · rename_i next hstep
        simp only [Option.some.injEq, Except.ok.injEq] at h
        exact h ▸ .step (ih hrun) hstep
      · rename_i hother
        exact absurd h (hother g)
    · rename_i hother
      exact absurd h (hother g)

theorem State.step_tooBig {g : State P} {event : Event P}
    (h : g.step event = some (.error .tooBigTransaction)) :
    ∃ p blockno data, event = .logWrite p blockno data ∧ g.MayLog p blockno := by
  cases event with
  | beginOp p =>
    simp only [State.step] at h
    split at h <;> simp at h
  | logWrite p blockno data =>
    simp only [State.step] at h
    split at h
    · rename_i op hop
      split at h
      · rename_i hfew
        exact ⟨p, blockno, data, rfl, op, hop, hfew⟩
      · cases h
    · cases h
  | endOp p =>
    simp only [State.step] at h
    split at h
    · simp only [State.endOp, Option.some.injEq] at h
      split at h
      · simp at h
      · split at h <;> simp at h
    · cases h
  | commitStep p =>
    simp only [State.step] at h
    split at h <;> simp at h

theorem State.Reachable.size_eq {initial g : State P} (h : State.Reachable initial g) :
    g.store.log.size = initial.store.log.size := by
  induction h with
  | refl => rfl
  | step _ hstep ih =>
    rw [← ih]
    cases step_of_event hstep with
    | commit p pc inCommit =>
      cases pc <;> simp only [State.commitStep] <;> try rfl
      all_goals split <;> rfl
    | _ => rfl

variable [Fintype P] {g : State P}

omit [DecidableEq P] in
theorem Inv.lh_length (h : Inv g) {p : P} {op : Op} (hp : g.proc p = .inOp op) :
    g.store.log.lh.length = g.logged.card := by
  have hsynced := h.history.synced fun q pc hq => absurd hq (h.no_commit_of_op hp q pc)
  have hset : g.store.log.lh.toFinset = g.logged := by
    ext b
    simp only [List.mem_toFinset, State.logged, List.mem_map, hsynced b]
    constructor
    · rintro ⟨id, hid⟩
      exact ⟨(id, b), hid, rfl⟩
    · rintro ⟨⟨id, b'⟩, hid, rfl⟩
      exact ⟨id, hid⟩
  rw [← hset, List.toFinset_card_of_nodup h.reserved.distinct]

theorem Inv.logWrite_tooBig_iff (h : Inv g) {p : P} {blockno : Nat} (may : g.MayLog p blockno)
    (data : Block) :
    g.step (.logWrite p blockno data) = some (.error .tooBigTransaction) ↔
      LOGSIZE ≤ g.logged.card ∨ g.store.log.size ≤ g.logged.card + 1 := by
  obtain ⟨op, hop, hfew⟩ := may
  have hlength := h.lh_length hop
  have hpos := h.roles.outstanding_pos hop
  simp only [State.step, hop, hfew, ↓reduceIte, Option.some.injEq, State.logWrite, Log.write,
    hlength, ge_iff_le]
  split
  · rename_i hfull
    simp [hfull, bind, Except.bind]
  · rename_i hroom
    rw [if_neg (by omega)]
    split <;> simp [hroom, bind, Except.bind, pure, Except.pure]

/-- With the log that `mkfs` makes, operations within `MAXOPBLOCKS` run out of log exactly when
a `log_write` comes after `LOGSIZE - 1` distinct blocks since the last commit. -/
theorem run_tooBig_iff (store : Store) (start : Nat) (events : List (Event P)) :
    (State.init store start LOGSIZE).run events ≠ some (.error .tooBigTransaction) ↔
      ∀ pre p blockno data post mid, events = pre ++ .logWrite p blockno data :: post →
        (State.init store start LOGSIZE).run pre = some (.ok mid) → mid.MayLog p blockno →
        mid.logged.card < LOGSIZE - 1 := by
  have hstate : ∀ pre mid, (State.init store start LOGSIZE : State P).run pre = some (.ok mid) →
      Inv mid ∧ mid.store.log.size = LOGSIZE := fun pre mid hrun =>
    ⟨Inv.of_reachable (Inv.init store start LOGSIZE) (State.reachable_of_run hrun),
      (State.reachable_of_run hrun).size_eq⟩
  constructor
  · rintro hnever pre p blockno data post mid rfl hrun hmay
    obtain ⟨hinv, hsize⟩ := hstate pre mid hrun
    by_contra hfull
    apply hnever
    have hpanic := (hinv.logWrite_tooBig_iff hmay data).mpr (by omega)
    rw [State.run_append, hrun]
    simp only [State.run, hpanic]
  · intro hfits htooBig
    obtain ⟨pre, event, post, mid, rfl, hrun, hpanic⟩ := State.run_error htooBig
    obtain ⟨hinv, hsize⟩ := hstate pre mid hrun
    obtain ⟨p, blockno, data, rfl, hmay⟩ := State.step_tooBig hpanic
    have hroom := hfits pre p blockno data post mid rfl hrun hmay
    have hfull := (hinv.logWrite_tooBig_iff hmay data).mp hpanic
    omega

def panicOf : Option (Except Panic (State P)) → Option Panic
  | some (.error panic) => some panic
  | _ => none

omit [DecidableEq P] [Fintype P] in
theorem eq_error_of_panicOf {result : Option (Except Panic (State P))} {panic : Panic}
    (h : panicOf result = some panic) : result = some (.error panic) := by
  match result, h with
  | some (.error _), h =>
    obtain rfl := Option.some.inj h
    rfl

/-- Three operations, each logging ten blocks of its own. -/
def fullLogSchedule : List (Event (Fin 3)) :=
  [.beginOp 0, .beginOp 1, .beginOp 2] ++
    (List.range 30).map fun i => .logWrite (Fin.ofNat 3 (i / 10)) (100 + i) Block.zero

theorem fullLogSchedule_tooBig :
    (State.init (Store.reboot 2 LOGSIZE fun _ => Block.zero) 2 LOGSIZE).run fullLogSchedule =
      some (.error .tooBigTransaction) :=
  eq_error_of_panicOf (by decide +kernel)

structure Safe (g : State P) : Prop where
  exclusive : g.store.log.committing = true →
    g.store.log.outstanding = 0 ∧ ∀ p op, g.proc p ≠ .inOp op
  endOp_ok : ∀ p, g.step (.endOp p) ≠ some (.error .logCommitting)
  /-- An operation in a committed transaction has ended and is all there. -/
  atomic : ∀ (i : Nat) (t : Transaction), g.committed[i]? = some t → ∀ w ∈ t.writes,
    (∀ p op, g.proc p = .inOp op → op.id ≠ w.1) ∧ (∀ v ∈ g.pending, v.1 ≠ w.1) ∧
      ∀ (j : Nat) (u : Transaction), g.committed[j]? = some u → j ≠ i →
        ∀ v ∈ u.writes, v.1 ≠ w.1
  recorded : ∀ t ∈ g.committed, ∀ b, b ∈ t.header ↔ ∃ id, (id, b) ∈ t.writes
  distinct : g.store.log.lh.Nodup
  added_le : ∀ p op, g.proc p = .inOp op → op.added ≤ MAXOPBLOCKS
  reserved : g.store.log.lh.length + ∑ p, (g.proc p).reserve ≤ LOGSIZE
  awake : ∀ p, g.proc p = .asleep →
    0 < g.store.log.outstanding ∨ g.store.log.committing = true

omit [DecidableEq P] in
theorem Inv.atomic (h : Inv g) {i : Nat} {t : Transaction} (ht : g.committed[i]? = some t)
    {w : Nat × Nat} (hw : w ∈ t.writes) :
    (∀ p op, g.proc p = .inOp op → op.id ≠ w.1) ∧ (∀ v ∈ g.pending, v.1 ≠ w.1) ∧
      ∀ (j : Nat) (u : Transaction), g.committed[j]? = some u → j ≠ i →
        ∀ v ∈ u.writes, v.1 ≠ w.1 := by
  obtain ⟨first, _, hcommitted, hpending, hops⟩ := h.history.range
  have hbefore := hcommitted t (List.mem_of_getElem? ht) w hw
  refine ⟨fun p op hp => ?_, fun v hv => ?_, fun j u hu hji v hv => ?_⟩
  · have hop := (hops p op hp).1
    omega
  · have hv' := (hpending v hv).1
    omega
  · obtain ⟨hi, rfl⟩ := List.getElem?_eq_some_iff.mp ht
    obtain ⟨hj, rfl⟩ := List.getElem?_eq_some_iff.mp hu
    have hordered := List.pairwise_iff_getElem.mp h.history.ordered
    rcases Nat.lt_or_gt_of_ne hji with hlt | hlt
    · exact Nat.ne_of_lt (hordered j i hj hi hlt v hv w hw)
    · exact Nat.ne_of_gt (hordered i j hi hj hlt w hw v hv)

/-- Group commit is safe in every reachable state. -/
theorem safe_of_reachable (store : Store) (start size : Nat)
    (h : State.Reachable (State.init store start size) g) : Safe g := by
  have hinv := Inv.of_reachable (Inv.init store start size) h
  refine ⟨?_, ?_, fun i t ht w hw => hinv.atomic ht hw, hinv.history.headers,
    hinv.reserved.distinct, ?_, hinv.reserved.room, hinv.roles.awake⟩
  · intro hcommitting
    refine ⟨hinv.roles.exclusive hcommitting, fun p op hp => ?_⟩
    simp [hinv.roles.not_committing hp] at hcommitting
  · intro p
    simp only [State.step]
    split
    · rename_i op hop
      simp only [State.endOp, hinv.roles.not_committing hop, Bool.false_eq_true, ↓reduceIte]
      split <;> simp
    · simp
  · intro p op hp
    exact Nat.le_trans (hinv.reserved.added p op hp).1 (hinv.reserved.added p op hp).2

/-- Two operations log a block each while a third waits for space, and the second `end_op`
commits for both, up to the writing of the header. -/
def twoOperations : List (Event (Fin 3)) :=
  [.beginOp 0, .beginOp 1, .logWrite 0 100 Block.zero, .logWrite 1 101 Block.zero, .beginOp 2,
    .endOp 0, .endOp 1, .beginOp 2, .commitStep 1, .commitStep 1, .commitStep 1, .commitStep 1]

def reached : Option (Except Panic (State P)) → Option (State P)
  | some (.ok g) => some g
  | _ => none

omit [DecidableEq P] [Fintype P] in
theorem eq_ok_of_reached {result : Option (Except Panic (State P))} {g : State P}
    (h : reached result = some g) : result = some (.ok g) := by
  unfold reached at h
  split at h
  · cases h
    rfl
  · cases h

theorem safe_of_reachable_twoOperations : ∃ g : State (Fin 3), Safe g ∧
    g.committed.map (fun t => (t.header, t.writes)) = [([100, 101], [(0, 100), (1, 101)])] ∧
    g.proc 1 = .inCommit (.installTrans 0) ∧ g.proc 2 = .asleep := by
  have hrun : (reached ((State.init (Store.reboot 2 LOGSIZE fun _ => Block.zero) 2 LOGSIZE).run
      twoOperations)).map (fun g => (g.committed.map (fun t => (t.header, t.writes)), g.proc 1,
        g.proc 2)) =
      some ([([100, 101], [(0, 100), (1, 101)])], .inCommit (.installTrans 0), .asleep) := by
    decide +kernel
  obtain ⟨g, hreached, hobs⟩ := Option.map_eq_some_iff.mp hrun
  simp only [Prod.mk.injEq] at hobs
  have hreach := State.reachable_of_run (eq_ok_of_reached hreached)
  exact ⟨g, safe_of_reachable _ 2 LOGSIZE hreach, hobs⟩

end Xv6.Group
