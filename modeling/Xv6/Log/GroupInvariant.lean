import Mathlib.Algebra.Order.BigOperators.Group.Finset
import Xv6.Log.Group

/-! The invariant of group commit: who may be where, how much log is reserved, and what
transactions are made of. -/
namespace Xv6.Group

open Function Phase

variable {P : Type} [DecidableEq P]

inductive Step (g : State P) : State P → Prop where
  | wait (p : P) (idle : g.proc p = .outside ∨ g.proc p = .woken)
      (full : g.store.log.committing = true ∨
        LOGSIZE < g.store.log.lh.length + (g.store.log.outstanding + 1) * MAXOPBLOCKS) :
      Step g (g.setProc p .asleep)
  | enter (p : P) (idle : g.proc p = .outside ∨ g.proc p = .woken)
      (open' : g.store.log.committing = false)
      (room : g.store.log.lh.length + (g.store.log.outstanding + 1) * MAXOPBLOCKS ≤ LOGSIZE) :
      Step g { (g.setLog { g.store.log with outstanding := g.store.log.outstanding + 1 }).setProc p
        (.inOp { id := g.nextOp }) with nextOp := g.nextOp + 1 }
  | logWrite (p : P) (op : Op) (blockno : Nat) (data : Block) (lh : List Nat)
      (inOp : g.proc p = .inOp op) (few : (op.blocks.insert blockno).length ≤ MAXOPBLOCKS)
      (room : g.store.log.lh.length < LOGSIZE)
      (entry : lh = if blockno ∈ g.store.log.lh then g.store.log.lh
        else g.store.log.lh ++ [blockno]) :
      Step g { g with
        store := { g.store.setData blockno data with log := { g.store.log with lh := lh } }
        proc := update g.proc p (.inOp (op.log g.store.log blockno))
        pending := g.pending ++ [(op.id, blockno)] }
  | lastEnd (p : P) (op : Op) (inOp : g.proc p = .inOp op)
      (open' : g.store.log.committing = false) (last : g.store.log.outstanding - 1 = 0) :
      Step g ((g.setLog { g.store.log with
        outstanding := g.store.log.outstanding - 1, committing := true }).setProc p
        (.inCommit (if g.store.log.lh.length > 0 then .writeLog 0 else .finish)))
  | innerEnd (p : P) (op : Op) (inOp : g.proc p = .inOp op)
      (open' : g.store.log.committing = false) (more : g.store.log.outstanding - 1 ≠ 0) :
      Step g ((g.setLog { g.store.log with
        outstanding := g.store.log.outstanding - 1 }).wakeup.setProc p .outside)
  | commit (p : P) (pc : CommitPc) (inCommit : g.proc p = .inCommit pc) :
      Step g (g.commitStep p pc)

theorem step_beginOp (g : State P) {p : P} (idle : g.proc p = .outside ∨ g.proc p = .woken) :
    Step g (g.beginOp p) := by
  unfold State.beginOp
  dsimp only
  split
  · rename_i hcommitting
    exact .wait p idle (.inl hcommitting)
  · rename_i hopen
    split
    · rename_i hfull
      exact .wait p idle (.inr hfull)
    · rename_i hroom
      exact .enter p idle (by simpa using hopen) (by omega)

theorem step_endOp {g next : State P} {p : P} {op : Op} (inOp : g.proc p = .inOp op)
    (h : g.endOp p = .ok next) : Step g next := by
  unfold State.endOp at h
  dsimp only at h
  split at h
  · cases h
  · rename_i hopen
    split at h
    · rename_i hlast
      cases h
      exact .lastEnd p op inOp (by simpa using hopen) hlast
    · rename_i hmore
      cases h
      exact .innerEnd p op inOp (by simpa using hopen) hmore

theorem step_of_event {g next : State P} {event : Event P}
    (h : g.step event = some (.ok next)) : Step g next := by
  cases event with
  | beginOp p =>
    simp only [State.step] at h
    split at h
    · rename_i hidle
      cases h
      exact step_beginOp g (.inl hidle)
    · rename_i hidle
      cases h
      exact step_beginOp g (.inr hidle)
    · cases h
  | logWrite p blockno data =>
    simp only [State.step] at h
    split at h
    · rename_i op hop
      split at h
      · rename_i hfew
        simp only [Option.some.injEq, State.logWrite] at h
        cases hlog : g.store.log.write blockno with
        | error panic => simp [hlog, bind, Except.bind] at h
        | ok log =>
          obtain ⟨hroom, rfl⟩ := Log.write_eq_ok hlog
          simp only [hlog, bind, Except.bind, pure, Except.pure, Except.ok.injEq] at h
          subst h
          exact .logWrite p op blockno data _ hop hfew hroom rfl
      · cases h
    · cases h
  | endOp p =>
    simp only [State.step] at h
    split at h
    · rename_i op hop
      exact step_endOp hop (Option.some.inj h)
    · cases h
  | commitStep p =>
    simp only [State.step] at h
    split at h
    · rename_i pc hpc
      cases h
      exact .commit p pc hpc
    · cases h

/-! Sums over the processes. -/

namespace Phase

def active : Phase → Nat
  | .inOp _ => 1
  | _ => 0

/-- The part of its reservation that is not used. -/
def reserve : Phase → Nat
  | .inOp op => MAXOPBLOCKS - op.added
  | _ => 0

def commits : Phase → Nat
  | .inCommit _ => 1
  | _ => 0

@[simp] theorem active_outside : active .outside = 0 := rfl
@[simp] theorem active_asleep : active .asleep = 0 := rfl
@[simp] theorem active_woken : active .woken = 0 := rfl
@[simp] theorem active_inOp (op : Op) : active (.inOp op) = 1 := rfl
@[simp] theorem active_inCommit (pc : CommitPc) : active (.inCommit pc) = 0 := rfl

@[simp] theorem commits_outside : commits .outside = 0 := rfl
@[simp] theorem commits_asleep : commits .asleep = 0 := rfl
@[simp] theorem commits_woken : commits .woken = 0 := rfl
@[simp] theorem commits_inOp (op : Op) : commits (.inOp op) = 0 := rfl
@[simp] theorem commits_inCommit (pc : CommitPc) : commits (.inCommit pc) = 1 := rfl

@[simp] theorem reserve_inOp (op : Op) : reserve (.inOp op) = MAXOPBLOCKS - op.added := rfl

theorem reserve_of_active {phase : Phase} (h : phase.active = 0) : phase.reserve = 0 := by
  cases phase <;> simp_all [reserve]

theorem reserve_le (phase : Phase) : phase.reserve ≤ MAXOPBLOCKS * phase.active := by
  cases phase <;> simp [reserve]

@[simp] theorem active_wake (phase : Phase) : (State.wakePhase phase).active = phase.active := by
  cases phase <;> rfl

@[simp] theorem reserve_wake (phase : Phase) :
    (State.wakePhase phase).reserve = phase.reserve := by
  cases phase <;> rfl

@[simp] theorem commits_wake (phase : Phase) :
    (State.wakePhase phase).commits = phase.commits := by
  cases phase <;> rfl

@[simp] theorem wake_eq_inOp {phase : Phase} {op : Op} :
    State.wakePhase phase = .inOp op ↔ phase = .inOp op := by
  cases phase <;> simp [State.wakePhase]

@[simp] theorem wake_eq_inCommit {phase : Phase} {pc : CommitPc} :
    State.wakePhase phase = .inCommit pc ↔ phase = .inCommit pc := by
  cases phase <;> simp [State.wakePhase]

@[simp] theorem wake_ne_asleep {phase : Phase} : State.wakePhase phase ≠ .asleep := by
  cases phase <;> simp [State.wakePhase]

end Phase

section Sums

variable {P : Type} [Fintype P]

theorem le_sum (f : Phase → Nat) (proc : P → Phase) (p : P) : f (proc p) ≤ ∑ q, f (proc q) :=
  Finset.single_le_sum (f := fun q => f (proc q)) (fun _ _ => Nat.zero_le _) (Finset.mem_univ p)

theorem sum_update [DecidableEq P] (f : Phase → Nat) (proc : P → Phase) (p : P) (phase : Phase) :
    ∑ q, f (update proc p phase q) + f (proc p) = ∑ q, f (proc q) + f phase := by
  have hrest : ∑ q ∈ Finset.univ.erase p, f (update proc p phase q) =
      ∑ q ∈ Finset.univ.erase p, f (proc q) := by
    apply Finset.sum_congr rfl
    intro q hq
    rw [update_of_ne (Finset.ne_of_mem_erase hq)]
  rw [← Finset.add_sum_erase _ _ (Finset.mem_univ p),
    ← Finset.add_sum_erase _ (fun q => f (proc q)) (Finset.mem_univ p), hrest,
    update_self]
  omega

end Sums

/-- The counters of the log agree with the processes. -/
structure Roles {P : Type} [Fintype P] (log : Log) (proc : P → Phase) : Prop where
  count : log.outstanding = ((∑ p, (proc p).active : Nat) : Int)
  committer : ∑ p, (proc p).commits = log.committing.toNat
  exclusive : log.committing = true → log.outstanding = 0
  empty : log.committing = false → log.outstanding = 0 → log.lh = []
  cleared : ∀ p, proc p = .inCommit .eraseHead ∨ proc p = .inCommit .finish → log.lh = []
  awake : ∀ p, proc p = .asleep → 0 < log.outstanding ∨ log.committing = true

/-- There is space for what operations in progress may add. -/
structure Reserved {P : Type} [Fintype P] (log : Log) (proc : P → Phase) : Prop where
  distinct : log.lh.Nodup
  room : log.lh.length + ∑ p, (proc p).reserve ≤ LOGSIZE
  added : ∀ p op, proc p = .inOp op →
    op.added ≤ op.blocks.length ∧ op.blocks.length ≤ MAXOPBLOCKS

namespace Roles

variable {P : Type} [Fintype P] {log : Log} {proc : P → Phase}

theorem init (start size : Nat) :
    Roles { start := start, size := size } (fun _ : P => .outside) where
  count := by simp
  committer := by simp
  exclusive := by simp
  empty := by simp
  cleared := by simp
  awake := by simp

section

variable (h : Roles log proc)

include h

theorem committing_of {p : P} {pc : CommitPc} (hp : proc p = .inCommit pc) :
    log.committing = true := by
  have hone : (proc p).commits ≤ ∑ q, (proc q).commits := le_sum Phase.commits proc p
  rw [h.committer, hp] at hone
  cases hcommitting : log.committing with
  | true => rfl
  | false => simp [hcommitting] at hone

theorem outstanding_pos {p : P} {op : Op} (hp : proc p = .inOp op) : 0 < log.outstanding := by
  have hone : (proc p).active ≤ ∑ q, (proc q).active := le_sum Phase.active proc p
  rw [hp] at hone
  rw [h.count]
  exact Int.natCast_pos.mpr hone

theorem not_committing {p : P} {op : Op} (hp : proc p = .inOp op) : log.committing = false := by
  have hpos := h.outstanding_pos hp
  cases hcommitting : log.committing with
  | false => rfl
  | true =>
    have hzero := h.exclusive hcommitting
    omega

theorem wakeup : Roles log fun p => State.wakePhase (proc p) where
  count := by simpa using h.count
  committer := by simpa using h.committer
  exclusive := h.exclusive
  empty := h.empty
  cleared p hp := h.cleared p (by simpa using hp)
  awake p hp := absurd hp wake_ne_asleep

variable [DecidableEq P]

theorem committer_unique {p q : P} {pc pc' : CommitPc} (hp : proc p = .inCommit pc)
    (hq : proc q = .inCommit pc') : p = q := by
  by_contra hne
  have hsum := sum_update Phase.commits proc p .outside
  have hstill : ((update proc p .outside) q).commits ≤
      ∑ r, ((update proc p .outside) r).commits := le_sum Phase.commits _ q
  rw [update_of_ne (Ne.symm hne), hq] at hstill
  rw [h.committer, h.committing_of hp, hp] at hsum
  simp only [commits_outside, commits_inCommit, Bool.toNat_true] at hsum hstill
  omega

theorem wait {p : P} (idle : proc p = .outside ∨ proc p = .woken)
    (full : log.committing = true ∨ LOGSIZE < log.lh.length + (log.outstanding + 1) * MAXOPBLOCKS) :
    Roles log (update proc p .asleep) := by
  have hactive := sum_update Phase.active proc p .asleep
  have hcommits := sum_update Phase.commits proc p .asleep
  have hplain : (proc p).active = 0 ∧ (proc p).commits = 0 := by
    rcases idle with hidle | hidle <;> simp [hidle]
  simp only [active_asleep, commits_asleep, hplain.1, hplain.2, Nat.add_zero]
    at hactive hcommits
  refine ⟨h.count.trans (congrArg _ hactive.symm), hcommits.trans h.committer, h.exclusive, h.empty,
    ?_, ?_⟩
  · intro q hq
    obtain rfl | hqp := eq_or_ne q p
    · simp at hq
    · rw [update_of_ne hqp] at hq
      exact h.cleared q hq
  · intro q hq
    by_cases hqp : q = p
    · -- with nothing outstanding the log is empty and has room for one operation
      by_contra hidle
      have hclosed : log.committing = false := by
        cases hc : log.committing <;> simp_all
      have hcount := h.count
      have hzero : log.outstanding = 0 := by omega
      have hempty := h.empty hclosed hzero
      rcases full with hfull | hfull
      · simp [hclosed] at hfull
      · simp [hempty, hzero, LOGSIZE, MAXOPBLOCKS] at hfull
    · rw [update_of_ne hqp] at hq
      exact h.awake q hq

theorem enter {p : P} (idle : proc p = .outside ∨ proc p = .woken) (open' : log.committing = false)
    (op : Op) : Roles { log with outstanding := log.outstanding + 1 }
      (update proc p (.inOp op)) := by
  have hactive := sum_update Phase.active proc p (.inOp op)
  have hcommits := sum_update Phase.commits proc p (.inOp op)
  have hplain : (proc p).active = 0 ∧ (proc p).commits = 0 := by
    rcases idle with hidle | hidle <;> simp [hidle]
  simp only [active_inOp, commits_inOp, hplain.1, hplain.2, Nat.add_zero]
    at hactive hcommits
  have hpos : 0 < log.outstanding + 1 := by
    rw [h.count]
    omega
  refine ⟨?_, hcommits.trans h.committer, ?_, ?_, ?_, ?_⟩
  · rw [hactive, h.count]
    rfl
  · intro hcommitting
    simp [open'] at hcommitting
  · intro _ hzero
    exact absurd hzero hpos.ne'
  · intro q hq
    obtain rfl | hqp := eq_or_ne q p
    · simp at hq
    · rw [update_of_ne hqp] at hq
      exact h.cleared q hq
  · intro q _
    exact .inl hpos

theorem logWrite {p : P} {op : Op} (hp : proc p = .inOp op) (op' : Op) (lh : List Nat) :
    Roles { log with lh := lh } (update proc p (.inOp op')) := by
  have hactive := sum_update Phase.active proc p (.inOp op')
  have hcommits := sum_update Phase.commits proc p (.inOp op')
  rw [hp] at hactive hcommits
  simp only [active_inOp, commits_inOp, Nat.add_right_cancel_iff] at hactive hcommits
  refine ⟨h.count.trans (congrArg _ hactive.symm), hcommits.trans h.committer, h.exclusive, ?_, ?_, ?_⟩
  · intro _ (hzero : log.outstanding = 0)
    exact absurd (h.outstanding_pos hp) (by omega)
  · intro q hq
    obtain rfl | hqp := eq_or_ne q p
    · simp at hq
    · rw [update_of_ne hqp] at hq
      have hcommitting : log.committing = true := by
        rcases hq with hq | hq <;> exact h.committing_of hq
      simp [h.not_committing hp] at hcommitting
  · intro q _
    exact .inl (h.outstanding_pos hp)

theorem lastEnd {p : P} {op : Op} (hp : proc p = .inOp op) (last : log.outstanding - 1 = 0)
    (pc : CommitPc) (cleared : pc = .eraseHead ∨ pc = .finish → log.lh = []) :
    Roles { log with outstanding := log.outstanding - 1, committing := true }
      (update proc p (.inCommit pc)) := by
  have hactive := sum_update Phase.active proc p (.inCommit pc)
  have hcommits := sum_update Phase.commits proc p (.inCommit pc)
  rw [hp] at hactive hcommits
  simp only [active_inOp, active_inCommit, commits_inOp,
    commits_inCommit, Nat.add_zero] at hactive hcommits
  have hcount := h.count
  refine ⟨?_, ?_, fun _ => last, ?_, ?_, fun q _ => .inr rfl⟩
  · change log.outstanding - 1 = _
    omega
  · rw [hcommits, h.committer, h.not_committing hp]
    rfl
  · intro hopen
    simp at hopen
  · intro q hq
    obtain rfl | hqp := eq_or_ne q p
    · simp only [update_self, Phase.inCommit.injEq] at hq
      exact cleared hq
    · rw [update_of_ne hqp] at hq
      have hcommitting : log.committing = true := by
        rcases hq with hq | hq <;> exact h.committing_of hq
      simp [h.not_committing hp] at hcommitting

theorem innerEnd {p : P} {op : Op} (hp : proc p = .inOp op) (more : log.outstanding - 1 ≠ 0) :
    Roles { log with outstanding := log.outstanding - 1 } (update proc p .outside) := by
  have hactive := sum_update Phase.active proc p .outside
  have hcommits := sum_update Phase.commits proc p .outside
  rw [hp] at hactive hcommits
  simp only [active_inOp, active_outside, commits_inOp,
    commits_outside, Nat.add_zero] at hactive hcommits
  have hcount := h.count
  refine ⟨?_, hcommits.trans h.committer, ?_, ?_, ?_, ?_⟩
  · change log.outstanding - 1 = _
    omega
  · intro hcommitting
    simp [h.not_committing hp] at hcommitting
  · intro _ hzero
    exact absurd hzero more
  · intro q hq
    obtain rfl | hqp := eq_or_ne q p
    · simp at hq
    · rw [update_of_ne hqp] at hq
      exact h.cleared q hq
  · intro q _
    have hpos := h.outstanding_pos hp
    exact .inl (by dsimp only; omega)

theorem commitMove {p : P} {pc : CommitPc} (hp : proc p = .inCommit pc) (pc' : CommitPc)
    (lh : List Nat) (cleared : pc' = .eraseHead ∨ pc' = .finish → lh = []) :
    Roles { log with lh := lh } (update proc p (.inCommit pc')) := by
  have hactive := sum_update Phase.active proc p (.inCommit pc')
  have hcommits := sum_update Phase.commits proc p (.inCommit pc')
  rw [hp] at hactive hcommits
  simp only [active_inCommit, commits_inCommit, Nat.add_zero,
    Nat.add_right_cancel_iff] at hactive hcommits
  refine ⟨h.count.trans (congrArg _ hactive.symm), hcommits.trans h.committer, h.exclusive, ?_, ?_, ?_⟩
  · intro hopen
    simp [h.committing_of hp] at hopen
  · intro q hq
    obtain rfl | hqp := eq_or_ne q p
    · simp only [update_self, Phase.inCommit.injEq] at hq
      exact cleared hq
    · rw [update_of_ne hqp] at hq
      rcases hq with hq | hq <;> exact absurd (h.committer_unique hq hp) hqp
  · intro q _
    exact .inr (h.committing_of hp)

theorem finish {p : P} (hp : proc p = .inCommit .finish) : Roles { log with committing := false }
      (update (fun q => State.wakePhase (proc q)) p .outside) := by
  have hactive := sum_update Phase.active (fun q => State.wakePhase (proc q)) p .outside
  have hcommits := sum_update Phase.commits (fun q => State.wakePhase (proc q)) p .outside
  simp only [active_wake, commits_wake, hp, active_inCommit,
    active_outside, commits_inCommit, commits_outside, Nat.add_zero,
    h.committer, h.committing_of hp, Bool.toNat_true] at hactive hcommits
  have hlh := h.cleared p (.inr hp)
  refine ⟨h.count.trans (congrArg _ hactive.symm), ?_, by simp, fun _ _ => hlh, fun _ _ => hlh, ?_⟩
  · change _ = 0
    omega
  · intro q hq
    obtain rfl | hqp := eq_or_ne q p
    · simp at hq
    · rw [update_of_ne hqp] at hq
      exact absurd hq wake_ne_asleep

end

end Roles

namespace Reserved

variable {P : Type} [Fintype P] {log : Log} {proc : P → Phase}

theorem init (start size : Nat) :
    Reserved { start := start, size := size } (fun _ : P => .outside) where
  distinct := List.nodup_nil
  room := by simp [Phase.reserve]
  added := by simp

theorem wakeup (h : Reserved log proc) : Reserved log fun p => State.wakePhase (proc p) where
  distinct := h.distinct
  room := by simpa using h.room
  added p op hp := h.added p op (by simpa using hp)

theorem of_lh (h : Reserved log proc) (log' : Log) (same : log'.lh = log.lh ∨ log'.lh = []) :
    Reserved log' proc := by
  rcases same with hsame | hclear
  · exact ⟨hsame ▸ h.distinct, hsame ▸ h.room, h.added⟩
  · have hroom := h.room
    refine ⟨by simp [hclear], ?_, h.added⟩
    simp only [hclear, List.length_nil]
    omega

variable [DecidableEq P]

theorem release (h : Reserved log proc) (p : P) (phase : Phase) (idle : phase.active = 0) :
    Reserved log (update proc p phase) := by
  have hreserve := sum_update Phase.reserve proc p phase
  have hroom := h.room
  rw [reserve_of_active idle] at hreserve
  refine ⟨h.distinct, by omega, ?_⟩
  intro q op hq
  obtain rfl | hqp := eq_or_ne q p
  · rw [update_self] at hq
    simp [hq] at idle
  · rw [update_of_ne hqp] at hq
    exact h.added q op hq

/-- `begin_op` counts every operation in full. -/
theorem enter (h : Reserved log proc)
    (count : log.outstanding = ((∑ p, (proc p).active : Nat) : Int))
    (room : log.lh.length + (log.outstanding + 1) * MAXOPBLOCKS ≤ LOGSIZE) (p : P) (id : Nat) :
    Reserved log (update proc p (.inOp { id := id })) := by
  have hreserve := sum_update Phase.reserve proc p (.inOp { id := id })
  have htotal : ∑ q, (proc q).reserve ≤ MAXOPBLOCKS * ∑ q, (proc q).active := by
    rw [Finset.mul_sum]
    exact Finset.sum_le_sum fun q _ => (proc q).reserve_le
  simp only [reserve_inOp, MAXOPBLOCKS] at hreserve htotal room
  refine ⟨h.distinct, by omega, ?_⟩
  intro q op hq
  obtain rfl | hqp := eq_or_ne q p
  · simp only [update_self, Phase.inOp.injEq] at hq
    simp [← hq]
  · rw [update_of_ne hqp] at hq
    exact h.added q op hq

/-- A new entry is paid for by the operation that adds it. -/
theorem logWrite (h : Reserved log proc) {p : P} {op : Op} {blockno : Nat}
    (hp : proc p = .inOp op) (few : (op.blocks.insert blockno).length ≤ MAXOPBLOCKS)
    (covered : ∀ b ∈ op.blocks, b ∈ log.lh) :
    Reserved { log with lh := if blockno ∈ log.lh then log.lh else log.lh ++ [blockno] }
      (update proc p (.inOp (op.log log blockno))) := by
  have hreserve := sum_update Phase.reserve proc p (.inOp (op.log log blockno))
  have hadded := h.added p op hp
  have hroom := h.room
  rw [hp] at hreserve
  simp only [reserve_inOp] at hreserve
  have hothers : ∀ q op', update proc p (.inOp (op.log log blockno)) q = .inOp op' →
      (op.log log blockno).added ≤ (op.blocks.insert blockno).length →
      op'.added ≤ op'.blocks.length ∧ op'.blocks.length ≤ MAXOPBLOCKS := by
    intro q op' hq hown
    obtain rfl | hqp := eq_or_ne q p
    · simp only [update_self, Phase.inOp.injEq] at hq
      subst hq
      exact ⟨hown, few⟩
    · rw [update_of_ne hqp] at hq
      exact h.added q op' hq
  by_cases hmem : blockno ∈ log.lh
  · have hlength : op.blocks.length ≤ (op.blocks.insert blockno).length :=
      (List.sublist_insert blockno op.blocks).length_le
    have hsame : (op.log log blockno).added = op.added := by simp [Op.log, hmem]
    rw [if_pos hmem]
    exact ⟨h.distinct, by simp only; omega, fun q op' hq => hothers q op' hq (by omega)⟩
  · have hnew : blockno ∉ op.blocks := fun hin => hmem (covered _ hin)
    have hlength : (op.blocks.insert blockno).length = op.blocks.length + 1 := by
      simp [List.insert, hnew]
    have hmore : (op.log log blockno).added = op.added + 1 := by simp [Op.log, hmem]
    rw [if_neg hmem]
    refine ⟨?_, ?_, fun q op' hq => hothers q op' hq (by omega)⟩
    · exact List.nodup_append.mpr ⟨h.distinct, List.nodup_singleton _, by
        intro a ha b hb
        simp only [List.mem_singleton] at hb
        rintro rfl
        exact hmem (hb ▸ ha)⟩
    · simp only [List.length_append, List.length_singleton]
      omega

end Reserved

end Xv6.Group
