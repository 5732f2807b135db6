import Xv6.Log.GroupInvariant

/-! Safety of group commit over every schedule. -/
namespace Xv6.Group

open Function

namespace CommitPc

def installing : CommitPc → Bool
  | .installTrans _ | .clear => true
  | _ => false

def afterHead : CommitPc → Bool
  | .writeLog _ | .writeHead => false
  | _ => true

end CommitPc

variable {P : Type}

/-- Operations are numbered as they are admitted, so transactions have disjoint ranges of them. -/
structure History (g : State P) : Prop where
  covered : ∀ p op, g.proc p = .inOp op → ∀ b ∈ op.blocks, b ∈ g.store.log.lh
  synced : (∀ p pc, g.proc p = .inCommit pc → pc.installing = false) →
    ∀ b, b ∈ g.store.log.lh ↔ ∃ id, (id, b) ∈ g.pending
  drained : ∀ p pc, g.proc p = .inCommit pc → pc.afterHead = true → g.pending = []
  range : ∃ first ≤ g.nextOp,
    (∀ t ∈ g.committed, ∀ w ∈ t.writes, w.1 < first) ∧
    (∀ w ∈ g.pending, first ≤ w.1 ∧ w.1 < g.nextOp) ∧
    ∀ p op, g.proc p = .inOp op → first ≤ op.id ∧ op.id < g.nextOp
  ordered : g.committed.Pairwise fun t u => ∀ w ∈ t.writes, ∀ v ∈ u.writes, w.1 < v.1
  headers : ∀ t ∈ g.committed, ∀ b, b ∈ t.header ↔ ∃ id, (id, b) ∈ t.writes

namespace History

variable {g : State P}

theorem init (store : Store) (start size : Nat) :
    History (State.init store start size : State P) where
  covered := by simp [State.init]
  synced := by simp [State.init]
  drained := by simp [State.init]
  range := ⟨0, by simp [State.init]⟩
  ordered := by simp [State.init]
  headers := by simp [State.init]

/-- A step that logs and commits nothing and admits no operation. -/
theorem move (h : History g) (p : P) {next : State P}
    (lh : next.store.log.lh = g.store.log.lh) (nextOp : next.nextOp = g.nextOp)
    (pending : next.pending = g.pending) (committed : next.committed = g.committed)
    (others : ∀ q, q ≠ p → next.proc q = g.proc q ∨ next.proc q = State.wakePhase (g.proc q))
    (noOp : ∀ op, next.proc p ≠ .inOp op)
    (stay : ∀ pc, g.proc p = .inCommit pc → pc.installing = true →
      ∃ pc', next.proc p = .inCommit pc' ∧ pc'.installing = true)
    (after : ∀ pc, next.proc p = .inCommit pc → pc.afterHead = true → g.pending = []) :
    History next := by
  have hops : ∀ q op, next.proc q = .inOp op → g.proc q = .inOp op := by
    intro q op hq
    obtain rfl | hqp := eq_or_ne q p
    · exact absurd hq (noOp op)
    · rcases others q hqp with hsame | hwoken
      · exact hsame ▸ hq
      · simpa [hwoken] using hq
  refine ⟨?_, ?_, ?_, ?_, committed ▸ h.ordered, committed ▸ h.headers⟩
  · intro q op hq b hb
    exact lh ▸ h.covered q op (hops q op hq) b hb
  · intro hpcs b
    rw [lh, pending]
    apply h.synced
    intro q pc hq
    by_contra hpc
    obtain rfl | hqp := eq_or_ne q p
    · obtain ⟨pc', hnext, hpc'⟩ := stay pc hq (by simpa using hpc)
      simp [hpcs q pc' hnext] at hpc'
    · refine hpc (hpcs q pc ?_)
      rcases others q hqp with hsame | hwoken
      · exact hsame.trans hq
      · simpa [hwoken] using hq
  · intro q pc hq hafter
    rw [pending]
    obtain rfl | hqp := eq_or_ne q p
    · exact after pc hq hafter
    · refine h.drained q pc ?_ hafter
      rcases others q hqp with hsame | hwoken
      · exact hsame ▸ hq
      · simpa [hwoken] using hq
  · obtain ⟨first, hle, hcommitted, hpending, hrange⟩ := h.range
    rw [nextOp, pending, committed]
    exact ⟨first, hle, hcommitted, hpending, fun q op hq => hrange q op (hops q op hq)⟩

variable [DecidableEq P]

theorem enter (h : History g) (p : P) (log : Log) (lh : log.lh = g.store.log.lh)
    (idle : ∀ pc, g.proc p ≠ .inCommit pc) :
    History { (g.setLog log).setProc p (.inOp { id := g.nextOp }) with
      nextOp := g.nextOp + 1 } := by
  have hpcs : ∀ q pc, update g.proc p (.inOp { id := g.nextOp }) q = .inCommit pc ↔
      g.proc q = .inCommit pc := by
    intro q pc
    obtain rfl | hqp := eq_or_ne q p
    · simp [idle pc]
    · rw [update_of_ne hqp]
  refine ⟨?_, ?_, ?_, ?_, h.ordered, h.headers⟩
  · intro q op hq b hb
    obtain rfl | hqp := eq_or_ne q p
    · simp only [State.setProc, update_self, Phase.inOp.injEq] at hq
      simp [← hq] at hb
    · simp only [State.setProc, State.setLog, update_of_ne hqp] at hq
      exact lh ▸ h.covered q op hq b hb
  · intro hnext b
    have hsynced := h.synced (fun q pc hq => hnext q pc ((hpcs q pc).mpr hq)) b
    simpa [State.setProc, State.setLog, lh] using hsynced
  · intro q pc hq hafter
    exact h.drained q pc ((hpcs q pc).mp hq) hafter
  · obtain ⟨first, hle, hcommitted, hpending, hrange⟩ := h.range
    refine ⟨first, by simp only; omega, hcommitted, ?_, ?_⟩
    · intro w hw
      have hw' := hpending w hw
      exact ⟨hw'.1, Nat.lt_succ_of_lt hw'.2⟩
    · intro q op hq
      obtain rfl | hqp := eq_or_ne q p
      · simp only [State.setProc, update_self, Phase.inOp.injEq] at hq
        simp only [← hq]
        omega
      · simp only [State.setProc, State.setLog, update_of_ne hqp] at hq
        have hq' := hrange q op hq
        exact ⟨hq'.1, Nat.lt_succ_of_lt hq'.2⟩

theorem logWrite (h : History g) {p : P} {op : Op} (hp : g.proc p = .inOp op)
    (idle : ∀ q pc, g.proc q ≠ .inCommit pc) (blockno : Nat) (data : Block) :
    History { g with
      store := { g.store.setData blockno data with
        log := { g.store.log with
          lh := if blockno ∈ g.store.log.lh then g.store.log.lh
            else g.store.log.lh ++ [blockno] } }
      proc := update g.proc p (.inOp (op.log g.store.log blockno))
      pending := g.pending ++ [(op.id, blockno)] } := by
  have hlh : ∀ b, b ∈ (if blockno ∈ g.store.log.lh then g.store.log.lh
      else g.store.log.lh ++ [blockno]) ↔ b ∈ g.store.log.lh ∨ b = blockno := by
    intro b
    split
    · rename_i hmem
      constructor
      · exact .inl
      · rintro (hb | rfl)
        · exact hb
        · exact hmem
    · simp
  have hnone : ∀ q pc, update g.proc p (.inOp (op.log g.store.log blockno)) q ≠
      .inCommit pc := by
    intro q pc hq
    obtain rfl | hqp := eq_or_ne q p
    · simp at hq
    · rw [update_of_ne hqp] at hq
      exact idle q pc hq
  refine ⟨?_, ?_, fun q pc hq => absurd hq (hnone q pc), ?_, h.ordered, h.headers⟩
  · intro q op' hq b hb
    refine (hlh b).mpr ?_
    obtain rfl | hqp := eq_or_ne q p
    · simp only [update_self, Phase.inOp.injEq] at hq
      simp only [← hq, Op.log, List.mem_insert_iff] at hb
      rcases hb with rfl | hb
      · exact .inr rfl
      · exact .inl (h.covered q op hp b hb)
    · simp only [update_of_ne hqp] at hq
      exact .inl (h.covered q op' hq b hb)
  · intro _ b
    have hsynced := h.synced (fun q pc hq => absurd hq (idle q pc)) b
    simp only [hlh, hsynced, List.mem_append, List.mem_singleton, Prod.mk.injEq]
    constructor
    · rintro (⟨id, hid⟩ | rfl)
      · exact ⟨id, .inl hid⟩
      · exact ⟨op.id, .inr ⟨rfl, rfl⟩⟩
    · rintro ⟨id, hid | ⟨_, rfl⟩⟩
      · exact .inl ⟨id, hid⟩
      · exact .inr rfl
  · obtain ⟨first, hle, hcommitted, hpending, hrange⟩ := h.range
    refine ⟨first, hle, hcommitted, ?_, ?_⟩
    · intro w hw
      rcases List.mem_append.mp hw with hw | hw
      · exact hpending w hw
      · simp only [List.mem_singleton] at hw
        subst hw
        exact hrange p op hp
    · intro q op' hq
      obtain rfl | hqp := eq_or_ne q p
      · simp only [update_self, Phase.inOp.injEq] at hq
        simp only [← hq, Op.log]
        exact hrange q op hp
      · simp only [update_of_ne hqp] at hq
        exact hrange q op' hq

/-- The commit point closes the transaction and its operation numbers. -/
theorem writeHead (h : History g) {p : P} (hp : g.proc p = .inCommit .writeHead)
    (unique : ∀ q pc, g.proc q = .inCommit pc → q = p) (noOp : ∀ q op, g.proc q ≠ .inOp op) :
    History (g.commitStep p .writeHead) := by
  have hops : ∀ q op, update g.proc p (.inCommit (.installTrans 0)) q ≠ .inOp op := by
    intro q op hq
    obtain rfl | hqp := eq_or_ne q p
    · simp at hq
    · rw [update_of_ne hqp] at hq
      exact noOp q op hq
  have hsynced := h.synced fun q pc hq => by
    obtain rfl := unique q pc hq
    obtain rfl : pc = .writeHead := by simpa using hq.symm.trans hp
    rfl
  obtain ⟨first, hle, hcommitted, hpending, hrange⟩ := h.range
  refine ⟨fun q op hq => absurd hq (hops q op), ?_, fun _ _ _ _ => rfl, ?_, ?_, ?_⟩
  · intro hpcs
    have hinstalling := hpcs p (.installTrans 0) (update_self _ _ _)
    simp [CommitPc.installing] at hinstalling
  · refine ⟨g.nextOp, Nat.le_refl _, ?_, by simp [State.commitStep], fun q op hq =>
      absurd hq (hops q op)⟩
    intro t ht w hw
    simp only [State.commitStep, List.mem_append, List.mem_singleton] at ht
    rcases ht with ht | rfl
    · exact Nat.lt_of_lt_of_le (hcommitted t ht w hw) hle
    · exact (hpending w hw).2
  · simp only [State.commitStep, List.pairwise_append, List.pairwise_cons, List.mem_singleton]
    refine ⟨h.ordered, by simp, ?_⟩
    rintro t ht u rfl w hw v hv
    exact Nat.lt_of_lt_of_le (hcommitted t ht w hw) (hpending v hv).1
  · intro t ht
    simp only [State.commitStep, List.mem_append, List.mem_singleton] at ht
    rcases ht with ht | rfl
    · exact h.headers t ht
    · exact hsynced

theorem clear (h : History g) {p : P} (hp : g.proc p = .inCommit .clear)
    (unique : ∀ q pc, g.proc q = .inCommit pc → q = p) (noOp : ∀ q op, g.proc q ≠ .inOp op) :
    History (g.commitStep p .clear) := by
  have hpending := h.drained p .clear hp rfl
  have hops : ∀ q op, update g.proc p (.inCommit .eraseHead) q ≠ .inOp op := by
    intro q op hq
    obtain rfl | hqp := eq_or_ne q p
    · simp at hq
    · rw [update_of_ne hqp] at hq
      exact noOp q op hq
  refine ⟨fun q op hq => absurd hq (hops q op), ?_, fun _ _ _ _ => hpending, ?_, h.ordered,
    h.headers⟩
  · intro _ b
    simp [State.commitStep, State.setProc, State.setLog, hpending]
  · obtain ⟨first, hle, hcommitted, hrange, _⟩ := h.range
    exact ⟨first, hle, hcommitted, hrange, fun q op hq => absurd hq (hops q op)⟩

end History

structure Inv [Fintype P] (g : State P) : Prop where
  roles : Roles g.store.log g.proc
  reserved : Reserved g.store.log g.proc
  history : History g

namespace Inv

variable [Fintype P] {g : State P}

theorem init (store : Store) (start size : Nat) :
    Inv (State.init store start size : State P) where
  roles := Roles.init start size
  reserved := Reserved.init start size
  history := History.init store start size

theorem no_op_of_commit (h : Inv g) {p : P} {pc : CommitPc} (hp : g.proc p = .inCommit pc) :
    ∀ q op, g.proc q ≠ .inOp op := by
  intro q op hq
  have hopen := h.roles.not_committing hq
  simp [h.roles.committing_of hp] at hopen

theorem no_commit_of_op (h : Inv g) {p : P} {op : Op} (hp : g.proc p = .inOp op) :
    ∀ q pc, g.proc q ≠ .inCommit pc :=
  fun _ _ hq => h.no_op_of_commit hq p op hp

variable [DecidableEq P]

theorem commitStep (h : Inv g) {p : P} {pc : CommitPc} (hp : g.proc p = .inCommit pc) :
    Inv (g.commitStep p pc) := by
  have hunique : ∀ q pc', g.proc q = .inCommit pc' → q = p := fun q pc' hq =>
    h.roles.committer_unique hq hp
  have hothers : ∀ phase q, q ≠ p → update g.proc p phase q = g.proc q ∨
      update g.proc p phase q = State.wakePhase (g.proc q) := fun phase q hqp =>
    .inl (update_of_ne hqp _ _)
  have hmove : ∀ pc', (pc' = .eraseHead ∨ pc' = .finish → g.store.log.lh = []) →
      Roles g.store.log (update g.proc p (.inCommit pc')) ∧
        Reserved g.store.log (update g.proc p (.inCommit pc')) := fun pc' hcleared =>
    ⟨h.roles.commitMove hp pc' g.store.log.lh hcleared, h.reserved.release p _ rfl⟩
  cases pc with
  | writeLog tail =>
    simp only [State.commitStep]
    split
    · obtain ⟨hroles, hreserved⟩ := hmove (.writeLog (tail + 1)) (by simp)
      refine ⟨hroles, hreserved, ?_⟩
      refine h.history.move p rfl rfl rfl rfl (hothers _) ?_ ?_ ?_ <;>
        simp [State.setProc, hp, CommitPc.installing, CommitPc.afterHead]
    · obtain ⟨hroles, hreserved⟩ := hmove .writeHead (by simp)
      refine ⟨hroles, hreserved, ?_⟩
      refine h.history.move p rfl rfl rfl rfl (hothers _) ?_ ?_ ?_ <;>
        simp [State.setProc, hp, CommitPc.installing, CommitPc.afterHead]
  | writeHead =>
    obtain ⟨hroles, hreserved⟩ := hmove (.installTrans 0) (by simp)
    exact ⟨hroles, hreserved, h.history.writeHead hp hunique (h.no_op_of_commit hp)⟩
  | installTrans tail =>
    have hdrained := h.history.drained p _ hp rfl
    simp only [State.commitStep]
    split
    · obtain ⟨hroles, hreserved⟩ := hmove (.installTrans (tail + 1)) (by simp)
      refine ⟨hroles, hreserved, ?_⟩
      refine h.history.move p rfl rfl rfl rfl (hothers _) ?_ ?_ ?_ <;>
        simp [State.setProc, CommitPc.installing, hdrained]
    · obtain ⟨hroles, hreserved⟩ := hmove .clear (by simp)
      refine ⟨hroles, hreserved, ?_⟩
      refine h.history.move p rfl rfl rfl rfl (hothers _) ?_ ?_ ?_ <;>
        simp [State.setProc, CommitPc.installing, hdrained]
  | clear =>
    have hroles := h.roles.commitMove hp .eraseHead [] fun _ => rfl
    have hreserved := Reserved.of_lh (h.reserved.release p (.inCommit .eraseHead) rfl)
      { g.store.log with lh := [] } (.inr rfl)
    exact ⟨hroles, hreserved, h.history.clear hp hunique (h.no_op_of_commit hp)⟩
  | eraseHead =>
    have hlh := h.roles.cleared p (.inl hp)
    obtain ⟨hroles, hreserved⟩ := hmove .finish fun _ => hlh
    refine ⟨hroles, hreserved, ?_⟩
    refine h.history.move p rfl rfl rfl rfl (hothers _) ?_ ?_ ?_ <;>
      simp [State.commitStep, State.setProc, hp, CommitPc.installing,
        h.history.drained p _ hp rfl]
  | finish =>
    have hreserved := (h.reserved.wakeup.release p .outside rfl).of_lh
      { g.store.log with committing := false } (.inl rfl)
    refine ⟨h.roles.finish hp, hreserved, ?_⟩
    refine h.history.move p rfl rfl rfl rfl ?_ ?_ ?_ ?_
    · intro q hqp
      exact .inr (update_of_ne hqp _ _)
    all_goals simp [State.commitStep, State.setProc, hp, CommitPc.installing]

theorem step (h : Inv g) {next : State P} (hstep : Step g next) : Inv next := by
  cases hstep with
  | wait p idle full =>
    refine ⟨h.roles.wait idle full, h.reserved.release p _ rfl, ?_⟩
    refine h.history.move p rfl rfl rfl rfl ?_ ?_ ?_ ?_
    · exact fun q hqp => .inl (update_of_ne hqp _ _)
    · simp [State.setProc]
    · intro pc hpc
      rcases idle with hidle | hidle <;> simp [hidle] at hpc
    · simp [State.setProc]
  | enter p idle open' room =>
    refine ⟨h.roles.enter idle open' _, ?_, ?_⟩
    · exact (h.reserved.enter h.roles.count room p g.nextOp).of_lh _ (.inl rfl)
    · refine h.history.enter p { g.store.log with
        outstanding := g.store.log.outstanding + 1 } rfl ?_
      intro pc hpc
      rcases idle with hidle | hidle <;> simp [hidle] at hpc
  | logWrite p op blockno data lh inOp few room entry =>
    subst entry
    refine ⟨h.roles.logWrite inOp _ _, ?_, ?_⟩
    · exact h.reserved.logWrite inOp few (h.history.covered p op inOp)
    · exact h.history.logWrite inOp (h.no_commit_of_op inOp) blockno data
  | lastEnd p op inOp open' last =>
    have hnone := h.no_commit_of_op inOp
    have hpc : ∀ pc, (if g.store.log.lh.length > 0 then CommitPc.writeLog 0
        else CommitPc.finish) = pc → pc = .eraseHead ∨ pc.afterHead = true →
        g.store.log.lh = [] := by
      intro pc hpc hpast
      split at hpc
      · subst hpc
        simp [CommitPc.afterHead] at hpast
      · rename_i hempty
        exact List.length_eq_zero_iff.mp (by omega)
    refine ⟨h.roles.lastEnd inOp last _ ?_, ?_, ?_⟩
    · rintro (hpast | hpast)
      · exact hpc _ rfl (.inl hpast)
      · exact hpc _ rfl (.inr (by rw [hpast]; rfl))
    · exact (h.reserved.release p _ rfl).of_lh _ (.inl rfl)
    · refine h.history.move p rfl rfl rfl rfl ?_ ?_ ?_ ?_
      · exact fun q hqp => .inl (update_of_ne hqp _ _)
      · simp [State.setProc]
      · intro pc hq
        exact absurd hq (hnone p pc)
      · intro pc hq hafter
        simp only [State.setProc, update_self, Phase.inCommit.injEq] at hq
        have hlh := hpc pc hq (.inr hafter)
        have hsynced := h.history.synced fun q pc' hq' => absurd hq' (hnone q pc')
        rw [hlh] at hsynced
        apply List.eq_nil_iff_forall_not_mem.mpr
        intro w hw
        exact absurd ((hsynced w.2).mpr ⟨w.1, hw⟩) List.not_mem_nil
  | innerEnd p op inOp open' more =>
    have hroles : Roles { g.store.log with outstanding := g.store.log.outstanding - 1 }
        (update (fun q => State.wakePhase (g.proc q)) p .outside) := by
      have hwoken := (h.roles.innerEnd inOp more).wakeup
      have hproc : (fun q => State.wakePhase (update g.proc p .outside q)) =
          update (fun q => State.wakePhase (g.proc q)) p .outside := by
        funext q
        obtain rfl | hqp := eq_or_ne q p
        · simp [State.wakePhase]
        · simp [hqp]
      rwa [hproc] at hwoken
    refine ⟨hroles, (h.reserved.wakeup.release p _ rfl).of_lh _ (.inl rfl), ?_⟩
    refine h.history.move p rfl rfl rfl rfl ?_ ?_ ?_ ?_
    · exact fun q hqp => .inr (update_of_ne hqp _ _)
    · simp [State.setProc]
    · intro pc hq
      exact absurd hq (h.no_commit_of_op inOp p pc)
    · simp [State.setProc]
  | commit p pc inCommit => exact h.commitStep inCommit

theorem of_reachable {initial : State P} (hinit : Inv initial)
    (hreach : State.Reachable initial g) : Inv g := by
  induction hreach with
  | refl => exact hinit
  | step _ hstep ih => exact ih.step (step_of_event hstep)

end Inv

end Xv6.Group
