import Xv6.Proc.Wait

/-! Process numbers from a 32-bit counter. -/
namespace Xv6.Machine

open Function (update update_of_ne update_self)

variable {C L K : Type} {guard : K → L}
  {g next : State C L K} {event : Event C L K} {result : Option Return} {c : C}

/-- Only allocations change slots and numbers. -/
theorem Family.Step.kept {f f' : Family} (h : f.Step f') (sound : f.Sound)
    (count : f'.count = f.count) :
    f'.uid = f.uid ∧ ∀ q, f'.life q ≠ .free → f.life q ≠ .free ∧ f'.pid q = f.pid q := by
  cases h with
  | alloc p q pid free alive => simp at count
  | die p status role alive =>
    refine ⟨rfl, fun q hq => ⟨?_, rfl⟩⟩
    by_cases hqp : q = p
    · simp [hqp, alive]
    · simpa [hqp] using hq
  | publish p np role =>
    refine ⟨rfl, fun q hq => ⟨?_, rfl⟩⟩
    by_cases hqp : q = np
    · simp [hqp, (sound.makes p np (.inr role)).2.1]
    · simpa [hqp] using hq
  | abandon p np role | reap p np child dead =>
    refine ⟨rfl, fun q hq => ?_⟩
    by_cases hqp : q = np
    · simp [hqp] at hq
    · simpa [hqp] using hq
  | _ => exact ⟨rfl, fun q hq => ⟨hq, rfl⟩⟩

/-- Numbers count allocations, modulo the size of the counter. -/
structure Numbered (g : State C L K) : Prop where
  nextpid : g.nextpid = .ofNat (g.history.count + 1)
  pid : ∀ q, g.family.life q ≠ .free → (g.proc q).pid = .ofNat (g.history.uid q + 1)

theorem At.goto (g : State C L K) (runs : (g.cpu c).runs = .process p) (pc : Pc L K) :
    At (g.goto p pc) c p pc :=
  ⟨runs, update_self ..⟩

variable [DecidableEq C] [DecidableEq L] [DecidableEq K]

theorem Numbered.step (h : Numbered g) (sound : g.family.Sound) (family : g.family.Step next.family)
    (hstep : Step guard g event next result) : Numbered next := by
  have hkeep (nextpid : next.nextpid = g.nextpid) (count : next.history.count = g.history.count) :
      Numbered next := by
    obtain ⟨huid, hpid⟩ := family.kept sound count
    refine ⟨by rw [nextpid, count, h.nextpid], fun q hq => ?_⟩
    obtain ⟨hused, heq⟩ := hpid q hq
    have huid : next.history.uid = g.history.uid := huid
    rw [huid, ← h.pid q hused]
    exact heq
  cases hstep with
  | allocFound c p q here lock unused =>
    rw [State.allocproc, if_pos unused]
    refine ⟨?_, fun r hr => ?_⟩
    · simp [h.nextpid]
    · obtain rfl | hrq := eq_or_ne r q
      · simp [State.goto, State.setThread, State.setProc, h.nextpid]
      · simp only [State.family, State.goto, State.setThread, State.setProc, update_of_ne hrq] at hr ⊢
        exact h.pid r hr
  | _ => exact hkeep rfl rfl

theorem numbered_of_reachable (h : State.Reachable guard g) : Numbered g := by
  induction h with
  | boot =>
    refine ⟨rfl, fun q hq => ?_⟩
    have hinit : q = initproc := by
      by_contra hne
      exact hq (boot_life q hne)
    rw [hinit]
    rfl
  | step hreach _ hstep ih =>
    obtain ⟨sit, hsit⟩ := exists_situated hreach
    have hstep := step_of_event hstep
    exact ih.step (family_of_reachable hreach).1 (hsit.family hstep) hstep

theorem ProcState.life_free {s : ProcState} : s.life = .free ↔ s = .unused := by
  cases s <;> simp [ProcState.life]

/-- Until the counter overflows, numbers differ and are positive. -/
theorem pid_identifies (h : State.Reachable guard g) (hcount : g.history.count < 2 ^ 31) :
    (∀ p q, (g.proc p).state ≠ .unused → (g.proc q).state ≠ .unused →
      (g.proc p).pid = (g.proc q).pid → p = q) ∧
    ∀ p, (g.proc p).state ≠ .unused → 0 < (g.proc p).pid.toBitVec.toInt := by
  have hnum := numbered_of_reachable h
  have hrec := (family_of_reachable h).2
  have hlife (p) (hp : (g.proc p).state ≠ .unused) : g.family.life p ≠ .free :=
    fun hfree => hp (ProcState.life_free.mp hfree)
  have hpid (p) (hp : (g.proc p).state ≠ .unused) :
      (g.proc p).pid.toNat = g.history.uid p + 1 ∧ g.history.uid p + 1 < 2 ^ 31 := by
    have hlt : g.history.uid p < g.history.count := hrec.uid_lt p (hlife p hp)
    rw [hnum.pid p (hlife p hp), UInt32.toNat_ofNat_of_lt' (by simp [UInt32.size]; omega)]
    omega
  refine ⟨fun p q hp hq heq => hrec.uid_inj p q (hlife p hp) (hlife q hq) ?_, fun p hp => ?_⟩
  · have hsame := congrArg UInt32.toNat heq
    rw [(hpid p hp).1, (hpid q hq).1] at hsame
    exact Nat.succ.inj hsame
  · obtain ⟨heq, hlt⟩ := hpid p hp
    have hsigned : (g.proc p).pid.toBitVec.toInt = (g.proc p).pid.toNat :=
      BitVec.toInt_eq_toNat_of_lt (by rw [UInt32.toNat_toBitVec]; omega)
    omega

theorem pid_identifies_fork : ∃ g : State Unit Unit Unit, State.Reachable id g ∧
    (g.proc 1).state = .used ∧ (g.proc initproc).pid ≠ (g.proc 1).pid := by
  have hrun : (State.boot : State Unit Unit Unit).run id
      [.schedule () 0, .run () .next, .run () .fork, .run () .next, .run () .next] = some _ := rfl
  have h := pid_identifies (.of_run hrun) (by decide)
  exact ⟨_, .of_run hrun, rfl, fun heq => absurd (h.1 initproc 1 nofun nofun heq) nofun⟩

section Overflow

variable {p q : Slot}

theorem initproc_ne_one : initproc ≠ 1 := by decide

theorem step_fork (here : At g c p (.kernel [])) :
    g.step guard (.run c .fork) = some (g.goto p (.allocproc 0), none) := by
  simp [State.step, here.runs, State.exec, here.thread]

theorem step_allocBusy (here : At g c p (.allocproc q.val)) (lock : (g.proc q).lock = none)
    (used : (g.proc q).state ≠ .unused) :
    g.step guard (.run c .next) = some (g.goto p (.allocproc (q.val + 1)), none) := by
  simp [State.step, here.runs, State.exec, here.thread, lock, State.allocproc, used]

variable (guard) in
theorem step_allocFound (here : At g c p (.allocproc q.val)) (free : g.proc q = {}) :
    ∃ next, g.step guard (.run c .next) = some (next, none) ∧ At next c p (.forkCopy q) ∧
      next.nextpid = g.nextpid + 1 ∧
      next.proc = update g.proc q { state := .used, pid := g.nextpid, lock := some c } := by
  refine ⟨g.allocproc c p q q.val, by simp [State.step, here.runs, State.exec, here.thread, free], ?_⟩
  rw [State.allocproc, if_pos (by rw [free])]
  refine ⟨⟨here.runs, update_self ..⟩, rfl, ?_⟩
  simp [State.goto, State.setThread, State.setProc, free]

theorem step_noMemory (here : At g c p (.forkCopy q)) :
    g.step guard (.run c .noMemory) =
      some ((g.setProc q { (g.proc q).free with lock := none }).goto p (.kernel []),
        some (.fork none)) := by
  simp [State.step, here.runs, State.exec, here.thread]

/-- The first process is in the kernel and the second slot is free. -/
structure Ready (guard : K → L) (g : State C L K) (c : C) : Prop where
  reachable : State.Reachable guard g
  here : At g c initproc (.kernel [])
  used : (g.proc initproc).state ≠ .unused
  lock : (g.proc initproc).lock = none
  pid : (g.proc initproc).pid = 1
  free : g.proc 1 = {}

theorem Ready.allocates (h : Ready guard g c) : ∃ next, State.Reachable guard next ∧
    At next c initproc (.forkCopy 1) ∧ next.nextpid = g.nextpid + 1 ∧
    next.proc = update g.proc 1 { state := .used, pid := g.nextpid, lock := some c } := by
  have hfork := h.reachable.step trivial (step_fork h.here)
  have hbusy := hfork.step trivial
    (step_allocBusy (q := initproc) (.goto _ h.here.runs _) h.lock h.used)
  have hat := At.goto (g.goto initproc (.allocproc 0)) h.here.runs (.allocproc 1)
  obtain ⟨next, hstep, hnext⟩ := step_allocFound guard (q := 1) hat h.free
  exact ⟨next, hbusy.step trivial hstep, hnext⟩

theorem Ready.again (h : Ready guard g c) :
    ∃ next, Ready guard next c ∧ next.nextpid = g.nextpid + 1 := by
  obtain ⟨next, hreach, hat, hnext, hproc⟩ := h.allocates
  have hat' := At.goto (next.setProc 1 { (next.proc 1).free with lock := none }) hat.runs (.kernel [])
  have hinit : ((next.setProc 1 { (next.proc 1).free with lock := none }).goto initproc
      (.kernel [])).proc initproc = g.proc initproc := by
    simp only [State.goto, State.setThread, State.setProc, hproc, update_of_ne initproc_ne_one]
  refine ⟨_, ⟨hreach.step trivial (step_noMemory hat), hat', ?_, ?_, ?_, ?_⟩, hnext⟩
  · rw [hinit]
    exact h.used
  · rw [hinit]
    exact h.lock
  · rw [hinit]
    exact h.pid
  · simp [State.goto, State.setThread, State.setProc, Proc.free]

theorem exists_ready (n : Nat) :
    ∃ g : State Unit Unit Unit, Ready id g () ∧ g.nextpid = 2 + .ofNat n := by
  induction n with
  | zero =>
    have hrun : (State.boot : State Unit Unit Unit).run id [.schedule () 0, .run () .next] =
      some _ := rfl
    exact ⟨_, ⟨.of_run hrun, ⟨rfl, rfl⟩, nofun, rfl, rfl, rfl⟩, rfl⟩
  | succ n ih =>
    obtain ⟨g, hready, hnext⟩ := ih
    obtain ⟨next, hnext'⟩ := hready.again
    refine ⟨next, hnext'.1, ?_⟩
    rw [hnext'.2, hnext, UInt32.ofNat_add, UInt32.add_assoc]
    rfl

theorem exists_pid (pid : UInt32) : ∃ g : State Unit Unit Unit, State.Reachable id g ∧
    (g.proc initproc).state ≠ .unused ∧ (g.proc initproc).pid = 1 ∧
    (g.proc 1).state ≠ .unused ∧ (g.proc 1).pid = pid := by
  obtain ⟨g, hready, hnext⟩ := exists_ready (pid - 2).toNat
  obtain ⟨next, hreach, -, -, hproc⟩ := hready.allocates
  refine ⟨next, hreach, ?_⟩
  rw [hproc]
  refine ⟨?_, ?_, ?_, ?_⟩
  · rw [update_of_ne initproc_ne_one]
    exact hready.used
  · rw [update_of_ne initproc_ne_one]
    exact hready.pid
  · simp
  · rw [update_self, hnext, UInt32.ofNat_toNat, UInt32.add_comm, UInt32.sub_add_cancel]

/-- The counter returns to numbers in use. -/
theorem pid_overflow :
    (∃ g : State Unit Unit Unit, State.Reachable id g ∧ (g.proc initproc).state ≠ .unused ∧
      (g.proc 1).state ≠ .unused ∧ (g.proc initproc).pid = (g.proc 1).pid) ∧
    (∃ g : State Unit Unit Unit, State.Reachable id g ∧ (g.proc 1).state ≠ .unused ∧
      (g.proc 1).pid = 0) ∧
    ∃ g : State Unit Unit Unit, State.Reachable id g ∧ (g.proc 1).state ≠ .unused ∧
      (g.proc 1).pid.toBitVec.toInt < 0 := by
  obtain ⟨g, hreach, hused, hpid, hused', hpid'⟩ := exists_pid 1
  obtain ⟨g₀, hreach₀, -, -, hused₀, hpid₀⟩ := exists_pid 0
  obtain ⟨g₁, hreach₁, -, -, hused₁, hpid₁⟩ := exists_pid (2 ^ 31)
  exact ⟨⟨g, hreach, hused, hused', hpid.trans hpid'.symm⟩, ⟨g₀, hreach₀, hused₀, hpid₀⟩,
    ⟨g₁, hreach₁, hused₁, by rw [hpid₁]; decide⟩⟩

end Overflow

end Xv6.Machine
