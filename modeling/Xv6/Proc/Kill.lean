import Xv6.Proc.Scheduling

/-! What `kill` reaches. Free slots have number 0, and `allocproc` does not clear `p->killed`. -/
namespace Xv6.Machine

open Function (update update_eq_self update_of_ne update_self)

variable {C L K : Type}

def Event.NotKillZero (event : Event C L K) : Prop := ∀ c, event ≠ .run c (.kill 0)

variable {guard : K → L} {g next : State C L K} {event : Event C L K} {result : Option Return}
  {act : Act L K} {sit : Slot → Situation C} {c : C} {p q : Slot} {pc pc' : Pc L K}
  {x : Proc C K} {t : Thread L K}

structure Marked (g : State C L K) : Prop where
  unused : ∀ q, (g.proc q).state = .unused → (g.proc q).pid = 0 ∧ (g.proc q).killed = false
  /-- A new process is marked only by a `kill` of its own. -/
  struck : ∀ q, (g.proc q).state ≠ .unused → (g.thread q).pc = .forkret →
    (g.proc q).killed = true → g.history.struck q = true
  kills : ∀ p i, (g.thread p).pc ≠ .kill 0 i

/-- Nothing of interest to `kill` changes. -/
structure Proc.Like (x y : Proc C K) : Prop where
  pid : y.pid = x.pid
  killed : y.killed = x.killed
  unused : y.state = .unused ↔ x.state = .unused

theorem Proc.Like.refl (x : Proc C K) : x.Like x := ⟨rfl, rfl, Iff.rfl⟩

theorem Proc.Like.of_ne {x y : Proc C K} (pid : y.pid = x.pid) (killed : y.killed = x.killed)
    (hx : x.state ≠ .unused) (hy : y.state ≠ .unused) : x.Like y :=
  ⟨pid, killed, iff_of_false hy hx⟩

namespace Marked

theorem mark (h : Marked g) (hproc : next.proc = update g.proc q x)
    (hstruck : ∀ r, r ≠ q → next.history.struck r = g.history.struck r)
    (clean : x.state = .unused → x.pid = 0 ∧ x.killed = false)
    (marked : x.state ≠ .unused → (next.thread q).pc = .forkret → x.killed = true →
      next.history.struck q = true)
    (forkret : ∀ r, r ≠ q → (next.thread r).pc = .forkret → (g.thread r).pc = .forkret)
    (kills : ∀ r i, (next.thread r).pc ≠ .kill 0 i) : Marked next := by
  refine ⟨fun r hr => ?_, fun r hr hpc hkilled => ?_, kills⟩
  · rw [hproc] at hr ⊢
    obtain rfl | hrq := eq_or_ne r q
    · rw [update_self] at hr ⊢
      exact clean hr
    · rw [update_of_ne hrq] at hr ⊢
      exact h.unused r hr
  · rw [hproc] at hr hkilled
    obtain rfl | hrq := eq_or_ne r q
    · rw [update_self] at hr hkilled
      exact marked hr hpc hkilled
    · rw [update_of_ne hrq] at hr hkilled
      rw [hstruck r hrq]
      exact h.struck r hr (forkret r hrq hpc) hkilled

theorem change (h : Marked g) (hproc : next.proc = update g.proc q x)
    (hthread : next.thread = update g.thread p t)
    (hstruck : next.history.struck = g.history.struck)
    (clean : x.state = .unused → x.pid = 0 ∧ x.killed = false)
    (marked : x.state ≠ .unused → x.killed = true →
      (g.proc q).state ≠ .unused ∧ (g.proc q).killed = true)
    (forkret : t.pc = .forkret → (g.thread p).pc = .forkret) (kills : ∀ i, t.pc ≠ .kill 0 i) :
    Marked next := by
  have hforkret : ∀ r, (next.thread r).pc = .forkret → (g.thread r).pc = .forkret := by
    intro r hr
    rw [hthread] at hr
    obtain rfl | hrp := eq_or_ne r p
    · rw [update_self] at hr
      exact forkret hr
    · rwa [update_of_ne hrp] at hr
  refine h.mark hproc (fun r _ => congrFun hstruck r) clean (fun hx hpc hkilled => ?_)
    (fun r _ => hforkret r) fun r i => ?_
  · obtain ⟨hused, hold⟩ := marked hx hkilled
    rw [hstruck]
    exact h.struck q hused (hforkret q hpc) hold
  · rw [hthread]
    obtain rfl | hrp := eq_or_ne r p
    · rw [update_self]
      exact kills i
    · rw [update_of_ne hrp]
      exact h.kills r i

theorem like (h : Marked g) (hproc : next.proc = update g.proc q x)
    (hthread : next.thread = update g.thread p t)
    (hstruck : next.history.struck = g.history.struck) (hlike : (g.proc q).Like x)
    (forkret : t.pc = .forkret → (g.thread p).pc = .forkret) (kills : ∀ i, t.pc ≠ .kill 0 i) :
    Marked next := by
  refine h.change hproc hthread hstruck ?_ ?_ forkret kills
  · intro hx
    rw [hlike.pid, hlike.killed]
    exact h.unused q (hlike.unused.mp hx)
  · intro hx hkilled
    exact ⟨fun hq => hx (hlike.unused.mpr hq), hlike.killed ▸ hkilled⟩

theorem goto (h : Marked g) (hproc : next.proc = g.proc)
    (hthread : next.thread = update g.thread p { pc := pc' })
    (hstruck : next.history.struck = g.history.struck) (forkret : pc' ≠ .forkret)
    (kills : ∀ i, pc' ≠ .kill 0 i) : Marked next :=
  h.like (q := p) (hproc.trans (update_eq_self p g.proc).symm) hthread hstruck
    (Proc.Like.refl _) (fun hpc => absurd hpc forkret) kills

theorem setProc (h : Marked g) (hproc : next.proc = update g.proc q x)
    (hthread : next.thread = g.thread) (hstruck : next.history.struck = g.history.struck)
    (hlike : (g.proc q).Like x) : Marked next :=
  h.like (p := q) hproc (hthread.trans (update_eq_self q g.thread).symm) hstruck hlike id
    (h.kills q)

theorem killHit (h : Marked g) {pid : UInt32} (here : At g c p (.kill pid q.val))
    (used : (g.proc q).state ≠ .unused) :
    Marked { (g.setProc q (g.proc q).kill).goto p (.kernel []) with
      history := { g.history with struck := update g.history.struck q true } } := by
  have hkill : (g.proc q).kill.state ≠ .unused := by
    rcases (g.proc q).kill_state with hsame | ⟨-, hrunnable⟩
    · rw [hsame]
      exact used
    · rw [hrunnable]
      nofun
  refine h.mark rfl (fun r hr => update_of_ne hr ..) (fun hx => absurd hx hkill)
    (fun _ _ _ => update_self ..) (fun r _ hpc => ?_) fun r i => ?_
  · obtain rfl | hrp := eq_or_ne r p
    · simp [State.goto, State.setThread] at hpc
    · simpa [State.goto, State.setThread, State.setProc, update_of_ne hrp] using hpc
  · obtain rfl | hrp := eq_or_ne r p
    · simp [State.goto, State.setThread]
    · simpa [State.goto, State.setThread, State.setProc, update_of_ne hrp] using h.kills r i

theorem allocFound (h : Marked g) (here : At g c p (.allocproc q.val))
    (unused : (g.proc q).state = .unused) : Marked (g.allocproc c p q q.val) := by
  have hclean := (h.unused q unused).2
  unfold State.allocproc
  rw [if_pos unused]
  refine h.mark rfl (fun r hr => update_of_ne hr ..) nofun (fun _ _ hkilled => ?_)
    (fun r hrq hpc => ?_) fun r i => ?_
  · rw [hclean] at hkilled
    cases hkilled
  · obtain rfl | hrp := eq_or_ne r p
    · simp [State.goto, State.setThread] at hpc
    · simpa [State.goto, State.setThread, State.setProc, update_of_ne hrq, update_of_ne hrp] using hpc
  · obtain rfl | hrp := eq_or_ne r p
    · simp [State.goto, State.setThread]
    · obtain rfl | hrq := eq_or_ne r q
      · simp [State.goto, State.setThread, update_of_ne hrp]
      · simpa [State.goto, State.setThread, State.setProc, update_of_ne hrp, update_of_ne hrq]
          using h.kills r i

theorem fault (h : Marked g) (here : At g c p (.kernel [])) (used : (g.proc p).state ≠ .unused) :
    Marked (g.setProc p { g.proc p with killed := true }) := by
  refine h.mark rfl (fun _ _ => rfl) (fun hx => absurd hx used) (fun _ hpc _ => ?_) (fun _ _ => id)
    h.kills
  have hthread : (g.thread p).pc = .forkret := hpc
  rw [here.thread] at hthread
  cases hthread

end Marked

theorem Proc.wake_like [DecidableEq K] (x : Proc C K) (chan : Chan K) : x.Like (x.wake chan) := by
  unfold Proc.wake
  split
  · rename_i hsleeps
    exact .of_ne rfl rfl (by rw [hsleeps.1]; nofun) nofun
  · exact .refl x

theorem Move.not_forkret (h : Move guard g p act pc pc' result) : pc' ≠ .forkret := by
  cases h with
  | wakeupDone chan i after => cases after <;> nofun
  | _ => nofun

theorem Move.not_killZero (h : Move guard g p act pc pc' result) (before : ∀ i, pc ≠ .kill 0 i)
    (call : act ≠ .kill 0) (i : Nat) : pc' ≠ .kill 0 i := by
  cases h with
  | callKill pid =>
    rintro ⟨⟩
    exact call rfl
  | killMiss pid q other =>
    rintro ⟨⟩
    exact before _ rfl
  | wakeupDone chan i after => cases after <;> nofun
  | _ => nofun

theorem Marked.boot : Marked (State.boot : State C L K) := by
  refine ⟨fun q hq => ?_, fun q hq hpc hkilled => ?_, fun p i => ?_⟩
  · obtain rfl | hinit := eq_or_ne q initproc
    · cases hq
    · simp [State.boot, update_of_ne hinit]
  · obtain rfl | hinit := eq_or_ne q initproc
    · cases hkilled
    · simp only [State.boot, update_of_ne hinit] at hkilled
      cases hkilled
  · obtain rfl | hinit := eq_or_ne p initproc
    · rintro ⟨⟩
    · simp only [State.boot, update_of_ne hinit]
      simp

variable [DecidableEq C] [DecidableEq L] [DecidableEq K]

theorem Marked.step (h : Marked g) (hsit : Situated guard g sit) (hok : event.NotKillZero)
    (hstep : Step guard g event next result) : Marked next := by
  cases hstep with
  | look c p => exact h
  | pick c p idle lock runnable =>
    exact h.setProc rfl rfl rfl (.of_ne rfl rfl (by rw [runnable]; nofun) nofun)
  | resched c p back => exact h.setProc (q := p) rfl rfl rfl ⟨rfl, rfl, Iff.rfl⟩
  | interrupt q k lock => exact h.setProc rfl rfl rfl ((g.proc q).wake_like _)
  | yield c p pc here on lock =>
    have hrunning := hsit.running_of_at here (Pc.interruptible_alive on).1
    have hkills := h.kills p
    rw [here.thread] at hkills
    exact h.like rfl rfl rfl (.of_ne rfl rfl (by rw [hrunning]; nofun) nofun)
      (by rw [here.thread]; exact id) hkills
  | yieldReturn c p runs yielding =>
    exact h.like (q := p) rfl rfl rfl ⟨rfl, rfl, Iff.rfl⟩ id (h.kills p)
  | move c p act pc pc' result here moves =>
    have hkills := h.kills p
    rw [here.thread] at hkills
    refine h.goto rfl rfl rfl moves.not_forkret (moves.not_killZero hkills ?_)
    rintro rfl
    exact hok c rfl
  | fault c p here =>
    exact h.fault here (by rw [hsit.running_of_at here rfl]; nofun)
  | sleepSched c p chan here =>
    have hrunning := hsit.running_of_at here rfl
    exact h.like rfl rfl rfl (.of_ne rfl rfl (by rw [hrunning]; nofun) nofun) nofun nofun
  | wakeupVisit c p q chan after here other lock =>
    exact h.like rfl rfl rfl ((g.proc q).wake_like _) nofun nofun
  | killHit c p q pid here lock found =>
    refine h.killHit here fun hunused => ?_
    have hzero := (h.unused q hunused).1
    rw [found] at hzero
    subst hzero
    exact h.kills p q.val (by rw [here.thread])
  | allocFound c p q here lock unused => exact h.allocFound here unused
  | forkFail c p np here => exact h.change (q := np) rfl rfl rfl (fun _ => ⟨rfl, rfl⟩) nofun nofun nofun
  | forkRunnable c p np pid here lock =>
    have hused := hsit.used_of_publishes (p := p) (q := np) (by rw [here.thread]; rfl)
    exact h.like rfl rfl rfl (.of_ne rfl rfl (by rw [hused]; nofun) nofun) nofun nofun
  | exitZombie c p status here lock =>
    have hrunning := hsit.running_of_at here rfl
    exact h.like rfl rfl rfl (.of_ne rfl rfl (by rw [hrunning]; nofun) nofun) nofun nofun
  | reap c p q havekids here child lock zombie =>
    exact h.change (q := q) rfl rfl rfl (fun _ => ⟨rfl, rfl⟩) nofun nofun nofun
  | forkret c p | sleepAcquire c p | sleepTidy c p =>
    refine h.like (q := p) rfl rfl rfl ⟨rfl, rfl, ?_⟩ nofun nofun
    exact Iff.rfl
  | forkCopy c p np | forkParent c p np | reparentChild c p np =>
    refine h.like (q := np) rfl rfl rfl ⟨rfl, rfl, ?_⟩ nofun nofun
    exact Iff.rfl
  | callExit c p | acquire c p | release c p | sleepReleaseWait c p | sleepRelease c p
  | sleepReacquireWait c p | sleepReacquire c p | exitAcquire c p | exitRelease c p
  | exitSched c p | waitAcquire c p | waitFails c p =>
    exact h.goto (p := p) rfl rfl rfl nofun nofun

theorem marked_of_reachableBy (h : State.ReachableBy Event.NotKillZero guard g) : Marked g := by
  induction h with
  | boot => exact Marked.boot
  | step hreach hok hstep ih =>
    obtain ⟨sit, hsit⟩ := exists_situated hreach.reachable
    exact ih.step hsit hok (step_of_event hstep)

theorem step_kill {pid : UInt32} {i : Nat} (here : At g c p (.kill pid i))
    (hstep : g.step guard (.run c .next) = some (next, result)) :
    (∃ q : Slot, i = q.val ∧ (g.proc q).pid = pid ∧ result = some (.kill true) ∧
      next.proc = update g.proc q (g.proc q).kill) ∨
    (next.proc = g.proc ∧
      ((∃ q : Slot, i = q.val ∧ (g.proc q).pid ≠ pid ∧ result = none ∧
        next.thread p = { pc := .kill pid (i + 1) }) ∨
      (NPROC ≤ i ∧ result = some (.kill false)))) := by
  have hexec : g.exec guard c p .next = some (next, result) := by
    simpa only [State.step, here.runs] using hstep
  simp only [State.exec, here.thread] at hexec
  split at hexec
  · rename_i hi
    split at hexec
    · unfold State.killVisit at hexec
      split at hexec
      · rename_i hfound
        cases hexec
        exact .inl ⟨⟨i, hi⟩, rfl, hfound, rfl, rfl⟩
      · rename_i hother
        cases hexec
        exact .inr ⟨rfl, .inl ⟨⟨i, hi⟩, rfl, hother, rfl, update_self ..⟩⟩
    · cases hexec
  · rename_i hi
    cases hexec
    exact .inr ⟨rfl, .inr ⟨by omega, rfl⟩⟩

/-- Without `kill(0)`, a `kill` that returns 0 has marked one process, of that number; others
change nothing; and no process starts out marked. -/
theorem kill_exact_of_reachableBy (h : State.ReachableBy Event.NotKillZero guard g) :
    (∀ c p pid i next result, At g c p (.kill pid i) →
      g.step guard (.run c .next) = some (next, result) →
      (∃ q : Slot, (g.proc q).state ≠ .unused ∧ (g.proc q).pid = pid ∧
        result = some (.kill true) ∧ next.proc = update g.proc q (g.proc q).kill) ∨
      (next.proc = g.proc ∧
        ((∃ q : Slot, i = q.val ∧ (g.proc q).pid ≠ pid ∧ result = none ∧
          next.thread p = { pc := .kill pid (i + 1) }) ∨
        (NPROC ≤ i ∧ result = some (.kill false))))) ∧
    ∀ q, (g.proc q).state ≠ .unused → (g.thread q).pc = .forkret →
      (g.proc q).killed = true → g.history.struck q = true := by
  have hmarked := marked_of_reachableBy h
  refine ⟨fun c p pid i next result here hstep => ?_, hmarked.struck⟩
  rcases step_kill here hstep with ⟨q, -, hfound, hresult, hnext⟩ | hmiss
  · refine .inl ⟨q, fun hunused => ?_, hfound, hresult, hnext⟩
    have hzero := (hmarked.unused q hunused).1
    rw [hfound] at hzero
    subst hzero
    exact hmarked.kills p i (by rw [here.thread])
  · exact .inr hmiss

def killByInit (pid : UInt32) (turns : Nat) : List (Event Unit Unit Unit) :=
  [.schedule () initproc, .run () .next, .run () (.kill pid)] ++
    List.replicate turns (.run () .next)

def forkByInit : List (Event Unit Unit Unit) :=
  .run () .fork :: List.replicate 5 (.run () .next)

theorem kill_exact_of_reachableBy_self : ∃ g next : State Unit Unit Unit,
    State.ReachableBy Event.NotKillZero (fun _ => ()) g ∧
    g.step (fun _ => ()) (.run () .next) = some (next, some (.kill true)) ∧
    ∃ q : Slot, (g.proc q).state ≠ .unused ∧ (g.proc q).pid = 1 ∧
      next.proc = update g.proc q (g.proc q).kill := by
  have hrun : State.run (fun _ => ()) State.boot (killByInit 1 0) = some (_, _) := rfl
  have hreach := State.ReachableBy.run (.boot : State.ReachableBy Event.NotKillZero _ _) (by
    intro event hevent c
    simp only [killByInit, List.replicate_zero, List.append_nil, List.mem_cons, List.not_mem_nil,
      or_false] at hevent
    rcases hevent with rfl | rfl | rfl <;> simp) hrun
  have hexact := (kill_exact_of_reachableBy hreach).1 () initproc 1 0 _ (some (.kill true))
    ⟨rfl, rfl⟩ rfl
  refine ⟨_, _, hreach, rfl, ?_⟩
  rcases hexact with ⟨q, hused, hpid, -, hnext⟩ | ⟨-, ⟨_, _, _, hresult, _⟩ | ⟨_, hresult⟩⟩
  · exact ⟨q, hused, hpid, hnext⟩
  · cases hresult
  · cases hresult

/-- `kill(0)` marks a free slot, and the process that gets it starts out marked. -/
theorem kill_zero_marks_unused :
    (State.run (fun _ => ()) State.boot (killByInit 0 2)).map
      (fun (g, results) => (results, (g.proc 1).state, (g.proc 1).killed)) =
        some ([.kill true], .unused, true) ∧
    (State.run (fun _ => ()) State.boot (killByInit 0 2 ++ forkByInit)).map
      (fun (g, results) => (results, (g.proc 1).state, (g.proc 1).killed, g.history.struck 1)) =
        some ([.kill true, .fork (some 2)], .runnable, true, false) := by
  decide +kernel

end Xv6.Machine
