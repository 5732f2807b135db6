import Xv6.Proc.Machine

/-! Everything one step of the machine can do. -/
namespace Xv6.Machine

variable {C L K : Type} [DecidableEq C] [DecidableEq L] [DecidableEq K]

/-- Steps that change only the program counter. -/
inductive Move (guard : K → L) (g : State C L K) (p : Slot) :
    Act L K → Pc L K → Pc L K → Option Return → Prop where
  | callSleep (k : K) : Move guard g p (.sleep k) (.kernel [guard k]) (.sleepAcquire (.other k)) none
  | callWakeup (k : K) (held : List L) (holds : guard k ∈ held) :
      Move guard g p (.wakeup k) (.kernel held) (.wakeup (.other k) 0 (.kernel held)) none
  | callKill (pid : UInt32) : Move guard g p (.kill pid) (.kernel []) (.kill pid 0) none
  | callFork : Move guard g p .fork (.kernel []) (.allocproc 0) none
  | callWait : Move guard g p .wait (.kernel []) .wait none
  | wakeupSelf (chan : Chan K) (i : Nat) (after : After L) (self : i = p.val) :
      Move guard g p .next (.wakeup chan i after) (.wakeup chan (i + 1) after) none
  | wakeupDone (chan : Chan K) (i : Nat) (after : After L) (done : NPROC ≤ i) :
      Move guard g p .next (.wakeup chan i after) after.pc none
  | killMiss (pid : UInt32) (q : Slot) (other : (g.proc q).pid ≠ pid) :
      Move guard g p .next (.kill pid q.val) (.kill pid (q.val + 1)) none
  | killNone (pid : UInt32) (i : Nat) (done : NPROC ≤ i) :
      Move guard g p .next (.kill pid i) (.kernel []) (some (.kill false))
  | allocBusy (q : Slot) (busy : (g.proc q).state ≠ .unused) :
      Move guard g p .next (.allocproc q.val) (.allocproc (q.val + 1)) none
  | allocNone (i : Nat) (done : NPROC ≤ i) :
      Move guard g p .next (.allocproc i) (.kernel []) (some (.fork none))
  | reparentOther (q : Slot) (status : Int) (other : (g.proc q).parent ≠ some p) :
      Move guard g p .next (.reparent q.val status) (.reparent (q.val + 1) status) none
  | exitWake (i : Nat) (status : Int) (parent : Slot) (done : NPROC ≤ i)
      (known : (g.proc p).parent = some parent) :
      Move guard g p .next (.reparent i status) (.wakeup (.proc parent) 0 (.exitZombie status)) none
  | exitOrphan (i : Nat) (status : Int) (done : NPROC ≤ i) (orphan : (g.proc p).parent = none) :
      Move guard g p .next (.reparent i status) (.exitZombie status) none
  | waitOther (q : Slot) (havekids : Bool) (other : (g.proc q).parent ≠ some p) :
      Move guard g p .next (.waitScan q.val havekids) (.waitScan (q.val + 1) havekids) none
  | waitAlive (q : Slot) (havekids : Bool) (child : (g.proc q).parent = some p)
      (alive : (g.proc q).state ≠ .zombie) :
      Move guard g p .next (.waitScan q.val havekids) (.waitScan (q.val + 1) true) none
  | waitSleep (i : Nat) (done : NPROC ≤ i) :
      Move guard g p .next (.waitScan i true) (.sleepAcquire (.proc p)) none

inductive WaitFails (g : State C L K) (p : Slot) (i : Nat) : Bool → Return → Prop where
  | copy (havekids : Bool) (q : Slot) (zombie : (g.proc q).state = .zombie) :
      WaitFails g p i havekids .waitCopyFails
  | none (done : NPROC ≤ i) : WaitFails g p i false .waitNoChildren
  | killed (done : NPROC ≤ i) : WaitFails g p i true .waitKilled

structure At (g : State C L K) (c : C) (p : Slot) (pc : Pc L K) : Prop where
  runs : (g.cpu c).runs = .process p
  thread : g.thread p = { pc := pc }

inductive Step (guard : K → L) (g : State C L K) :
    Event C L K → State C L K → Option Return → Prop where
  | look (c : C) (p : Slot) : Step guard g (.schedule c p) g none
  | pick (c : C) (p : Slot) (idle : (g.cpu c).runs = .idle) (lock : (g.proc p).lock = none)
      (runnable : (g.proc p).state = .runnable) :
      Step guard g (.schedule c p)
        ((g.setProc p { g.proc p with state := .running, lock := some c }).setCpu c
        { proc := some p, runs := .process p }) none
  | resched (c : C) (p : Slot) (back : (g.cpu c).runs = .back p) :
      Step guard g (.resched c) ((g.releaseProc p).setCpu c {}) none
  | interrupt (q : Slot) (k : K) (lock : (g.proc q).lock = none) :
      Step guard g (.interrupt q k) (g.setProc q ((g.proc q).wake (.other k))) none
  | yield (c : C) (p : Slot) (pc : Pc L K) (here : At g c p pc) (on : pc.interruptible = true)
      (lock : (g.proc p).lock = none) :
      Step guard g (.run c .yield)
        (((g.setProc p { g.proc p with state := .runnable, lock := some c }).setThread p
        { pc := pc, yielding := true }).swtch c p) none
  | yieldReturn (c : C) (p : Slot) (runs : (g.cpu c).runs = .process p)
      (yielding : (g.thread p).yielding = true) :
      Step guard g (.run c .next) ((g.releaseProc p).setThread p
        { g.thread p with yielding := false }) none
  | move (c : C) (p : Slot) (act : Act L K) (pc pc' : Pc L K) (result : Option Return)
      (here : At g c p pc) (moves : Move guard g p act pc pc' result) :
      Step guard g (.run c act) (g.goto p pc') result
  | callExit (c : C) (p : Slot) (status : Int) (here : At g c p (.kernel []))
      (user : p ≠ initproc) :
      Step guard g (.run c (.exit status)) { g.goto p (.exit status) with
        history := { g.history with exiting := (g.history.uid p, status) :: g.history.exiting } } none
  | fault (c : C) (p : Slot) (here : At g c p (.kernel [])) :
      Step guard g (.run c .fault) (g.setProc p { g.proc p with killed := true }) none
  | acquire (c : C) (p : Slot) (held : List L) (l : L) (here : At g c p (.kernel held))
      (lock : g.lock l = none) :
      Step guard g (.run c (.acquire l)) ((g.setLock l (some c)).goto p (.kernel (l :: held))) none
  | release (c : C) (p : Slot) (held : List L) (l : L) (here : At g c p (.kernel held))
      (holds : l ∈ held) :
      Step guard g (.run c (.release l)) ((g.setLock l none).goto p (.kernel (held.erase l))) none
  | forkret (c : C) (p : Slot) (here : At g c p .forkret) :
      Step guard g (.run c .next) ((g.releaseProc p).goto p (.kernel [])) none
  | sleepAcquire (c : C) (p : Slot) (chan : Chan K) (here : At g c p (.sleepAcquire chan))
      (lock : (g.proc p).lock = none) :
      Step guard g (.run c .next) ((g.acquireProc c p).goto p (.sleepRelease chan)) none
  | sleepReleaseWait (c : C) (p q : Slot) (here : At g c p (.sleepRelease (.proc q))) :
      Step guard g (.run c .next) ({ g with waitLock := none }.goto p (.sleepSched (.proc q))) none
  | sleepRelease (c : C) (p : Slot) (k : K) (here : At g c p (.sleepRelease (.other k))) :
      Step guard g (.run c .next) ((g.setLock (guard k) none).goto p (.sleepSched (.other k))) none
  | sleepSched (c : C) (p : Slot) (chan : Chan K) (here : At g c p (.sleepSched chan)) :
      Step guard g (.run c .next)
        (((g.setProc p { g.proc p with chan := some chan, state := .sleeping }).goto p
        (.sleepTidy chan)).swtch c p) none
  | sleepTidy (c : C) (p : Slot) (chan : Chan K) (here : At g c p (.sleepTidy chan)) :
      Step guard g (.run c .next) ((g.setProc p { g.proc p with chan := none, lock := none }).goto p
        (.sleepReacquire chan)) none
  | sleepReacquireWait (c : C) (p q : Slot) (here : At g c p (.sleepReacquire (.proc q)))
      (lock : g.waitLock = none) :
      Step guard g (.run c .next) ({ g with waitLock := some c }.goto p (.waitScan 0 false)) none
  | sleepReacquire (c : C) (p : Slot) (k : K) (here : At g c p (.sleepReacquire (.other k)))
      (lock : g.lock (guard k) = none) :
      Step guard g (.run c .next) ((g.setLock (guard k) (some c)).goto p (.kernel [guard k])) none
  | wakeupVisit (c : C) (p q : Slot) (chan : Chan K) (after : After L)
      (here : At g c p (.wakeup chan q.val after)) (other : q ≠ p)
      (lock : (g.proc q).lock = none) :
      Step guard g (.run c .next) ((g.setProc q ((g.proc q).wake chan)).goto p
        (.wakeup chan (q.val + 1) after)) none
  | killHit (c : C) (p q : Slot) (pid : UInt32) (here : At g c p (.kill pid q.val))
      (lock : (g.proc q).lock = none) (found : (g.proc q).pid = pid) :
      Step guard g (.run c .next) { (g.setProc q (g.proc q).kill).goto p (.kernel []) with
        history := { g.history with struck := Function.update g.history.struck q true } }
        (some (.kill true))
  | allocFound (c : C) (p q : Slot) (here : At g c p (.allocproc q.val))
      (lock : (g.proc q).lock = none) (unused : (g.proc q).state = .unused) :
      Step guard g (.run c .next) (g.allocproc c p q q.val) none
  | forkFail (c : C) (p np : Slot) (here : At g c p (.forkCopy np)) :
      Step guard g (.run c .noMemory)
        ((g.setProc np { (g.proc np).free with lock := none }).goto p (.kernel []))
        (some (.fork none))
  | forkCopy (c : C) (p np : Slot) (here : At g c p (.forkCopy np)) :
      Step guard g (.run c .next) ((g.releaseProc np).goto p (.forkParent np (g.proc np).pid)) none
  | forkParent (c : C) (p np : Slot) (pid : UInt32) (here : At g c p (.forkParent np pid))
      (lock : g.waitLock = none) :
      Step guard g (.run c .next) ((g.setProc np { g.proc np with parent := some p }).goto p
        (.forkRunnable np pid)) none
  | forkRunnable (c : C) (p np : Slot) (pid : UInt32) (here : At g c p (.forkRunnable np pid))
      (lock : (g.proc np).lock = none) :
      Step guard g (.run c .next)
        ((g.setProc np { g.proc np with state := .runnable }).goto p (.kernel []))
        (some (.fork (some pid)))
  | exitAcquire (c : C) (p : Slot) (status : Int) (here : At g c p (.exit status))
      (lock : g.waitLock = none) :
      Step guard g (.run c .next) ({ g with waitLock := some c }.goto p (.reparent 0 status)) none
  | reparentChild (c : C) (p q : Slot) (status : Int) (here : At g c p (.reparent q.val status))
      (child : (g.proc q).parent = some p) :
      Step guard g (.run c .next) ((g.setProc q { g.proc q with parent := some initproc }).goto p
        (.wakeup (.proc initproc) 0 (.reparent (q.val + 1) status))) none
  | exitZombie (c : C) (p : Slot) (status : Int) (here : At g c p (.exitZombie status))
      (lock : (g.proc p).lock = none) :
      Step guard g (.run c .next) { (g.setProc p
          { g.proc p with xstate := status, state := .zombie, lock := some c }).goto p .exitRelease with
        history := { g.history with
          exited := g.history.exited ++ [⟨g.history.uid p, (g.proc p).pid, status⟩] } } none
  | exitRelease (c : C) (p : Slot) (here : At g c p .exitRelease) :
      Step guard g (.run c .next) ({ g with waitLock := none }.goto p .exitSched) none
  | exitSched (c : C) (p : Slot) (here : At g c p .exitSched) :
      Step guard g (.run c .next) ((g.goto p .exited).swtch c p) none
  | waitAcquire (c : C) (p : Slot) (here : At g c p .wait) (lock : g.waitLock = none) :
      Step guard g (.run c .next) ({ g with waitLock := some c }.goto p (.waitScan 0 false)) none
  | reap (c : C) (p q : Slot) (havekids : Bool) (here : At g c p (.waitScan q.val havekids))
      (child : (g.proc q).parent = some p) (lock : (g.proc q).lock = none)
      (zombie : (g.proc q).state = .zombie) :
      Step guard g (.run c .next) (g.reap p q).1 (g.reap p q).2
  | waitFails (c : C) (p : Slot) (act : Act L K) (i : Nat) (havekids : Bool) (result : Return)
      (here : At g c p (.waitScan i havekids)) (fails : WaitFails g p i havekids result) :
      Step guard g (.run c act) ({ g with waitLock := none }.goto p (.kernel [])) (some result)

variable {guard : K → L} {g next : State C L K} {result : Option Return} {c : C} {p : Slot}
  {i : Nat}

theorem step_of_kernel {held : List L} {act : Act L K} (here : At g c p (.kernel held))
    (other : act ≠ .yield) (h : g.exec guard c p act = some (next, result)) :
    Step guard g (.run c act) next result := by
  unfold State.exec at h
  rw [here.thread] at h
  cases act with
  | yield => exact absurd rfl other
  | next => cases h
  | acquire l =>
    obtain ⟨hlock, ⟨⟩⟩ := Option.ite_none_right_eq_some.mp h
    exact .acquire c p held l here hlock
  | release l =>
    obtain ⟨hmem, ⟨⟩⟩ := Option.ite_none_right_eq_some.mp h
    exact .release c p held l here hmem
  | sleep k =>
    obtain ⟨hheld, ⟨⟩⟩ := Option.ite_none_right_eq_some.mp h
    exact .move c p _ _ _ _ here (hheld ▸ .callSleep k)
  | wakeup k =>
    obtain ⟨hmem, ⟨⟩⟩ := Option.ite_none_right_eq_some.mp h
    exact .move c p _ _ _ _ here (.callWakeup k held hmem)
  | kill pid =>
    cases held with
    | cons l held => cases h
    | nil =>
      cases h
      exact .move c p _ _ _ _ here (.callKill pid)
  | fork =>
    cases held with
    | cons l held => cases h
    | nil =>
      cases h
      exact .move c p _ _ _ _ here .callFork
  | exit status =>
    cases held with
    | cons l held => cases h
    | nil =>
      obtain ⟨huser, ⟨⟩⟩ := Option.ite_none_left_eq_some.mp h
      exact .callExit c p status here huser
  | wait =>
    cases held with
    | cons l held => cases h
    | nil =>
      cases h
      exact .move c p _ _ _ _ here .callWait
  | fault =>
    cases held with
    | cons l held => cases h
    | nil =>
      cases h
      exact .fault c p here
  | noMemory => cases h
  | copyFails => cases h

theorem step_of_yield {pc : Pc L K} (here : At g c p pc)
    (h : g.exec guard c p .yield = some (next, result)) :
    Step guard g (.run c .yield) next result := by
  unfold State.exec at h
  rw [here.thread] at h
  obtain ⟨hon, ⟨⟩⟩ := Option.ite_none_right_eq_some.mp h
  exact .yield c p pc here hon.1 hon.2

theorem step_of_copyFails {havekids : Bool} (here : At g c p (.waitScan i havekids))
    (h : g.exec guard c p .copyFails = some (next, result)) :
    Step guard g (.run c .copyFails) next result := by
  unfold State.exec at h
  rw [here.thread] at h
  dsimp only at h
  split at h
  · rename_i hi
    obtain ⟨-, h⟩ := Option.ite_none_right_eq_some.mp h
    obtain ⟨-, h⟩ := Option.ite_none_right_eq_some.mp h
    obtain ⟨hzombie, ⟨⟩⟩ := Option.ite_none_right_eq_some.mp h
    exact .waitFails c p _ i havekids _ here (.copy havekids ⟨i, hi⟩ hzombie)
  · cases h

section Next

variable (h : g.exec guard c p .next = some (next, result))

include h

theorem step_of_wakeup {chan : Chan K} {after : After L} (here : At g c p (.wakeup chan i after)) :
    Step guard g (.run c .next) next result := by
  unfold State.exec at h
  rw [here.thread] at h
  dsimp only at h
  split at h
  · rename_i hi
    split at h
    · rename_i hself
      cases h
      exact .move c p _ _ _ _ here (.wakeupSelf chan i after (congrArg Fin.val hself))
    · rename_i hother
      obtain ⟨hlock, ⟨⟩⟩ := Option.ite_none_right_eq_some.mp h
      exact .wakeupVisit c p ⟨i, hi⟩ chan after here hother hlock
  · rename_i hi
    cases h
    exact .move c p _ _ _ _ here (.wakeupDone chan i after (by omega))

theorem step_of_kill {pid : UInt32} (here : At g c p (.kill pid i)) :
    Step guard g (.run c .next) next result := by
  unfold State.exec at h
  rw [here.thread] at h
  dsimp only at h
  split at h
  · rename_i hi
    obtain ⟨hlock, h⟩ := Option.ite_none_right_eq_some.mp h
    unfold State.killVisit at h
    split at h
    · rename_i hfound
      cases h
      exact .killHit c p ⟨i, hi⟩ pid here hlock hfound
    · rename_i hother
      cases h
      exact .move c p _ _ _ _ here (.killMiss pid ⟨i, hi⟩ hother)
  · rename_i hi
    cases h
    exact .move c p _ _ _ _ here (.killNone pid i (by omega))

theorem step_of_allocproc (here : At g c p (.allocproc i)) :
    Step guard g (.run c .next) next result := by
  unfold State.exec at h
  rw [here.thread] at h
  dsimp only at h
  split at h
  · rename_i hi
    obtain ⟨hlock, ⟨⟩⟩ := Option.ite_none_right_eq_some.mp h
    by_cases hunused : (g.proc ⟨i, hi⟩).state = .unused
    · exact .allocFound c p ⟨i, hi⟩ here hlock hunused
    · unfold State.allocproc
      rw [if_neg hunused]
      exact .move c p _ _ _ _ here (.allocBusy ⟨i, hi⟩ hunused)
  · rename_i hi
    cases h
    exact .move c p _ _ _ _ here (.allocNone i (by omega))

theorem step_of_reparent {status : Int} (here : At g c p (.reparent i status)) :
    Step guard g (.run c .next) next result := by
  unfold State.exec at h
  rw [here.thread] at h
  dsimp only at h
  split at h
  · rename_i hi
    split at h
    · rename_i hchild
      cases h
      exact .reparentChild c p ⟨i, hi⟩ status here hchild
    · rename_i hother
      cases h
      exact .move c p _ _ _ _ here (.reparentOther ⟨i, hi⟩ status hother)
  · rename_i hi
    split at h
    · rename_i parent hparent
      cases h
      exact .move c p _ _ _ _ here (.exitWake i status parent (by omega) hparent)
    · rename_i hparent
      cases h
      exact .move c p _ _ _ _ here (.exitOrphan i status (by omega) hparent)

theorem step_of_waitScan {havekids : Bool} (here : At g c p (.waitScan i havekids)) :
    Step guard g (.run c .next) next result := by
  unfold State.exec at h
  rw [here.thread] at h
  dsimp only at h
  split at h
  · rename_i hi
    split at h
    · rename_i hchild
      obtain ⟨hlock, h⟩ := Option.ite_none_right_eq_some.mp h
      split at h
      · rename_i hzombie
        cases h
        exact .reap c p ⟨i, hi⟩ havekids here hchild hlock hzombie
      · rename_i halive
        cases h
        exact .move c p _ _ _ _ here (.waitAlive ⟨i, hi⟩ havekids hchild halive)
    · rename_i hother
      cases h
      exact .move c p _ _ _ _ here (.waitOther ⟨i, hi⟩ havekids hother)
  · rename_i hi
    cases havekids with
    | false =>
      cases h
      exact .waitFails c p _ i false _ here (.none (by omega))
    | true =>
      rw [if_pos rfl, if_neg (show ¬(!true) = true by decide)] at h
      split at h
      · cases h
        exact .waitFails c p _ i true _ here (.killed (by omega))
      · cases h
        exact .move c p _ _ _ _ here (.waitSleep i (by omega))

theorem step_of_next {pc : Pc L K} (here : At g c p pc) :
    Step guard g (.run c .next) next result := by
  have hexec := h
  unfold State.exec at h
  rw [here.thread] at h
  cases pc with
  | wakeup chan i after => exact step_of_wakeup hexec here
  | kill pid i => exact step_of_kill hexec here
  | allocproc i => exact step_of_allocproc hexec here
  | reparent i status => exact step_of_reparent hexec here
  | waitScan i havekids => exact step_of_waitScan hexec here
  | kernel held => cases h
  | exited => cases h
  | forkret =>
    cases h
    exact .forkret c p here
  | forkCopy np =>
    cases h
    exact .forkCopy c p np here
  | sleepAcquire chan =>
    obtain ⟨hlock, ⟨⟩⟩ := Option.ite_none_right_eq_some.mp h
    exact .sleepAcquire c p chan here hlock
  | sleepRelease chan =>
    cases chan with
    | proc q =>
      cases h
      exact .sleepReleaseWait c p q here
    | other k =>
      cases h
      exact .sleepRelease c p k here
  | sleepSched chan =>
    cases h
    exact .sleepSched c p chan here
  | sleepTidy chan =>
    cases h
    exact .sleepTidy c p chan here
  | sleepReacquire chan =>
    cases chan with
    | proc q =>
      obtain ⟨hlock, ⟨⟩⟩ := Option.ite_none_right_eq_some.mp h
      exact .sleepReacquireWait c p q here hlock
    | other k =>
      obtain ⟨hlock, ⟨⟩⟩ := Option.ite_none_right_eq_some.mp h
      exact .sleepReacquire c p k here hlock
  | forkParent np pid =>
    obtain ⟨hlock, ⟨⟩⟩ := Option.ite_none_right_eq_some.mp h
    exact .forkParent c p np pid here hlock
  | forkRunnable np pid =>
    obtain ⟨hlock, ⟨⟩⟩ := Option.ite_none_right_eq_some.mp h
    exact .forkRunnable c p np pid here hlock
  | exit status =>
    obtain ⟨hlock, ⟨⟩⟩ := Option.ite_none_right_eq_some.mp h
    exact .exitAcquire c p status here hlock
  | exitZombie status =>
    obtain ⟨hlock, ⟨⟩⟩ := Option.ite_none_right_eq_some.mp h
    exact .exitZombie c p status here hlock
  | exitRelease =>
    cases h
    exact .exitRelease c p here
  | exitSched =>
    cases h
    exact .exitSched c p here
  | wait =>
    obtain ⟨hlock, ⟨⟩⟩ := Option.ite_none_right_eq_some.mp h
    exact .waitAcquire c p here hlock

end Next

/-- Elsewhere a process has no choice but to go on. -/
theorem step_of_exec {act : Act L K} (runs : (g.cpu c).runs = .process p)
    (h : g.exec guard c p act = some (next, result)) : Step guard g (.run c act) next result := by
  have hexec := h
  cases hthread : g.thread p with
  | mk pc yielding =>
  unfold State.exec at h
  rw [hthread] at h
  cases yielding with
  | true =>
    have hstep : Step guard g (.run c .next) _ _ := .yieldReturn c p runs (by rw [hthread])
    rw [hthread] at hstep
    cases act with
    | next =>
      cases h
      exact hstep
    | _ => cases h
  | false =>
    have here : At g c p pc := ⟨runs, hthread⟩
    cases act with
    | yield => exact step_of_yield here hexec
    | next => exact step_of_next hexec here
    | copyFails =>
      cases pc with
      | waitScan i havekids => exact step_of_copyFails here hexec
      | _ => cases h
    | noMemory =>
      cases pc with
      | forkCopy np =>
        cases h
        exact .forkFail c p np here
      | waitScan i havekids => simp [State.exec, hthread] at hexec
      | _ => cases h
    | _ =>
      cases pc with
      | kernel held => exact step_of_kernel here nofun hexec
      | waitScan i havekids => simp [State.exec, hthread] at hexec
      | _ => cases h

theorem step_of_event {event : Event C L K} (h : g.step guard event = some (next, result)) :
    Step guard g event next result := by
  cases event with
  | schedule c p =>
    simp only [State.step] at h
    split at h
    · rename_i hidle
      obtain ⟨hlock, h⟩ := Option.ite_none_right_eq_some.mp h
      split at h
      · rename_i hrunnable
        cases h
        exact .pick c p hidle hlock hrunnable
      · cases h
        exact .look c p
    · cases h
  | resched c =>
    simp only [State.step] at h
    split at h
    · rename_i p hback
      cases h
      exact .resched c p hback
    · cases h
  | run c act =>
    simp only [State.step] at h
    split at h
    · rename_i p hruns
      exact step_of_exec hruns h
    · cases h
  | interrupt q k =>
    simp only [State.step] at h
    obtain ⟨hlock, ⟨⟩⟩ := Option.ite_none_right_eq_some.mp h
    exact .interrupt q k hlock

end Xv6.Machine
