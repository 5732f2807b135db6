import Mathlib.Logic.Function.Basic
import Xv6.Param

/-! `proc.c` as a machine of CPUs. A step is one critical section of a `p->lock` or of
`wait_lock`, cut open where the lock is handed over in `swtch` or where the code holds two
locks. -/
namespace Xv6.Machine

open Function

abbrev Slot := Fin NPROC

inductive ProcState where
  | unused
  | used
  | sleeping
  | runnable
  | running
  | zombie
  deriving DecidableEq, Repr

/-- `wait` sleeps on the process, other code on channels of its own. -/
inductive Chan (K : Type) where
  | proc (p : Slot)
  | other (k : K)
  deriving DecidableEq

/-- What scheduling uses; `lock` is the CPU that holds `p->lock`. -/
structure Proc (C K : Type) where
  state : ProcState := .unused
  chan : Option (Chan K) := none
  killed : Bool := false
  xstate : Int := 0
  pid : UInt32 := 0
  parent : Option Slot := none
  lock : Option C := none

inductive After (L : Type) where
  | kernel (held : List L)
  | reparent (i : Nat) (status : Int)
  | exitZombie (status : Int)
  deriving DecidableEq

inductive Pc (L K : Type) where
  | forkret
  /-- Other code, with these locks. -/
  | kernel (held : List L)
  | sleepAcquire (chan : Chan K) -- acquire(&p->lock)
  | sleepRelease (chan : Chan K) -- release(lk)
  | sleepSched (chan : Chan K) -- p->chan = chan; p->state = SLEEPING; sched()
  | sleepTidy (chan : Chan K) -- p->chan = 0; release(&p->lock)
  | sleepReacquire (chan : Chan K) -- acquire(lk)
  | wakeup (chan : Chan K) (i : Nat) (after : After L)
  | kill (pid : UInt32) (i : Nat)
  | allocproc (i : Nat)
  | forkCopy (np : Slot) -- holding np->lock
  | forkParent (np : Slot) (pid : UInt32)
  | forkRunnable (np : Slot) (pid : UInt32)
  | exit (status : Int)
  | reparent (i : Nat) (status : Int)
  | exitZombie (status : Int)
  | exitRelease -- release(&wait_lock)
  | exitSched
  | exited
  | wait
  | waitScan (i : Nat) (havekids : Bool)
  deriving DecidableEq

structure Thread (L K : Type) where
  pc : Pc L K
  /-- In `yield`. -/
  yielding : Bool := false
  deriving DecidableEq

/-- The scheduler's code, a process's, or the scheduler's right after a switch back. -/
inductive Runs where
  | idle
  | process (p : Slot)
  | back (p : Slot)
  deriving DecidableEq

structure Cpu where
  proc : Option Slot := none
  runs : Runs := .idle

structure Ending where
  uid : Nat
  pid : UInt32
  status : Int
  deriving DecidableEq

/-- Never read by the code. Processes are numbered as they are allocated. -/
structure History where
  uid : Slot → Nat
  creator : Slot → Nat
  count : Nat
  /-- Calls of `exit`, with the status. -/
  exiting : List (Nat × Int) := []
  exited : List Ending := []
  /-- What `wait` returned, and to whom. -/
  reaped : List (Ending × Nat) := []
  /-- Met by `kill` since the allocation. -/
  struck : Slot → Bool := fun _ => false

structure State (C L K : Type) where
  proc : Slot → Proc C K
  thread : Slot → Thread L K
  cpu : C → Cpu
  waitLock : Option C := none
  lock : L → Option C
  nextpid : UInt32
  history : History

/-- Choices that the code leaves. -/
inductive Act (L K : Type) where
  | next
  | yield
  | acquire (l : L)
  | release (l : L)
  | sleep (k : K)
  | wakeup (k : K)
  | kill (pid : UInt32)
  | fork
  /-- `exit`, once it has closed the files. -/
  | exit (status : Int)
  | wait
  /-- An unexpected exception. -/
  | fault
  /-- No memory for the child of `fork`. -/
  | noMemory
  /-- The `copyout` of `wait` fails. -/
  | copyFails

inductive Event (C L K : Type) where
  /-- The scheduler looks at a process. -/
  | schedule (c : C) (p : Slot)
  /-- The scheduler goes on after a switch back. -/
  | resched (c : C)
  | run (c : C) (act : Act L K)
  /-- One turn of a `wakeup` in an interrupt handler. -/
  | interrupt (q : Slot) (k : K)

inductive Return where
  | fork (pid : Option UInt32)
  | kill (found : Bool)
  | waitReaped (pid : UInt32) (status : Int)
  | waitCopyFails
  | waitKilled
  | waitNoChildren
  deriving DecidableEq

def initproc : Slot := 0

variable {C L K : Type} [DecidableEq C] [DecidableEq L] [DecidableEq K]

def Proc.free (p : Proc C K) : Proc C K := { lock := p.lock }

def Proc.wake (p : Proc C K) (chan : Chan K) : Proc C K :=
  if p.state = .sleeping ∧ p.chan = some chan then { p with state := .runnable } else p

def Proc.kill (p : Proc C K) : Proc C K :=
  { p with killed := true, state := if p.state = .sleeping then .runnable else p.state }

/-- Interrupts need to be on, so no lock is held. -/
def Pc.interruptible : Pc L K → Bool
  | .kernel held => held.isEmpty
  | .sleepReacquire _ | .kill .. | .allocproc _ | .forkParent .. | .forkRunnable ..
  | .exit _ | .wait => true
  | _ => false

def After.pc : After L → Pc L K
  | .kernel held => .kernel held
  | .reparent i status => .reparent i status
  | .exitZombie status => .exitZombie status

namespace State

def setProc (g : State C L K) (q : Slot) (x : Proc C K) : State C L K :=
  { g with proc := update g.proc q x }

def setThread (g : State C L K) (p : Slot) (t : Thread L K) : State C L K :=
  { g with thread := update g.thread p t }

def goto (g : State C L K) (p : Slot) (pc : Pc L K) : State C L K := g.setThread p { pc := pc }

def setCpu (g : State C L K) (c : C) (x : Cpu) : State C L K :=
  { g with cpu := update g.cpu c x }

def acquireProc (g : State C L K) (c : C) (q : Slot) : State C L K :=
  g.setProc q { g.proc q with lock := some c }

def releaseProc (g : State C L K) (q : Slot) : State C L K :=
  g.setProc q { g.proc q with lock := none }

def setLock (g : State C L K) (l : L) (owner : Option C) : State C L K :=
  { g with lock := update g.lock l owner }

def swtch (g : State C L K) (c : C) (p : Slot) : State C L K :=
  g.setCpu c { g.cpu c with runs := .back p }

def boot : State C L K where
  proc := update (fun _ => {}) initproc { state := .runnable, pid := 1 }
  thread := update (fun _ => { pc := .exited }) initproc { pc := .forkret }
  cpu _ := {}
  lock _ := none
  nextpid := 2
  history := { uid := fun _ => 0, creator := fun _ => 0, count := 1 }

def allocproc (g : State C L K) (c : C) (p q : Slot) (i : Nat) : State C L K :=
  if (g.proc q).state = .unused then
    let g' := (g.setProc q { g.proc q with
      pid := g.nextpid, state := .used, lock := some c }).setThread q { pc := .forkret }
    { g'.goto p (.forkCopy q) with
      nextpid := g.nextpid + 1
      history := { g.history with
        uid := update g.history.uid q g.history.count
        creator := update g.history.creator q (g.history.uid p)
        struck := update g.history.struck q false
        count := g.history.count + 1 } }
  else g.goto p (.allocproc (i + 1))

def killVisit (g : State C L K) (p q : Slot) (pid : UInt32) (i : Nat) :
    State C L K × Option Return :=
  if (g.proc q).pid = pid then
    ({ (g.setProc q (g.proc q).kill).goto p (.kernel []) with
      history := { g.history with struck := update g.history.struck q true } },
      some (.kill true))
  else (g.goto p (.kill pid (i + 1)), none)

def reap (g : State C L K) (p q : Slot) : State C L K × Option Return :=
  let ending : Ending := ⟨g.history.uid q, (g.proc q).pid, (g.proc q).xstate⟩
  ({ (g.setProc q (g.proc q).free).goto p (.kernel []) with
    waitLock := none
    history := { g.history with reaped := g.history.reaped ++ [(ending, g.history.uid p)] } },
    some (.waitReaped (g.proc q).pid (g.proc q).xstate))

/-- The next step of `p` on CPU `c`; none if it waits for a lock, or panics. -/
def exec (guard : K → L) (g : State C L K) (c : C) (p : Slot) (act : Act L K) :
    Option (State C L K × Option Return) :=
  match (g.thread p).yielding, act with
  | true, .next =>
    -- sched() has returned in yield()
    some ((g.releaseProc p).setThread p { g.thread p with yielding := false }, none)
  | true, _ => none
  | false, .yield =>
    if (g.thread p).pc.interruptible ∧ (g.proc p).lock = none then
      some (((g.setProc p { g.proc p with state := .runnable, lock := some c }).setThread p
        { g.thread p with yielding := true }).swtch c p, none)
    else none
  | false, act =>
    match (g.thread p).pc, act with
    | .forkret, .next => some ((g.releaseProc p).goto p (.kernel []), none)
    | .kernel held, .acquire l =>
      if g.lock l = none then some ((g.setLock l (some c)).goto p (.kernel (l :: held)), none)
      else none
    | .kernel held, .release l =>
      if l ∈ held then some ((g.setLock l none).goto p (.kernel (held.erase l)), none) else none
    | .kernel held, .sleep k =>
      if held = [guard k] then some (g.goto p (.sleepAcquire (.other k)), none) else none
    | .kernel held, .wakeup k =>
      if guard k ∈ held then some (g.goto p (.wakeup (.other k) 0 (.kernel held)), none) else none
    | .kernel [], .kill pid => some (g.goto p (.kill pid 0), none)
    | .kernel [], .fork => some (g.goto p (.allocproc 0), none)
    | .kernel [], .exit status =>
      if p = initproc then none -- panic("init exiting")
      else some ({ g.goto p (.exit status) with
        history := { g.history with exiting := (g.history.uid p, status) :: g.history.exiting } }, none)
    | .kernel [], .wait => some (g.goto p .wait, none)
    | .kernel [], .fault => some (g.setProc p { g.proc p with killed := true }, none)
    | .sleepAcquire chan, .next =>
      if (g.proc p).lock = none then some ((g.acquireProc c p).goto p (.sleepRelease chan), none)
      else none
    | .sleepRelease chan, .next =>
      match chan with
      | .proc _ => some ({ g with waitLock := none }.goto p (.sleepSched chan), none)
      | .other k => some ((g.setLock (guard k) none).goto p (.sleepSched chan), none)
    | .sleepSched chan, .next =>
      some (((g.setProc p { g.proc p with chan := some chan, state := .sleeping }).goto p
        (.sleepTidy chan)).swtch c p, none)
    | .sleepTidy chan, .next =>
      some ((g.setProc p { g.proc p with chan := none, lock := none }).goto p
        (.sleepReacquire chan), none)
    | .sleepReacquire chan, .next =>
      match chan with
      | .proc _ =>
        if g.waitLock = none then
          some ({ g with waitLock := some c }.goto p (.waitScan 0 false), none)
        else none
      | .other k =>
        if g.lock (guard k) = none then
          some ((g.setLock (guard k) (some c)).goto p (.kernel [guard k]), none)
        else none
    | .wakeup chan i after, .next =>
      if hi : i < NPROC then
        let q : Slot := ⟨i, hi⟩
        if q = p then some (g.goto p (.wakeup chan (i + 1) after), none)
        else if (g.proc q).lock = none then
          some ((g.setProc q ((g.proc q).wake chan)).goto p (.wakeup chan (i + 1) after), none)
        else none
      else some (g.goto p after.pc, none)
    | .kill pid i, .next =>
      if hi : i < NPROC then
        if (g.proc ⟨i, hi⟩).lock = none then some (g.killVisit p ⟨i, hi⟩ pid i) else none
      else some (g.goto p (.kernel []), some (.kill false))
    | .allocproc i, .next =>
      if hi : i < NPROC then
        if (g.proc ⟨i, hi⟩).lock = none then some (g.allocproc c p ⟨i, hi⟩ i, none) else none
      else some (g.goto p (.kernel []), some (.fork none))
    | .forkCopy np, .noMemory =>
      some ((g.setProc np { (g.proc np).free with lock := none }).goto p (.kernel []),
        some (.fork none))
    | .forkCopy np, .next =>
      some ((g.releaseProc np).goto p (.forkParent np (g.proc np).pid), none)
    | .forkParent np pid, .next =>
      if g.waitLock = none then
        some ((g.setProc np { g.proc np with parent := some p }).goto p (.forkRunnable np pid), none)
      else none
    | .forkRunnable np pid, .next =>
      if (g.proc np).lock = none then
        some ((g.setProc np { g.proc np with state := .runnable }).goto p (.kernel []),
          some (.fork (some pid)))
      else none
    | .exit status, .next =>
      if g.waitLock = none then
        some ({ g with waitLock := some c }.goto p (.reparent 0 status), none)
      else none
    | .reparent i status, .next =>
      if hi : i < NPROC then
        let q : Slot := ⟨i, hi⟩
        if (g.proc q).parent = some p then
          some ((g.setProc q { g.proc q with parent := some initproc }).goto p
            (.wakeup (.proc initproc) 0 (.reparent (i + 1) status)), none)
        else some (g.goto p (.reparent (i + 1) status), none)
      else
        match (g.proc p).parent with
        | some parent => some (g.goto p (.wakeup (.proc parent) 0 (.exitZombie status)), none)
        | none => some (g.goto p (.exitZombie status), none)
    | .exitZombie status, .next =>
      if (g.proc p).lock = none then
        some ({ (g.setProc p { g.proc p with xstate := status, state := .zombie, lock := some c }).goto
          p .exitRelease with
          history := { g.history with
            exited := g.history.exited ++ [⟨g.history.uid p, (g.proc p).pid, status⟩] } }, none)
      else none
    | .exitRelease, .next => some ({ g with waitLock := none }.goto p .exitSched, none)
    | .exitSched, .next => some ((g.goto p .exited).swtch c p, none)
    | .wait, .next =>
      if g.waitLock = none then
        some ({ g with waitLock := some c }.goto p (.waitScan 0 false), none)
      else none
    | .waitScan i havekids, act =>
      if hi : i < NPROC then
        let q : Slot := ⟨i, hi⟩
        if (g.proc q).parent = some p then
          if (g.proc q).lock = none then
            if (g.proc q).state = .zombie then
              match act with
              | .next => some (g.reap p q)
              | .copyFails => some ({ g with waitLock := none }.goto p (.kernel []),
                  some .waitCopyFails)
              | _ => none
            else if act matches .next then some (g.goto p (.waitScan (i + 1) true), none)
            else none
          else none
        else if act matches .next then some (g.goto p (.waitScan (i + 1) havekids), none)
        else none
      else if act matches .next then
        if !havekids then
          some ({ g with waitLock := none }.goto p (.kernel []), some .waitNoChildren)
        else if (g.proc p).killed then
          some ({ g with waitLock := none }.goto p (.kernel []), some .waitKilled)
        else some (g.goto p (.sleepAcquire (.proc p)), none)
      else none
    | _, _ => none

/-- None if the CPU is not at that point, waits for a lock, or panics. -/
def step (guard : K → L) (g : State C L K) : Event C L K → Option (State C L K × Option Return)
  | .schedule c p =>
    match (g.cpu c).runs with
    | .idle =>
      if (g.proc p).lock = none then
        if (g.proc p).state = .runnable then
          some ((g.setProc p { g.proc p with state := .running, lock := some c }).setCpu c
            { proc := some p, runs := .process p }, none)
        else some (g, none)
      else none
    | _ => none
  | .resched c =>
    match (g.cpu c).runs with
    | .back p => some ((g.releaseProc p).setCpu c {}, none)
    | _ => none
  | .run c act =>
    match (g.cpu c).runs with
    | .process p => g.exec guard c p act
    | _ => none
  | .interrupt q k =>
    if (g.proc q).lock = none then some (g.setProc q ((g.proc q).wake (.other k)), none) else none

def run (guard : K → L) (g : State C L K) :
    List (Event C L K) → Option (State C L K × List Return)
  | [] => some (g, [])
  | event :: events =>
    (g.step guard event).bind fun (next, result) =>
      (next.run guard events).map fun (last, results) => (last, result.toList ++ results)

/-- Reached from `boot` by events of some kind. -/
inductive ReachableBy (ok : Event C L K → Prop) (guard : K → L) : State C L K → Prop where
  | boot : ReachableBy ok guard boot
  | step {g next : State C L K} {event : Event C L K} {result : Option Return} :
      ReachableBy ok guard g → ok event → g.step guard event = some (next, result) →
      ReachableBy ok guard next

abbrev Reachable (guard : K → L) (g : State C L K) : Prop := ReachableBy (fun _ => True) guard g

namespace ReachableBy

variable {ok : Event C L K → Prop} {guard : K → L} {g last : State C L K}

theorem reachable (h : ReachableBy ok guard g) : Reachable guard g := by
  induction h with
  | boot => exact .boot
  | step _ _ hstep ih => exact ih.step trivial hstep

theorem run {events : List (Event C L K)} {results : List Return} (h : ReachableBy ok guard g)
    (hok : ∀ event ∈ events, ok event) (hrun : g.run guard events = some (last, results)) :
    ReachableBy ok guard last := by
  induction events generalizing g results with
  | nil =>
    cases hrun
    exact h
  | cons event events ih =>
    simp only [State.run, Option.bind_eq_some_iff, Option.map_eq_some_iff, Prod.exists] at hrun
    obtain ⟨next, result, hstep, last', results', hrest, heq⟩ := hrun
    cases heq
    exact ih (h.step (hok event List.mem_cons_self) hstep)
      (fun event' hmem => hok event' (List.mem_cons_of_mem _ hmem)) hrest

end ReachableBy

theorem Reachable.of_run {guard : K → L} {last : State C L K} {events : List (Event C L K)}
    {results : List Return} (hrun : boot.run guard events = some (last, results)) :
    Reachable guard last :=
  ReachableBy.boot.run (fun _ _ => trivial) hrun

end State

end Xv6.Machine
