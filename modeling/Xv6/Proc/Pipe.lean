import Mathlib.Data.List.Basic
import Mathlib.Logic.Function.Basic
import Xv6.Param

/-! Pipes between any number of readers and writers. A step is one critical section of
`pi->lock`; the bytes accepted and delivered are never read by the code. -/
namespace Xv6

def PIPESIZE : Nat := 512

instance : NeZero PIPESIZE := ⟨by decide⟩

structure Pipe where
  data : Fin PIPESIZE → UInt8
  nread : UInt32 := 0 -- number of bytes read
  nwrite : UInt32 := 0 -- number of bytes written
  readopen : Bool := true -- read fd is still open
  writeopen : Bool := true -- write fd is still open

namespace Pipe

def slot (n : UInt32) : Fin PIPESIZE := Fin.ofNat PIPESIZE n.toNat

def push (pi : Pipe) (ch : UInt8) : Pipe :=
  { pi with data := Function.update pi.data (slot pi.nwrite) ch, nwrite := pi.nwrite + 1 }

/-- On `sleep`, on the test of `readopen` and `killed`, or after the loop. -/
inductive Ends where
  | sleeps (i : Nat)
  | fails
  | finishes (i : Nat)

/-- The loop from `i` on, and the bytes it accepts; `src` is what `copyin` finds. -/
def pipewriteLoop (src : Nat → Option UInt8) (killed : Nat → Bool) :
    Nat → Nat → Pipe → Pipe × List UInt8 × Ends
  | 0, i, pi => (pi, [], .finishes i)
  | todo + 1, i, pi =>
    if pi.readopen = false ∨ killed i then (pi, [], .fails)
    else if pi.nwrite = pi.nread + UInt32.ofNat PIPESIZE then (pi, [], .sleeps i)
    else
      match src i with
      | none => (pi, [], .finishes i)
      | some ch =>
        let (pi, bytes, ends) := pipewriteLoop src killed todo (i + 1) (pi.push ch)
        (pi, ch :: bytes, ends)

/-- The `for` loop, and the bytes it delivers; `dst` is whether `copyout` succeeds. -/
def pipereadLoop (dst : Nat → Bool) : Nat → Nat → Pipe → Pipe × List UInt8 × Nat
  | 0, i, pi => (pi, [], i)
  | todo + 1, i, pi =>
    if pi.nread = pi.nwrite then (pi, [], i)
    else
      let ch := pi.data (slot pi.nread)
      let pi := { pi with nread := pi.nread + 1 }
      if dst i then
        let (pi, bytes, count) := pipereadLoop dst todo (i + 1) pi
        (pi, ch :: bytes, count)
      else (pi, [], i)

def closeEnd (pi : Pipe) (writable : Bool) : Pipe :=
  if writable then { pi with writeopen := false } else { pi with readopen := false }

def contents (pi : Pipe) : List UInt8 :=
  (List.range (pi.nwrite - pi.nread).toNat).map fun i =>
    pi.data (slot (pi.nread + UInt32.ofNat i))

inductive Phase where
  | outside
  | writing (src : Nat → Option UInt8) (n : Int) (i : Nat) (asleep : Bool)
  | reading (dst : Nat → Bool) (n : Int) (asleep : Bool)

structure State (P : Type) where
  /-- Until its page is freed. -/
  pipe : Option Pipe
  proc : P → Phase := fun _ => .outside
  accepted : List UInt8 := []
  delivered : List UInt8 := []

inductive Event (P : Type) where
  | pipewrite (p : P) (src : Nat → Option UInt8) (n : Int) (killed : Nat → Bool)
  | piperead (p : P) (dst : Nat → Bool) (n : Int) (killed : Bool)
  /-- A woken process takes the lock again. -/
  | resume (p : P) (killed : Nat → Bool)
  | kill (p : P)
  | pipeclose (writable : Bool)

namespace State

variable {P : Type} [DecidableEq P]

/-- `wakeup(&pi->nread)`. -/
def wakeReaders (g : State P) : State P :=
  { g with proc := fun p => match g.proc p with
    | .reading dst n _ => .reading dst n false
    | phase => phase }

def wakeWriters (g : State P) : State P :=
  { g with proc := fun p => match g.proc p with
    | .writing src n i _ => .writing src n i false
    | phase => phase }

def setProc (g : State P) (p : P) (phase : Phase) : State P :=
  { g with proc := Function.update g.proc p phase }

def write (g : State P) (p : P) (pi : Pipe) (src : Nat → Option UInt8) (n : Int) (i : Nat)
    (killed : Nat → Bool) : State P × Option Int :=
  let (pi, bytes, ends) := pipewriteLoop src killed (n.toNat - i) i pi
  let g := { g with pipe := some pi, accepted := g.accepted ++ bytes }
  match ends with
  | .sleeps i => (g.wakeReaders.setProc p (.writing src n i true), none)
  | .fails => (g.setProc p .outside, some (-1))
  | .finishes i => (g.wakeReaders.setProc p .outside, some i)

def read (g : State P) (p : P) (pi : Pipe) (dst : Nat → Bool) (n : Int) (killed : Bool) :
    State P × Option Int :=
  if pi.nread = pi.nwrite ∧ pi.writeopen then
    if killed then (g.setProc p .outside, some (-1))
    else (g.setProc p (.reading dst n true), none)
  else
    let (pi, bytes, i) := pipereadLoop dst n.toNat 0 pi
    let g := { g with pipe := some pi, delivered := g.delivered ++ bytes }
    (g.wakeWriters.setProc p .outside, some i)

def close (g : State P) (pi : Pipe) (writable : Bool) : State P :=
  let g := if writable then g.wakeReaders else g.wakeWriters
  let pi := pi.closeEnd writable
  if pi.readopen = false ∧ pi.writeopen = false then { g with pipe := none }
  else { g with pipe := some pi }

/-- None if the process is not at that point or the pipe is gone. -/
def step (g : State P) (event : Event P) : Option (State P × Option Int) :=
  g.pipe.bind fun pi =>
    match event with
    | .pipewrite p src n killed =>
      match g.proc p with
      | .outside => some (g.write p pi src n 0 killed)
      | _ => none
    | .piperead p dst n killed =>
      match g.proc p with
      | .outside => some (g.read p pi dst n killed)
      | _ => none
    | .resume p killed =>
      match g.proc p with
      | .writing src n i false => some (g.write p pi src n i killed)
      | .reading dst n false => some (g.read p pi dst n (killed 0))
      | _ => none
    | .kill p =>
      match g.proc p with
      | .writing src n i _ => some (g.setProc p (.writing src n i false), none)
      | .reading dst n _ => some (g.setProc p (.reading dst n false), none)
      | .outside => some (g, none)
    | .pipeclose writable => some (g.close pi writable, none)

end State

/-- The user copies of the call succeed. -/
def Event.Copies {P : Type} : Event P → Prop
  | .pipewrite _ src _ _ => ∀ i, src i ≠ none
  | .piperead _ dst _ _ => ∀ i, dst i = true
  | _ => True

inductive Reachable {P : Type} [DecidableEq P] : State P → Prop where
  | pipealloc (data : Fin PIPESIZE → UInt8) : Reachable { pipe := some { data := data } }
  | step {g next : State P} {event : Event P} {result : Option Int} :
      Reachable g → event.Copies → g.step event = some (next, result) → Reachable next

end Pipe

end Xv6
