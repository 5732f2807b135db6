import Mathlib.Data.Fintype.Card
import Mathlib.Algebra.BigOperators.Fin
import Xv6.Log.Store

/-! Group commit as a protocol. A step is one critical section of `log.lock` or one block write
of `commit`; `pending` and `committed` are never read by a step. -/
namespace Xv6.Group

structure Op where
  id : Nat
  /-- Distinct blocks passed to `log_write`. -/
  blocks : List Nat := []
  /-- How many were new in the header. -/
  added : Nat := 0
  deriving DecidableEq

/-- Where a process is inside `commit`. -/
inductive CommitPc where
  | writeLog (tail : Nat)
  | writeHead
  | installTrans (tail : Nat)
  | clear
  | eraseHead
  | finish
  deriving DecidableEq

inductive Phase where
  | outside
  | asleep -- in `begin_op`, sleeping on the log
  | woken -- in `begin_op`, about to test again
  | inOp (op : Op)
  | inCommit (pc : CommitPc)
  deriving DecidableEq

/-- The header written, and the calls of `log_write` behind it, as operation and block. -/
structure Transaction where
  header : List Nat
  writes : List (Nat × Nat)

structure State (P : Type) where
  store : Store
  proc : P → Phase
  nextOp : Nat := 0
  pending : List (Nat × Nat) := []
  committed : List Transaction := []

inductive Event (P : Type) where
  | beginOp (p : P)
  | logWrite (p : P) (blockno : Nat) (data : Block)
  | endOp (p : P)
  | commitStep (p : P)

variable {P : Type} [DecidableEq P]

def Op.log (op : Op) (log : Log) (blockno : Nat) : Op :=
  { op with
    blocks := op.blocks.insert blockno
    added := if blockno ∈ log.lh then op.added else op.added + 1 }

namespace State

def setProc (g : State P) (p : P) (phase : Phase) : State P :=
  { g with proc := Function.update g.proc p phase }

def setLog (g : State P) (log : Log) : State P :=
  { g with store := { g.store with log := log } }

def wakePhase : Phase → Phase
  | .asleep => .woken
  | phase => phase

def wakeup (g : State P) : State P := { g with proc := fun p => wakePhase (g.proc p) }

def beginOp (g : State P) (p : P) : State P :=
  let log := g.store.log
  if log.committing then g.setProc p .asleep
  else if log.lh.length + (log.outstanding + 1) * MAXOPBLOCKS > LOGSIZE then
    -- this op might exhaust log space; wait for commit.
    g.setProc p .asleep
  else
    { (g.setLog { log with outstanding := log.outstanding + 1 }).setProc p
        (.inOp { id := g.nextOp }) with nextOp := g.nextOp + 1 }

def logWrite (g : State P) (p : P) (op : Op) (blockno : Nat) (data : Block) :
    Except Panic (State P) := do
  let log ← g.store.log.write blockno
  pure { g with
    store := { g.store.setData blockno data with log := log }
    proc := Function.update g.proc p (.inOp (op.log g.store.log blockno))
    pending := g.pending ++ [(op.id, blockno)] }

def endOp (g : State P) (p : P) : Except Panic (State P) :=
  let log := { g.store.log with outstanding := g.store.log.outstanding - 1 }
  if log.committing then .error .logCommitting
  else if log.outstanding = 0 then
    let pc := if log.lh.length > 0 then CommitPc.writeLog 0 else CommitPc.finish
    .ok ((g.setLog { log with committing := true }).setProc p (.inCommit pc))
  else .ok ((g.setLog log).wakeup.setProc p .outside)

def commitStep (g : State P) (p : P) : CommitPc → State P
  | .writeLog tail =>
    if tail < g.store.log.lh.length then
      { g.setProc p (.inCommit (.writeLog (tail + 1))) with
        store := g.store.moveBlock (g.store.log.lh.getD tail 0) (g.store.log.start + tail + 1) }
    else g.setProc p (.inCommit .writeHead)
  | .writeHead =>
    { g.setProc p (.inCommit (.installTrans 0)) with
      store := g.store.writeHead
      pending := []
      committed := g.committed ++ [⟨g.store.log.lh, g.pending⟩] }
  | .installTrans tail =>
    if tail < g.store.log.lh.length then
      { g.setProc p (.inCommit (.installTrans (tail + 1))) with
        store := g.store.moveBlock (g.store.log.start + tail + 1) (g.store.log.lh.getD tail 0) }
    else g.setProc p (.inCommit .clear)
  | .clear => (g.setLog { g.store.log with lh := [] }).setProc p (.inCommit .eraseHead)
  | .eraseHead => { g.setProc p (.inCommit .finish) with store := g.store.writeHead }
  | .finish => (g.setLog { g.store.log with committing := false }).wakeup.setProc p .outside

/-- None if the process is not at that point, or would pass the limit of an operation. -/
def step (g : State P) : Event P → Option (Except Panic (State P))
  | .beginOp p =>
    match g.proc p with
    | .outside | .woken => some (.ok (g.beginOp p))
    | _ => none
  | .logWrite p blockno data =>
    match g.proc p with
    | .inOp op =>
      if (op.blocks.insert blockno).length ≤ MAXOPBLOCKS then some (g.logWrite p op blockno data)
      else none
    | _ => none
  | .endOp p =>
    match g.proc p with
    | .inOp _ => some (g.endOp p)
    | _ => none
  | .commitStep p =>
    match g.proc p with
    | .inCommit pc => some (.ok (g.commitStep p pc))
    | _ => none

def run (g : State P) : List (Event P) → Option (Except Panic (State P))
  | [] => some (.ok g)
  | event :: rest =>
    match g.step event with
    | some (.ok next) => next.run rest
    | other => other

def init (store : Store) (start size : Nat) : State P where
  store := { store with log := { start := start, size := size } }
  proc _ := .outside

inductive Reachable (initial : State P) : State P → Prop where
  | refl : Reachable initial initial
  | step {g next : State P} {event : Event P} :
      Reachable initial g → g.step event = some (.ok next) → Reachable initial next

end State

end Xv6.Group
