import Xv6.Process.Memory

/-! `fork`, and the process table of `proc.c`. -/
namespace Xv6

open Function
open Lib Lib.Exec

def Process.freed (proc : Process) : Process :=
  { proc with
    trapframe := 0
    pagetable := 0
    sz := 0
    pid := 0
    parent := none
    name := update proc.name 0 0
    chan := 0
    killed := false
    xstate := 0
    state := .unused }

namespace Vm

variable (img : Image)

def freeTrapframe (trapframe : Nat) : Exec Vm VmPanic Unit :=
  if trapframe = 0 then pure () else kfree img trapframe

def freePagetable (pagetable sz : Nat) : Exec Vm VmPanic Unit :=
  if pagetable = 0 then pure () else procFreepagetable img pagetable sz

def freeprocMemory (trapframe pagetable sz : Nat) : Exec Vm VmPanic Unit := do
  freeTrapframe img trapframe
  freePagetable img pagetable sz

def copyTrapframe (dst src : Nat) (s : Vm) : Vm :=
  s.fill dst (ByteField.putBytes (s.page dst) 0 (ByteField.getBytes (s.page src) 0 (36 * 8)))

end Vm

namespace Kernel

variable (img : Image)

def editProc (k : Kernel) (q : Fin NPROC) (f : Process → Process) : Kernel :=
  k.setProc q (f (k.proc q))

def freeproc (q : Fin NPROC) : Exec Kernel Stop Unit := do
  let proc := (← get).proc q
  onVm (Vm.freeprocMemory img proc.trapframe proc.pagetable proc.sz)
  modify fun k => k.editProc q Process.freed

def allocpid : Exec Kernel Stop UInt32 := do
  let pid := (← get).nextpid
  modify fun k => { k with nextpid := k.nextpid + 1 }
  return pid

def allocproc : Exec Kernel Stop (Option (Fin NPROC)) := do
  let k ← get
  match (List.finRange NPROC).find? fun q => (k.proc q).state = .unused with
  | none => return none
  | some np => do
    let pid ← allocpid
    modify fun k => k.editProc np fun proc => { proc with pid := pid, state := .used }
    let trapframe ← onVm Vm.kalloc
    modify fun k => k.editProc np fun proc => { proc with trapframe := trapframe }
    if trapframe = 0 then do
      freeproc img np
      return none
    else do
      let pagetable ← onVm (Vm.procPagetable img trapframe)
      modify fun k => k.editProc np fun proc => { proc with pagetable := pagetable }
      if pagetable = 0 then do
        freeproc img np
        return none
      else return some np

def filedup (f : Fin NFILE) : Exec Kernel Stop (Fin NFILE) := do
  let k ← get
  if (k.ftable f).ref < 1 then throw (.fs .filedup)
  else do
    set (k.setFile f ((k.ftable f).setRef ((k.ftable f).ref + 1)))
    return f

def dupFiles (p np : Fin NPROC) : List (Fin NOFILE) → Exec Kernel Stop Unit
  | [] => pure ()
  | fd :: fds => do
    match ((← get).proc p).ofile fd with
    | none => dupFiles p np fds
    | some f => do
      let f ← filedup f
      modify fun k => k.editProc np fun proc => proc.setFd fd (some f)
      dupFiles p np fds

def forkRest (p np : Fin NPROC) : Exec Kernel Stop Int := do
  modify fun k => k.editProc np fun proc => { proc with sz := (k.proc p).sz }
  -- copy saved user registers, and cause fork to return 0 in the child.
  modify fun k => k.setVm ((k.vm.copyTrapframe (k.proc np).trapframe (k.proc p).trapframe).setEntry
    (k.proc np).trapframe 14 0)
  dupFiles p np (List.finRange NOFILE)
  let cwd ← cwdOf p
  let cwd ← onFs (Fs.idup cwd)
  modify fun k => k.editProc np fun proc => { proc with
    cwd := some cwd
    name := CString.safestrcpy proc.name (k.proc p).name 16 }
  let pid := ((← get).proc np).pid
  modify fun k => k.editProc np fun proc => { proc with parent := some p, state := .runnable }
  return pid.toBitVec.toInt

def fork (p : Fin NPROC) : Exec Kernel Stop Int := do
  match ← allocproc img with
  | none => return -1
  | some np => do
    let k ← get
    let copied ← onVm (Vm.uvmcopy img (k.proc p).pagetable (k.proc np).pagetable (k.proc p).sz)
    if copied < 0 then do
      freeproc img np
      return -1
    else forkRest p np

variable {k : Kernel} {q : Fin NPROC} {f g : Process → Process}

end Kernel

end Xv6
