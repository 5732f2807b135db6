import Xv6.Proc.Machine
import Xv6.Vm.PageTable
import Xv6.Sysfile.Names

/-! The state that system calls work on. -/
namespace Xv6

open Function
open Lib Lib.Exec

inductive FileType where
  | none
  | pipe
  | inode
  | device
  deriving DecidableEq, Repr

structure File where
  type : FileType
  ref : Int
  readable : Bool
  writable : Bool
  /-- The page of the pipe. -/
  pipe : Nat
  ip : Fin NINODE
  off : Nat
  major : BitVec 16

def File.setRef (file : File) (ref : Int) : File := { file with ref := ref }

def File.free (file : File) : File := { file with ref := 0, type := .none }

/-- The ends still open. -/
structure PipeEnds where
  readopen : Bool
  writeopen : Bool

structure Process where
  ofile : Fin NOFILE → Option (Fin NFILE)
  cwd : Option (Fin NINODE)
  state : Machine.ProcState := .unused
  chan : Nat := 0
  killed : Bool := false
  xstate : Int := 0
  pid : UInt32 := 0
  parent : Option (Fin NPROC) := none
  sz : Nat := 0 -- size of process memory (bytes)
  pagetable : Nat := 0
  trapframe : Nat := 0
  name : Nat → UInt8 := fun _ => 0 -- char name[16]

def Process.setFd (proc : Process) (fd : Fin NOFILE) (f : Option (Fin NFILE)) : Process :=
  { proc with ofile := update proc.ofile fd f }

structure Kernel where
  fs : Fs
  vm : Vm
  pipes : Nat → PipeEnds
  ftable : Fin NFILE → File
  proc : Fin NPROC → Process
  nextpid : UInt32 := 1

inductive Stop where
  | fs (e : Panic)
  | vm (e : VmPanic)
  deriving DecidableEq, Repr

def O_RDONLY : BitVec 32 := 0x000
def O_WRONLY : BitVec 32 := 0x001
def O_RDWR : BitVec 32 := 0x002
def O_CREATE : BitVec 32 := 0x200
def O_TRUNC : BitVec 32 := 0x400

/-- What `sys_open` stores for an inode of this type and major number. -/
def File.opened (file : File) (ip : Fin NINODE) (type major : BitVec 16) (omode : BitVec 32) : File :=
  let file := if type = T_DEVICE then { file with type := .device, major := major }
    else { file with type := .inode, off := 0 }
  { file with
    ip := ip
    readable := omode &&& O_WRONLY = 0
    writable := omode &&& O_WRONLY ≠ 0 ∨ omode &&& O_RDWR ≠ 0 }

namespace Fs

variable (sb : Superblock)

def openInode (cwd : Fin NINODE) (path : List UInt8) (omode : BitVec 32) :
    Exec Fs Panic (Option (Fin NINODE)) := do
  if omode &&& O_CREATE ≠ 0 then create sb cwd path T_FILE 0 0
  else
    match ← namei sb cwd path with
    | none => return none
    | some ip => do
      ilock sb ip
      if ((← get).itable ip).type = T_DIR ∧ omode ≠ O_RDONLY then do
        iunlockput sb ip
        return none
      else return some ip

def openTrunc (ip : Fin NINODE) (omode : BitVec 32) : Exec Fs Panic Unit := do
  if omode &&& O_TRUNC ≠ 0 ∧ ((← get).itable ip).type = T_FILE then itrunc sb ip else pure ()

end Fs

namespace Kernel

variable (sb : Superblock) (img : Image)

def setFs (k : Kernel) (f : Fs) : Kernel := { k with fs := f }

def setVm (k : Kernel) (v : Vm) : Kernel := { k with vm := v }

def onFs {α : Type} (m : Exec Fs Panic α) : Exec Kernel Stop α := embed Kernel.fs setFs .fs m

def onVm {α : Type} (m : Exec Vm VmPanic α) : Exec Kernel Stop α := embed Kernel.vm setVm .vm m

def setFile (k : Kernel) (f : Fin NFILE) (file : File) : Kernel :=
  { k with ftable := update k.ftable f file }

def setProc (k : Kernel) (p : Fin NPROC) (proc : Process) : Kernel :=
  { k with proc := update k.proc p proc }

def filealloc : Exec Kernel Stop (Option (Fin NFILE)) := do
  let k ← get
  match (List.finRange NFILE).find? fun f => (k.ftable f).ref = 0 with
  | none => return none
  | some f => do
    set (k.setFile f ((k.ftable f).setRef 1))
    return some f

def fdalloc (p : Fin NPROC) (f : Fin NFILE) : Exec Kernel Stop (Option (Fin NOFILE)) := do
  let k ← get
  match (List.finRange NOFILE).find? fun fd => (k.proc p).ofile fd = none with
  | none => return none
  | some fd => do
    set (k.setProc p ((k.proc p).setFd fd (some f)))
    return some fd

def pipeclose (pi : Nat) (writable : Bool) : Exec Kernel Stop Unit := do
  let ends := (← get).pipes pi
  let ends := if writable then { ends with writeopen := false } else { ends with readopen := false }
  modify fun k => { k with pipes := update k.pipes pi ends }
  if !ends.readopen ∧ !ends.writeopen then onVm (Vm.kfree img pi) else pure ()

def fileclose (f : Fin NFILE) : Exec Kernel Stop Unit := do
  let k ← get
  let ff := k.ftable f
  if ff.ref < 1 then throw (.fs .fileclose)
  else if ff.ref - 1 > 0 then set (k.setFile f (ff.setRef (ff.ref - 1)))
  else do
    set (k.setFile f ff.free)
    match ff.type with
    | .pipe => pipeclose img ff.pipe ff.writable
    | .inode | .device => do
      onFs Fs.beginOp
      onFs (Fs.iput sb ff.ip)
      onFs Fs.endOp
    | .none => pure ()

def cwdOf (p : Fin NPROC) : Exec Kernel Stop (Fin NINODE) := do
  match ((← get).proc p).cwd with
  | none => throw (.vm .kerneltrap)
  | some cwd => return cwd

def openFail (ip : Fin NINODE) : Exec Kernel Stop Int := do
  onFs (Fs.iunlockput sb ip)
  onFs Fs.endOp
  return -1

def openFile (p : Fin NPROC) (ip : Fin NINODE) (omode : BitVec 32) : Exec Kernel Stop Int := do
  let inode := (← get).fs.itable ip
  if inode.type = T_DEVICE ∧ (inode.major.toInt < 0 ∨ inode.major.toInt ≥ NDEV) then openFail sb ip
  else
    match ← filealloc with
    | none => openFail sb ip
    | some f =>
      match ← fdalloc p f with
      | none => do
        fileclose sb img f
        openFail sb ip
      | some fd => do
        modify fun k => k.setFile f ((k.ftable f).opened ip (k.fs.itable ip).type
          (k.fs.itable ip).major omode)
        onFs (Fs.openTrunc sb ip omode)
        onFs (Fs.iunlock ip)
        onFs Fs.endOp
        return fd.val

def sysOpen (p : Fin NPROC) (path : Option CStr) (omode : BitVec 32) : Exec Kernel Stop Int := do
  match path with
  | none => return -1
  | some path => do
    let cwd ← cwdOf p
    onFs Fs.beginOp
    match ← onFs (Fs.openInode sb cwd path.bytes omode) with
    | none => do
      onFs Fs.endOp
      return -1
    | some ip => openFile sb img p ip omode

def sysLink (p : Fin NPROC) (old new : Option CStr) : Exec Kernel Stop Int := do
  let cwd ← cwdOf p
  onFs (Fs.sysLink sb cwd old new)

def sysUnlink (p : Fin NPROC) (path : Option CStr) : Exec Kernel Stop Int := do
  let cwd ← cwdOf p
  onFs (Fs.sysUnlink sb cwd path)

def sysMkdir (p : Fin NPROC) (path : Option CStr) : Exec Kernel Stop Int := do
  let cwd ← cwdOf p
  onFs (Fs.sysMkdir sb cwd path)

def sysMknod (p : Fin NPROC) (path : Option CStr) (major minor : BitVec 32) :
    Exec Kernel Stop Int := do
  let cwd ← cwdOf p
  onFs (Fs.sysMknod sb cwd path major minor)

def sysChdir (p : Fin NPROC) (path : Option CStr) : Exec Kernel Stop Int := do
  let cwd ← cwdOf p
  onFs Fs.beginOp
  match path with
  | none => do
    onFs Fs.endOp
    return -1
  | some path =>
    match ← onFs (Fs.namei sb cwd path.bytes) with
    | none => do
      onFs Fs.endOp
      return -1
    | some ip => do
      onFs (Fs.ilock sb ip)
      if ((← get).fs.itable ip).type ≠ T_DIR then do
        onFs (Fs.iunlockput sb ip)
        onFs Fs.endOp
        return -1
      else do
        onFs (Fs.iunlock ip)
        onFs (Fs.iput sb cwd)
        onFs Fs.endOp
        modify fun k => k.setProc p { k.proc p with cwd := some ip }
        return 0

end Kernel

end Xv6
