import Xv6.Fs.Path

/-! The system calls that make and remove names. A path is `none` where `argstr` fails. -/
namespace Xv6

open Lib Lib.Exec

def dot : Nat → UInt8 := CString.ofList [46]
def dotdot : Nat → UInt8 := CString.ofList [46, 46]

namespace Fs

variable (sb : Superblock) (cwd : Fin NINODE)

def linkBad (ip : Fin NINODE) : Exec Fs Panic Int := do
  ilock sb ip
  update sb ip fun ip => { ip with nlink := ip.nlink - 1 }
  iunlockput sb ip
  endOp
  return -1

def sysLink (old new : Option CStr) : Exec Fs Panic Int := do
  match old, new with
  | some old, some new => do
    beginOp
    match ← namei sb cwd old.bytes with
    | none => do
      endOp
      return -1
    | some ip => do
      ilock sb ip
      if ((← get).itable ip).type = T_DIR then do
        iunlockput sb ip
        endOp
        return -1
      else do
        update sb ip fun ip => { ip with nlink := ip.nlink + 1 }
        iunlock ip
        match ← nameiparent sb cwd new.bytes with
        | (none, _) => linkBad sb ip
        | (some dp, name) => do
          ilock sb dp
          let f ← get
          if (f.itable dp).dev ≠ (f.itable ip).dev then do
            iunlockput sb dp
            linkBad sb ip
          else if (← dirlink sb dp name (f.itable ip).inum) < 0 then do
            iunlockput sb dp
            linkBad sb ip
          else do
            iunlockput sb dp
            iput sb ip
            endOp
            return 0
  | _, _ => return -1

def unlinkBad (dp : Fin NINODE) : Exec Fs Panic Int := do
  iunlockput sb dp
  endOp
  return -1

/-- A directory must be empty. -/
def removable (ip : Fin NINODE) (type : BitVec 16) : Exec Fs Panic Bool :=
  if type = T_DIR then isdirempty sb ip else pure true

/-- `dp` loses an entry. -/
def loseDots (dp : Fin NINODE) (type : BitVec 16) : Exec Fs Panic Unit :=
  if type = T_DIR then update sb dp fun dp => { dp with nlink := dp.nlink - 1 } else pure ()

def sysUnlink (path : Option CStr) : Exec Fs Panic Int := do
  match path with
  | none => return -1
  | some path => do
    beginOp
    match ← nameiparent sb cwd path.bytes with
    | (none, _) => do
      endOp
      return -1
    | (some dp, name) => do
      ilock sb dp
      -- Cannot unlink "." or "..".
      if namecmp name dot = 0 ∨ namecmp name dotdot = 0 then unlinkBad sb dp
      else
        match ← dirlookup sb dp name with
        | none => unlinkBad sb dp
        | some (ip, off) => do
          ilock sb ip
          let inode := (← get).itable ip
          if inode.nlink.toInt < 1 then throw .unlinkNlink
          else do
            if !(← removable sb ip inode.type) then do
              iunlockput sb ip
              unlinkBad sb dp
            else do
              let r ← writei sb dp (kernelBytes (Dirent.bytes 0 (List.replicate DIRSIZ 0)))
                (UInt32.ofNat off) 16
              if r ≠ direntSize then throw .unlinkWritei
              else do
                loseDots sb dp ((← get).itable ip).type
                iunlockput sb dp
                update sb ip fun ip => { ip with nlink := ip.nlink - 1 }
                iunlockput sb ip
                endOp
                return 0

/-- Create . and .. in a new directory. -/
def makeDots (dp ip : Fin NINODE) (type : BitVec 16) : Exec Fs Panic Unit :=
  if type = T_DIR then do
    update sb dp fun dp => { dp with nlink := dp.nlink + 1 } -- for ".."
    -- No ip->nlink++ for ".": avoid cyclic ref count.
    if (← dirlink sb ip dot ((← get).itable ip).inum) < 0 then throw .createDots
    else if (← dirlink sb ip dotdot ((← get).itable dp).inum) < 0 then throw .createDots
    else pure ()
  else pure ()

/-- `create` for a name that `dp` lacks. -/
def createIn (dp : Fin NINODE) (name : Nat → UInt8) (type major minor : BitVec 16) :
    Exec Fs Panic (Option (Fin NINODE)) := do
  let ip ← ialloc sb ((← get).itable dp).dev type
  ilock sb ip
  update sb ip fun ip => { ip with major := major, minor := minor, nlink := 1 }
  makeDots sb dp ip type
  if (← dirlink sb dp name ((← get).itable ip).inum) < 0 then throw .createDirlink
  else do
    iunlockput sb dp
    return some ip

/-- Make an inode under the last name and return it locked. For a file an existing one will do. -/
def create (path : List UInt8) (type major minor : BitVec 16) :
    Exec Fs Panic (Option (Fin NINODE)) := do
  match ← nameiparent sb cwd path with
  | (none, _) => return none
  | (some dp, name) => do
    ilock sb dp
    match ← dirlookup sb dp name with
    | some (ip, _) => do
      iunlockput sb dp
      ilock sb ip
      let found := ((← get).itable ip).type
      if type = T_FILE ∧ (found = T_FILE ∨ found = T_DEVICE) then return some ip
      else do
        iunlockput sb ip
        return none
    | none => createIn sb dp name type major minor

/-- What `sys_mkdir` and `sys_mknod` do with the result. -/
def createdOrFailed (ip : Option (Fin NINODE)) : Exec Fs Panic Int := do
  match ip with
  | none => do
    endOp
    return -1
  | some ip => do
    iunlockput sb ip
    endOp
    return 0

def sysMkdir (path : Option CStr) : Exec Fs Panic Int := do
  beginOp
  match path with
  | none => do
    endOp
    return -1
  | some path => do
    createdOrFailed sb (← create sb cwd path.bytes T_DIR 0 0)

def sysMknod (path : Option CStr) (major minor : BitVec 32) : Exec Fs Panic Int := do
  beginOp
  match path with
  | none => do
    endOp
    return -1
  | some path => do
    createdOrFailed sb
      (← create sb cwd path.bytes T_DEVICE (major.setWidth 16) (minor.setWidth 16))

end Fs

end Xv6
