import Mathlib.Data.Multiset.Filter
import Mathlib.Data.Fintype.Basic
import Xv6.Fs.Node
import Xv6.Fs.Transaction

/-! The table of in-memory inodes. Code above it sees allocated inodes, references and locks;
the rest is hidden behind `Fs.Rep`. -/
namespace Xv6

open Lib Lib.Exec

structure Fs where
  store : Store
  itable : Fin NINODE → Inode

namespace Fs

variable (sb : Superblock)

def setInode (f : Fs) (k : Fin NINODE) (ip : Inode) : Fs :=
  { f with itable := Function.update f.itable k ip }

def onStore {α : Type} (m : Exec Store Panic α) : Exec Fs Panic α :=
  zoom Fs.store (fun f s => { f with store := s }) m

def onInode {α : Type} (k : Fin NINODE) (m : Inode → Exec Store Panic (α × Inode)) :
    Exec Fs Panic α := do
  let f ← get
  let (a, ip) ← onStore (m (f.itable k))
  modify fun f => f.setInode k ip
  return a

def beginOp : Exec Fs Panic Unit := onStore Store.beginOp

def endOp : Exec Fs Panic Unit := onStore Store.endOp

def iget (dev inum : Nat) : Exec Fs Panic (Fin NINODE) := do
  let f ← get
  -- Is the inode already in the table?
  match (List.finRange NINODE).find? fun k =>
      0 < (f.itable k).ref ∧ (f.itable k).dev = dev ∧ (f.itable k).inum = inum with
  | some k => do
    set (f.setInode k { f.itable k with ref := (f.itable k).ref + 1 })
    return k
  | none =>
    -- Recycle an inode entry.
    match (List.finRange NINODE).find? fun k => (f.itable k).ref = 0 with
    | none => throw .igetNoInodes
    | some k => do
      set (f.setInode k { f.itable k with dev := dev, inum := inum, ref := 1, valid := false })
      return k

def ialloc (dev : Nat) (type : BitVec 16) : Exec Fs Panic (Fin NINODE) := do
  let inum ← onStore (Store.iallocNum sb type)
  iget dev inum

def idup (k : Fin NINODE) : Exec Fs Panic (Fin NINODE) := do
  modify fun f => f.setInode k { f.itable k with ref := (f.itable k).ref + 1 }
  return k

def ilock (k : Fin NINODE) : Exec Fs Panic Unit := do
  let f ← get
  let ip := f.itable k
  if ip.ref < 1 then throw .ilock
  else if ip.locked then throw .deadlock
  else if ip.valid then set (f.setInode k { ip with locked := true })
  else do
    let dinode := f.store.dinode sb ip.inum
    set (f.setInode k { ip with toDinode := dinode, valid := true, locked := true })
    if dinode.type = 0 then throw .ilockNoType

def iunlock (k : Fin NINODE) : Exec Fs Panic Unit := do
  let f ← get
  let ip := f.itable k
  if !ip.locked ∨ ip.ref < 1 then throw .iunlock
  else set (f.setInode k { ip with locked := false })

def itrunc (k : Fin NINODE) : Exec Fs Panic Unit :=
  onInode k fun ip => do
    let ip ← Store.itrunc sb ip
    return ((), ip)

def update (k : Fin NINODE) (g : Inode → Inode) : Exec Fs Panic Unit :=
  onInode k fun ip => do
    Store.iupdate sb (g ip)
    return ((), g ip)

def iput (k : Fin NINODE) : Exec Fs Panic Unit := do
  let ip := (← get).itable k
  if ip.ref = 1 ∧ ip.valid ∧ ip.nlink = 0 then do
    -- inode has no links and no other references: truncate and free.
    if ip.locked then throw .deadlock
    else do
      itrunc sb k
      update sb k fun ip => { ip with type := 0 }
      modify fun f => f.setInode k { f.itable k with valid := false }
      modify fun f => f.setInode k { f.itable k with ref := (f.itable k).ref - 1 }
  else modify fun f => f.setInode k { f.itable k with ref := (f.itable k).ref - 1 }

def iunlockput (k : Fin NINODE) : Exec Fs Panic Unit := do
  iunlock k
  iput sb k

def readi (k : Fin NINODE) (dst : Nat → Bool) (off n : UInt32) :
    Exec Fs Panic (Int × List UInt8) :=
  onInode k fun ip => do
    let (r, bytes, ip) ← Store.readi sb ip dst off n
    return ((r, bytes), ip)

def writei (k : Fin NINODE) (src : Source) (off n : UInt32) : Exec Fs Panic Int :=
  onInode k fun ip => Store.writei sb ip src off n

end Fs

/-- What code above the inode layer sees: allocated inodes, references, locks, inodes read in,
and open transactions. -/
structure FsView where
  nodes : Nat → Option Node
  own : Multiset (Fin NINODE × Nat)
  locks : Set Nat
  valid : Set Nat
  ops : Int

namespace FsView

def referenced (own : Multiset (Fin NINODE × Nat)) : Set Nat := { i | ∃ k, (k, i) ∈ own }

def keep (a : FsView) (own : Multiset (Fin NINODE × Nat)) : FsView :=
  { a with own := own, valid := a.valid ∩ referenced own }

def setNode (a : FsView) (i : Nat) (node : Option Node) : FsView :=
  { a with nodes := Function.update a.nodes i node }

end FsView

/-- A table entry that stands for inode `i`. -/
structure Entry (sb : Superblock) (v : Volume) (a : FsView) (i : Nat) (ip : Inode) : Prop where
  inum : ip.inum = i
  dev : ip.dev = ROOTDEV
  valid_iff : ip.valid = true ↔ i ∈ a.valid
  locked_iff : ip.locked = true ↔ i ∈ a.locks
  coherent : i ∈ a.valid → i < sb.ninodes ∧ ip.toDinode = v.inode i ∧ ip.type ≠ 0

/-- The table agrees with the view and, where it is read, with the disk. -/
structure Table (sb : Superblock) (v : Volume) (a : FsView) (table : Fin NINODE → Inode) :
    Prop where
  count : ∀ k, (table k).ref = (a.own.countP fun p => p.1 = k : Nat)
  entry : ∀ p ∈ a.own, Entry sb v a p.2 (table p.1)
  unique : ∀ p ∈ a.own, ∀ q ∈ a.own, p.2 = q.2 → p.1 = q.1
  idle : ∀ k, (∀ p ∈ a.own, p.1 ≠ k) → (table k).locked = false
  valid_sub : a.valid ⊆ FsView.referenced a.own
  locks_sub : a.locks ⊆ a.valid

/-- `f` is well formed and looks like `a`. -/
structure Fs.Rep (sb : Superblock) (f : Fs) (a : FsView) : Prop where
  wf : WellFormed sb f.store
  ready : LogReady sb f.store
  nodes_eq : (f.store.volume sb).nodes = a.nodes
  ops_eq : f.store.log.outstanding = a.ops
  table : Table sb (f.store.volume sb) a f.itable

/-- A full disk, log or inode table, or the sleep for log space. -/
def Panic.Limit (e : Panic) : Prop :=
  e.Exhausted ∨ e = .noInodes ∨ e = .igetNoInodes ∨ e = .sleepsForever

end Xv6
