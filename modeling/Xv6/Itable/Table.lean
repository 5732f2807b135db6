import Mathlib.Data.Multiset.Count
import Mathlib.Data.Fintype.Basic
import Xv6.Fs.Inode

/-! The table of in-memory inodes used by several processes. A step is one critical section of
`itable.lock`, a sleep lock or a buffer. -/
namespace Xv6.Itable

open Function

structure Entry (P : Type) extends Dinode where
  dev : Nat
  inum : Nat
  ref : Int
  valid : Bool
  lock : Option P

namespace Entry

variable {P : Type} (ip : Entry P) (d : Dinode)

def setData : Entry P :=
  { ip with toDinode := d }

@[simp] theorem setData_data : (ip.setData d).toDinode = d := rfl

@[simp] theorem setData_dev : (ip.setData d).dev = ip.dev := rfl

@[simp] theorem setData_inum : (ip.setData d).inum = ip.inum := rfl

@[simp] theorem setData_ref : (ip.setData d).ref = ip.ref := rfl

@[simp] theorem setData_valid : (ip.setData d).valid = ip.valid := rfl

@[simp] theorem setData_lock : (ip.setData d).lock = ip.lock := rfl

end Entry

inductive Pc where
  /-- In the code that calls them. -/
  | caller
  /-- Before `bread` of the block of inode `inum`. -/
  | ialloc (dev : Nat) (type : BitVec 16) (inum : Nat)
  /-- Before `iget` of the inode marked allocated. -/
  | claimed (dev inum : Nat)
  /-- In `ilock` with the lock, before `bread`. -/
  | load (k : Fin NINODE)
  /-- In `iput` with `itable.lock`, before `acquiresleep`. -/
  | iputLock (k : Fin NINODE)
  /-- In `itrunc`, before `addrs[i]` or `iupdate`. -/
  | itrunc (k : Fin NINODE) (i : Nat)
  /-- In `iput`, before `ip->type = 0` and `iupdate`. -/
  | free (k : Fin NINODE)
  /-- In `iput`, before `ip->valid = 0` and `releasesleep`. -/
  | invalidate (k : Fin NINODE)
  /-- In `iput`, before the second `acquire`. -/
  | drop (k : Fin NINODE)
  deriving DecidableEq

structure State (P : Type) where
  /-- Who holds `itable.lock`. -/
  lock : Option P
  inode : Fin NINODE → Entry P
  /-- Inode `inum` of device `dev` in the buffers. -/
  disk : Nat → Nat → Dinode
  pc : P → Pc
  /-- References returned and not dropped, with their holders. -/
  refs : Multiset (P × Fin NINODE)
  /-- Changed since it was read or last given to `iupdate`. -/
  dirty : Fin NINODE → Bool
  /-- Named by a directory entry. -/
  named : Nat → Nat → Bool

inductive Act where
  | iget (dev inum : Nat)
  | idup (k : Fin NINODE)
  | ilock (k : Fin NINODE)
  | iunlock (k : Fin NINODE)
  /-- Assign to fields. -/
  | change (k : Fin NINODE) (d : Dinode)
  | iupdate (k : Fin NINODE)
  | ialloc (dev : Nat) (type : BitVec 16)
  | iput (k : Fin NINODE)
  /-- Go on with the call. -/
  | next

inductive Event (P : Type) where
  | run (p : P) (act : Act)
  /-- Directory contents change. -/
  | entries (named : Nat → Nat → Bool)

namespace State

variable {P : Type} (s : State P)

def setInode (k : Fin NINODE) (ip : Entry P) : State P :=
  { s with inode := update s.inode k ip }

def setDisk (dev inum : Nat) (d : Dinode) : State P :=
  { s with disk := update s.disk dev (update (s.disk dev) inum d) }

def setDirty (k : Fin NINODE) (b : Bool) : State P :=
  { s with dirty := update s.dirty k b }

@[simp] theorem setInode_self (k : Fin NINODE) (ip : Entry P) :
    (s.setInode k ip).inode k = ip :=
  update_self ..

theorem setInode_of_ne {k l : Fin NINODE} (ip : Entry P) (hl : l ≠ k) :
    (s.setInode k ip).inode l = s.inode l :=
  update_of_ne hl ..

@[simp] theorem setInode_setData_lock (k l : Fin NINODE) (d : Dinode) :
    ((s.setInode k ((s.inode k).setData d)).inode l).lock = (s.inode l).lock := by
  by_cases hl : l = k
  · rw [hl, setInode_self]
    rfl
  · rw [setInode_of_ne _ _ hl]

@[simp] theorem setInode_setData_valid (k l : Fin NINODE) (d : Dinode) :
    ((s.setInode k ((s.inode k).setData d)).inode l).valid = (s.inode l).valid := by
  by_cases hl : l = k
  · rw [hl, setInode_self]
    rfl
  · rw [setInode_of_ne _ _ hl]

theorem setInode_eq (k : Fin NINODE) : s.setInode k (s.inode k) = s := by
  unfold setInode
  rw [update_eq_self]

@[simp] theorem setDisk_self (dev inum : Nat) (d : Dinode) :
    (s.setDisk dev inum d).disk dev inum = d := by
  simp [setDisk]

theorem setDisk_of_ne {dev inum dev' inum' : Nat} (d : Dinode) (h : dev' = dev → inum' ≠ inum) :
    (s.setDisk dev inum d).disk dev' inum' = s.disk dev' inum' := by
  obtain rfl | hdev := eq_or_ne dev' dev
  · simp [setDisk, h rfl]
  · simp [setDisk, hdev]

theorem setDirty_of_ne {k l : Fin NINODE} (b : Bool) (hl : l ≠ k) :
    (s.setDirty k b).dirty l = s.dirty l :=
  update_of_ne hl ..

@[simp] theorem setDirty_self (k : Fin NINODE) (b : Bool) : (s.setDirty k b).dirty k = b :=
  update_self ..

@[simp] theorem setDirty_inode (k : Fin NINODE) (b : Bool) : (s.setDirty k b).inode = s.inode :=
  rfl

@[simp] theorem setInode_refs (k : Fin NINODE) (ip : Entry P) :
    (s.setInode k ip).refs = s.refs :=
  rfl

@[simp] theorem setDirty_refs (k : Fin NINODE) (b : Bool) : (s.setDirty k b).refs = s.refs := rfl

@[simp] theorem setDirty_disk (k : Fin NINODE) (b : Bool) : (s.setDirty k b).disk = s.disk := rfl

def writeBack (k : Fin NINODE) : State P :=
  (s.setDisk (s.inode k).dev (s.inode k).inum (s.inode k).toDinode).setDirty k false

@[simp] theorem writeBack_inode (k : Fin NINODE) : (s.writeBack k).inode = s.inode := rfl

@[simp] theorem writeBack_refs (k : Fin NINODE) : (s.writeBack k).refs = s.refs := rfl

@[simp] theorem writeBack_disk (k : Fin NINODE) :
    (s.writeBack k).disk (s.inode k).dev (s.inode k).inum = (s.inode k).toDinode :=
  s.setDisk_self ..

variable [DecidableEq P]

def goto (p : P) (pc : Pc) : State P :=
  { s with pc := update s.pc p pc }

@[simp] theorem goto_self (p : P) (pc : Pc) : (s.goto p pc).pc p = pc :=
  update_self ..

theorem goto_of_ne {p q : P} (pc : Pc) (hq : q ≠ p) : (s.goto p pc).pc q = s.pc q :=
  update_of_ne hq ..

@[simp] theorem goto_inode (p : P) (pc : Pc) : (s.goto p pc).inode = s.inode := rfl

@[simp] theorem goto_disk (p : P) (pc : Pc) : (s.goto p pc).disk = s.disk := rfl

@[simp] theorem goto_dirty (p : P) (pc : Pc) : (s.goto p pc).dirty = s.dirty := rfl

@[simp] theorem goto_refs (p : P) (pc : Pc) : (s.goto p pc).refs = s.refs := rfl

theorem goto_eq {p : P} {pc : Pc} (here : s.pc p = pc) : s.goto p pc = s := by
  unfold goto
  rw [← here, update_eq_self]

/-- One more reference to entry `k`, whose contents become `ip`. -/
def gain (p : P) (k : Fin NINODE) (ip : Entry P) : State P :=
  { s.setInode k ip with refs := (p, k) ::ₘ s.refs }

def lose (p : P) (k : Fin NINODE) : State P :=
  { s.setInode k { s.inode k with ref := (s.inode k).ref - 1 } with refs := s.refs.erase (p, k) }

def iget (p : P) (dev inum : Nat) : Option (Except Panic (State P)) :=
  if s.lock.isSome then none
  else
    -- Is the inode already in the table?
    match (List.finRange NINODE).find? fun k =>
        0 < (s.inode k).ref ∧ (s.inode k).dev = dev ∧ (s.inode k).inum = inum with
    | some k => some (.ok (s.gain p k { s.inode k with ref := (s.inode k).ref + 1 }))
    | none =>
      -- Recycle an inode entry.
      match (List.finRange NINODE).find? fun k => (s.inode k).ref = 0 with
      | none => some (.error .igetNoInodes)
      | some k => some (.ok (s.gain p k
          { s.inode k with dev := dev, inum := inum, ref := 1, valid := false }))

def call (p : P) : Act → Option (Except Panic (State P))
  | .iget dev inum => s.iget p dev inum
  | .idup k =>
    if s.lock.isSome then none
    else some (.ok (s.gain p k { s.inode k with ref := (s.inode k).ref + 1 }))
  | .ilock k =>
    if (s.inode k).ref < 1 then some (.error .ilock)
    else if (s.inode k).lock.isSome then none
    else some (.ok ((s.setInode k { s.inode k with lock := some p }).goto p
      (if (s.inode k).valid then .caller else .load k)))
  | .iunlock k =>
    if (s.inode k).lock ≠ some p ∨ (s.inode k).ref < 1 then some (.error .iunlock)
    else some (.ok (s.setInode k { s.inode k with lock := none }))
  | .change k d => some (.ok ((s.setInode k ((s.inode k).setData d)).setDirty k true))
  | .iupdate k => some (.ok (s.writeBack k))
  | .ialloc dev type => some (.ok (s.goto p (.ialloc dev type 1)))
  | .iput k =>
    if s.lock.isSome then none
    else if (s.inode k).ref = 1 ∧ (s.inode k).valid = true ∧ (s.inode k).nlink = 0 then
      some (.ok ({ s with lock := some p }.goto p (.iputLock k)))
    else some (.ok (s.lose p k))
  | .next => none

def next (ninodes : Nat) (p : P) : Pc → Option (Except Panic (State P))
  | .caller => none
  | .ialloc dev type inum =>
    if ninodes ≤ inum then some (.error .noInodes)
    else if (s.disk dev inum).type = 0 then -- a free inode
      some (.ok ((s.setDisk dev inum { Dinode.zero with type := type }).goto p (.claimed dev inum)))
    else some (.ok (s.goto p (.ialloc dev type (inum + 1))))
  | .claimed dev inum => (s.goto p .caller).iget p dev inum
  | .load k =>
    let d := s.disk (s.inode k).dev (s.inode k).inum
    if d.type = 0 then some (.error .ilockNoType)
    else some (.ok (((s.setInode k { (s.inode k).setData d with valid := true }).setDirty k
      false).goto p .caller))
  | .iputLock k =>
    if (s.inode k).lock.isSome then none
    else some (.ok ({ s.setInode k { s.inode k with lock := some p } with lock := none }.goto p
      (.itrunc k 0)))
  | .itrunc k i =>
    if i ≤ NDIRECT then
      some (.ok (((s.setInode k ((s.inode k).setData
        ((s.inode k).toDinode.setAddr i 0))).setDirty k true).goto p (.itrunc k (i + 1))))
    else
      some (.ok (((s.setInode k ((s.inode k).setData
        { (s.inode k).toDinode with size := 0 })).writeBack k).goto p (.free k)))
  | .free k =>
    some (.ok (((s.setInode k ((s.inode k).setData
      { (s.inode k).toDinode with type := 0 })).writeBack k).goto p (.invalidate k)))
  | .invalidate k =>
    some (.ok ((s.setInode k { s.inode k with valid := false, lock := none }).goto p (.drop k)))
  | .drop k =>
    if s.lock.isSome then none
    else some (.ok ((s.lose p k).goto p .caller))

def step (ninodes : Nat) : Event P → Option (Except Panic (State P))
  | .run p .next => s.next ninodes p (s.pc p)
  | .run p act => if s.pc p = .caller then s.call p act else none
  | .entries named => some (.ok { s with named := named })

/-- The links of an inode: in memory if the table has read it. -/
def nlink (dev inum : Nat) : BitVec 16 :=
  match (List.finRange NINODE).find? fun k =>
      0 < (s.inode k).ref ∧ (s.inode k).dev = dev ∧ (s.inode k).inum = inum ∧
        (s.inode k).valid = true with
  | some k => (s.inode k).nlink
  | none => (s.disk dev inum).nlink

def Linked : Prop := ∀ dev inum, s.named dev inum = true → s.nlink dev inum ≠ 0

/-- Processes use references they hold, change, write and unlock inodes they have locked, never
assign to `ip->type`, and call `iget` for inodes that a locked directory names. -/
def Allowed : Event P → Prop
  | .run _ (.iget dev inum) => s.named dev inum = true
  | .run p (.idup k) | .run p (.ilock k) => (p, k) ∈ s.refs
  | .run p (.iunlock k) | .run p (.iupdate k) => (p, k) ∈ s.refs ∧ (s.inode k).lock = some p
  | .run p (.change k d) =>
    (p, k) ∈ s.refs ∧ (s.inode k).lock = some p ∧ d.type = (s.inode k).type
  | .run _ (.ialloc _ type) => type ≠ 0
  | .run p (.iput k) => (if (s.inode k).lock = some p then 2 else 1) ≤ s.refs.count (p, k)
  | .run _ .next => True
  | .entries _ => True

def iinit (disk : Nat → Nat → Dinode) (named : Nat → Nat → Bool) : State P where
  lock := none
  inode _ := { Dinode.zero with dev := 0, inum := 0, ref := 0, valid := false, lock := none }
  disk := disk
  pc _ := .caller
  refs := 0
  dirty _ := false
  named := named

end State

variable {P : Type} [DecidableEq P]

inductive Reachable (ninodes : Nat) : State P → Prop where
  | iinit {disk : Nat → Nat → Dinode} {named : Nat → Nat → Bool}
      (free : ∀ dev inum, (disk dev inum).type = 0 → (disk dev inum).nlink = 0)
      (linked : (State.iinit disk named : State P).Linked) : Reachable ninodes (.iinit disk named)
  | step {s next : State P} {event : Event P} (reach : Reachable ninodes s)
      (allowed : s.Allowed event) (run : s.step ninodes event = some (.ok next))
      (linked : next.Linked) : Reachable ninodes next

inductive Got (inode : Fin NINODE → Entry P) (dev inum : Nat) : Fin NINODE → Entry P → Prop where
  | hit (k : Fin NINODE) (used : 0 < (inode k).ref) (dev_eq : (inode k).dev = dev)
      (inum_eq : (inode k).inum = inum) :
      Got inode dev inum k { inode k with ref := (inode k).ref + 1 }
  | recycled (k : Fin NINODE) (unused : (inode k).ref = 0)
      (missing : ∀ l, 0 < (inode l).ref → (inode l).dev = dev → (inode l).inum ≠ inum) :
      Got inode dev inum k { inode k with dev := dev, inum := inum, ref := 1, valid := false }

inductive Step (s : State P) : Event P → State P → Prop where
  | iget (p : P) (dev inum : Nat) (k : Fin NINODE) (ip : Entry P) (here : s.pc p = .caller)
      (named : s.named dev inum = true) (got : Got s.inode dev inum k ip) :
      Step s (.run p (.iget dev inum)) (s.gain p k ip)
  | idup (p : P) (k : Fin NINODE) (here : s.pc p = .caller) (holds : (p, k) ∈ s.refs) :
      Step s (.run p (.idup k)) (s.gain p k { s.inode k with ref := (s.inode k).ref + 1 })
  | ilock (p : P) (k : Fin NINODE) (here : s.pc p = .caller) (holds : (p, k) ∈ s.refs)
      (unlocked : (s.inode k).lock = none) :
      Step s (.run p (.ilock k)) ((s.setInode k { s.inode k with lock := some p }).goto p
        (if (s.inode k).valid then .caller else .load k))
  | iunlock (p : P) (k : Fin NINODE) (here : s.pc p = .caller)
      (locked : (s.inode k).lock = some p) :
      Step s (.run p (.iunlock k)) (s.setInode k { s.inode k with lock := none })
  | change (p : P) (k : Fin NINODE) (d : Dinode) (here : s.pc p = .caller)
      (locked : (s.inode k).lock = some p) (type_eq : d.type = (s.inode k).type) :
      Step s (.run p (.change k d))
        ((s.setInode k ((s.inode k).setData d)).setDirty k true)
  | iupdate (p : P) (k : Fin NINODE) (here : s.pc p = .caller)
      (locked : (s.inode k).lock = some p) : Step s (.run p (.iupdate k)) (s.writeBack k)
  | ialloc (p : P) (dev : Nat) (type : BitVec 16) (here : s.pc p = .caller) (used : type ≠ 0) :
      Step s (.run p (.ialloc dev type)) (s.goto p (.ialloc dev type 1))
  | iputKeep (p : P) (k : Fin NINODE) (here : s.pc p = .caller)
      (holds : (if (s.inode k).lock = some p then 2 else 1) ≤ s.refs.count (p, k)) :
      Step s (.run p (.iput k)) (s.lose p k)
  | iputLast (p : P) (k : Fin NINODE) (here : s.pc p = .caller)
      (holds : (if (s.inode k).lock = some p then 2 else 1) ≤ s.refs.count (p, k))
      (free : s.lock = none) (ref : (s.inode k).ref = 1) (valid : (s.inode k).valid = true)
      (nlink : (s.inode k).nlink = 0) :
      Step s (.run p (.iput k)) ({ s with lock := some p }.goto p (.iputLock k))
  | skip (p : P) (dev : Nat) (type : BitVec 16) (inum : Nat) (here : s.pc p = .ialloc dev type inum) :
      Step s (.run p .next) (s.goto p (.ialloc dev type (inum + 1)))
  | claim (p : P) (dev : Nat) (type : BitVec 16) (inum : Nat) (here : s.pc p = .ialloc dev type inum)
      (free : (s.disk dev inum).type = 0) :
      Step s (.run p .next)
        ((s.setDisk dev inum { Dinode.zero with type := type }).goto p (.claimed dev inum))
  | igetClaimed (p : P) (dev inum : Nat) (k : Fin NINODE) (ip : Entry P)
      (here : s.pc p = .claimed dev inum) (got : Got s.inode dev inum k ip) :
      Step s (.run p .next) ((s.goto p .caller).gain p k ip)
  | load (p : P) (k : Fin NINODE) (here : s.pc p = .load k)
      (used : (s.disk (s.inode k).dev (s.inode k).inum).type ≠ 0) :
      Step s (.run p .next) (((s.setInode k
        { (s.inode k).setData (s.disk (s.inode k).dev (s.inode k).inum) with
          valid := true }).setDirty k false).goto p .caller)
  | iputLock (p : P) (k : Fin NINODE) (here : s.pc p = .iputLock k) :
      Step s (.run p .next) ({ s.setInode k { s.inode k with lock := some p } with
        lock := none }.goto p (.itrunc k 0))
  | truncate (p : P) (k : Fin NINODE) (i : Nat) (here : s.pc p = .itrunc k i) :
      Step s (.run p .next) (((s.setInode k ((s.inode k).setData
        ((s.inode k).toDinode.setAddr i 0))).setDirty k true).goto p (.itrunc k (i + 1)))
  | truncated (p : P) (k : Fin NINODE) (i : Nat) (here : s.pc p = .itrunc k i) :
      Step s (.run p .next)
        (((s.setInode k ((s.inode k).setData
          { (s.inode k).toDinode with size := 0 })).writeBack k).goto p (.free k))
  | free (p : P) (k : Fin NINODE) (here : s.pc p = .free k) :
      Step s (.run p .next)
        (((s.setInode k ((s.inode k).setData
          { (s.inode k).toDinode with type := 0 })).writeBack k).goto p (.invalidate k))
  | invalidate (p : P) (k : Fin NINODE) (here : s.pc p = .invalidate k) :
      Step s (.run p .next)
        ((s.setInode k { s.inode k with valid := false, lock := none }).goto p (.drop k))
  | drop (p : P) (k : Fin NINODE) (here : s.pc p = .drop k) :
      Step s (.run p .next) ((s.lose p k).goto p .caller)
  | entries (named : Nat → Nat → Bool) : Step s (.entries named) { s with named := named }

variable {ninodes : Nat} {s next : State P} {p : P}

omit [DecidableEq P] in
theorem got_of_iget {dev inum : Nat} (h : s.iget p dev inum = some (.ok next)) :
    ∃ k ip, Got s.inode dev inum k ip ∧ next = s.gain p k ip := by
  unfold State.iget at h
  split at h
  · cases h
  · split at h
    · rename_i k hfind
      cases h
      have hit := List.find?_some hfind
      simp only [decide_eq_true_eq] at hit
      exact ⟨k, _, .hit k hit.1 hit.2.1 hit.2.2, rfl⟩
    · rename_i hmissing
      split at h
      · cases h
      · rename_i k hfind
        cases h
        have unused := List.find?_some hfind
        simp only [decide_eq_true_eq] at unused
        refine ⟨k, _, .recycled k unused ?_, rfl⟩
        intro l hused hdev hinum
        have hno := List.find?_eq_none.mp hmissing l (List.mem_finRange l)
        simp [hused, hdev, hinum] at hno

theorem step_of_call {act : Act} (here : s.pc p = .caller) (allowed : s.Allowed (.run p act))
    (h : s.call p act = some (.ok next)) : Step s (.run p act) next := by
  cases act with
  | iget dev inum =>
    obtain ⟨k, ip, got, rfl⟩ := got_of_iget h
    exact .iget p dev inum k ip here allowed got
  | idup k =>
    simp only [State.call] at h
    split at h
    · cases h
    · cases h
      exact .idup p k here allowed
  | ilock k =>
    simp only [State.call] at h
    split at h
    · cases h
    · split at h
      · cases h
      · rename_i hlock
        cases h
        exact .ilock p k here allowed (by simpa using hlock)
  | iunlock k =>
    simp only [State.call] at h
    split at h
    · cases h
    · cases h
      exact .iunlock p k here allowed.2
  | change k d =>
    cases h
    exact .change p k d here allowed.2.1 allowed.2.2
  | iupdate k =>
    cases h
    exact .iupdate p k here allowed.2
  | ialloc dev type =>
    cases h
    exact .ialloc p dev type here allowed
  | iput k =>
    simp only [State.call] at h
    split at h
    · cases h
    · rename_i hfree
      split at h
      · rename_i hlast
        cases h
        exact .iputLast p k here allowed (by simpa using hfree) hlast.1 hlast.2.1 hlast.2.2
      · cases h
        exact .iputKeep p k here allowed
  | next => cases h

theorem step_of_next {pc : Pc} (here : s.pc p = pc)
    (h : s.next ninodes p pc = some (.ok next)) : Step s (.run p .next) next := by
  cases pc with
  | caller => cases h
  | ialloc dev type inum =>
    simp only [State.next] at h
    split at h
    · cases h
    · split at h
      · rename_i free
        cases h
        exact .claim p dev type inum here free
      · cases h
        exact .skip p dev type inum here
  | claimed dev inum =>
    obtain ⟨k, ip, got, rfl⟩ := got_of_iget h
    exact .igetClaimed p dev inum k ip here got
  | load k =>
    simp only [State.next] at h
    split at h
    · cases h
    · rename_i used
      cases h
      exact .load p k here used
  | iputLock k =>
    simp only [State.next] at h
    split at h
    · cases h
    · cases h
      exact .iputLock p k here
  | itrunc k i =>
    simp only [State.next] at h
    split at h
    · cases h
      exact .truncate p k i here
    · cases h
      exact .truncated p k i here
  | free k =>
    cases h
    exact .free p k here
  | invalidate k =>
    cases h
    exact .invalidate p k here
  | drop k =>
    simp only [State.next] at h
    split at h
    · cases h
    · cases h
      exact .drop p k here

theorem step_of_event {event : Event P} (allowed : s.Allowed event)
    (h : s.step ninodes event = some (.ok next)) : Step s event next := by
  cases event with
  | entries named =>
    cases h
    exact .entries named
  | run p act =>
    cases act with
    | next => exact step_of_next rfl h
    | _ =>
      simp only [State.step] at h
      split at h
      · exact step_of_call ‹_› allowed h
      · cases h

end Xv6.Itable
