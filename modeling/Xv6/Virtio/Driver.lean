import Mathlib.Logic.Function.Basic
import Xv6.Lib.IndexRing
import Xv6.Param

/-! The driver of the virtio disk and the device, which share descriptors and rings. The device
takes requests from the avail ring, performs them in any order and reports them in the used
ring. -/
namespace Xv6.Virtio

open Function

def NUM : Nat := 8

def VRING_DESC_F_NEXT : UInt16 := 1
def VRING_DESC_F_WRITE : UInt16 := 2

def VIRTIO_BLK_T_IN : UInt32 := 0
def VIRTIO_BLK_T_OUT : UInt32 := 1

/-- Calls of `panic`, a null buffer, a chain that is no request, or one without an end. -/
inductive Fault where
  | freeDesc1
  | freeDesc2
  | intrStatus
  | nullBuf
  | badChain
  | endlessChain
  deriving DecidableEq

/-- A command header, the data of a buffer, or a status byte. -/
inductive Addr (B : Type) where
  | null
  | ops (i : Nat)
  | data (b : B)
  | status (i : Nat)

structure Desc (B : Type) where
  addr : Addr B := .null
  len : Nat := 0
  flags : UInt16 := 0
  next : Nat := 0

structure Req where
  type : UInt32 := 0
  reserved : UInt32 := 0
  sector : UInt64 := 0

/-- The index counts entries, not slots. -/
structure Ring where
  idx : UInt16 := 0
  ring : Nat → Nat := fun _ => 0

/-- Kept for a request, by its first descriptor. -/
structure Info (B : Type) where
  b : Option B := none
  status : UInt8 := 0

structure Disk (B : Type) where
  desc : Nat → Desc B := fun _ => {}
  avail : Ring := {}
  used : Ring := {}
  free : Nat → Bool
  usedIdx : UInt16 := 0
  info : Nat → Info B := fun _ => {}
  ops : Nat → Req := fun _ => {}

namespace Disk

variable {B : Type} (d : Disk B)

def init : Disk B where
  free i := decide (i < NUM)

def allocDesc : Option (Nat × Disk B) :=
  ((List.range NUM).find? d.free).map fun i => (i, { d with free := update d.free i false })

def freeDesc (i : Nat) : Except Fault (Disk B) :=
  if i ≥ NUM then .error .freeDesc1
  else if d.free i then .error .freeDesc2
  else .ok { d with
    desc := update d.desc i {}
    free := update d.free i true }

def freeChainLoop (d : Disk B) (i : Nat) : Nat → Except Fault (Disk B)
  | 0 => .error .endlessChain
  | fuel + 1 =>
    let flag := (d.desc i).flags
    let nxt := (d.desc i).next
    match d.freeDesc i with
    | .error e => .error e
    | .ok d => if flag &&& VRING_DESC_F_NEXT ≠ 0 then d.freeChainLoop nxt fuel else .ok d

/-- There are no more descriptors than `NUM`. -/
def freeChain (i : Nat) : Except Fault (Disk B) := d.freeChainLoop i (NUM + 1)

def freeDescs (d : Disk B) : List Nat → Except Fault (Disk B)
  | [] => .ok d
  | i :: idx =>
    match d.freeDesc i with
    | .error e => .error e
    | .ok d => d.freeDescs idx

def allocDescs (d : Disk B) (idx : List Nat) : Nat → Except Fault (Option (List Nat) × Disk B)
  | 0 => .ok (some idx, d)
  | n + 1 =>
    match d.allocDesc with
    | none => (d.freeDescs idx).map fun d => (none, d)
    | some (i, d) => d.allocDescs (idx ++ [i]) n

def alloc3Desc : Except Fault (Option (List Nat) × Disk B) := d.allocDescs [] 3

/-- The assignments to the three descriptors and the avail ring. -/
def format (b : B) (blockno : UInt32) (write : Bool) (idx : List Nat) : Disk B :=
  let idx0 := idx.getD 0 0
  let idx1 := idx.getD 1 0
  let idx2 := idx.getD 2 0
  let req : Req :=
    { type := if write then VIRTIO_BLK_T_OUT else VIRTIO_BLK_T_IN
      reserved := 0
      sector := (blockno * UInt32.ofNat (BSIZE / 512)).toUInt64 }
  let desc0 : Desc B := { addr := .ops idx0, len := 16, flags := VRING_DESC_F_NEXT, next := idx1 }
  let desc1 : Desc B :=
    { addr := .data b, len := BSIZE
      flags := (if write then 0 else VRING_DESC_F_WRITE) ||| VRING_DESC_F_NEXT
      next := idx2 }
  let desc2 : Desc B := { addr := .status idx0, len := 1, flags := VRING_DESC_F_WRITE, next := 0 }
  { d with
    ops := update d.ops idx0 req
    desc := update (update (update d.desc idx0 desc0) idx1 desc1) idx2 desc2
    info := update d.info idx0 { b := some b, status := 0xff }
    avail := { d.avail with ring := update d.avail.ring (d.avail.idx.toNat % NUM) idx0 } }

/-- The request at `head` as the device reads it: header, buffer and place of the status. -/
def request (head : Nat) : Option (Req × B × Nat) :=
  let desc0 := d.desc head
  let desc1 := d.desc desc0.next
  let desc2 := d.desc desc1.next
  if desc0.flags &&& VRING_DESC_F_NEXT = 0 ∨ desc1.flags &&& VRING_DESC_F_NEXT = 0 ∨
      desc2.flags &&& VRING_DESC_F_NEXT ≠ 0 ∨ desc2.flags &&& VRING_DESC_F_WRITE = 0 then none
  else
    match desc0.addr, desc1.addr, desc2.addr with
    | .ops i, .data b, .status j =>
      -- the device writes the data of a read and reads that of a write
      if desc1.flags &&& VRING_DESC_F_WRITE = 0 ↔ (d.ops i).type = VIRTIO_BLK_T_OUT then
        some (d.ops i, b, j)
      else none
    | _, _, _ => none

end Disk

inductive Pc (B : Type) where
  /-- In its own code. -/
  | idle
  /-- Before `alloc3_desc`, or asleep on `disk.free`. -/
  | alloc (b : B) (write : Bool)
  | allocSleep (b : B) (write : Bool)
  /-- Before `disk.avail->idx += 1`. -/
  | publish (b : B) (idx : List Nat)
  /-- Before the test of `b->disk`, or asleep on `b`. -/
  | wait (b : B) (idx : List Nat)
  | waitSleep (b : B) (idx : List Nat)

/-- Processes `P`, harts `H`, buffers `B` and blocks of data `D`. -/
structure State (P H B D : Type) where
  disk : Disk B
  /-- Who holds `vdisk_lock`. -/
  lock : Option (P ⊕ H)
  pc : P → Pc B
  /-- Who holds the lock of a buffer. -/
  holder : B → Option P
  /-- `b->disk`, `b->blockno` and `b->data`. -/
  busy : B → Bool
  blockno : B → UInt32
  data : B → D
  /-- What the medium holds from a sector on. -/
  sectors : UInt64 → D
  /-- How far the avail ring was read. -/
  seen : UInt16 := 0
  /-- Taken and not performed. -/
  taken : List Nat := []
  /-- Performed and not reported, with buffers. -/
  performed : List (Nat × B) := []
  /-- Requests published, reported, cleared from `b->disk` and returned, for each buffer. -/
  requests : B → Nat := fun _ => 0
  completions : B → Nat := fun _ => 0
  clears : B → Nat := fun _ => 0
  returns : B → Nat := fun _ => 0

inductive Event (P H B D : Type) where
  /-- `acquiresleep`, `releasesleep` and an assignment to the data. -/
  | lockBuf (p : P) (b : B) (blockno : UInt32)
  | unlockBuf (p : P) (b : B)
  | change (p : P) (b : B) (data : D)
  /-- Call `virtio_disk_rw`, and go on with it. -/
  | rw (p : P) (b : B) (write : Bool)
  | run (p : P)
  /-- `virtio_disk_intr` starts, and makes one round of its loop. -/
  | intr (h : H)
  | handle (h : H)
  /-- The device takes a request, performs one and reports one. -/
  | take
  | perform (k : Nat)
  | report (k : Nat)

namespace State

variable {P H B D : Type} [DecidableEq P] [DecidableEq H] [DecidableEq B] (s : State P H B D)

def goto (p : P) (pc : Pc B) : State P H B D := { s with pc := update s.pc p pc }

def setBusy (b : B) (busy : Bool) : State P H B D :=
  { s with busy := update s.busy b busy }

def tally (f : B → Nat) (b : B) : B → Nat := update f b (f b + 1)

/-- With `vdisk_lock`, or wanting it back after `sleep`, which `kill` too may end. -/
def run (p : P) : Option (Except Fault (State P H B D)) :=
  match s.pc p with
  | .idle => none
  | .alloc b write =>
    match s.disk.alloc3Desc with
    | .error e => some (.error e)
    | .ok (none, d) =>
      some (.ok ({ s with disk := d, lock := none }.goto p (.allocSleep b write)))
    | .ok (some idx, d) =>
      some (.ok (({ s with disk := d.format b (s.blockno b) write idx }.setBusy b true).goto p
        (.publish b idx)))
  | .allocSleep b write =>
    if s.lock.isSome then none
    else some (.ok ({ s with lock := some (.inl p) }.goto p (.alloc b write)))
  | .publish b idx =>
    some (.ok ({ s with
      disk := { s.disk with avail := { s.disk.avail with idx := s.disk.avail.idx + 1 } }
      requests := tally s.requests b }.goto p (.wait b idx)))
  | .wait b idx =>
    if s.busy b then some (.ok ({ s with lock := none }.goto p (.waitSleep b idx)))
    else
      let idx0 := idx.getD 0 0
      let d := { s.disk with
        info := update s.disk.info idx0 { s.disk.info idx0 with b := none } }
      match d.freeChain idx0 with
      | .error e => some (.error e)
      | .ok d =>
        some (.ok ({ s with disk := d, lock := none, returns := tally s.returns b }.goto p .idle))
  | .waitSleep b idx =>
    if s.lock.isSome then none
    else some (.ok ({ s with lock := some (.inl p) }.goto p (.wait b idx)))

/-- One round of `virtio_disk_intr`, or its end. -/
def handle : Option (Except Fault (State P H B D)) :=
  if s.disk.usedIdx = s.disk.used.idx then some (.ok { s with lock := none })
  else
    let id := s.disk.used.ring (s.disk.usedIdx.toNat % NUM)
    if (s.disk.info id).status ≠ 0 then some (.error .intrStatus)
    else
      match (s.disk.info id).b with
      | none => some (.error .nullBuf)
      | some b =>
        some (.ok ({ s with
          disk := { s.disk with usedIdx := s.disk.usedIdx + 1 }
          clears := tally s.clears b }.setBusy b false))

def take : Option (State P H B D) :=
  if s.seen = s.disk.avail.idx then none
  else some { s with
    seen := s.seen + 1
    taken := s.taken ++ [s.disk.avail.ring (s.seen.toNat % NUM)] }

def perform (k : Nat) : Option (Except Fault (State P H B D)) :=
  match s.taken[k]? with
  | none => none
  | some head =>
    match s.disk.request head with
    | none => some (.error .badChain)
    | some (req, b, j) =>
      some (.ok { s with
        sectors := if req.type = VIRTIO_BLK_T_OUT then update s.sectors req.sector (s.data b)
          else s.sectors
        data := if req.type = VIRTIO_BLK_T_OUT then s.data
          else update s.data b (s.sectors req.sector)
        disk := { s.disk with
          info := update s.disk.info j { s.disk.info j with status := 0 } }
        taken := s.taken.eraseIdx k
        performed := s.performed ++ [(head, b)] })

def report (k : Nat) : Option (State P H B D) :=
  match s.performed[k]? with
  | none => none
  | some (head, b) =>
    some { s with
      disk := { s.disk with used :=
        { idx := s.disk.used.idx + 1
          ring := update s.disk.used.ring (s.disk.used.idx.toNat % NUM) head } }
      performed := s.performed.eraseIdx k
      completions := tally s.completions b }

def step : Event P H B D → Option (Except Fault (State P H B D))
  | .lockBuf p b blockno =>
    match s.pc p, s.holder b with
    | .idle, none =>
      some (.ok { s with
        holder := update s.holder b (some p)
        blockno := update s.blockno b blockno })
    | _, _ => none
  | .unlockBuf p b =>
    match s.pc p with
    | .idle => some (.ok { s with holder := update s.holder b none })
    | _ => none
  | .change p b data =>
    match s.pc p with
    | .idle => some (.ok { s with data := update s.data b data })
    | _ => none
  | .rw p b write =>
    match s.pc p, s.lock with
    | .idle, none => some (.ok ({ s with lock := some (.inl p) }.goto p (.alloc b write)))
    | _, _ => none
  | .run p => s.run p
  | .intr h =>
    match s.lock with
    | none => some (.ok { s with lock := some (.inr h) })
    | some _ => none
  | .handle h => if s.lock = some (.inr h) then s.handle else none
  | .take => s.take.map .ok
  | .perform k => s.perform k
  | .report k => (s.report k).map .ok

def Allowed : Event P H B D → Prop
  | .unlockBuf p b | .change p b _ | .rw p b _ => s.holder b = some p
  | _ => True

def init (blockno : B → UInt32) (data : B → D) (sectors : UInt64 → D) : State P H B D where
  disk := .init
  lock := none
  pc _ := .idle
  holder _ := none
  busy _ := false
  blockno := blockno
  data := data
  sectors := sectors

end State

variable {P H B D : Type} [DecidableEq P] [DecidableEq H] [DecidableEq B]

inductive Reachable : State P H B D → Prop where
  | init (blockno : B → UInt32) (data : B → D) (sectors : UInt64 → D) :
      Reachable (.init blockno data sectors)
  | step {s next : State P H B D} {event : Event P H B D} (reach : Reachable s)
      (allowed : s.Allowed event) (run : s.step event = some (.ok next)) : Reachable next

end Xv6.Virtio
