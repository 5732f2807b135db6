import Xv6.Lib.Exec

/-! The memory allocator of user programs, `umalloc.c`. Pointers are byte addresses. -/
namespace Xv6.User

open Lib Lib.Exec

structure Header where
  ptr : Nat
  size : Nat -- a uint

def HEADER : Nat := 16

/-- Headers, `freep`, and what `sbrk` has given out: regions, the first address above them, and
the number of calls. -/
structure Heap where
  mem : Nat → Header
  freep : Nat
  obtained : List (Nat × Nat)
  top : Nat
  calls : Nat

/-- Where `base` is, how many bytes there are, and how far above the last each answer of `sbrk`
is, if any. -/
structure Machine where
  base : Nat
  limit : Nat
  answer : Nat → Option Nat

inductive Fault where
  | outOfFuel -- a loop has not ended within its bound
  | shrink -- `sbrk` with a negative argument
  deriving DecidableEq

namespace Heap

def setPtr (p ptr : Nat) (s : Heap) : Heap :=
  { s with mem := Function.update s.mem p { s.mem p with ptr } }

def setSize (p size : Nat) (s : Heap) : Heap :=
  { s with mem := Function.update s.mem p { s.mem p with size } }

end Heap

/-- The argument is an int; none is `(char*)-1`. -/
def sbrk (m : Machine) (n : Nat) : Exec Heap Fault (Option Nat) := do
  if 2 ^ 31 ≤ n then throw .shrink
  else do
    let s ← get
    set { s with calls := s.calls + 1 }
    match m.answer s.calls with
    | none => return none
    | some skip =>
      if m.limit < (s.obtained.map Prod.snd).sum + n then return none
      else do
        let p := s.top + skip
        set { s with calls := s.calls + 1, obtained := (p, n) :: s.obtained, top := p + n }
        return some p

def freeLoop : Nat → Nat → Nat → Exec Heap Fault Nat
  | 0, _, _ => throw .outOfFuel
  | fuel + 1, bp, p => do
    let next := ((← get).mem p).ptr
    if p < bp ∧ bp < next then return p
    else if next ≤ p ∧ (p < bp ∨ bp < next) then return p
    else freeLoop fuel bp next

def free (fuel ap : Nat) : Exec Heap Fault PUnit := do
  let bp := ap - HEADER
  let p ← freeLoop fuel bp (← get).freep
  let s ← get
  let next := (s.mem p).ptr
  if bp + HEADER * (s.mem bp).size = next then do
    modify (Heap.setSize bp (((s.mem bp).size + (s.mem next).size) % 2 ^ 32))
    modify (Heap.setPtr bp (s.mem next).ptr)
  else modify (Heap.setPtr bp next)
  let s ← get
  if p + HEADER * (s.mem p).size = bp then do
    modify (Heap.setSize p (((s.mem p).size + (s.mem bp).size) % 2 ^ 32))
    modify (Heap.setPtr p (s.mem bp).ptr)
  else modify (Heap.setPtr p bp)
  modify fun s => { s with freep := p }

def morecore (m : Machine) (fuel nu : Nat) : Exec Heap Fault (Option Nat) := do
  let nu := if nu < 4096 then 4096 else nu
  match ← sbrk m (nu * HEADER % 2 ^ 32) with
  | none => return none
  | some hp => do
    modify (Heap.setSize hp nu)
    free fuel (hp + HEADER)
    return some (← get).freep

def mallocLoop (m : Machine) (nunits : Nat) : Nat → Nat → Nat → Exec Heap Fault (Option Nat)
  | 0, _, _ => throw .outOfFuel
  | fuel + 1, prevp, p => do
    let s ← get
    let size := (s.mem p).size
    if nunits ≤ size then
      if size = nunits then do
        modify (Heap.setPtr prevp (s.mem p).ptr)
        modify fun s => { s with freep := prevp }
        return some (p + HEADER)
      else do
        modify (Heap.setSize p (size - nunits))
        let p := p + HEADER * (size - nunits)
        modify (Heap.setSize p nunits)
        modify fun s => { s with freep := prevp }
        return some (p + HEADER)
    else do
      match ← if p = s.freep then morecore m fuel nunits else pure (some p) with
      | none => return none
      | some p => mallocLoop m nunits fuel p ((← get).mem p).ptr

def nunitsOf (nbytes : Nat) : Nat := ((nbytes + HEADER - 1) / HEADER + 1) % 2 ^ 32

def malloc (m : Machine) (fuel nbytes : Nat) : Exec Heap Fault (Option Nat) := do
  let nunits := nunitsOf nbytes
  if (← get).freep = 0 then do
    modify (Heap.setPtr m.base m.base)
    modify (Heap.setSize m.base 0)
    modify fun s => { s with freep := m.base }
  let s ← get
  mallocLoop m nunits fuel s.freep (s.mem s.freep).ptr

end Xv6.User
