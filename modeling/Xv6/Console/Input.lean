import Xv6.Lib.FreeRunning
import Xv6.Param

/-! Console input: the interrupt handler that edits the line, and any number of readers. A step
is one critical section of `cons.lock`. The echo and the list of `^P` are left out. -/
namespace Xv6

open Function
open Lib

def INPUT_BUF : Nat := 128

instance : NeZero INPUT_BUF := ⟨by decide⟩

def control (x : Char) : UInt8 := x.toUInt8 - '@'.toUInt8

def newline : UInt8 := '\n'.toUInt8

structure Cons where
  buf : Fin INPUT_BUF → UInt8 := fun _ => 0
  r : UInt32 := 0 -- read index
  w : UInt32 := 0 -- write index
  e : UInt32 := 0 -- edit index

namespace Cons

def cell (c : Cons) (n : UInt32) : UInt8 := c.buf (FreeRunning.slot INPUT_BUF n)

def killLine : Nat → Cons → Cons
  | 0, c => c
  | fuel + 1, c =>
    if c.e ≠ c.w ∧ c.cell (c.e - 1) ≠ newline then killLine fuel { c with e := c.e - 1 } else c

def push (c : Cons) (ch : UInt8) : Cons :=
  { c with buf := update c.buf (FreeRunning.slot INPUT_BUF c.e) ch, e := c.e + 1 }

def consoleintr (c : Cons) (ch : UInt8) : Cons × Bool :=
  if ch = control 'P' then (c, false)
  else if ch = control 'U' then (c.killLine (c.e - c.w).toNat, false)
  else if ch = control 'H' ∨ ch = 0x7f then
    (if c.e ≠ c.w then { c with e := c.e - 1 } else c, false)
  else if ch ≠ 0 ∧ c.e - c.r < UInt32.ofNat INPUT_BUF then
    let ch := if ch = '\r'.toUInt8 then newline else ch
    let c := c.push ch
    if ch = newline ∨ ch = control 'D' ∨ c.e = c.r + UInt32.ofNat INPUT_BUF then
      ({ c with w := c.e }, true)
    else (c, false)
  else (c, false)

/-- How the loop of `consoleread` ends with `n` bytes to go: on `sleep`, on `killed`, or after
it; `eof` is a `^D` taken. -/
inductive Ends where
  | sleeps (n : Nat)
  | fails
  | finishes (n : Nat) (eof : Bool)
deriving DecidableEq

/-- The loop of `consoleread`, and the bytes it delivers. -/
def consolereadLoop (killed : Bool) (target : Nat) : Nat → Cons → Cons × List UInt8 × Ends
  | 0, c => (c, [], .finishes 0 false)
  | n + 1, c =>
    if c.r = c.w then (c, [], if killed then .fails else .sleeps (n + 1))
    else
      let ch := c.cell c.r
      let c := { c with r := c.r + 1 }
      if ch = control 'D' then
        if n + 1 < target then ({ c with r := c.r - 1 }, [], .finishes (n + 1) false)
        else (c, [], .finishes (n + 1) true)
      else if ch = newline then (c, [ch], .finishes n false)
      else
        let (c, bytes, ends) := consolereadLoop killed target n c
        (c, ch :: bytes, ends)

def unread (c : Cons) : List UInt8 := FreeRunning.cells c.buf c.r (c.w - c.r).toNat

end Cons

namespace Console

open Cons

/-- Where a process is in `consoleread` for `target` bytes, `n` of them to go. -/
inductive Phase where
  | outside
  | reading (target n : Nat) (asleep : Bool)

structure State (P : Type) where
  cons : Cons := {}
  proc : P → Phase := fun _ => .outside

inductive Event (P : Type) where
  | consoleintr (ch : UInt8)
  | consoleread (p : P) (n : Int) (killed : Bool)
  /-- A woken reader takes the lock again. -/
  | resume (p : P) (killed : Bool)
  | kill (p : P)

/-- What a step gives a reader: bytes, a `^D`, and the value returned if the call ends. -/
structure Reply (P : Type) where
  proc : P
  bytes : List UInt8
  eof : Bool
  result : Option Int

namespace State

variable {P : Type} [DecidableEq P]

def wakeup (g : State P) : State P :=
  { g with proc := fun p => match g.proc p with
    | .reading target n _ => .reading target n false
    | .outside => .outside }

def read (g : State P) (p : P) (target n : Nat) (killed : Bool) : State P × Reply P :=
  let (c, bytes, ends) := consolereadLoop killed target n g.cons
  match ends with
  | .sleeps n =>
    ({ cons := c, proc := update g.proc p (.reading target n true) }, ⟨p, bytes, false, none⟩)
  | .fails => ({ cons := c, proc := update g.proc p .outside }, ⟨p, bytes, false, some (-1)⟩)
  | .finishes n eof =>
    ({ cons := c, proc := update g.proc p .outside }, ⟨p, bytes, eof, some (target - n)⟩)

/-- None if the process is not at that point of its code. -/
def step (g : State P) : Event P → Option (State P × Option (Reply P))
  | .consoleintr ch =>
    let (c, woken) := g.cons.consoleintr ch
    let g := { g with cons := c }
    some (if woken then g.wakeup else g, none)
  | .consoleread p n killed =>
    match g.proc p with
    | .outside =>
      let (g, reply) := g.read p n.toNat n.toNat killed
      some (g, some reply)
    | .reading _ _ _ => none
  | .resume p killed =>
    match g.proc p with
    | .reading target n false =>
      let (g, reply) := g.read p target n killed
      some (g, some reply)
    | _ => none
  | .kill p =>
    match g.proc p with
    | .reading target n _ =>
      some ({ g with proc := update g.proc p (.reading target n false) }, none)
    | .outside => some (g, none)

end State

end Console

end Xv6
