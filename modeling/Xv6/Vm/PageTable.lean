import Xv6.Vm.Memory

/-! Sv39 page tables: the functions of `vm.c` that read and change them. -/
namespace Xv6

open Lib Lib.Exec

def PTE_V : Nat := 1
def PTE_R : Nat := 2
def PTE_W : Nat := 4
def PTE_X : Nat := 8
def PTE_U : Nat := 16

def PA2PTE (pa : Nat) : Nat := (pa >>> 12) <<< 10
def PTE2PA (pte : Nat) : Nat := ((pte >>> 10) <<< 12) % 2 ^ 64
def PTE_FLAGS (pte : Nat) : Nat := pte &&& 0x3FF

def PX (level va : Nat) : Nat := (va >>> (12 + 9 * level)) &&& 0x1FF

namespace Vm

def entry (s : Vm) (pt i : Nat) : Nat := ByteField.getLE (s.page pt) (8 * i) 8

def setEntry (s : Vm) (pt i value : Nat) : Vm :=
  s.fill pt (ByteField.setLE (s.page pt) (8 * i) 8 value)

def walkFrom (va : Nat) (alloc : Bool) : Nat → Nat → Exec Vm VmPanic (Option Nat)
  | 0, pt => return some pt
  | level + 1, pt => do
    let pte := (← get).entry pt (PX (level + 1) va)
    if pte &&& PTE_V ≠ 0 then walkFrom va alloc level (PTE2PA pte)
    else if !alloc then return none
    else do
      let pagetable ← kalloc
      if pagetable = 0 then return none
      else do
        modify fun s => s.fill pagetable fun _ => 0
        modify fun s => s.setEntry pt (PX (level + 1) va) (PA2PTE pagetable ||| PTE_V)
        walkFrom va alloc level pagetable

/-- The PTE for `va`, as table page and index. If `alloc`, create page-table pages. -/
def walk (pagetable va : Nat) (alloc : Bool) : Exec Vm VmPanic (Option (Nat × Nat)) := do
  if va ≥ MAXVA then throw .walk
  else
    match ← walkFrom va alloc 2 pagetable with
    | none => return none
    | some pt => return some (pt, PX 0 va)

def walkaddr (pagetable va : Nat) : Exec Vm VmPanic Nat := do
  if va ≥ MAXVA then return 0
  else
    match ← walk pagetable va false with
    | none => return 0
    | some (pt, i) => do
      let pte := (← get).entry pt i
      if pte &&& PTE_V = 0 then return 0
      else if pte &&& PTE_U = 0 then return 0
      else return PTE2PA pte

/-- `fuel` bounds the rounds, since `walk` refuses addresses from `MAXVA` on. -/
def mappagesLoop (pagetable last perm : Nat) : Nat → Nat → Nat → Exec Vm VmPanic Int
  | 0, _, _ => return 0
  | fuel + 1, a, pa => do
    match ← walk pagetable a true with
    | none => return -1
    | some (pt, i) => do
      if (← get).entry pt i &&& PTE_V ≠ 0 then throw .mappagesRemap
      else do
        modify fun s => s.setEntry pt i (PA2PTE pa ||| perm ||| PTE_V)
        if a = last then return 0
        else mappagesLoop pagetable last perm fuel (a + PGSIZE) ((pa + PGSIZE) % 2 ^ 64)

def mappages (pagetable va size pa perm : Nat) : Exec Vm VmPanic Int := do
  if size = 0 then throw .mappagesSize
  else
    mappagesLoop pagetable (PGROUNDDOWN ((va + size - 1) % 2 ^ 64)) perm (MAXVA / PGSIZE + 1)
      (PGROUNDDOWN va) pa

variable (img : Image)

def uvmunmapLoop (pagetable stop : Nat) (doFree : Bool) : Nat → Nat → Exec Vm VmPanic Unit
  | 0, _ => return ()
  | fuel + 1, a => do
    if a < stop then
      match ← walk pagetable a false with
      | none => throw .uvmunmapWalk
      | some (pt, i) => do
        let pte := (← get).entry pt i
        if pte &&& PTE_V = 0 then throw .uvmunmapNotMapped
        else if PTE_FLAGS pte = PTE_V then throw .uvmunmapNotLeaf
        else do
          if doFree then kfree img (PTE2PA pte)
          modify fun s => s.setEntry pt i 0
          uvmunmapLoop pagetable stop doFree fuel (a + PGSIZE)
    else return ()

def uvmunmap (pagetable va npages : Nat) (doFree : Bool) : Exec Vm VmPanic Unit := do
  if va % PGSIZE ≠ 0 then throw .uvmunmapNotAligned
  else uvmunmapLoop img pagetable ((va + npages * PGSIZE) % 2 ^ 64) doFree npages va

def uvmcreate : Exec Vm VmPanic Nat := do
  let pagetable ← kalloc
  if pagetable = 0 then return 0
  else do
    modify fun s => s.fill pagetable fun _ => 0
    return pagetable

/-- All leaf mappings must already have been removed. The tree has three levels. -/
def freewalk : Nat → Nat → Exec Vm VmPanic Unit
  | 0, _ => return ()
  | depth + 1, pagetable => do
    forUpTo 512 (fun i _ => do
      let pte := (← get).entry pagetable i
      if pte &&& PTE_V ≠ 0 ∧ pte &&& (PTE_R ||| PTE_W ||| PTE_X) = 0 then do
        -- this PTE points to a lower-level page table.
        freewalk depth (PTE2PA pte)
        modify fun s => s.setEntry pagetable i 0
      else if pte &&& PTE_V ≠ 0 then throw .freewalkLeaf
      else return ()) ()
    kfree img pagetable

def uvmfree (pagetable sz : Nat) : Exec Vm VmPanic Unit := do
  if sz > 0 then uvmunmap img pagetable 0 (PGROUNDUP sz / PGSIZE) true
  freewalk img 3 pagetable

/-- Kept in an `int`, passed on as `uint64`. -/
def throughInt (n : Nat) : Nat := ((BitVec.ofNat 32 n).signExtend 64).toNat

def uvmdealloc (pagetable oldsz newsz : Nat) : Exec Vm VmPanic Nat := do
  if newsz ≥ oldsz then return oldsz
  else do
    if PGROUNDUP newsz < PGROUNDUP oldsz then do
      let npages := throughInt ((PGROUNDUP oldsz - PGROUNDUP newsz) / PGSIZE)
      uvmunmap img pagetable (PGROUNDUP newsz) npages true
    return newsz

/-- `fuel` is the number of pages to add; memory runs out before the address wraps. -/
def uvmallocLoop (pagetable oldsz newsz : Nat) : Nat → Nat → Exec Vm VmPanic Nat
  | 0, _ => return newsz
  | fuel + 1, a => do
    if a < newsz then do
      let mem ← kalloc
      if mem = 0 then do
        let _ ← uvmdealloc img pagetable a oldsz
        return 0
      else do
        modify fun s => s.fill mem fun _ => 0
        if (← mappages pagetable a PGSIZE mem (PTE_W ||| PTE_X ||| PTE_R ||| PTE_U)) ≠ 0 then do
          kfree img mem
          let _ ← uvmdealloc img pagetable a oldsz
          return 0
        else uvmallocLoop pagetable oldsz newsz fuel (a + PGSIZE)
    else return newsz

def uvmalloc (pagetable oldsz newsz : Nat) : Exec Vm VmPanic Nat := do
  if newsz < oldsz then return oldsz
  else
    uvmallocLoop img pagetable (PGROUNDUP oldsz) newsz ((newsz - oldsz) / PGSIZE + 1)
      (PGROUNDUP oldsz)

def uvmcopyLoop (old new sz : Nat) : Nat → Nat → Exec Vm VmPanic Int
  | 0, _ => return 0
  | fuel + 1, i => do
    if i < sz then
      match ← walk old i false with
      | none => throw .uvmcopyPte
      | some (pt, j) => do
        let pte := (← get).entry pt j
        if pte &&& PTE_V = 0 then throw .uvmcopyPage
        else do
          let mem ← kalloc
          if mem = 0 then do
            uvmunmap img new 0 (i / PGSIZE) true
            return -1
          else do
            modify fun s => s.fill mem (s.page (PTE2PA pte))
            if (← mappages new i PGSIZE mem (PTE_FLAGS pte)) ≠ 0 then do
              kfree img mem
              uvmunmap img new 0 (i / PGSIZE) true
              return -1
            else uvmcopyLoop old new sz fuel (i + PGSIZE)
    else return 0

def uvmcopy (old new sz : Nat) : Exec Vm VmPanic Int :=
  uvmcopyLoop img old new sz (sz / PGSIZE + 1) 0

def copyoutLoop (pagetable : Nat) : Nat → Nat → List UInt8 → Exec Vm VmPanic Int
  | 0, _, _ => return 0
  | fuel + 1, dstva, src => do
    if src = [] then return 0
    else do
      let va0 := PGROUNDDOWN dstva
      let pa0 ← walkaddr pagetable va0
      if pa0 = 0 then return -1
      else do
        let n := min (PGSIZE - (dstva - va0)) src.length
        modify fun s => s.fill pa0 (ByteField.putBytes (s.page pa0) (dstva - va0) (src.take n))
        copyoutLoop pagetable fuel ((va0 + PGSIZE) % 2 ^ 64) (src.drop n)

def copyout (pagetable dstva : Nat) (src : List UInt8) : Exec Vm VmPanic Int :=
  copyoutLoop pagetable (src.length + 1) dstva src

def copyinLoop (pagetable : Nat) : Nat → Nat → Nat → Exec Vm VmPanic (List UInt8 × Bool)
  | 0, _, _ => return ([], true)
  | fuel + 1, srcva, len => do
    if len = 0 then return ([], true)
    else do
      let va0 := PGROUNDDOWN srcva
      let pa0 ← walkaddr pagetable va0
      if pa0 = 0 then return ([], false)
      else do
        let n := min (PGSIZE - (srcva - va0)) len
        let bytes := ByteField.getBytes ((← get).page pa0) (srcva - va0) n
        let (more, ok) ← copyinLoop pagetable fuel ((va0 + PGSIZE) % 2 ^ 64) (len - n)
        return (bytes ++ more, ok)

/-- What is stored at the destination, and whether the call succeeds. -/
def copyin (pagetable srcva len : Nat) : Exec Vm VmPanic (List UInt8 × Bool) :=
  copyinLoop pagetable (len + 1) srcva len

def copyinstrLoop (pagetable : Nat) : Nat → Nat → Nat → Exec Vm VmPanic (List UInt8 × Bool)
  | 0, _, _ => return ([], false)
  | fuel + 1, srcva, max => do
    if max = 0 then return ([], false)
    else do
      let va0 := PGROUNDDOWN srcva
      let pa0 ← walkaddr pagetable va0
      if pa0 = 0 then return ([], false)
      else do
        let n := min (PGSIZE - (srcva - va0)) max
        let bytes := ByteField.getBytes ((← get).page pa0) (srcva - va0) n
        let text := bytes.takeWhile (· ≠ 0)
        if text.length < n then return (text ++ [0], true)
        else do
          let (more, gotNull) ← copyinstrLoop pagetable fuel ((va0 + PGSIZE) % 2 ^ 64) (max - n)
          return (text ++ more, gotNull)

/-- Up to a NUL or `max` bytes: what is stored, and whether the call succeeds. -/
def copyinstr (pagetable srcva max : Nat) : Exec Vm VmPanic (List UInt8 × Bool) :=
  copyinstrLoop pagetable (max + 1) srcva max

/-- The `uint64` at `addr`: what is stored, and the result. -/
def fetchaddr (pagetable sz addr : Nat) : Exec Vm VmPanic (List UInt8 × Int) := do
  if addr ≥ sz ∨ (addr + 8) % 2 ^ 64 > sz then return ([], -1)
  else do
    let (bytes, ok) ← copyin pagetable addr 8
    return (bytes, if ok then 0 else -1)

/-- What is stored in the buffer, and the length without NUL, or -1. -/
def fetchstr (pagetable addr max : Nat) : Exec Vm VmPanic (List UInt8 × Int) := do
  let (buf, ok) ← copyinstr pagetable addr max
  return (buf, if ok then ((buf.length - 1 : Nat) : Int) else -1)

/-- The trapframe has `a0` in word 14. -/
def argraw (trapframe n : Nat) : Exec Vm VmPanic Nat := do
  if n ≤ 5 then return (← get).entry trapframe (14 + n)
  else throw .argraw

/-- The `n`th argument as a string: what is stored, and the result. -/
def argstr (trapframe pagetable n max : Nat) : Exec Vm VmPanic (List UInt8 × Int) := do
  let addr ← argraw trapframe n
  fetchstr pagetable addr max

end Vm

end Xv6
