import Xv6.Fs.Alloc

/-! Inode contents. The in-memory inode is passed by value; who changes it returns the new one. -/
namespace Xv6

open Lib Lib.Exec

variable (sb : Superblock)

def Dinode.addr (d : Dinode) (k : Nat) : Nat := d.addrs (Fin.ofNat (NDIRECT + 1) k)

def Dinode.setAddr (d : Dinode) (k addr : Nat) : Dinode :=
  { d with addrs := Function.update d.addrs (Fin.ofNat (NDIRECT + 1) k) addr }

def Inode.setAddrs (ip : Inode) (addrs : Fin (NDIRECT + 1) → Nat) : Inode :=
  { ip with addrs := addrs }

def Inode.setAddr (ip : Inode) (k addr : Nat) : Inode :=
  { ip with toDinode := ip.toDinode.setAddr k addr }

def toInt32 (x : Nat) : Int := (BitVec.ofNat 32 x).toInt

/-- Bytes to copy in, if they can be read; at kernel addresses they can. -/
abbrev Source := Nat → Option UInt8

/-- What `either_copyin` transfers, up to the first byte that cannot be read. -/
def eitherCopyin (src : Source) (start : Nat) : Nat → List UInt8
  | 0 => []
  | len + 1 =>
    match src start with
    | none => []
    | some byte => byte :: eitherCopyin src (start + 1) len

/-- What `either_copyout` transfers, up to the first byte `k` without `dst k`. -/
def eitherCopyout (dst : Nat → Bool) (start : Nat) : List UInt8 → List UInt8
  | [] => []
  | byte :: bytes => if dst start then byte :: eitherCopyout dst (start + 1) bytes else []

namespace Store

def dinode (s : Store) (inum : Nat) : Dinode := (s.buf (sb.IBLOCK inum)).dinode (inum % IPB)

def setDinode (s : Store) (inum : Nat) (d : Dinode) : Store :=
  s.setData (sb.IBLOCK inum) ((s.bread (sb.IBLOCK inum)).setDinode (inum % IPB) d)

def iupdate (ip : Inode) : Exec Store Panic Unit := do
  modify fun s => s.setDinode sb ip.inum ip.toDinode
  logWrite (sb.IBLOCK ip.inum)

/-- The search and the update of `ialloc`. -/
def iallocNum (type : BitVec 16) : Exec Store Panic Nat := do
  let s ← get
  match (List.range' 1 (sb.ninodes - 1)).find? fun inum => (s.dinode sb inum).type = 0 with
  | none => throw .noInodes
  | some inum => do
    set (s.setDinode sb inum { Dinode.zero with type := type })
    logWrite (sb.IBLOCK inum) -- mark it allocated on the disk
    return inum

def bmapEntry (ip : Inode) (k : Nat) : Exec Store Panic (Nat × Inode) := do
  let indirect := ip.addr NDIRECT
  let addr := ((← get).bread indirect).get (4 * k) 4
  if addr = 0 then do
    let addr ← balloc sb
    modify fun s => s.setData indirect ((s.bread indirect).set (4 * k) 4 addr)
    logWrite indirect
    return (addr, ip)
  else return (addr, ip)

def bmap (ip : Inode) (bn : Nat) : Exec Store Panic (Nat × Inode) := do
  if bn < NDIRECT then
    if ip.addr bn = 0 then do
      let addr ← balloc sb
      return (addr, ip.setAddr bn addr)
    else return (ip.addr bn, ip)
  else if bn - NDIRECT < NINDIRECT then
    -- Load indirect block, allocating if necessary.
    if ip.addr NDIRECT = 0 then do
      let addr ← balloc sb
      bmapEntry sb (ip.setAddr NDIRECT addr) (bn - NDIRECT)
    else bmapEntry sb ip (bn - NDIRECT)
  else throw .bmapOutOfRange

def itruncDirect (ip : Inode) : Exec Store Panic Inode :=
  forUpTo NDIRECT (fun i ip => do
    if ip.addr i ≠ 0 then do
      bfree sb (ip.addr i)
      return ip.setAddr i 0
    else return ip) ip

def itruncEntries (indirect : Nat) : Exec Store Panic Unit :=
  forUpTo NINDIRECT (fun j _ => do
    let a := (← get).bread indirect
    if a.get (4 * j) 4 ≠ 0 then bfree sb (a.get (4 * j) 4)) ()

def itrunc (ip : Inode) : Exec Store Panic Inode := do
  let ip ← itruncDirect sb ip
  let ip ←
    if ip.addr NDIRECT ≠ 0 then do
      itruncEntries sb (ip.addr NDIRECT)
      bfree sb (ip.addr NDIRECT)
      pure (ip.setAddr NDIRECT 0)
    else pure ip
  let ip := { ip with size := 0 }
  iupdate sb ip
  return ip

/-- The loop of `readi`; each round reads at least one byte. -/
def readiLoop (dst : Nat → Bool) (n : Nat) :
    Nat → Inode → Nat → Nat → List UInt8 → Exec Store Panic (Int × List UInt8 × Inode)
  | 0, ip, tot, _, out => return (toInt32 tot, out, ip)
  | fuel + 1, ip, tot, off, out => do
    if tot < n then do
      let (addr, ip) ← bmap sb ip (off / BSIZE)
      let m := min (n - tot) (BSIZE - off % BSIZE)
      let bytes := eitherCopyout dst tot
        (ByteField.getBytes ((← get).bread addr).byte (off % BSIZE) m)
      if bytes.length < m then return (-1, out ++ bytes, ip)
      else readiLoop dst n fuel ip (tot + m) (off + m) (out ++ bytes)
    else return (toInt32 tot, out, ip)

def readi (ip : Inode) (dst : Nat → Bool) (off n : UInt32) :
    Exec Store Panic (Int × List UInt8 × Inode) := do
  if off.toNat > ip.size ∨ off + n < off then return (0, [], ip)
  else do
    let n := if (off + n).toNat > ip.size then ip.size - off.toNat else n.toNat
    readiLoop sb dst n n ip 0 off.toNat []

/-- The loop of `writei`. A failed copy has changed the buffer, but is not logged. -/
def writeiLoop (src : Source) (n : Nat) :
    Nat → Inode → Nat → Nat → Exec Store Panic (Nat × Nat × Inode)
  | 0, ip, tot, off => return (tot, off, ip)
  | fuel + 1, ip, tot, off => do
    if tot < n then do
      let (addr, ip) ← bmap sb ip (off / BSIZE)
      let m := min (n - tot) (BSIZE - off % BSIZE)
      let bytes := eitherCopyin src tot m
      modify fun s => s.setData addr
        (Block.ofFn (ByteField.putBytes (s.bread addr).byte (off % BSIZE) bytes))
      if bytes.length < m then return (tot, off, ip)
      else do
        logWrite addr
        writeiLoop src n fuel ip (tot + m) (off + m)
    else return (tot, off, ip)

def writei (ip : Inode) (src : Source) (off n : UInt32) : Exec Store Panic (Int × Inode) := do
  if off.toNat > ip.size ∨ off + n < off then return (-1, ip)
  else if (off + n).toNat > MAXFILE * BSIZE then return (-1, ip)
  else do
    let (tot, off, ip) ← writeiLoop sb src n.toNat n.toNat ip 0 off.toNat
    let ip := if off > ip.size then { ip with size := off } else ip
    -- write the i-node back to disk even if the size didn't change
    -- because the loop above might have called bmap() and added a new
    -- block to ip->addrs[].
    iupdate sb ip
    return (toInt32 tot, ip)

end Store

end Xv6
