import Xv6.Lib.CString
import Xv6.Fs.ItableSpec

/-! Directories: files of 16-byte entries, of which free ones have inode number zero. -/
namespace Xv6

open Lib Lib.Exec

def DIRSIZ : Nat := 14

def direntSize : Nat := 16

structure Dirent where
  inum : Nat
  name : Nat → UInt8

namespace Dirent

def ofBytes (bytes : List UInt8) : Dirent where
  inum := ByteField.getLE (CString.ofList bytes) 0 2
  name j := CString.ofList bytes (2 + j)

def bytes (inum : Nat) (name : List UInt8) : List UInt8 :=
  UInt8.ofNat inum :: UInt8.ofNat (inum / 256) :: name

def text (de : Dirent) : List UInt8 := CString.text de.name DIRSIZ 0

end Dirent

def namecmp (s t : Nat → UInt8) : Int := CString.strncmp s t DIRSIZ 0

def kernelBytes (bytes : List UInt8) : Source := fun j => some (CString.ofList bytes j)

namespace Fs

variable (sb : Superblock)

/-- The loops over the entries from `off` on, up to the first `hit`; `e` is the panic of a
short read. Returns that entry and the final `off`. -/
def scan (k : Fin NINODE) (e : Panic) (hit : Dirent → Bool) :
    Nat → Nat → Exec Fs Panic (Option Dirent × Nat)
  | 0, off => return (none, off)
  | fuel + 1, off => do
    if off < ((← get).itable k).size then do
      let (r, bytes) ← readi sb k (fun _ => true) (UInt32.ofNat off) 16
      if r ≠ direntSize then throw e
      else if hit (Dirent.ofBytes bytes) then return (some (Dirent.ofBytes bytes), off)
      else scan k e hit fuel (off + direntSize)
    else return (none, off)

def dirlookup (k : Fin NINODE) (name : Nat → UInt8) :
    Exec Fs Panic (Option (Fin NINODE × Nat)) := do
  let dp := (← get).itable k
  if dp.type ≠ T_DIR then throw .dirlookupNotDir
  else do
    let (de, off) ← scan sb k .dirlookupRead
      (fun de => de.inum ≠ 0 ∧ namecmp name de.name = 0) dp.size 0
    match de with
    | none => return none
    | some de => do
      -- entry matches path element
      let ip ← iget dp.dev de.inum
      return some (ip, off)

def dirlink (k : Fin NINODE) (name : Nat → UInt8) (inum : Nat) : Exec Fs Panic Int := do
  -- Check that name is not present.
  match ← dirlookup sb k name with
  | some (ip, _) => do
    iput sb ip
    return -1
  | none => do
    -- Look for an empty dirent.
    let dp := (← get).itable k
    let (_, off) ← scan sb k .dirlinkRead (fun de => de.inum = 0) dp.size 0
    let r ← writei sb k (kernelBytes (Dirent.bytes inum (CString.strncpy name DIRSIZ 0)))
      (UInt32.ofNat off) 16
    if r ≠ direntSize then throw .dirlink
    else return 0

def isdirempty (k : Fin NINODE) : Exec Fs Panic Bool := do
  let dp := (← get).itable k
  let (de, _) ← scan sb k .isdirempty (fun de => de.inum ≠ 0) dp.size (2 * direntSize)
  return de.isNone

end Fs

/-! The entries of a directory with given contents. -/
namespace Dir

variable {c : List UInt8} {m s inum : Nat} {name : List UInt8}

def slots (c : List UInt8) : Nat := c.length / direntSize

def entry (c : List UInt8) (m : Nat) : Nat × List UInt8 :=
  (ByteField.getLE (CString.ofList c) (direntSize * m) 2,
    CString.text (CString.ofList c) DIRSIZ (direntSize * m + 2))

def setEntry (c : List UInt8) (s inum : Nat) (name : List UInt8) : List UInt8 :=
  splice c (direntSize * s) (Dirent.bytes inum name)

/-- The first slot from `start` on with `P`. -/
def IsFirst (c : List UInt8) (P : Nat × List UInt8 → Prop) (start m : Nat) : Prop :=
  start ≤ m ∧ m < slots c ∧ P (entry c m) ∧ ∀ l, start ≤ l → l < m → ¬ P (entry c l)

def Named (name : List UInt8) (e : Nat × List UInt8) : Prop := e.1 ≠ 0 ∧ e.2 = name

def Finds (c : List UInt8) (name : List UInt8) (m : Nat) : Prop := IsFirst c (Named name) 0 m

def Misses (c : List UInt8) (name : List UInt8) : Prop :=
  ∀ m, m < slots c → ¬ Named name (entry c m)

/-- The first free slot, or the next after the last. -/
def FreeSlot (c : List UInt8) (s : Nat) : Prop :=
  (s < slots c ∧ (entry c s).1 = 0 ∨ s = slots c) ∧ ∀ l, l < s → (entry c l).1 ≠ 0

theorem ofList_read {off i : Nat} (hi : i < direntSize) :
    CString.ofList ((c.drop off).take direntSize) i = CString.ofList c (off + i) := by
  simp only [CString.ofList, List.getD_eq_getElem?_getD, List.getElem?_take, List.getElem?_drop,
    if_pos hi]

theorem ofBytes_read (c : List UInt8) (m : Nat) :
    ((Dirent.ofBytes ((c.drop (direntSize * m)).take direntSize)).inum,
      (Dirent.ofBytes ((c.drop (direntSize * m)).take direntSize)).text) = entry c m := by
  unfold entry Dirent.ofBytes Dirent.text
  congr 1
  · simp only [ByteField.getLE]
    rw [ofList_read (by decide), ofList_read (by decide)]
    rfl
  · apply CString.text_congr
    intro i hi
    change CString.ofList ((c.drop (direntSize * m)).take direntSize) (2 + (0 + i)) = _
    rw [ofList_read (by simp only [DIRSIZ] at hi; simp only [direntSize]; omega)]
    congr 1
    omega

theorem ofList_splice {off p : Nat} {data : List UInt8} (hoff : off ≤ c.length) :
    CString.ofList (splice c off data) p =
      if off ≤ p ∧ p < off + data.length then CString.ofList data (p - off)
      else CString.ofList c p := by
  have htake : (c.take off).length = off := by
    rw [List.length_take]
    omega
  unfold CString.ofList splice
  simp only [List.getD_eq_getElem?_getD]
  by_cases hlow : p < off
  · rw [List.getElem?_append_left (by rw [List.length_append]; omega),
      List.getElem?_append_left (by omega), List.getElem?_take, if_pos hlow, if_neg (by omega)]
  · by_cases hhigh : p < off + data.length
    · rw [List.getElem?_append_left (by rw [List.length_append]; omega),
        List.getElem?_append_right (by omega), htake, if_pos ⟨by omega, hhigh⟩]
    · rw [List.getElem?_append_right (by rw [List.length_append]; omega), List.length_append,
        htake, List.getElem?_drop, if_neg (by omega)]
      congr 2
      omega

theorem length_splice {off : Nat} {data : List UInt8} (hoff : off ≤ c.length) :
    (splice c off data).length = max c.length (off + data.length) := by
  unfold splice
  rw [List.length_append, List.length_append, List.length_take, List.length_drop]
  omega

section SetEntry

variable (hfit : direntSize * s ≤ c.length) (hname : name.length = DIRSIZ)

include hfit hname

theorem ofList_setEntry (p : Nat) :
    CString.ofList (setEntry c s inum name) p =
      if direntSize * s ≤ p ∧ p < direntSize * s + direntSize
      then CString.ofList (Dirent.bytes inum name) (p - direntSize * s)
      else CString.ofList c p := by
  have hlength : (Dirent.bytes inum name).length = direntSize := by
    simp only [Dirent.bytes, List.length_cons, hname, DIRSIZ, direntSize]
  unfold setEntry
  rw [ofList_splice hfit, hlength]

theorem entry_setEntry_self :
    entry (setEntry c s inum name) s = (inum % 2 ^ 16, CString.text (CString.ofList name)
      DIRSIZ 0) := by
  have hbyte : ∀ i, i < direntSize → CString.ofList (setEntry c s inum name) (direntSize * s + i) =
      CString.ofList (Dirent.bytes inum name) i := by
    intro i hi
    rw [ofList_setEntry hfit hname, if_pos (by omega), Nat.add_sub_cancel_left]
  unfold entry
  congr 1
  · have hlow := hbyte 0 (by decide)
    have hhigh := hbyte 1 (by decide)
    simp only [ByteField.getLE, Nat.add_zero] at hlow ⊢
    rw [hlow, hhigh]
    simp only [Dirent.bytes, CString.ofList, List.getD_cons_zero, List.getD_cons_succ,
      UInt8.toNat_ofNat']
    omega
  · apply CString.text_congr
    intro i hi
    simp only [DIRSIZ] at hi
    rw [Nat.add_assoc, hbyte _ (by simp only [direntSize]; omega), Nat.add_comm 2, Nat.zero_add]
    rfl

theorem entry_setEntry_ne (hm : m ≠ s) : entry (setEntry c s inum name) m = entry c m := by
  have hbyte : ∀ i, i < direntSize → CString.ofList (setEntry c s inum name) (direntSize * m + i) =
      CString.ofList c (direntSize * m + i) := by
    intro i hi
    rw [ofList_setEntry hfit hname, if_neg]
    simp only [direntSize] at hi ⊢
    omega
  unfold entry
  congr 1
  · simp only [ByteField.getLE]
    rw [← Nat.add_zero (direntSize * m), hbyte 0 (by decide), Nat.add_zero, hbyte 1 (by decide)]
  · apply CString.text_congr
    intro i hi
    simp only [DIRSIZ] at hi
    rw [Nat.add_assoc, hbyte _ (by simp only [direntSize]; omega)]

theorem length_setEntry :
    (setEntry c s inum name).length = max c.length (direntSize * (s + 1)) := by
  unfold setEntry
  rw [length_splice hfit]
  simp only [Dirent.bytes, List.length_cons, hname, DIRSIZ, direntSize]
  omega

theorem slots_setEntry : slots (setEntry c s inum name) = max (slots c) (s + 1) := by
  unfold slots
  rw [length_setEntry hfit hname]
  simp only [direntSize] at hfit ⊢
  omega

theorem dvd_setEntry (h : direntSize ∣ c.length) :
    direntSize ∣ (setEntry c s inum name).length := by
  rw [length_setEntry hfit hname]
  simp only [direntSize] at h ⊢
  omega

end SetEntry

end Dir

end Xv6
