import Xv6.Log.Store

/-! The header block as a record of a transaction. A count of zero erases it. -/
namespace Xv6

open Lib

namespace Block

def setEntries (block : Block) (lh : List Nat) (count : Nat) : Block :=
  (List.range count).foldl (fun b i => b.set (4 + 4 * i) 4 (lh.getD i 0)) block

theorem setEntries_succ (block : Block) (lh : List Nat) (count : Nat) :
    block.setEntries lh (count + 1) =
      (block.setEntries lh count).set (4 + 4 * count) 4 (lh.getD count 0) := by
  simp [setEntries, List.range_succ]

theorem setHead_eq (block : Block) (lh : List Nat) :
    block.setHead lh = (block.set 0 4 lh.length).setEntries lh lh.length := rfl

theorem get_setEntries_count (block : Block) (lh : List Nat) (count : Nat) :
    (block.setEntries lh count).get 0 4 = block.get 0 4 := by
  induction count with
  | zero => rfl
  | succ count ih =>
    rw [setEntries_succ, get_set_disjoint (by decide) (by omega), ih]

variable {block : Block} {lh : List Nat}

theorem get_setEntries {count i : Nat} (hi : i < count) (fits : 4 + 4 * count ≤ BSIZE) :
    (block.setEntries lh count).get (4 + 4 * i) 4 = lh.getD i 0 % 256 ^ 4 := by
  induction count with
  | zero => omega
  | succ count ih =>
    rw [setEntries_succ]
    obtain rfl | h := eq_or_ne i count
    · exact get_set (by omega)
    · rw [get_set_disjoint (by omega) (by omega)]
      exact ih (by omega) (by omega)

theorem get_setHead_count : (block.setHead lh).get 0 4 = lh.length % 256 ^ 4 := by
  rw [setHead_eq, get_setEntries_count, get_set (by decide)]

theorem headCount_setHead (short : lh.length ≤ LOGSIZE) :
    (block.setHead lh).headCount = lh.length := by
  have hbound : lh.length ≤ 30 := short
  rw [headCount, get_setHead_count, Nat.mod_eq_of_lt (by omega)]
  rw [BitVec.toInt_eq_toNat_of_lt (by simp only [BitVec.toNat_ofNat]; omega)]
  simp only [BitVec.toNat_ofNat]
  omega

theorem head_setHead (short : lh.length ≤ LOGSIZE) (uint : ∀ b ∈ lh, b < 2 ^ 32) :
    (block.setHead lh).head = lh := by
  have hbound : lh.length ≤ 30 := short
  rw [head, headCount_setHead short, Int.toNat_natCast]
  apply List.ext_getElem
  · simp
  · intro i hleft hright
    have hentry : lh.getD i 0 = lh[i] := by simp [hright]
    simp only [List.getElem_map, List.getElem_range]
    rw [setHead_eq, get_setEntries hright (by simp only [BSIZE]; omega), hentry]
    exact Nat.mod_eq_of_lt (uint _ (List.getElem_mem hright))

theorem head_of_headCount (h : block.headCount = 0) : block.head = [] := by
  simp [head, h]

theorem headCount_setHead_nil (block : Block) : (block.setHead []).headCount = 0 :=
  headCount_setHead (Nat.zero_le _)

end Block

end Xv6
