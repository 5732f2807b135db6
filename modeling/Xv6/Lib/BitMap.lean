import Mathlib.Algebra.Order.Ring.Nat

/-! Bits packed eight to a byte in an array of bytes. -/
namespace Xv6.Lib.BitMap

open Function

def mask (i : Nat) : UInt8 := 1 <<< UInt8.ofNat (i % 8)

def test (bytes : Nat → UInt8) (i : Nat) : Bool := bytes (i / 8) &&& mask i != 0

def mark (bytes : Nat → UInt8) (i : Nat) : Nat → UInt8 :=
  update bytes (i / 8) (bytes (i / 8) ||| mask i)

def clear (bytes : Nat → UInt8) (i : Nat) : Nat → UInt8 :=
  update bytes (i / 8) (bytes (i / 8) &&& ~~~mask i)

theorem or_and_right (a b c : UInt8) : (a ||| b) &&& c = (a &&& c) ||| (b &&& c) := by
  rw [← UInt8.toBitVec_inj]
  apply BitVec.eq_of_getLsbD_eq
  intro i _
  simp [Bool.and_or_distrib_right]

theorem mask_mod (i : Nat) : mask (i % 8) = mask i := by
  simp [mask]

theorem mask_and_mask (k l : Fin 8) :
    mask k.val &&& mask l.val = if k = l then mask k.val else 0 := by
  revert k l
  decide

theorem mask_ne_zero (i : Nat) : mask i ≠ 0 := by
  have hsmall : ∀ k : Fin 8, mask k.val ≠ 0 := by decide
  rw [← mask_mod]
  exact hsmall ⟨i % 8, Nat.mod_lt _ (by omega)⟩

theorem mask_and_mask_ne {i j : Nat} (h : i % 8 ≠ j % 8) : mask i &&& mask j = 0 := by
  rw [← mask_mod i, ← mask_mod j]
  have hand := mask_and_mask ⟨i % 8, Nat.mod_lt _ (by omega)⟩ ⟨j % 8, Nat.mod_lt _ (by omega)⟩
  rw [if_neg (by simp [h])] at hand
  exact hand

@[simp] theorem test_mark_self (bytes : Nat → UInt8) (i : Nat) : test (mark bytes i) i = true := by
  have hmask := mask_ne_zero i
  unfold test mark
  rw [update_self, or_and_right]
  simp [hmask]

theorem test_mark_ne {bytes : Nat → UInt8} {i j : Nat} (h : j ≠ i) :
    test (mark bytes i) j = test bytes j := by
  unfold test mark
  by_cases hbyte : j / 8 = i / 8
  · have hmod : i % 8 ≠ j % 8 := by omega
    rw [hbyte, update_self, or_and_right, mask_and_mask_ne hmod]
    simp
  · rw [update_of_ne hbyte]

@[simp] theorem test_clear_self (bytes : Nat → UInt8) (i : Nat) :
    test (clear bytes i) i = false := by
  unfold test clear
  rw [update_self, UInt8.and_assoc]
  simp [UInt8.and_comm]

theorem test_clear_ne {bytes : Nat → UInt8} {i j : Nat} (h : j ≠ i) :
    test (clear bytes i) j = test bytes j := by
  unfold test clear
  by_cases hbyte : j / 8 = i / 8
  · have hmod : i % 8 ≠ j % 8 := by omega
    have hnot : ~~~mask i &&& mask j = mask j := by
      have hall : (mask i ||| ~~~mask i) &&& mask j = mask j := by simp
      rw [or_and_right, mask_and_mask_ne hmod] at hall
      simpa using hall
    rw [hbyte, update_self, UInt8.and_assoc, hnot]
  · rw [update_of_ne hbyte]

theorem test_congr {left right : Nat → UInt8} {i : Nat} (h : left (i / 8) = right (i / 8)) :
    test left i = test right i := by
  unfold test
  rw [h]

end Xv6.Lib.BitMap
