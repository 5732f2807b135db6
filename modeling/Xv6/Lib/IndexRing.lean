import Mathlib.Data.List.Basic
import Mathlib.Data.Nat.ModEq
import Mathlib.Algebra.Order.Ring.Nat

/-! Rings of `size` slots between a producer and a consumer with free-running 16-bit counters. -/
namespace Xv6.Lib.IndexRing

variable {α : Type} {size : Nat} {slot : Nat → α} {head tail : UInt16}

def pending (size : Nat) (slot : Nat → α) (head tail : UInt16) : List α :=
  (List.range (tail - head).toNat).map fun j => slot ((head.toNat + j) % size)

@[simp] theorem length_pending : (pending size slot head tail).length = (tail - head).toNat := by
  simp [pending]

theorem pending_eq_nil : pending size slot head tail = [] ↔ head = tail := by
  rw [← List.length_eq_zero_iff, length_pending]
  constructor
  · intro h
    have hzero : tail - head = 0 := UInt16.toNat_inj.mp h
    have htail : tail = tail - head + head := (UInt16.sub_add_cancel tail head).symm
    rw [htail, hzero, UInt16.zero_add]
  · rintro rfl
    simp

section Wrap

variable (divides : size ∣ 2 ^ 16)

include divides

/-- Wrapping of the counter does not change the slot. -/
theorem mod_wrap (n : Nat) : n % 2 ^ 16 % size = n % size := Nat.mod_mod_of_dvd n divides

theorem mod_tail (head tail : UInt16) :
    (head.toNat + (tail - head).toNat) % size = tail.toNat % size := by
  rw [← mod_wrap divides, UInt16.toNat_sub]
  congr 1
  have hhead := head.toNat_lt
  have htail := tail.toNat_lt
  omega

theorem pending_advance (room : (pending size slot head tail).length + 1 < 2 ^ 16) :
    pending size slot head (tail + 1) =
      pending size slot head tail ++ [slot (tail.toNat % size)] := by
  rw [length_pending] at room
  have hlength : (tail + 1 - head).toNat = (tail - head).toNat + 1 := by
    rw [UInt16.toNat_sub] at room ⊢
    rw [UInt16.toNat_sub, UInt16.toNat_add]
    change (2 ^ 16 - head.toNat + (tail.toNat + 1) % 2 ^ 16) % 2 ^ 16 = _
    omega
  unfold pending
  rw [hlength, List.range_succ, List.map_append, List.map_singleton, mod_tail divides]

theorem pending_pop (more : head ≠ tail) :
    pending size slot head tail = slot (head.toNat % size) :: pending size slot (head + 1) tail := by
  have hpos : (tail - head).toNat ≠ 0 := by
    have hne : pending size slot head tail ≠ [] := fun h => more (pending_eq_nil.mp h)
    rwa [ne_eq, ← List.length_eq_zero_iff, length_pending] at hne
  have hlength : (tail - head).toNat = (tail - (head + 1)).toNat + 1 := by
    rw [UInt16.toNat_sub] at hpos ⊢
    rw [UInt16.toNat_sub, UInt16.toNat_add]
    have hhead := head.toNat_lt
    change _ = (2 ^ 16 - (head.toNat + 1) % 2 ^ 16 + tail.toNat) % 2 ^ 16 + 1
    omega
  unfold pending
  rw [hlength, List.range_succ_eq_map, List.map_cons, List.map_map]
  congr 1
  apply List.map_congr_left
  intro j _
  have hslot : (head + 1).toNat = (head.toNat + 1) % 2 ^ 16 := UInt16.toNat_add ..
  dsimp only [Function.comp]
  rw [hslot]
  congr 1
  rw [Nat.add_mod ((head.toNat + 1) % 2 ^ 16), mod_wrap divides, ← Nat.add_mod]
  congr 1
  omega

theorem slot_ne (room : (pending size slot head tail).length < size) {j : Nat}
    (hj : j < (pending size slot head tail).length) :
    (head.toNat + j) % size ≠ tail.toNat % size := by
  rw [length_pending] at room hj
  intro heq
  rw [← mod_tail divides head tail] at heq
  have hsub := Nat.ModEq.add_left_cancel' head.toNat heq
  have hj' : j % size = j := Nat.mod_eq_of_lt (by omega)
  have htail' : (tail - head).toNat % size = (tail - head).toNat := Nat.mod_eq_of_lt room
  unfold Nat.ModEq at hsub
  omega

/-- The producer loses no pending entry. -/
theorem pending_write (room : (pending size slot head tail).length < size) (x : α) :
    pending size (Function.update slot (tail.toNat % size) x) head tail =
      pending size slot head tail := by
  apply List.map_congr_left
  intro j hj
  have hne := slot_ne divides room (j := j) (by simpa using hj)
  exact Function.update_of_ne hne ..

end Wrap

end Xv6.Lib.IndexRing
