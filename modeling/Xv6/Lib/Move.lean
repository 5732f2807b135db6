import Mathlib.Data.BitVec
import Mathlib.Algebra.Order.Ring.Nat

/-! Copying cell by cell between ranges that may overlap. Addresses wrap. -/
namespace Xv6.Lib.Move

open Function (update update_self update_of_ne)

variable {w : Nat} {β : Type}

def upward (mem : BitVec w → β) (d s : BitVec w) : Nat → BitVec w → β
  | 0 => mem
  | n + 1 => upward (update mem d (mem s)) (d + 1) (s + 1) n

def downward (mem : BitVec w → β) (d s : BitVec w) : Nat → BitVec w → β
  | 0 => mem
  | n + 1 => downward (update mem (d - 1) (mem (s - 1))) (d - 1) (s - 1) n

/-- The `n` cells from `s` on are now those from `d` on, and the rest is as before. -/
structure Moved (mem mem' : BitVec w → β) (d s : BitVec w) (n : Nat) : Prop where
  inside : ∀ i, i < n → mem' (d + BitVec.ofNat w i) = mem (s + BitVec.ofNat w i)
  outside : ∀ a, (∀ i, i < n → a ≠ d + BitVec.ofNat w i) → mem' a = mem a

variable {mem mem' mem'' : BitVec w → β} {d s : BitVec w} {n : Nat}

theorem Moved.unique (h : Moved mem mem' d s n) (h' : Moved mem mem'' d s n) : mem' = mem'' := by
  funext a
  by_cases ha : ∃ i, i < n ∧ a = d + BitVec.ofNat w i
  · obtain ⟨i, hi, rfl⟩ := ha
    rw [h.inside i hi, h'.inside i hi]
  · push Not at ha
    rw [h.outside a ha, h'.outside a ha]

theorem add_ofNat_zero (a : BitVec w) : a + BitVec.ofNat w 0 = a := by simp

theorem add_ofNat_succ (a : BitVec w) (i : Nat) :
    a + BitVec.ofNat w (i + 1) = a + 1 + BitVec.ofNat w i := by
  rw [Nat.add_comm, BitVec.ofNat_add, ← BitVec.add_assoc]
  rfl

theorem add_ofNat_succ_sub_one (a : BitVec w) (i : Nat) :
    a + BitVec.ofNat w (i + 1) - 1 = a + BitVec.ofNat w i := by
  rw [BitVec.ofNat_add, ← BitVec.add_assoc]
  exact BitVec.add_sub_cancel _ _

theorem add_ofNat_inj (a : BitVec w) {i j : Nat} (hi : i < 2 ^ w) (hj : j < 2 ^ w)
    (h : a + BitVec.ofNat w i = a + BitVec.ofNat w j) : i = j := by
  have hnat := congrArg BitVec.toNat (BitVec.add_right_inj a |>.mp h)
  simpa [Nat.mod_eq_of_lt hi, Nat.mod_eq_of_lt hj] using hnat

/-- No cell is read after it was written. -/
theorem moved_upward (hn : n ≤ 2 ^ w)
    (apart : ∀ i j, i < j → j < n → d + BitVec.ofNat w i ≠ s + BitVec.ofNat w j) :
    Moved mem (upward mem d s n) d s n := by
  induction n generalizing mem d s with
  | zero => exact ⟨nofun, fun _ _ => rfl⟩
  | succ n ih =>
    have h : Moved (update mem d (mem s)) (upward mem d s (n + 1)) (d + 1) (s + 1) n := by
      apply ih (Nat.le_of_succ_le hn)
      intro i j hij hj
      rw [← add_ofNat_succ, ← add_ofNat_succ]
      exact apart (i + 1) (j + 1) (Nat.succ_lt_succ hij) (Nat.succ_lt_succ hj)
    have hfirst : ∀ i, i < n → d ≠ d + 1 + BitVec.ofNat w i := by
      intro i hi heq
      rw [← add_ofNat_succ] at heq
      nth_rewrite 1 [← add_ofNat_zero d] at heq
      have hzero := add_ofNat_inj d (by omega) (by omega) heq
      omega
    constructor
    · intro i hi
      cases i with
      | zero => rw [add_ofNat_zero, add_ofNat_zero, h.outside d hfirst, update_self]
      | succ i =>
        have hread : s + BitVec.ofNat w (i + 1) ≠ d := by
          have := apart 0 (i + 1) (Nat.succ_pos i) hi
          rw [add_ofNat_zero] at this
          exact this.symm
        rw [add_ofNat_succ d, h.inside i (Nat.lt_of_succ_lt_succ hi), ← add_ofNat_succ,
          update_of_ne hread]
    · intro a ha
      have hne : a ≠ d := by simpa using ha 0 (Nat.succ_pos n)
      rw [h.outside a, update_of_ne hne]
      intro i hi
      rw [← add_ofNat_succ]
      exact ha (i + 1) (Nat.succ_lt_succ hi)

theorem moved_downward (hn : n ≤ 2 ^ w)
    (apart : ∀ i j, j < i → i < n → d + BitVec.ofNat w i ≠ s + BitVec.ofNat w j) :
    Moved mem (downward mem (d + BitVec.ofNat w n) (s + BitVec.ofNat w n) n) d s n := by
  induction n generalizing mem with
  | zero => exact ⟨nofun, fun _ _ => rfl⟩
  | succ n ih =>
    rw [downward, add_ofNat_succ_sub_one, add_ofNat_succ_sub_one]
    have h := @ih (update mem (d + BitVec.ofNat w n) (mem (s + BitVec.ofNat w n)))
      (Nat.le_of_succ_le hn) fun i j hji hi => apart i j hji (Nat.lt_succ_of_lt hi)
    have hlast : ∀ i, i < n → d + BitVec.ofNat w n ≠ d + BitVec.ofNat w i := by
      intro i hi heq
      have hsame := add_ofNat_inj d (by omega) (by omega) heq
      omega
    constructor
    · intro i hi
      by_cases hin : i = n
      · rw [hin, h.outside _ hlast, update_self]
      · have hlt : i < n := by omega
        rw [h.inside i hlt, update_of_ne (apart n i hlt (Nat.lt_succ_self n)).symm]
    · intro a ha
      rw [h.outside a fun i hi => ha i (Nat.lt_succ_of_lt hi), update_of_ne (ha n (Nat.lt_succ_self n))]

end Xv6.Lib.Move
