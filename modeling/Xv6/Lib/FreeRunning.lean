import Mathlib.Data.List.Basic
import Mathlib.Data.Nat.ModEq
import Mathlib.Algebra.Order.Ring.Nat

/-! Ring buffers with free-running 32-bit indices, taken modulo a size that divides `2 ^ 32`. -/
namespace Xv6.Lib.FreeRunning

open Function

variable {α : Type} {cap : Nat} [NeZero cap]

def slot (cap : Nat) [NeZero cap] (n : UInt32) : Fin cap := Fin.ofNat cap n.toNat

def cells (data : Fin cap → α) (first : UInt32) (count : Nat) : List α :=
  (List.range count).map fun i => data (slot cap (first + UInt32.ofNat i))

variable {data : Fin cap → α} {first : UInt32} {count m n : Nat} {x : α}

theorem slot_val (hcap : cap ∣ 2 ^ 32) (n : UInt32) (i : Nat) :
    (slot cap (n + UInt32.ofNat i)).val = (n.toNat + i) % cap := by
  have hslot : (slot cap (n + UInt32.ofNat i)).val = (n + UInt32.ofNat i).toNat % cap := rfl
  rw [hslot, UInt32.toNat_add, UInt32.toNat_ofNat', Nat.mod_mod_of_dvd _ hcap, Nat.add_mod,
    Nat.mod_mod_of_dvd _ hcap, ← Nat.add_mod]

theorem slot_ne (hcap : cap ∣ 2 ^ 32) (n : UInt32) {i j : Nat} (hij : i < j) (hj : j < i + cap) :
    slot cap (n + UInt32.ofNat i) ≠ slot cap (n + UInt32.ofNat j) := by
  intro heq
  have hval := congrArg Fin.val heq
  rw [slot_val hcap, slot_val hcap] at hval
  have hdvd : cap ∣ (n.toNat + j) - (n.toNat + i) := (Nat.modEq_iff_dvd' (by omega)).mp hval
  have hle := Nat.le_of_dvd (by omega) hdvd
  omega

@[simp] theorem cells_length : (cells data first count).length = count := by
  simp [cells]

theorem cells_succ : cells data first (count + 1) =
    cells data first count ++ [data (slot cap (first + UInt32.ofNat count))] := by
  unfold cells
  rw [List.range_succ, List.map_append]
  rfl

theorem cells_cons : cells data first (count + 1) =
    data (slot cap first) :: cells data (first + 1) count := by
  unfold cells
  rw [List.range_succ_eq_map, List.map_cons, List.map_map]
  congr 1
  · simp
  · apply List.map_congr_left
    intro i _
    change data (slot cap (first + UInt32.ofNat (i + 1))) = data (slot cap (first + 1 + UInt32.ofNat i))
    rw [UInt32.ofNat_add, UInt32.add_assoc, UInt32.add_comm (UInt32.ofNat i)]
    rfl

theorem cells_add : cells data first (m + n) =
    cells data first m ++ cells data (first + UInt32.ofNat m) n := by
  unfold cells
  rw [List.range_add, List.map_append, List.map_map]
  congr 1
  apply List.map_congr_left
  intro i _
  rw [Function.comp_apply, UInt32.ofNat_add, UInt32.add_assoc]

theorem cells_update (hcap : cap ∣ 2 ^ 32) (hlt : count < cap) :
    cells (update data (slot cap (first + UInt32.ofNat count)) x) first count =
      cells data first count := by
  apply List.map_congr_left
  intro i hi
  have hi' : i < count := List.mem_range.mp hi
  exact update_of_ne (slot_ne hcap first hi' (by omega)) ..

theorem cells_push (hcap : cap ∣ 2 ^ 32) (hlt : count < cap) :
    cells (update data (slot cap (first + UInt32.ofNat count)) x) first (count + 1) =
      cells data first count ++ [x] := by
  rw [cells_succ, cells_update hcap hlt, update_self]

theorem toNat_add_ofNat_sub (first : UInt32) (h : n < 2 ^ 32) :
    (first + UInt32.ofNat n - first).toNat = n := by
  rw [UInt32.add_comm, UInt32.add_sub_cancel, UInt32.toNat_ofNat_of_lt' h]

theorem add_ofNat_inj (first : UInt32) (hm : m < 2 ^ 32) (hn : n < 2 ^ 32) :
    first + UInt32.ofNat m = first + UInt32.ofNat n ↔ m = n := by
  constructor
  · intro heq
    rw [← toNat_add_ofNat_sub first hm, heq, toNat_add_ofNat_sub first hn]
  · rintro rfl
    rfl

theorem add_ofNat_succ (first : UInt32) (n : Nat) :
    first + UInt32.ofNat (n + 1) = first + UInt32.ofNat n + 1 := by
  rw [UInt32.ofNat_add, UInt32.add_assoc]
  rfl

theorem succ_add_ofNat (first : UInt32) (n : Nat) :
    first + 1 + UInt32.ofNat n = first + UInt32.ofNat (n + 1) := by
  rw [add_ofNat_succ, UInt32.add_assoc, UInt32.add_comm 1, ← UInt32.add_assoc]

end Xv6.Lib.FreeRunning
