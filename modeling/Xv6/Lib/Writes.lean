import Mathlib.Algebra.Order.Ring.Nat

/-! A store written one cell at a time, of which a crash keeps a prefix of the writes. -/
namespace Xv6.Lib.Writes

open Function

variable {K V : Type} [DecidableEq K]

/-- The store after a sequence of writes, oldest first. -/
def apply (store : K → V) (writes : List (K × V)) : K → V :=
  writes.foldl (fun current w => update current w.1 w.2) store

@[simp] theorem apply_nil (store : K → V) : apply store [] = store := rfl

@[simp] theorem apply_cons (store : K → V) (w : K × V) (writes : List (K × V)) :
    apply store (w :: writes) = apply (update store w.1 w.2) writes := rfl

theorem apply_append (store : K → V) (first second : List (K × V)) :
    apply store (first ++ second) = apply (apply store first) second := by
  simp [apply, List.foldl_append]

variable {store : K → V} {writes : List (K × V)}

theorem apply_untouched {key : K} (h : ∀ w ∈ writes, w.1 ≠ key) :
    apply store writes key = store key := by
  induction writes generalizing store with
  | nil => rfl
  | cons w tail ih =>
    have hhead : w.1 ≠ key := h w (by simp)
    rw [apply_cons, ih fun v hv => h v (by simp [hv]), update_of_ne hhead.symm]

theorem apply_mem (distinct : (writes.map Prod.fst).Nodup) {w : K × V} (h : w ∈ writes) :
    apply store writes w.1 = w.2 := by
  induction writes generalizing store with
  | nil => simp at h
  | cons v tail ih =>
    simp only [List.map_cons, List.nodup_cons, List.mem_map, not_exists, not_and] at distinct
    rcases List.mem_cons.mp h with rfl | hmem
    · rw [apply_cons, apply_untouched distinct.1, update_self]
    · exact ih distinct.2 hmem

theorem apply_take_of_preserved {P : (K → V) → Prop}
    (step : ∀ w ∈ writes, ∀ store, P store → P (update store w.1 w.2)) (init : P store)
    (count : Nat) : P (apply store (writes.take count)) := by
  induction writes generalizing store count with
  | nil => simpa using init
  | cons w tail ih =>
    cases count with
    | zero => simpa using init
    | succ count =>
      rw [List.take_succ_cons, apply_cons]
      exact ih (fun v hv => step v (by simp [hv])) (step w (by simp) store init) count

theorem apply_of_preserved {P : (K → V) → Prop}
    (step : ∀ w ∈ writes, ∀ store, P store → P (update store w.1 w.2)) (init : P store) :
    P (apply store writes) := by
  simpa using apply_take_of_preserved step init writes.length

/-- A prefix stops in the first sequence or goes on into the second. -/
theorem apply_take_append (store : K → V) (first second : List (K × V)) (count : Nat) :
    apply store ((first ++ second).take count) =
      if count ≤ first.length then apply store (first.take count)
      else apply (apply store first) (second.take (count - first.length)) := by
  split
  · rename_i h
    rw [List.take_append_of_le_length h]
  · rename_i h
    rw [List.take_append, List.take_of_length_le (by omega), apply_append]

end Xv6.Lib.Writes
