import Mathlib.Algebra.Order.Ring.Nat
import Mathlib.Algebra.Order.BigOperators.Group.List
import Mathlib.Algebra.Order.Group.Nat
import Mathlib.Data.List.Perm.Subperm

/-! Sequences to which several owners contribute. -/
namespace Xv6.Lib.Shuffle

variable {P α : Type} [DecidableEq P]

def own (p : P) (l : List (P × α)) : List α := (l.filter fun x => x.1 = p).map Prod.snd

@[simp] theorem own_nil (p : P) : own p ([] : List (P × α)) = [] := rfl

@[simp] theorem own_append (p : P) (l m : List (P × α)) : own p (l ++ m) = own p l ++ own p m := by
  unfold own
  rw [List.filter_append, List.map_append]

theorem own_cons_self (p : P) (a : α) (l : List (P × α)) : own p ((p, a) :: l) = a :: own p l := by
  unfold own
  rw [List.filter_cons_of_pos (by simp), List.map_cons]

theorem own_cons_of_ne {p q : P} (h : q ≠ p) (a : α) (l : List (P × α)) :
    own p ((q, a) :: l) = own p l := by
  unfold own
  rw [List.filter_cons_of_neg (by simpa using h)]

theorem own_map_self (p : P) (l : List α) : own p (l.map fun a => (p, a)) = l := by
  induction l with
  | nil => rfl
  | cons a l ih => rw [List.map_cons, own_cons_self, ih]

theorem own_map_of_ne {p q : P} (h : q ≠ p) (l : List α) : own p (l.map fun a => (q, a)) = [] := by
  induction l with
  | nil => rfl
  | cons a l ih => rw [List.map_cons, own_cons_of_ne h, ih]

theorem count_own [DecidableEq α] (p : P) (a : α) (l : List (P × α)) :
    (own p l).count a = l.count (p, a) := by
  induction l with
  | nil => rfl
  | cons x l ih =>
    obtain ⟨q, b⟩ := x
    obtain rfl | hq := eq_or_ne q p
    · rw [own_cons_self, List.count_cons, List.count_cons, ih]
      simp
    · rw [own_cons_of_ne hq, ih, List.count_cons_of_ne]
      exact fun h => hq (congrArg Prod.fst h)

/-- If everyone has only a first part of what they have in `m`, the sum is no more. -/
theorem sum_le_of_own_prefix {l m : List (P × α)} (weight : α → Nat)
    (h : ∀ p, own p l <+: own p m) :
    (l.map fun x => weight x.2).sum ≤ (m.map fun x => weight x.2).sum := by
  classical
  have hsub : l.Subperm m := by
    rw [List.subperm_ext_iff]
    rintro ⟨p, a⟩ _
    rw [← count_own, ← count_own]
    exact (h p).sublist.count_le a
  obtain ⟨l', hperm, hsub⟩ := hsub
  calc (l.map fun x => weight x.2).sum
      = (l'.map fun x => weight x.2).sum := (hperm.symm.map _).sum_eq
    _ ≤ (m.map fun x => weight x.2).sum :=
        (hsub.map _).sum_le_sum fun _ _ => Nat.zero_le _

end Xv6.Lib.Shuffle
