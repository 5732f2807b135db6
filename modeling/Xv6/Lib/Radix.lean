import Mathlib.Algebra.Order.Ring.Nat
import Mathlib.Algebra.BigOperators.Group.Finset.Basic
import Mathlib.Algebra.Order.BigOperators.Group.Multiset
import Mathlib.Data.Fintype.Basic
import Mathlib.Data.Multiset.AddSub

/-! Radix trees whose tables carry labels, and how a store keeps them. -/
namespace Xv6.Lib.Radix

open Function Multiset

variable {N n : Nat} {β α ε : Type}

/-- Trees of a given height, with leaves at 0. A subtree may be absent. -/
inductive Tree (N : Nat) (β α : Type) : Nat → Type
  | empty {n : Nat} : Tree N β α n
  | leaf (a : α) : Tree N β α 0
  | table {n : Nat} (label : β) (child : Fin N → Tree N β α n) : Tree N β α (n + 1)

def digit (N n v : Nat) [NeZero N] : Fin N := Fin.ofNat N (v / N ^ n)

theorem digit_val [NeZero N] (v : Nat) : (digit N n v).val = v / N ^ n % N := rfl

theorem mod_pow_succ_eq_iff [NeZero N] (v w : Nat) :
    v % N ^ (n + 1) = w % N ^ (n + 1) ↔ digit N n v = digit N n w ∧ v % N ^ n = w % N ^ n := by
  have hpos : 0 < N ^ n := Nat.pow_pos (Nat.pos_of_neZero N)
  rw [Fin.ext_iff, digit_val, digit_val, Nat.mod_pow_succ, Nat.mod_pow_succ]
  constructor
  · intro h
    have hmod := congrArg (· % N ^ n) h
    have hdiv := congrArg (· / N ^ n) h
    simp only [Nat.add_mul_mod_self_left, Nat.mod_mod, Nat.add_mul_div_left _ _ hpos,
      Nat.mod_div_self, Nat.zero_add] at hmod hdiv
    exact ⟨hdiv, hmod⟩
  · rintro ⟨hdigit, hmod⟩
    rw [hdigit, hmod]

namespace Tree

def labels : {n : Nat} → Tree N β α n → Multiset β
  | _, .empty => 0
  | _, .leaf _ => 0
  | _, .table label child => label ::ₘ ∑ i, labels (child i)

/-- The labels of a table and of its children other than `i`. -/
def around (label : β) (child : Fin N → Tree N β α n) (i : Fin N) : Multiset β :=
  label ::ₘ ∑ j ∈ Finset.univ.erase i, labels (child j)

def label? : Tree N β α n → Option β
  | .table label _ => some label
  | _ => none

theorem labels_table (label : β) (child : Fin N → Tree N β α n) (i : Fin N) :
    (table label child).labels = (child i).labels + around label child i := by
  change label ::ₘ ∑ j, (child j).labels = _
  rw [← Finset.add_sum_erase _ _ (Finset.mem_univ i)]
  exact (add_cons ..).symm

@[simp] theorem labels_empty : (empty : Tree N β α n).labels = 0 := by
  cases n <;> rfl

theorem mem_labels_child {label b : β} {child : Fin N → Tree N β α n} {i : Fin N}
    (h : b ∈ (child i).labels) : b ∈ (table label child).labels := by
  rw [labels_table label child i]
  exact mem_add.mpr (.inl h)

theorem label_mem (label : β) (child : Fin N → Tree N β α n) :
    label ∈ (table label child).labels := mem_cons_self _ _

theorem around_update (label : β) (child : Fin N → Tree N β α n) (i : Fin N)
    (t : Tree N β α n) : around label (update child i t) i = around label child i := by
  unfold around
  congr 1
  apply Finset.sum_congr rfl
  intro j hj
  rw [update_of_ne (Finset.ne_of_mem_erase hj)]

theorem labels_update (label : β) (child : Fin N → Tree N β α n) (i : Fin N)
    (t : Tree N β α n) :
    (table label (update child i t)).labels = t.labels + around label child i := by
  rw [labels_table _ _ i, around_update, update_self]

theorem mem_around_of_ne {label b : β} {child : Fin N → Tree N β α n} {i j : Fin N}
    (hne : j ≠ i) (hb : b ∈ (child j).labels) : b ∈ around label child i :=
  mem_cons.mpr (.inr (mem_sum.mpr
    ⟨j, Finset.mem_erase.mpr ⟨hne, Finset.mem_univ j⟩, hb⟩))

theorem mem_around_self (label : β) (child : Fin N → Tree N β α n) (i : Fin N) :
    label ∈ around label child i := mem_cons_self _ _

theorem labels_table_empty (label : β) :
    (table label (fun _ => empty) : Tree N β α (n + 1)).labels = {label} := by
  change label ::ₘ ∑ _ : Fin N, (empty : Tree N β α n).labels = {label}
  rw [labels_empty, Finset.sum_const_zero]
  rfl

theorem label_not_mem_child {label : β} {child : Fin N → Tree N β α n}
    (h : (table label child).labels.Nodup) (i : Fin N) : label ∉ (child i).labels := by
  intro hmem
  rw [labels_table label child i] at h
  exact disjoint_left.mp (nodup_add.mp h).2.2 hmem (mem_around_self _ _ _)

theorem labels_zero (t : Tree N β α 0) : t.labels = 0 := by
  cases t <;> rfl

variable [NeZero N]

/-- The leaf at index `v`, whose digits choose the children. -/
def lookup : {n : Nat} → Tree N β α n → Nat → Option α
  | _, .empty, _ => none
  | _, .leaf a, _ => some a
  | n + 1, .table _ child, v => lookup (child (digit N n v)) v

def bottom : {n : Nat} → Tree N β α (n + 1) → Nat → Option β
  | _, .empty, _ => none
  | 0, .table label _, _ => some label
  | n + 1, .table _ child, v => bottom (child (digit N (n + 1) v)) v

def ofOption : Option α → Tree N β α 0
  | none => .empty
  | some a => .leaf a

/-- Replace the leaf at index `v`. -/
def set : {n : Nat} → Tree N β α (n + 1) → Nat → Option α → Tree N β α (n + 1)
  | _, .empty, _, _ => .empty
  | 0, .table label child, v, a =>
    .table label (update child (digit N 0 v) (ofOption a))
  | n + 1, .table label child, v, a =>
    .table label (update child (digit N (n + 1) v) (set (child (digit N (n + 1) v)) v a))

@[simp] theorem lookup_table (label : β) (child : Fin N → Tree N β α n) (v : Nat) :
    (table label child).lookup v = (child (digit N n v)).lookup v := rfl

@[simp] theorem bottom_table (label : β) (child : Fin N → Tree N β α (n + 1)) (v : Nat) :
    (table label child).bottom v = (child (digit N (n + 1) v)).bottom v := rfl

@[simp] theorem set_table_zero (label : β) (child : Fin N → Tree N β α 0) (v : Nat)
    (a : Option α) : (table label child).set v a =
      table label (update child (digit N 0 v) (ofOption a)) := rfl

@[simp] theorem set_table_succ (label : β) (child : Fin N → Tree N β α (n + 1)) (v : Nat)
    (a : Option α) : (table label child).set v a =
      table label (update child (digit N (n + 1) v)
        ((child (digit N (n + 1) v)).set v a)) := rfl

@[simp] theorem bottom_empty (v : Nat) : (empty : Tree N β α (n + 1)).bottom v = none := by
  cases n <;> rfl

theorem lookup_ofOption (a : Option α) (v : Nat) :
    (ofOption a : Tree N β α 0).lookup v = a := by
  cases a <;> rfl

theorem ofOption_lookup (t : Tree N β α 0) (v : Nat) : ofOption (t.lookup v) = t := by
  cases t <;> rfl

theorem bottom_mem {t : Tree N β α (n + 1)} {v : Nat} {b : β} (h : t.bottom v = some b) :
    b ∈ t.labels := by
  induction n with
  | zero =>
    cases t with
    | empty => cases h
    | table label child =>
      cases h
      exact label_mem _ _
  | succ n ih =>
    cases t with
    | empty => cases h
    | table label child =>
      exact mem_labels_child (ih h)

theorem lookup_eq_none_of_bottom {t : Tree N β α (n + 1)} {v : Nat} (h : t.bottom v = none) :
    t.lookup v = none := by
  induction n with
  | zero =>
    cases t with
    | empty => rfl
    | table label child => cases h
  | succ n ih =>
    cases t with
    | empty => rfl
    | table label child => exact ih h

theorem labels_set (t : Tree N β α (n + 1)) (v : Nat) (a : Option α) :
    (t.set v a).labels = t.labels := by
  induction n with
  | zero =>
    cases t with
    | empty => rfl
    | table label child =>
      rw [set_table_zero, labels_update, labels_table label child (digit N 0 v), labels_zero,
        labels_zero]
  | succ n ih =>
    cases t with
    | empty => rfl
    | table label child =>
      rw [set_table_succ, labels_update, labels_table label child (digit N (n + 1) v), ih]

theorem label?_set (t : Tree N β α (n + 1)) (v : Nat) (a : Option α) :
    (t.set v a).label? = t.label? := by
  cases n <;> cases t <;> rfl

theorem lookup_set {t : Tree N β α (n + 1)} {v : Nat} (h : t.bottom v ≠ none) (a : Option α)
    (w : Nat) : (t.set v a).lookup w =
      if w % N ^ (n + 1) = v % N ^ (n + 1) then a else t.lookup w := by
  induction n with
  | zero =>
    cases t with
    | empty => exact absurd rfl h
    | table label child =>
      rw [set_table_zero, lookup_table, lookup_table]
      simp only [mod_pow_succ_eq_iff, Nat.pow_zero, Nat.mod_one, and_true]
      split
      · rename_i heq
        rw [heq, update_self, lookup_ofOption]
      · rename_i heq
        rw [update_of_ne heq]
  | succ n ih =>
    cases t with
    | empty => exact absurd rfl h
    | table label child =>
      rw [set_table_succ, lookup_table, lookup_table]
      simp only [mod_pow_succ_eq_iff (n := n + 1)]
      by_cases heq : digit N (n + 1) w = digit N (n + 1) v
      · rw [heq, update_self, ih h]
        simp only [true_and]
      · rw [update_of_ne heq, if_neg (fun hand => heq hand.1)]

/-- Only the digits below the height matter. -/
theorem lookup_congr (t : Tree N β α n) {v w : Nat} (h : v % N ^ n = w % N ^ n) :
    t.lookup v = t.lookup w := by
  induction t with
  | empty => rfl
  | leaf a => rfl
  | table label child ih =>
    obtain ⟨hdigit, hmod⟩ := (mod_pow_succ_eq_iff v w).mp h
    rw [lookup_table, lookup_table, hdigit]
    exact ih _ hmod

theorem exists_lookup_child (label : β) (child : Fin N → Tree N β α n) (i : Fin N) (v : Nat) :
    ∃ w, (table label child).lookup w = (child i).lookup v := by
  have hpos : 0 < N ^ n := Nat.pow_pos (Nat.pos_of_neZero N)
  refine ⟨v % N ^ n + N ^ n * i.val, ?_⟩
  have hdigit : digit N n (v % N ^ n + N ^ n * i.val) = i := by
    apply Fin.ext
    rw [digit_val, Nat.add_mul_div_left _ _ hpos, Nat.mod_div_self, Nat.zero_add,
      Nat.mod_eq_of_lt i.isLt]
  rw [lookup_table, hdigit]
  apply lookup_congr
  rw [Nat.add_mul_mod_self_left, Nat.mod_mod]

attribute [irreducible] labels around

end Tree

/-- How a word stands for a child: absent, a leaf, or a label. -/
structure Coding (β α ε : Type) where
  Absent : ε → Prop
  leaf : α → ε
  link : β → ε

namespace Coding

variable (C : Coding β α ε)

def Codes (word : ε) : Tree N β α n → Prop
  | .empty => C.Absent word
  | .leaf a => word = C.leaf a
  | .table label _ => word = C.link label

/-- The store holds the tables of the tree. -/
def Stored (read : β → Fin N → ε) : {n : Nat} → Tree N β α n → Prop
  | _, .empty => True
  | _, .leaf _ => True
  | _, .table label child => ∀ i, C.Codes (read label i) (child i) ∧ Stored read (child i)

variable {C} {read read' : β → Fin N → ε}

theorem Stored.congr {t : Tree N β α n} (h : C.Stored read t)
    (same : ∀ b ∈ t.labels, read' b = read b) : C.Stored read' t := by
  induction t with
  | empty => trivial
  | leaf a => trivial
  | table label child ih =>
    intro i
    refine ⟨?_, ih i (h i).2 fun b hb => same b ?_⟩
    · rw [same label (Tree.label_mem _ _)]
      exact (h i).1
    · exact Tree.mem_labels_child hb

/-- Exchange one child, when the store keeps everything around it. -/
theorem Stored.update {label : β} {child : Fin N → Tree N β α n} {i : Fin N}
    {t : Tree N β α n} (h : C.Stored read (.table label child))
    (others : ∀ j, j ≠ i → read' label j = read label j)
    (same : ∀ j, j ≠ i → ∀ b ∈ (child j).labels, read' b = read b)
    (word : C.Codes (read' label i) t) (ht : C.Stored read' t) :
    C.Stored read' (.table label (update child i t)) := by
  intro j
  obtain rfl | hj := eq_or_ne j i
  · rw [update_self]
    exact ⟨word, ht⟩
  · rw [update_of_ne hj, others j hj]
    exact ⟨(h j).1, (h j).2.congr (same j hj)⟩

variable [NeZero N]

theorem codes_set {word : ε} {t : Tree N β α (n + 1)} (h : C.Codes word t) (v : Nat)
    (a : Option α) : C.Codes word (t.set v a) := by
  cases n <;> cases t <;> exact h

theorem Stored.read_bottom {t : Tree N β α (n + 1)} {v : Nat} {b : β} (h : C.Stored read t)
    (hb : t.bottom v = some b) :
    C.Codes (read b (digit N 0 v)) (Tree.ofOption (t.lookup v) : Tree N β α 0) := by
  induction n with
  | zero =>
    cases t with
    | empty => cases hb
    | table label child =>
      cases hb
      rw [Tree.lookup_table, Tree.ofOption_lookup]
      exact (h _).1
  | succ n ih =>
    cases t with
    | empty => cases hb
    | table label child => exact ih (h _).2 hb

theorem Stored.set {t : Tree N β α (n + 1)} {v : Nat} {b : β} {a : Option α}
    (h : C.Stored read t) (hnodup : t.labels.Nodup) (hb : t.bottom v = some b)
    (others : ∀ c i, c ≠ b ∨ i ≠ digit N 0 v → read' c i = read c i)
    (word : C.Codes (read' b (digit N 0 v)) (Tree.ofOption a : Tree N β α 0)) :
    C.Stored read' (t.set v a) := by
  induction n with
  | zero =>
    cases t with
    | empty => cases hb
    | table label child =>
      cases hb
      refine h.update (fun j hj => others _ _ (.inr hj)) ?_ word ?_
      · intro j hj c hc
        rw [Tree.labels_zero] at hc
        exact absurd hc (notMem_zero c)
      · cases a <;> trivial
  | succ n ih =>
    cases t with
    | empty => cases hb
    | table label child =>
      have hmem := Tree.bottom_mem (t := child (digit N (n + 1) v)) hb
      rw [Tree.labels_table label child (digit N (n + 1) v), nodup_add] at hnodup
      have hout : ∀ c ∈ Tree.around label child (digit N (n + 1) v), c ≠ b := by
        rintro c hc rfl
        exact disjoint_left.mp hnodup.2.2 hmem hc
      refine h.update ?_ ?_ ?_ (ih (h _).2 hnodup.1 hb)
      · intro j _
        exact others _ _ (.inl (hout _ (Tree.mem_around_self _ _ _)))
      · intro j hj c hc
        funext i
        exact others _ _ (.inl (hout _ (Tree.mem_around_of_ne hj hc)))
      · rw [others _ _ (.inl (hout _ (Tree.mem_around_self _ _ _)))]
        exact codes_set (h _).1 v a

end Coding

end Xv6.Lib.Radix
