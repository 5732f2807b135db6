import Mathlib.Data.List.Chain
import Mathlib.Data.List.Nodup
import Mathlib.Algebra.Order.Ring.Nat
import Mathlib.Logic.Function.Iterate

/-! Circular doubly linked lists with a head. -/
namespace Xv6.Lib

open Function List

variable {α : Type}

structure Links (α : Type) where
  next : α → α
  prev : α → α

namespace Links

def flip (r : Links α) : Links α := ⟨r.prev, r.next⟩

def Follows (r : Links α) (x y : α) : Prop := r.next x = y ∧ r.prev y = x

/-- From the head the nodes follow in the order of `l`, and then the head. -/
structure Ring (r : Links α) (head : α) (l : List α) : Prop where
  nodup : (head :: l).Nodup
  chain : (head :: (l ++ [head])).IsChain r.Follows

section Operations

variable [DecidableEq α]

def unlink (r : Links α) (b : α) : Links α :=
  let r := { r with prev := update r.prev (r.next b) (r.prev b) }
  { r with next := update r.next (r.prev b) (r.next b) }

def pushFront (r : Links α) (head b : α) : Links α :=
  let r := { r with next := update r.next b (r.next head) }
  let r := { r with prev := update r.prev b head }
  let r := { r with prev := update r.prev (r.next head) b }
  { r with next := update r.next head b }

/-- `for (x = start; x != head; x = step x) if (p x) return x`, within `fuel` rounds. -/
def scan (step : α → α) (head : α) (p : α → Bool) : Nat → α → Option α
  | 0, _ => none
  | fuel + 1, x =>
    if x = head then none else if p x then some x else scan step head p fuel (step x)

end Operations

variable {r r' : Links α} {head a b x : α} {l l₁ l₂ : List α}

theorem forall_of_isChain {R S : α → α → Prop} (h : l.IsChain R)
    (imp : ∀ x ∈ l.dropLast, ∀ y ∈ l.tail, R x y → S x y) : l.IsChain S := by
  rw [isChain_iff_forall_rel_of_append_cons_cons] at h ⊢
  intro x y l₁ l₂ heq
  refine imp x ?_ y ?_ (h heq)
  · rw [heq, dropLast_append_of_ne_nil (by simp)]
    simp
  · rw [heq]
    cases l₁ <;> simp

theorem isChain_congr (h : l.IsChain r.Follows) (next : ∀ x ∈ l.dropLast, r'.next x = r.next x)
    (prev : ∀ y ∈ l.tail, r'.prev y = r.prev y) : l.IsChain r'.Follows := by
  apply forall_of_isChain h
  rintro x hx y hy ⟨hnext, hprev⟩
  exact ⟨(next x hx).trans hnext, (prev y hy).trans hprev⟩

theorem exists_follows_of_mem (h : (a :: l).IsChain r.Follows) (hx : x ∈ l) :
    ∃ y, r.Follows y x := by
  induction l generalizing a with
  | nil => cases hx
  | cons z l ih =>
    rw [isChain_cons_cons] at h
    cases hx with
    | head => exact ⟨a, h.1⟩
    | tail _ hx => exact ih h.2 hx

theorem iterate_of_isChain (h : (a :: l).IsChain r.Follows) (i : Nat) (hi : i < l.length) :
    r.next^[i + 1] a = l[i] := by
  induction l generalizing a i with
  | nil => cases hi
  | cons z l ih =>
    rw [isChain_cons_cons] at h
    rw [Function.iterate_succ_apply, h.1.1]
    cases i with
    | zero => rfl
    | succ i => exact ih h.2 i (by simpa using hi)

variable {p : α → Bool}

theorem scan_of_isChain [DecidableEq α] {fuel : Nat} (h : (a :: (l ++ [head])).IsChain r.Follows)
    (hhead : head ∉ l) (hfuel : l.length < fuel) :
    scan r.next head p fuel (r.next a) = l.find? p := by
  induction l generalizing a fuel with
  | nil =>
    obtain ⟨fuel, rfl⟩ := Nat.exists_eq_add_one.mpr (Nat.zero_lt_of_lt hfuel)
    have hnext : r.next a = head := (isChain_cons_cons.mp h).1.1
    rw [hnext, scan, if_pos rfl]
    rfl
  | cons z l ih =>
    obtain ⟨fuel, rfl⟩ := Nat.exists_eq_add_one.mpr (Nat.zero_lt_of_lt hfuel)
    obtain ⟨hfollows, htail⟩ := isChain_cons_cons.mp h
    have hne : z ≠ head := fun heq => hhead (heq ▸ mem_cons_self ..)
    rw [hfollows.1, scan, if_neg hne, List.find?_cons]
    cases p z with
    | true => rfl
    | false => exact ih htail (fun hmem => hhead (mem_cons_of_mem _ hmem)) (by simpa using hfuel)

namespace Ring

theorem head_not_mem (h : r.Ring head l) : head ∉ l := (nodup_cons.mp h.nodup).1

theorem flip (h : r.Ring head l) : r.flip.Ring head l.reverse where
  nodup := by
    rw [nodup_cons, mem_reverse, nodup_reverse]
    exact nodup_cons.mp h.nodup
  chain := by
    have hlist : head :: (l.reverse ++ [head]) = (head :: (l ++ [head])).reverse := by simp
    rw [hlist, isChain_reverse]
    apply forall_of_isChain h.chain
    rintro x _ y _ ⟨hnext, hprev⟩
    exact ⟨hprev, hnext⟩

theorem next_prev (h : r.Ring head l) (hx : x ∈ head :: l) : r.next (r.prev x) = x := by
  have hmem : x ∈ l ++ [head] := by simpa [or_comm] using hx
  obtain ⟨y, hnext, hprev⟩ := exists_follows_of_mem h.chain hmem
  rw [hprev, hnext]

theorem prev_next (h : r.Ring head l) (hx : x ∈ head :: l) : r.prev (r.next x) = x :=
  h.flip.next_prev (by simpa using hx)

theorem iterate (h : r.Ring head l) (i : Nat) (hi : i < (l ++ [head]).length) :
    r.next^[i + 1] head = (l ++ [head])[i] :=
  iterate_of_isChain h.chain i hi

theorem scan_next [DecidableEq α] {fuel : Nat} (h : r.Ring head l) (hfuel : l.length < fuel) :
    scan r.next head p fuel (r.next head) = l.find? p :=
  scan_of_isChain h.chain h.head_not_mem hfuel

theorem scan_prev [DecidableEq α] {fuel : Nat} (h : r.Ring head l) (hfuel : l.length < fuel) :
    scan r.prev head p fuel (r.prev head) = l.reverse.find? p :=
  h.flip.scan_next (by simpa using hfuel)

variable [DecidableEq α]

theorem unlink (h : r.Ring head (l₁ ++ b :: l₂)) : (r.unlink b).Ring head (l₁ ++ l₂) where
  nodup := by
    have hnodup := h.nodup
    rw [← cons_append, nodup_middle, cons_append] at hnodup
    exact (nodup_cons.mp hnodup).2
  chain := by
    obtain ⟨pre, x, hpre⟩ : ∃ pre x, head :: l₁ = pre ++ [x] :=
      ⟨_, _, (dropLast_append_getLast (cons_ne_nil head l₁)).symm⟩
    obtain ⟨z, post, hpost⟩ : ∃ z post, l₂ ++ [head] = z :: post := by
      cases l₂ with
      | nil => exact ⟨head, [], rfl⟩
      | cons z l₂ => exact ⟨z, l₂ ++ [head], rfl⟩
    have hold : head :: ((l₁ ++ b :: l₂) ++ [head]) = pre ++ x :: b :: z :: post := by
      rw [append_assoc, cons_append, ← cons_append, hpre, hpost]
      simp
    have hnew : head :: ((l₁ ++ l₂) ++ [head]) = pre ++ x :: z :: post := by
      rw [append_assoc, ← cons_append, hpre, hpost]
      simp
    have hchain := h.chain
    rw [hold, isChain_append_cons_cons, isChain_cons_cons] at hchain
    obtain ⟨hleft, hxb, hbz, hright⟩ := hchain
    have hnodup := h.nodup
    rw [← cons_append] at hnodup
    obtain ⟨hnodup₁, hnodup₂, hdisjoint⟩ := nodup_append.mp hnodup
    obtain ⟨hb₂, hnodup₂⟩ := nodup_cons.mp hnodup₂
    have hx : x ∈ head :: l₁ := by rw [hpre]; simp
    have hz : z ∈ l₂ ++ [head] := by rw [hpost]; simp
    have hhead₂ : head ∉ l₂ := fun hmem =>
      hdisjoint head (mem_cons_self ..) head (mem_cons_of_mem _ hmem) rfl
    have hbhead : b ≠ head := fun heq =>
      hdisjoint head (mem_cons_self ..) b (mem_cons_self ..) heq.symm
    have hbz' : b ≠ z := by
      rintro rfl
      rcases mem_append.mp hz with hmem | hmem
      · exact hb₂ hmem
      · exact hbhead (mem_singleton.mp hmem)
    have hlinks : r.unlink b = ⟨update r.next x z, update r.prev z x⟩ := by
      unfold Links.unlink
      simp only [hbz.1, hxb.2, update_of_ne hbz']
    rw [hlinks, hnew, isChain_append_cons_cons]
    refine ⟨?_, ⟨update_self .., update_self ..⟩, ?_⟩
    · rw [← hpre] at hleft ⊢
      apply isChain_congr hleft
      · intro y hy
        have hyx : y ≠ x := by
          rintro rfl
          rw [hpre, dropLast_concat] at hy
          rw [hpre] at hnodup₁
          exact (nodup_append.mp hnodup₁).2.2 y hy y (by simp) rfl
        exact update_of_ne hyx ..
      · intro y hy
        have hyz : y ≠ z := by
          rintro rfl
          rcases mem_append.mp hz with hmem | hmem
          · exact hdisjoint y (mem_cons_of_mem _ hy) y (mem_cons_of_mem _ hmem) rfl
          · exact (nodup_cons.mp hnodup₁).1 (mem_singleton.mp hmem ▸ hy)
        exact update_of_ne hyz ..
    · rw [← hpost] at hright ⊢
      apply isChain_congr hright
      · intro y hy
        rw [dropLast_concat] at hy
        have hyx : y ≠ x := by
          rintro rfl
          exact hdisjoint y hx y (mem_cons_of_mem _ hy) rfl
        exact update_of_ne hyx ..
      · intro y hy
        have hyz : y ≠ z := by
          rintro rfl
          have hnodup₃ : (l₂ ++ [head]).Nodup := by
            rw [nodup_append]
            refine ⟨hnodup₂, by simp, ?_⟩
            rintro c hc d hd rfl
            exact hhead₂ (mem_singleton.mp hd ▸ hc)
          rw [hpost] at hnodup₃ hy
          exact (nodup_cons.mp hnodup₃).1 hy
        exact update_of_ne hyz ..

theorem pushFront (h : r.Ring head l) (hb : b ∉ head :: l) :
    (r.pushFront head b).Ring head (b :: l) where
  nodup := by
    rw [nodup_cons, nodup_cons]
    have hnodup := nodup_cons.mp h.nodup
    refine ⟨?_, fun hmem => hb (mem_cons_of_mem _ hmem), hnodup.2⟩
    intro hmem
    rcases mem_cons.mp hmem with rfl | hmem
    · exact hb (mem_cons_self ..)
    · exact hnodup.1 hmem
  chain := by
    obtain ⟨z, post, hpost⟩ : ∃ z post, l ++ [head] = z :: post := by
      cases l with
      | nil => exact ⟨head, [], rfl⟩
      | cons z l => exact ⟨z, l ++ [head], rfl⟩
    have hchain := h.chain
    rw [hpost, isChain_cons_cons] at hchain
    obtain ⟨hhz, hright⟩ := hchain
    have hbhead : head ≠ b := fun heq => hb (heq ▸ mem_cons_self ..)
    have hnodup : (l ++ [head]).Nodup := by
      rw [nodup_append_comm]
      exact h.nodup
    have hbz : b ≠ z := by
      rintro rfl
      apply hb
      have hmem : b ∈ l ++ [head] := by rw [hpost]; simp
      simpa [or_comm] using hmem
    have hlinks : r.pushFront head b = ⟨update (update r.next b z) head b,
        update (update r.prev b head) z b⟩ := by
      unfold Links.pushFront
      simp only [hhz.1, update_of_ne hbhead]
    rw [hlinks, cons_append, hpost, isChain_cons_cons, isChain_cons_cons]
    refine ⟨⟨update_self .., ?_⟩, ⟨?_, update_self ..⟩, ?_⟩
    · exact (update_of_ne hbz ..).trans (update_self ..)
    · exact (update_of_ne hbhead.symm ..).trans (update_self ..)
    · rw [← hpost] at hright ⊢
      apply isChain_congr hright
      · intro y hy
        rw [dropLast_concat] at hy
        have hyhead : y ≠ head := fun heq => h.head_not_mem (heq ▸ hy)
        have hyb : y ≠ b := fun heq => hb (heq ▸ mem_cons_of_mem _ hy)
        exact (update_of_ne hyhead ..).trans (update_of_ne hyb ..)
      · intro y hy
        have hyb : y ≠ b := by
          rintro rfl
          have hmem := mem_of_mem_tail hy
          apply hb
          simpa [or_comm] using hmem
        have hyz : y ≠ z := by
          rintro rfl
          rw [hpost] at hnodup hy
          exact (nodup_cons.mp hnodup).1 hy
        exact (update_of_ne hyz ..).trans (update_of_ne hyb ..)

end Ring

end Links

end Xv6.Lib
