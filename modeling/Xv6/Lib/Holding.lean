import Mathlib.Data.Set.Insert
import Mathlib.Algebra.Order.Ring.Nat

/-! Exact ownership: every taken resource is held at one place, and nothing else is held. -/
namespace Xv6.Lib

open Function

variable {ι ρ : Type}

structure Holding (hold : ι → Option ρ) (taken : Set ρ) : Prop where
  inj : ∀ p q r, hold p = some r → hold q = some r → p = q
  taken_iff : ∀ r, r ∈ taken ↔ ∃ p, hold p = some r

namespace Holding

variable {hold : ι → Option ρ} {taken : Set ρ}

theorem mem_taken (h : Holding hold taken) {p : ι} {r : ρ} (hp : hold p = some r) : r ∈ taken :=
  (h.taken_iff r).mpr ⟨p, hp⟩

theorem ne_of_ne (h : Holding hold taken) {p q : ι} {r t : ρ} (hp : hold p = some r)
    (hq : hold q = some t) (hne : p ≠ q) : r ≠ t := by
  rintro rfl
  exact hne (h.inj p q r hp hq)

theorem congr {hold' : ι → Option ρ} (h : Holding hold taken) (heq : ∀ p, hold' p = hold p) :
    Holding hold' taken := by
  rw [show hold' = hold from funext heq]
  exact h

variable [DecidableEq ι]

theorem add (h : Holding hold taken) {p : ι} {r : ρ} (hp : hold p = none) (hr : r ∉ taken) :
    Holding (update hold p (some r)) (insert r taken) where
  inj := by
    have hother : ∀ q t, update hold p (some r) q = some t → q ≠ p → t ≠ r := by
      intro q t hq hne
      rw [update_of_ne hne] at hq
      rintro rfl
      exact hr (h.mem_taken hq)
    intro q q' t hq hq'
    by_cases hqp : q = p
    · by_cases hqp' : q' = p
      · rw [hqp, hqp']
      · rw [hqp, update_self, Option.some.injEq] at hq
        exact absurd hq.symm (hother q' t hq' hqp')
    · by_cases hqp' : q' = p
      · rw [hqp', update_self, Option.some.injEq] at hq'
        exact absurd hq'.symm (hother q t hq hqp)
      · rw [update_of_ne hqp] at hq
        rw [update_of_ne hqp'] at hq'
        exact h.inj q q' t hq hq'
  taken_iff t := by
    constructor
    · rintro (rfl | ht)
      · exact ⟨p, update_self ..⟩
      · obtain ⟨q, hq⟩ := (h.taken_iff t).mp ht
        have hne : q ≠ p := by
          rintro rfl
          rw [hp] at hq
          cases hq
        exact ⟨q, by rw [update_of_ne hne, hq]⟩
    · rintro ⟨q, hq⟩
      by_cases hqp : q = p
      · rw [hqp, update_self, Option.some.injEq] at hq
        exact .inl hq.symm
      · rw [update_of_ne hqp] at hq
        exact .inr (h.mem_taken hq)

theorem remove (h : Holding hold taken) {p : ι} {r : ρ} (hp : hold p = some r) :
    Holding (update hold p none) (taken \ {r}) where
  inj := by
    intro q q' t hq hq'
    by_cases hqp : q = p
    · rw [hqp, update_self] at hq
      cases hq
    · by_cases hqp' : q' = p
      · rw [hqp', update_self] at hq'
        cases hq'
      · rw [update_of_ne hqp] at hq
        rw [update_of_ne hqp'] at hq'
        exact h.inj q q' t hq hq'
  taken_iff t := by
    constructor
    · rintro ⟨ht, hne⟩
      obtain ⟨q, hq⟩ := (h.taken_iff t).mp ht
      have hqp : q ≠ p := by
        rintro rfl
        rw [hp, Option.some.injEq] at hq
        exact hne hq.symm
      exact ⟨q, by rw [update_of_ne hqp, hq]⟩
    · rintro ⟨q, hq⟩
      by_cases hqp : q = p
      · rw [hqp, update_self] at hq
        cases hq
      · rw [update_of_ne hqp] at hq
        exact ⟨h.mem_taken hq, h.ne_of_ne hq hp hqp⟩

end Holding

end Xv6.Lib
