import Mathlib.Data.Finset.Card
import Mathlib.Data.Finset.Max
import Mathlib.Logic.Function.Iterate
import Mathlib.Tactic.Order

/-! Finite sets whose members are linked in ascending order, the last one to the first. -/
namespace Xv6.Lib

open Function Finset

variable {α : Type} [LinearOrder α] {F : Finset α} {next next' : α → α} {a b p x : α}

/-- `b` follows `a` in the circle `F`. -/
def IsNext (F : Finset α) (a b : α) : Prop :=
  b ∈ F ∧ (a < b ∧ (∀ c ∈ F, c ≤ a ∨ b ≤ c) ∨ b ≤ a ∧ ∀ c ∈ F, b ≤ c ∧ c ≤ a)

/-- `x` belongs after `a` and before the one that follows it. -/
def Between (a x b : α) : Prop := a < x ∧ x < b ∨ b ≤ a ∧ (a < x ∨ x < b)

def Circular (F : Finset α) (next : α → α) : Prop := ∀ a ∈ F, IsNext F a (next a)

namespace Circular

section

variable (h : Circular F next)

include h

theorem next_mem (ha : a ∈ F) : next a ∈ F := (h a ha).1

theorem congr (heq : ∀ a ∈ F, next' a = next a) : Circular F next' :=
  fun a ha => heq a ha ▸ h a ha

theorem exists_between (hne : F.Nonempty) (x : α) (hx : x ∉ F) : ∃ a ∈ F, Between a x (next a) := by
  by_cases hbelow : (F.filter (· < x)).Nonempty
  · have hmem := mem_filter.mp (Finset.max'_mem _ hbelow)
    have hmax : ∀ c ∈ F, c < x → c ≤ (F.filter (· < x)).max' hbelow := fun c hc hlt =>
      le_max' _ c (mem_filter.mpr ⟨hc, hlt⟩)
    refine ⟨_, hmem.1, ?_⟩
    obtain ⟨hnext, hgap | hwrap⟩ := h _ hmem.1
    · refine .inl ⟨hmem.2, ?_⟩
      have hne : next ((F.filter (· < x)).max' hbelow) ≠ x := fun heq => hx (heq ▸ hnext)
      by_contra hle
      exact absurd (hmax _ hnext (lt_of_le_of_ne (not_lt.mp hle) hne)) (not_le.mpr hgap.1)
    · exact .inr ⟨hwrap.1, .inl hmem.2⟩
  · have habove : ∀ c ∈ F, x < c := by
      intro c hc
      have hnot : ¬ c < x := fun hlt => hbelow ⟨c, mem_filter.mpr ⟨hc, hlt⟩⟩
      exact lt_of_le_of_ne (not_lt.mp hnot) fun heq => hx (heq ▸ hc)
    have hmem := F.max'_mem hne
    refine ⟨_, hmem, ?_⟩
    obtain ⟨hnext, hgap | hwrap⟩ := h _ hmem
    · exact absurd (F.le_max' _ hnext) (not_le.mpr hgap.1)
    · exact .inr ⟨hwrap.1, .inr (habove _ hnext)⟩

theorem insert (hp : p ∈ F) (hx : x ∉ F) (hbetween : Between p x (next p)) :
    Circular (insert x F) (update (update next x (next p)) p x) := by
  have hxp : x ≠ p := fun heq => hx (heq ▸ hp)
  obtain ⟨hnext, hplace⟩ := h p hp
  intro c hc
  obtain rfl | hcp := eq_or_ne c p
  · rw [update_self]
    refine ⟨mem_insert_self x F, ?_⟩
    grind [Between]
  · rw [update_of_ne hcp]
    rcases mem_insert.mp hc with rfl | hcF
    · rw [update_self]
      refine ⟨mem_insert_of_mem hnext, ?_⟩
      grind [Between]
    · have hcx : c ≠ x := fun heq => hx (heq ▸ hcF)
      rw [update_of_ne hcx]
      obtain ⟨hmem, hgap⟩ := h c hcF
      refine ⟨mem_insert_of_mem hmem, ?_⟩
      grind [Between]

theorem erase (hp : p ∈ F) (hne : next p ≠ p) :
    Circular (F.erase (next p)) (update next p (next (next p))) := by
  obtain ⟨hmem, hplace⟩ := h p hp
  obtain ⟨hmem', hplace'⟩ := h _ hmem
  intro c hc
  obtain ⟨hcn, hcF⟩ := mem_erase.mp hc
  obtain rfl | hcp := eq_or_ne c p
  · rw [update_self]
    grind [IsNext]
  · rw [update_of_ne hcp]
    have hgap := h c hcF
    grind [IsNext]

theorem climb_aux (ha : a ∈ F) (hb : b ∈ F) (hle : a ≤ b) :
    ∃ k ≤ (F.filter fun c => a < c ∧ c ≤ b).card, next^[k] a = b := by
  induction hn : (F.filter fun c => a < c ∧ c ≤ b).card using Nat.strong_induction_on
    generalizing a with
  | _ n ih =>
    subst hn
    rcases hle.eq_or_lt with rfl | hlt
    · exact ⟨0, Nat.zero_le _, rfl⟩
    obtain ⟨hmem, ⟨hstep, hgap⟩ | ⟨-, hall⟩⟩ := h a ha
    · have hnext : next a ≤ b := (hgap b hb).resolve_left (not_le.mpr hlt)
      have hfewer : F.filter (fun c => next a < c ∧ c ≤ b) ⊂ F.filter fun c => a < c ∧ c ≤ b := by
        refine (ssubset_iff_of_subset ?_).mpr ⟨next a, ?_, ?_⟩
        · intro c hc
          rw [mem_filter] at hc ⊢
          exact ⟨hc.1, hstep.trans hc.2.1, hc.2.2⟩
        · exact mem_filter.mpr ⟨hmem, hstep, hnext⟩
        · exact fun hself => (mem_filter.mp hself).2.1.false
      obtain ⟨k, hk, heq⟩ := ih _ (card_lt_card hfewer) hmem hnext rfl
      exact ⟨k + 1, hk.trans_lt (card_lt_card hfewer), heq⟩
    · exact absurd (hall b hb).2 (not_le.mpr hlt)

theorem climb (ha : a ∈ F) (hb : b ∈ F) (hle : a ≤ b) : ∃ k < F.card, next^[k] a = b := by
  obtain ⟨k, hk, heq⟩ := h.climb_aux ha hb hle
  refine ⟨k, hk.trans_lt (card_lt_card ?_), heq⟩
  exact (ssubset_iff_of_subset (filter_subset _ _)).mpr
    ⟨a, ha, fun hself => (mem_filter.mp hself).2.1.false⟩

/-- Every member is reached from every other. -/
theorem reach (ha : a ∈ F) (hb : b ∈ F) : ∃ k < 2 * F.card, next^[k] a = b := by
  have hne : F.Nonempty := ⟨a, ha⟩
  obtain ⟨k, hk, htop⟩ := h.climb ha (F.max'_mem hne) (F.le_max' a ha)
  obtain ⟨hmem, ⟨hstep, -⟩ | ⟨-, hall⟩⟩ := h _ (F.max'_mem hne)
  · exact absurd (F.le_max' _ hmem) (not_le.mpr hstep)
  · obtain ⟨k', hk', hbottom⟩ := h.climb hmem hb (hall b hb).1
    refine ⟨k' + (k + 1), by omega, ?_⟩
    rw [Function.iterate_add_apply, Function.iterate_succ_apply', htop, hbottom]

theorem reach_of_next (ha : a ∈ F) (hb : b ∈ F) :
    ∃ k < 2 * F.card, next^[k] (next a) = b ∧ ∀ j < k, next^[j] (next a) ≠ a := by
  have hex := h.reach (h.next_mem ha) hb
  let hreach : ∃ k, next^[k] (next a) = b := hex.imp fun _ hk => hk.2
  obtain ⟨k, hk, heq⟩ := hex
  refine ⟨Nat.find hreach, (Nat.find_min' hreach heq).trans_lt hk, Nat.find_spec hreach, ?_⟩
  -- coming back to `a` earlier would mean that `b` was passed earlier
  intro j hj hback
  have hshift : next^[Nat.find hreach - (j + 1)] (next a) = b := by
    have hspec := Nat.find_spec hreach
    rw [← Nat.sub_add_cancel hj, Function.iterate_add_apply, Function.iterate_succ_apply',
      hback] at hspec
    exact hspec
  exact Nat.find_min hreach (by omega) hshift

theorem eq_of_next_eq (ha : a ∈ F) (heq : next a = a) (hb : b ∈ F) : b = a := by
  obtain ⟨-, ⟨hlt, -⟩ | ⟨-, hall⟩⟩ := h a ha
  · rw [heq] at hlt
    exact absurd hlt (lt_irrefl a)
  · rw [heq] at hall
    exact le_antisymm (hall b hb).2 (hall b hb).1

end

end Circular

end Xv6.Lib
