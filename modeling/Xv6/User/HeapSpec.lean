import Mathlib.Algebra.BigOperators.Group.List.Basic
import Mathlib.Data.Finset.Card
import Mathlib.Order.Interval.Finset.Nat
import Xv6.User.FreeSpec

/-! What `free`, `morecore` and `malloc` do to the blocks of the heap. -/
namespace Xv6.User

open Function Finset
open Lib Lib.Exec

def Obtained (s : Heap) (x : Nat) : Prop := ∃ r ∈ s.obtained, r.1 ≤ x ∧ x < r.1 + r.2

def Heap.total (s : Heap) : Nat := (s.obtained.map Prod.snd).sum

/-- `F` and `L` account for the memory obtained. -/
structure Sound (m : Machine) (s : Heap) (F L : Finset Nat) : Prop where
  list : FreeList m.base s.mem F
  freep_mem : s.freep ∈ F
  live_above : ∀ a ∈ L, m.base + HEADER ≤ a
  live_positive : ∀ a ∈ L, 0 < (s.mem a).size
  live_apart : ∀ a ∈ L, ∀ b ∈ L, ∀ x, InBlock s.mem a x → InBlock s.mem b x → a = b
  live_free : ∀ a ∈ L, ∀ x, InBlock s.mem a x → ¬ Covers s.mem F x
  account : ∀ x, Obtained s x ↔ Covers s.mem F x ∨ ∃ a ∈ L, InBlock s.mem a x
  below : ∀ x, Obtained s x → x < s.top
  base_top : m.base + HEADER ≤ s.top
  total_le : s.total ≤ m.limit

theorem length_le_sum {regions : List (Nat × Nat)} {a n : Nat}
    (h : ∀ x, a ≤ x → x < a + n → ∃ r ∈ regions, r.1 ≤ x ∧ x < r.1 + r.2) :
    n ≤ (regions.map Prod.snd).sum := by
  have hcard : ∀ regions : List (Nat × Nat), ∃ S : Finset Nat,
      S.card ≤ (regions.map Prod.snd).sum ∧
        ∀ x, (∃ r ∈ regions, r.1 ≤ x ∧ x < r.1 + r.2) → x ∈ S := by
    intro regions
    induction regions with
    | nil => exact ⟨∅, le_rfl, fun x hx => by obtain ⟨r, hr, -⟩ := hx; cases hr⟩
    | cons r regions ih =>
      obtain ⟨S, hS, hmem⟩ := ih
      refine ⟨Finset.Ico r.1 (r.1 + r.2) ∪ S, ?_, ?_⟩
      · refine (card_union_le _ _).trans ?_
        rw [Nat.card_Ico, Nat.add_sub_cancel_left, List.map_cons, List.sum_cons]
        exact Nat.add_le_add_left hS _
      · rintro x ⟨r', hr', hx⟩
        rcases List.mem_cons.mp hr' with rfl | hr'
        · exact mem_union_left _ (mem_Ico.mpr hx)
        · exact mem_union_right _ (hmem x ⟨r', hr', hx⟩)
  obtain ⟨S, hS, hmem⟩ := hcard regions
  have hsub : Finset.Ico a (a + n) ⊆ S := fun x hx =>
    hmem x (h x (mem_Ico.mp hx).1 (mem_Ico.mp hx).2)
  have hle := card_le_card hsub
  rw [Nat.card_Ico, Nat.add_sub_cancel_left] at hle
  exact hle.trans hS

variable {m : Machine} {s : Heap} {F L : Finset Nat} {a bp : Nat}

namespace Sound

theorem notMem_of_live (h : Sound m s F L) (ha : a ∈ L) : a ∉ F := fun hF =>
  h.live_free a ha a (inBlock_self (h.live_positive a ha))
    ⟨a, hF, inBlock_self (h.live_positive a ha)⟩

theorem outside (h : Sound m s F L) (ha : a ∈ L) : Outside m.base s.mem F a :=
  ⟨h.live_above a ha, h.live_positive a ha, h.live_free a ha⟩

theorem lt_top_of_live (h : Sound m s F L) (ha : a ∈ L) : a < s.top :=
  h.below a ((h.account a).mpr (.inr ⟨a, ha, inBlock_self (h.live_positive a ha)⟩))

theorem lt_top_of_mem (h : Sound m s F L) (ha : a ∈ F) : a < s.top := by
  by_cases hne : a = m.base
  · have htop := h.base_top
    simp only [HEADER] at htop
    omega
  · exact h.below a ((h.account a).mpr (.inl ⟨a, ha, inBlock_self (h.list.positive a ha hne)⟩))

/-- Sizes fit in the header. -/
theorem size_lt (h : Sound m s F L) (hlimit : m.limit < 2 ^ 36) (ha : a ∈ L) {mem' : Nat → Header}
    {F' : Finset Nat}
    (hcovers : ∀ x, Covers mem' F' x ↔ Covers s.mem F x ∨ InBlock s.mem a x) {b : Nat}
    (hb : b ∈ F') : (mem' b).size < 2 ^ 32 := by
  have hle : HEADER * (mem' b).size ≤ s.total := by
    refine length_le_sum (a := b) fun x hlow hhigh => ?_
    refine (h.account x).mpr (((hcovers x).mp ⟨b, hb, hlow, hhigh⟩).imp id fun hx => ⟨a, ha, hx⟩)
  have htotal := h.total_le
  simp only [HEADER] at hle
  omega

end Sound

theorem Sound.wp_free (h : Sound m s F L) (hlimit : m.limit < 2 ^ 36) (hbp : bp ∈ L) (fuel : Nat) :
    wp (free fuel (bp + HEADER))
      (fun _ s' => s'.top = s.top ∧ ∃ F', Sound m s' F' (L.erase bp) ∧
        (∀ a ∈ L.erase bp, s'.mem a = s.mem a) ∧ F'.card ≤ F.card + 1 ∧
        ∃ t ∈ F', (s.mem bp).size ≤ (s'.mem t).size)
      (fun e => e = .outOfFuel ∧ fuel ≤ 2 * F.card) s := by
  refine wp_post (User.wp_free h.list h.freep_mem (h.outside hbp)
    (fun mem' F' hcovers b hb => h.size_lt hlimit hbp hcovers hb) fuel) ?_
  rintro - s' ⟨p, F', hrel, hs'⟩
  generalize s'.mem = mem' at hrel hs'
  subst hs'
  have hframe : ∀ a ∈ L.erase bp, mem' a = s.mem a := by
    intro a ha
    obtain ⟨hne, haL⟩ := mem_erase.mp ha
    refine hrel.frame a fun hmem => ?_
    exact (mem_insert.mp hmem).elim hne (h.notMem_of_live haL)
  have hblock : ∀ a ∈ L.erase bp, ∀ x, InBlock mem' a x ↔ InBlock s.mem a x := by
    intro a ha x
    rw [InBlock, InBlock, hframe a ha]
  refine ⟨rfl, F', ?_, hframe, ?_, hrel.room⟩
  · exact
      { list := hrel.list
        freep_mem := hrel.prev_mem
        live_above := fun a ha => h.live_above a (mem_of_mem_erase ha)
        live_positive := fun a ha => by
          dsimp only
          rw [hframe a ha]
          exact h.live_positive a (mem_of_mem_erase ha)
        live_apart := fun a ha b hb x hxa hxb =>
          h.live_apart a (mem_of_mem_erase ha) b (mem_of_mem_erase hb) x
            ((hblock a ha x).mp hxa) ((hblock b hb x).mp hxb)
        live_free := by
          intro a ha x hx hcov
          obtain ⟨hne, haL⟩ := mem_erase.mp ha
          have hx' := (hblock a ha x).mp hx
          rcases (hrel.covers x).mp hcov with hcov | hbx
          · exact h.live_free a haL x hx' hcov
          · exact hne (h.live_apart a haL bp hbp x hx' hbx)
        account := by
          intro x
          rw [hrel.covers x]
          refine (h.account x).trans ?_
          constructor
          · rintro (hcov | ⟨a, ha, hx⟩)
            · exact .inl (.inl hcov)
            · by_cases hne : a = bp
              · exact .inl (.inr (hne ▸ hx))
              · have hmem := mem_erase.mpr ⟨hne, ha⟩
                exact .inr ⟨a, hmem, (hblock a hmem x).mpr hx⟩
          · rintro ((hcov | hx) | ⟨a, ha, hx⟩)
            · exact .inl hcov
            · exact .inr ⟨bp, hbp, hx⟩
            · exact .inr ⟨a, mem_of_mem_erase ha, (hblock a ha x).mp hx⟩
        below := h.below
        base_top := h.base_top
        total_le := h.total_le }
  · exact (card_le_card hrel.subset).trans (card_insert_le _ _)

/-- After `sbrk` has returned `hp`. -/
def Heap.grow (s : Heap) (hp nu : Nat) : Heap :=
  { s with
    mem := update s.mem hp { s.mem hp with size := nu }
    obtained := (hp, nu * HEADER) :: s.obtained
    top := hp + nu * HEADER
    calls := s.calls + 1 }

theorem Heap.grow_self (s : Heap) (hp nu : Nat) : ((s.grow hp nu).mem hp).size = nu := by
  unfold grow
  dsimp only
  rw [update_self]

theorem Heap.grow_of_ne (s : Heap) {hp : Nat} (nu : Nat) (h : a ≠ hp) :
    (s.grow hp nu).mem a = s.mem a := update_of_ne h ..

/-- The new memory is a block like a live one. -/
theorem Sound.grow (h : Sound m s F L) (hp : Nat) {nu : Nat} (hnu : 0 < nu) (hfresh : s.top ≤ hp)
    (hroom : s.total + nu * HEADER ≤ m.limit) : Sound m (s.grow hp nu) F (insert hp L) := by
  have hlive : ∀ a ∈ L, a ≠ hp := fun a ha => ((h.lt_top_of_live ha).trans_le hfresh).ne
  have hfree : ∀ a ∈ F, a ≠ hp := fun a ha => ((h.lt_top_of_mem ha).trans_le hfresh).ne
  have hblock : ∀ a, a ≠ hp → ∀ x, InBlock (s.grow hp nu).mem a x ↔ InBlock s.mem a x := by
    intro a ha x
    rw [InBlock, InBlock, s.grow_of_ne nu ha]
  have hnew : ∀ x, InBlock (s.grow hp nu).mem hp x ↔ hp ≤ x ∧ x < hp + nu * HEADER := by
    intro x
    rw [InBlock, s.grow_self, Nat.mul_comm]
  have hcovers : ∀ x, Covers (s.grow hp nu).mem F x ↔ Covers s.mem F x := by
    intro x
    exact exists_congr fun a => and_congr_right fun ha => hblock a (hfree a ha) x
  have hold : ∀ a ∈ L, ∀ x, InBlock s.mem a x → x < hp := fun a ha x hx =>
    (h.below x ((h.account x).mpr (.inr ⟨a, ha, hx⟩))).trans_le hfresh
  refine
    { list := ?_
      freep_mem := h.freep_mem
      live_above := ?_
      live_positive := ?_
      live_apart := ?_
      live_free := ?_
      account := ?_
      below := ?_
      base_top := (h.base_top.trans hfresh).trans (Nat.le_add_right _ _)
      total_le := ?_ }
  · exact h.list.congr fun a ha => s.grow_of_ne nu (hfree a ha)
  · intro a ha
    rcases mem_insert.mp ha with rfl | ha
    · exact h.base_top.trans hfresh
    · exact h.live_above a ha
  · intro a ha
    rcases mem_insert.mp ha with rfl | ha
    · rw [s.grow_self]
      exact hnu
    · rw [s.grow_of_ne nu (hlive a ha)]
      exact h.live_positive a ha
  · intro a ha b hb x hxa hxb
    rcases mem_insert.mp ha with rfl | haL
    · rcases mem_insert.mp hb with rfl | hbL
      · rfl
      · rw [hblock b (hlive b hbL)] at hxb
        exact absurd (hold b hbL x hxb) (not_lt.mpr hxa.1)
    · rw [hblock a (hlive a haL)] at hxa
      rcases mem_insert.mp hb with rfl | hbL
      · exact absurd (hold a haL x hxa) (not_lt.mpr hxb.1)
      · rw [hblock b (hlive b hbL)] at hxb
        exact h.live_apart a haL b hbL x hxa hxb
  · intro a ha x hx hcov
    rw [hcovers] at hcov
    rcases mem_insert.mp ha with rfl | haL
    · have hlt := h.below x ((h.account x).mpr (.inl hcov))
      exact absurd (hlt.trans_le hfresh) (not_lt.mpr hx.1)
    · rw [hblock a (hlive a haL)] at hx
      exact h.live_free a haL x hx hcov
  · intro x
    have hobtained : Obtained (s.grow hp nu) x ↔ (hp ≤ x ∧ x < hp + nu * HEADER) ∨ Obtained s x := by
      unfold Obtained Heap.grow
      simp only [List.mem_cons, exists_eq_or_imp]
    have hlive' : (∃ a ∈ insert hp L, InBlock (s.grow hp nu).mem a x) ↔
        (hp ≤ x ∧ x < hp + nu * HEADER) ∨ ∃ a ∈ L, InBlock s.mem a x := by
      simp only [mem_insert, exists_eq_or_imp, hnew]
      exact or_congr_right
        (exists_congr fun a => and_congr_right fun ha => hblock a (hlive a ha) x)
    rw [hobtained, hlive', hcovers, h.account x]
    exact or_left_comm
  · intro x hx
    obtain ⟨r, hr, hx⟩ := hx
    rcases List.mem_cons.mp hr with rfl | hr
    · exact hx.2
    · have hlt := h.below x ⟨r, hr, hx⟩
      exact (hlt.trans_le hfresh).trans_le (Nat.le_add_right _ _)
  · rw [Heap.total, Heap.grow, List.map_cons, List.sum_cons, Nat.add_comm]
    exact hroom

theorem Sound.call (h : Sound m s F L) : Sound m { s with calls := s.calls + 1 } F L := { h with }

/-- `morecore` leaves the heap, or makes room. -/
def Grown (m : Machine) (F L : Finset Nat) (s : Heap) (nu : Nat) (r : Option Nat) (s' : Heap) :
    Prop :=
  s.top ≤ s'.top ∧
  match r with
  | none => Sound m s' F L ∧ s'.mem = s.mem
  | some p => p = s'.freep ∧ ∃ F', Sound m s' F' L ∧ (∀ a ∈ L, s'.mem a = s.mem a) ∧
      F'.card ≤ F.card + 1 ∧ ∃ t ∈ F', nu ≤ (s'.mem t).size

theorem Sound.wp_morecore (h : Sound m s F L) (hlimit : m.limit < 2 ^ 36) {nu : Nat}
    (hnu : nu * HEADER < 2 ^ 31) (fuel : Nat) :
    wp (morecore m fuel nu) (Grown m F L s nu) (fun e => e = .outOfFuel ∧ fuel ≤ 2 * F.card) s := by
  unfold morecore
  dsimp only
  generalize hunits : (if nu < 4096 then 4096 else nu) = nu'
  have hle : nu ≤ nu' ∧ 0 < nu' ∧ nu' * HEADER < 2 ^ 31 := by
    simp only [HEADER] at hnu ⊢
    split at hunits <;> omega
  rw [wp_bind, sbrk, Nat.mod_eq_of_lt (hle.2.2.trans (by decide)), if_neg (not_le.mpr hle.2.2)]
  simp only [wp_bind, wp_get, wp_set]
  rcases m.answer s.calls with _ | skip
  · exact ⟨le_rfl, h.call, rfl⟩
  dsimp only
  rw [wp_ite]
  split
  · exact ⟨le_rfl, h.call, rfl⟩
  · rename_i hroom
    simp only [wp_bind, wp_set, wp_pure, wp_modify, wp_get]
    have hgrow := h.grow (s.top + skip) hle.2.1 (Nat.le_add_right _ _) (not_lt.mp hroom)
    have hnotin : s.top + skip ∉ L := fun hmem =>
      absurd (h.lt_top_of_live hmem) (not_lt.mpr (Nat.le_add_right _ _))
    refine wp_post (hgrow.wp_free hlimit (mem_insert_self _ L) fuel) ?_
    rintro - s' ⟨htop, F', hsound, hkeep, hcard, t, ht, hsize⟩
    rw [erase_insert hnotin] at hsound hkeep
    have hup : s.top ≤ (s.grow (s.top + skip) nu').top := by
      simp only [Heap.grow]
      omega
    refine ⟨hup.trans_eq htop.symm, rfl, F', hsound, fun a ha => ?_, hcard, t, ht, ?_⟩
    · have hne : a ≠ s.top + skip := fun heq => hnotin (heq ▸ ha)
      rw [hkeep a ha, s.grow_of_ne _ hne]
    · rw [s.grow_self] at hsize
      exact hle.1.trans hsize

def Allocated (m : Machine) (L : Finset Nat) (nunits : Nat) (s : Heap) (r : Option Nat) (s' : Heap) :
    Prop :=
  (∀ a ∈ L, s'.mem a = s.mem a) ∧ s.top ≤ s'.top ∧
  match r with
  | none => ∃ F', Sound m s' F' L
  | some ap => ∃ F' q, ap = q + HEADER ∧ q ∉ L ∧ (s'.mem q).size = nunits ∧
      Sound m s' F' (insert q L)

theorem Sound.take (h : Sound m s F L) {mem' : Nat → Header} {F' : Finset Nat} {q prevp : Nat}
    (hlist : FreeList m.base mem' F') (hprev : prevp ∈ F') (hout : Outside m.base mem' F' q)
    (hcovers : ∀ x, Covers s.mem F x ↔ Covers mem' F' x ∨ InBlock mem' q x)
    (hkeep : ∀ a ∈ L, mem' a = s.mem a) :
    q ∉ L ∧ Sound m { s with mem := mem', freep := prevp } F' (insert q L) := by
  have hblock : ∀ a ∈ L, ∀ x, InBlock mem' a x ↔ InBlock s.mem a x := by
    intro a ha x
    rw [InBlock, InBlock, hkeep a ha]
  -- the block was covered by the free list, so it does not meet a live block
  have hmeet : ∀ a ∈ L, ∀ x, InBlock mem' a x → ¬ InBlock mem' q x := fun a ha x hxa hxq =>
    h.live_free a ha x ((hblock a ha x).mp hxa) ((hcovers x).mpr (.inr hxq))
  have hnot : q ∉ L := fun hq =>
    hmeet q hq q (inBlock_self hout.positive) (inBlock_self hout.positive)
  refine ⟨hnot, ?_⟩
  refine
    { list := hlist
      freep_mem := hprev
      live_above := ?_
      live_positive := ?_
      live_apart := ?_
      live_free := ?_
      account := ?_
      below := h.below
      base_top := h.base_top
      total_le := h.total_le }
  · intro a ha
    rcases mem_insert.mp ha with rfl | ha
    · exact hout.above
    · exact h.live_above a ha
  · intro a ha
    dsimp only
    rcases mem_insert.mp ha with rfl | ha
    · exact hout.positive
    · rw [hkeep a ha]
      exact h.live_positive a ha
  · intro a ha b hb x hxa hxb
    rcases mem_insert.mp ha with rfl | haL
    · rcases mem_insert.mp hb with rfl | hbL
      · rfl
      · exact absurd hxa (hmeet b hbL x hxb)
    · rcases mem_insert.mp hb with rfl | hbL
      · exact absurd hxb (hmeet a haL x hxa)
      · exact h.live_apart a haL b hbL x ((hblock a haL x).mp hxa) ((hblock b hbL x).mp hxb)
  · intro a ha x hx hcov
    rcases mem_insert.mp ha with rfl | haL
    · exact hout.disjoint x hx hcov
    · exact h.live_free a haL x ((hblock a haL x).mp hx) ((hcovers x).mpr (.inl hcov))
  · intro x
    have hlive : (∃ a ∈ insert q L, InBlock mem' a x) ↔
        InBlock mem' q x ∨ ∃ a ∈ L, InBlock s.mem a x := by
      simp only [mem_insert, exists_eq_or_imp]
      exact or_congr_right (exists_congr fun a => and_congr_right fun ha => hblock a ha x)
    rw [hlive, ← or_assoc, ← hcovers x]
    exact h.account x

/-- A block that fits, or `freep`, is ahead. -/
def Ahead (s : Heap) (F : Finset Nat) (nunits p bound : Nat) : Prop :=
  (∃ k ≤ bound, nunits ≤ (s.mem ((fun a => (s.mem a).ptr)^[k] p)).size ∧
    ∀ j < k, (fun a => (s.mem a).ptr)^[j] p ≠ s.freep) ∨
  ∃ k, (fun a => (s.mem a).ptr)^[k] p = s.freep ∧ k + 2 * F.card + 2 ≤ bound

theorem Ahead.next {nunits p bound : Nat} (h : Ahead s F nunits p bound)
    (hsmall : ¬ nunits ≤ (s.mem p).size) (hne : p ≠ s.freep) :
    ∃ bound', bound = bound' + 1 ∧ Ahead s F nunits (s.mem p).ptr bound' := by
  rcases h with ⟨k, hk, hfits, hbefore⟩ | ⟨k, hk, hbound⟩
  · rcases k with _ | k
    · exact absurd hfits hsmall
    · refine ⟨bound - 1, by omega, .inl ⟨k, by omega, hfits, fun j hj => ?_⟩⟩
      exact hbefore (j + 1) (by omega)
  · rcases k with _ | k
    · exact absurd hk hne
    · exact ⟨bound - 1, by omega, .inr ⟨k, hk, by omega⟩⟩

theorem Ahead.bound_of_freep {nunits bound : Nat} (h : Ahead s F nunits s.freep bound)
    (hsmall : ¬ nunits ≤ (s.mem s.freep).size) : 2 * F.card + 2 ≤ bound := by
  rcases h with ⟨k, hk, hfits, hbefore⟩ | ⟨k, hk, hbound⟩
  · rcases k with _ | k
    · exact absurd hfits hsmall
    · exact absurd rfl (hbefore 0 (by omega))
  · omega

theorem Sound.unlink (h : Sound m s F L) {prevp : Nat} (hprev : prevp ∈ F)
    (hne : (s.mem prevp).ptr ≠ m.base) :
    Allocated m L (s.mem (s.mem prevp).ptr).size s (some ((s.mem prevp).ptr + HEADER))
      { s with mem := unlink s.mem prevp, freep := prevp } := by
  have hkeep : ∀ a ∈ L, User.unlink s.mem prevp a = s.mem a := by
    intro a ha
    have hne' : a ≠ prevp := fun heq => h.notMem_of_live ha (heq ▸ hprev)
    exact update_of_ne hne' ..
  have hmem := h.list.circular.next_mem hprev
  have hcovers : ∀ x, Covers s.mem F x ↔
      Covers (User.unlink s.mem prevp) (F.erase (s.mem prevp).ptr) x ∨
        InBlock (User.unlink s.mem prevp) (s.mem prevp).ptr x := by
    intro x
    rw [covers_unlink hmem, InBlock, InBlock, unlink_size]
  obtain ⟨hnot, hsound⟩ := h.take (h.list.unlink hprev hne)
    (mem_erase.mpr ⟨(h.list.prev_lt hprev hne).ne, hprev⟩)
    (outside_unlink h.list hprev hne) hcovers hkeep
  exact ⟨hkeep, le_rfl, _, _, rfl, hnot, unlink_size .., hsound⟩

theorem Sound.cut (h : Sound m s F L) {prevp p nunits : Nat} (hprev : prevp ∈ F) (hp : p ∈ F)
    (hpos : 0 < nunits) (hunits : nunits < (s.mem p).size) :
    Allocated m L nunits s (some (cutAt s.mem p nunits + HEADER))
      { s with mem := cut s.mem p nunits, freep := prevp } := by
  have hinside : Covers s.mem F (cutAt s.mem p nunits) := by
    have hend := cutAt_end hunits
    refine ⟨p, hp, (cutAt_lt hunits).le, ?_⟩
    simp only [HEADER] at hend ⊢
    omega
  have hkeep : ∀ a ∈ L, User.cut s.mem p nunits a = s.mem a := by
    intro a ha
    refine cut_of_ne (fun heq => h.notMem_of_live ha (heq ▸ hp)) fun heq => ?_
    exact h.live_free a ha a (inBlock_self (h.live_positive a ha)) (heq ▸ hinside)
  obtain ⟨hnot, hsound⟩ := h.take (h.list.cut hp hpos hunits) hprev
    (outside_cut h.list hp hpos hunits) (covers_cut h.list hp hpos hunits) hkeep
  exact ⟨hkeep, le_rfl, _, _, rfl, hnot, cut_size, hsound⟩

/-- By induction on the rounds; one that does not end goes on, from `freep` after more memory. -/
theorem Sound.wp_mallocLoop (hlimit : m.limit < 2 ^ 36) {nunits : Nat} (hpos : 0 < nunits)
    (hnunits : nunits * HEADER < 2 ^ 31) (fuel : Nat) {prevp bound : Nat} (h : Sound m s F L)
    (hprev : prevp ∈ F) (hahead : Ahead s F nunits (s.mem prevp).ptr bound) :
    wp (mallocLoop m nunits fuel prevp (s.mem prevp).ptr) (Allocated m L nunits s)
      (fun e => e = .outOfFuel ∧ fuel ≤ bound) s := by
  induction fuel generalizing s F prevp bound with
  | zero => exact ⟨rfl, Nat.zero_le _⟩
  | succ fuel ih =>
    have hmem := h.list.circular.next_mem hprev
    rw [mallocLoop]
    simp only [wp_bind, wp_get, wp_ite]
    split
    · rename_i hfits
      split
      · rename_i hexact
        have hne : (s.mem prevp).ptr ≠ m.base := by
          intro heq
          rw [heq, h.list.base_size] at hexact
          omega
        have hdone := h.unlink hprev hne
        rw [hexact] at hdone
        exact hdone
      · rename_i hmore
        exact h.cut hprev hmem hpos (lt_of_le_of_ne hfits (Ne.symm hmore))
    · rename_i hsmall
      split
      · rename_i hback
        rw [hback] at hahead hsmall
        have hbound := hahead.bound_of_freep hsmall
        refine wp_mono (h.wp_morecore hlimit hnunits fuel) ?_ ?_
        · rintro (_ | p) s₁ hgrown
          · exact ⟨fun a _ => congrFun hgrown.2.2 a, hgrown.1, F, hgrown.2.1⟩
          · obtain ⟨hup, rfl, F₁, hsound, hkeep, hcard, t, ht, hroom⟩ := hgrown
            obtain ⟨k, hk, rfl, hbefore⟩ :=
              hsound.list.circular.reach_of_next hsound.freep_mem ht
            have hnext : Ahead s₁ F₁ nunits (s₁.mem s₁.freep).ptr (2 * F.card + 1) :=
              .inl ⟨k, by omega, hroom, hbefore⟩
            simp only [wp_bind, wp_get]
            refine wp_mono (ih hsound hsound.freep_mem hnext) ?_ ?_
            · rintro r s₂ ⟨hkeep', hup', hdone⟩
              exact ⟨fun a ha => (hkeep' a ha).trans (hkeep a ha), hup.trans hup', hdone⟩
            · rintro e ⟨rfl, hle⟩
              exact ⟨rfl, by omega⟩
        · rintro e ⟨rfl, hle⟩
          exact ⟨rfl, by omega⟩
      · rename_i hne
        obtain ⟨bound', rfl, hnext⟩ := hahead.next hsmall hne
        simp only [wp_pure, wp_bind, wp_get]
        refine wp_mono (ih h hmem hnext) (fun _ _ => id) ?_
        rintro e ⟨rfl, hle⟩
        exact ⟨rfl, by omega⟩

variable {nbytes : Nat}

theorem nunitsOf_eq (h : nbytes ≤ 2 ^ 31 - 32) :
    0 < nunitsOf nbytes ∧ nunitsOf nbytes * HEADER < 2 ^ 31 ∧
      nbytes + HEADER ≤ HEADER * nunitsOf nbytes := by
  have hunits : nunitsOf nbytes = (nbytes + HEADER - 1) / HEADER + 1 :=
    Nat.mod_eq_of_lt (by simp only [HEADER]; omega)
  rw [hunits]
  simp only [HEADER]
  omega

structure Fresh (m : Machine) (s : Heap) : Prop where
  freep_eq : s.freep = 0
  obtained_eq : s.obtained = []
  base_top : m.base + HEADER ≤ s.top

theorem Fresh.sound (h : Fresh m s) :
    Sound m { (s.setPtr m.base m.base).setSize m.base 0 with freep := m.base } {m.base} ∅ := by
  have hheader : ((s.setPtr m.base m.base).setSize m.base 0).mem m.base = ⟨m.base, 0⟩ := by
    simp [Heap.setPtr, Heap.setSize]
  have hnone : ∀ x, ¬
      Obtained { (s.setPtr m.base m.base).setSize m.base 0 with freep := m.base } x := by
    rintro x ⟨r, hr, -⟩
    have hr' : r ∈ s.obtained := hr
    rw [h.obtained_eq] at hr'
    cases hr'
  have hempty : ∀ x, ¬ Covers ((s.setPtr m.base m.base).setSize m.base 0).mem {m.base} x := by
    rintro x ⟨a, ha, hx⟩
    rw [mem_singleton.mp ha, InBlock, hheader] at hx
    exact absurd hx.2 (not_lt.mpr hx.1)
  refine
    { list := ⟨⟨mem_singleton_self _, by dsimp only; rw [hheader], ?_, ?_, ?_, ?_⟩, ?_⟩
      freep_mem := mem_singleton_self _
      live_above := by simp
      live_positive := by simp
      live_apart := by simp
      live_free := by simp
      account := fun x => ⟨fun hx => absurd hx (hnone x), ?_⟩
      below := fun x hx => absurd hx (hnone x)
      base_top := h.base_top
      total_le := ?_ }
  · intro a ha
    obtain rfl := mem_singleton.mp ha
    dsimp only
    rw [hheader]
    refine ⟨ha, .inr ⟨le_rfl, fun c hc => ?_⟩⟩
    obtain rfl := mem_singleton.mp hc
    exact ⟨le_rfl, le_rfl⟩
  · exact fun a ha hne => absurd (mem_singleton.mp ha) hne
  · exact fun a ha hne => absurd (mem_singleton.mp ha) hne
  · intro a ha b hb hlt
    rw [mem_singleton.mp ha, mem_singleton.mp hb] at hlt
    exact absurd hlt (lt_irrefl _)
  · intro a ha _
    obtain rfl := mem_singleton.mp ha
    dsimp only
    rw [hheader]
    exact fun hlt => absurd hlt (lt_irrefl _)
  · rintro (hx | ⟨a, ha, -⟩)
    · exact absurd hx (hempty x)
    · cases ha
  · change (s.obtained.map Prod.snd).sum ≤ m.limit
    rw [h.obtained_eq]
    exact Nat.zero_le _

theorem Sound.wp_scan (h : Sound m s F L) (hlimit : m.limit < 2 ^ 36)
    (hnbytes : nbytes ≤ 2 ^ 31 - 32) (fuel : Nat) :
    wp (mallocLoop m (nunitsOf nbytes) fuel s.freep (s.mem s.freep).ptr)
      (Allocated m L (nunitsOf nbytes) s)
      (fun e => e = .outOfFuel ∧ fuel ≤ 4 * F.card + 2) s := by
  obtain ⟨hpos, hnunits, -⟩ := nunitsOf_eq hnbytes
  obtain ⟨k, hk, hback⟩ :=
    h.list.circular.reach (h.list.circular.next_mem h.freep_mem) h.freep_mem
  exact Sound.wp_mallocLoop hlimit hpos hnunits fuel h h.freep_mem (.inr ⟨k, hback, by omega⟩)

theorem Sound.wp_malloc (h : Sound m s F L) (hbase : 0 < m.base) (hlimit : m.limit < 2 ^ 36)
    (hnbytes : nbytes ≤ 2 ^ 31 - 32) (fuel : Nat) :
    wp (malloc m fuel nbytes) (Allocated m L (nunitsOf nbytes) s)
      (fun e => e = .outOfFuel ∧ fuel ≤ 4 * F.card + 2) s := by
  have hfreep : s.freep ≠ 0 := (hbase.trans_le (h.list.base_le h.freep_mem)).ne'
  unfold malloc
  simp only [wp_bind, wp_get, wp_else hfreep]
  exact h.wp_scan hlimit hnbytes fuel

theorem Fresh.wp_malloc (h : Fresh m s) (hlimit : m.limit < 2 ^ 36) (hnbytes : nbytes ≤ 2 ^ 31 - 32)
    (fuel : Nat) :
    wp (malloc m fuel nbytes) (Allocated m ∅ (nunitsOf nbytes) s)
      (fun e => e = .outOfFuel ∧ fuel ≤ 6) s := by
  unfold malloc
  simp only [wp_bind, wp_get, wp_then h.freep_eq, wp_modify]
  refine wp_post (h.sound.wp_scan hlimit hnbytes fuel) ?_
  rintro r s' ⟨-, hup, hdone⟩
  exact ⟨(by simp), hup, hdone⟩

end Xv6.User
