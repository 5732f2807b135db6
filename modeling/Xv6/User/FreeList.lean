import Xv6.Lib.Circular
import Xv6.User.Malloc

/-! The free list of the allocator: linking in, joining and taking out blocks. -/
namespace Xv6.User

open Function Finset
open Lib

def InBlock (mem : Nat → Header) (a x : Nat) : Prop := a ≤ x ∧ x < a + HEADER * (mem a).size

def Covers (mem : Nat → Header) (F : Finset Nat) (x : Nat) : Prop := ∃ a ∈ F, InBlock mem a x

/-- The blocks `F` form a circle in ascending order from `base` on, and do not overlap. -/
structure Chain (base : Nat) (mem : Nat → Header) (F : Finset Nat) : Prop where
  base_mem : base ∈ F
  base_size : (mem base).size = 0
  circular : Circular F fun a => (mem a).ptr
  above : ∀ a ∈ F, a ≠ base → base + HEADER ≤ a
  positive : ∀ a ∈ F, a ≠ base → 0 < (mem a).size
  apart : ∀ a ∈ F, ∀ b ∈ F, a < b → a + HEADER * (mem a).size ≤ b

/-- No block of `F` ends where the next begins, but perhaps those in `S`. -/
def Split (mem : Nat → Header) (F S : Finset Nat) : Prop :=
  ∀ a ∈ F, a ∉ S → a < (mem a).ptr → a + HEADER * (mem a).size ≠ (mem a).ptr

structure FreeList (base : Nat) (mem : Nat → Header) (F : Finset Nat) : Prop
    extends Chain base mem F where
  split : Split mem F ∅

def link (mem : Nat → Header) (p bp : Nat) : Nat → Header :=
  update (update mem bp { mem bp with ptr := (mem p).ptr }) p
    { mem p with ptr := bp }

def absorb (mem : Nat → Header) (q : Nat) : Nat → Header :=
  update mem q
    { ptr := (mem (mem q).ptr).ptr, size := (mem q).size + (mem (mem q).ptr).size }

def unlink (mem : Nat → Header) (prevp : Nat) : Nat → Header :=
  update mem prevp { mem prevp with ptr := (mem (mem prevp).ptr).ptr }

/-- Where the last `nunits` begin. -/
def cutAt (mem : Nat → Header) (p nunits : Nat) : Nat := p + HEADER * ((mem p).size - nunits)

def cut (mem : Nat → Header) (p nunits : Nat) : Nat → Header :=
  let mem' := update mem p { mem p with size := (mem p).size - nunits }
  let q := cutAt mem p nunits
  update mem' q { mem' q with size := nunits }

/-- A block that is not on the list and apart from it. -/
structure Outside (base : Nat) (mem : Nat → Header) (F : Finset Nat) (bp : Nat) : Prop where
  above : base + HEADER ≤ bp
  positive : 0 < (mem bp).size
  disjoint : ∀ x, InBlock mem bp x → ¬ Covers mem F x

variable {base : Nat} {mem : Nat → Header} {F S : Finset Nat} {a p bp q : Nat}

theorem inBlock_self (h : 0 < (mem a).size) : InBlock mem a a :=
  ⟨le_rfl, Nat.lt_add_of_pos_right (Nat.mul_pos (by decide) h)⟩

theorem Chain.base_le (h : Chain base mem F) (ha : a ∈ F) : base ≤ a := by
  by_cases hne : a = base
  · exact hne.ge
  · have habove := h.above a ha hne
    omega

theorem FreeList.congr (h : FreeList base mem F) {mem' : Nat → Header}
    (heq : ∀ a ∈ F, mem' a = mem a) : FreeList base mem' F where
  base_mem := h.base_mem
  base_size := by rw [heq base h.base_mem, h.base_size]
  circular := h.circular.congr fun a ha => congrArg Header.ptr (heq a ha)
  above := h.above
  positive a ha hne := by
    rw [heq a ha]
    exact h.positive a ha hne
  apart a ha b hb hlt := by
    rw [heq a ha]
    exact h.apart a ha b hb hlt
  split a ha hS := by
    rw [heq a ha]
    exact h.split a ha hS

theorem Outside.not_mem (h : Outside base mem F bp) : bp ∉ F := fun hmem =>
  h.disjoint bp (inBlock_self h.positive) ⟨bp, hmem, inBlock_self h.positive⟩

theorem Outside.before (h : Outside base mem F bp) (ha : a ∈ F) (hlt : a < bp) :
    a + HEADER * (mem a).size ≤ bp := by
  by_contra hle
  exact h.disjoint bp (inBlock_self h.positive) ⟨a, ha, hlt.le, by omega⟩

theorem Outside.after (h : Outside base mem F bp) (hchain : Chain base mem F) (ha : a ∈ F)
    (hlt : bp < a) : bp + HEADER * (mem bp).size ≤ a := by
  by_contra hle
  have hne : a ≠ base := by
    have habove := h.above
    omega
  exact h.disjoint a ⟨hlt.le, by omega⟩ ⟨a, ha, inBlock_self (hchain.positive a ha hne)⟩

section Link

theorem link_size (mem : Nat → Header) (p bp a : Nat) :
    (link mem p bp a).size = (mem a).size := by
  obtain rfl | hp := eq_or_ne a p
  · rw [link, update_self]
  · obtain rfl | hbp := eq_or_ne a bp
    · rw [link, update_of_ne hp, update_self]
    · rw [link, update_of_ne hp, update_of_ne hbp]

theorem link_ptr (mem : Nat → Header) (p bp : Nat) :
    (fun a => (link mem p bp a).ptr) =
      update (update (fun a => (mem a).ptr) bp (mem p).ptr) p bp := by
  funext a
  obtain rfl | hp := eq_or_ne a p
  · rw [link, update_self, update_self]
  · obtain rfl | hbp := eq_or_ne a bp
    · rw [link, update_of_ne hp, update_self, update_of_ne hp,
        update_self]
    · rw [link, update_of_ne hp, update_of_ne hbp, update_of_ne hp,
        update_of_ne hbp]

theorem inBlock_link (x : Nat) : InBlock (link mem p bp) a x ↔ InBlock mem a x := by
  rw [InBlock, InBlock, link_size]

theorem covers_link (x : Nat) :
    Covers (link mem p bp) (insert bp F) x ↔ Covers mem F x ∨ InBlock mem bp x := by
  unfold Covers
  simp only [mem_insert, inBlock_link, exists_eq_or_imp]
  exact or_comm

theorem Chain.link (h : Chain base mem F) (hp : p ∈ F) (hout : Outside base mem F bp)
    (hbetween : Between p bp (mem p).ptr) : Chain base (link mem p bp) (insert bp F) where
  base_mem := mem_insert_of_mem h.base_mem
  base_size := by rw [link_size, h.base_size]
  circular := by
    rw [link_ptr]
    exact h.circular.insert hp hout.not_mem hbetween
  above a ha hne := by
    rcases mem_insert.mp ha with rfl | ha
    · exact hout.above
    · exact h.above a ha hne
  positive a ha hne := by
    rw [link_size]
    rcases mem_insert.mp ha with rfl | ha
    · exact hout.positive
    · exact h.positive a ha hne
  apart a ha b hb hlt := by
    rw [link_size]
    rcases mem_insert.mp ha with rfl | haF
    · rcases mem_insert.mp hb with rfl | hbF
      · exact absurd hlt (lt_irrefl _)
      · exact hout.after h hbF hlt
    · rcases mem_insert.mp hb with rfl | hbF
      · exact hout.before haF hlt
      · exact h.apart a haF b hbF hlt

/-- Only the new block and the one before can touch. -/
theorem Split.link (h : Split mem F ∅) : Split (link mem p bp) (insert bp F) {p, bp} := by
  intro a ha hnot
  simp only [mem_insert, mem_singleton, not_or] at hnot
  have haF := (mem_insert.mp ha).resolve_left hnot.2
  rw [User.link, update_of_ne hnot.1, update_of_ne hnot.2]
  exact h a haF (notMem_empty a)

end Link

section Absorb

/-- The next block follows `q` immediately. -/
structure Touches (mem : Nat → Header) (F : Finset Nat) (q : Nat) : Prop where
  mem_list : q ∈ F
  lt : q < (mem q).ptr
  end_eq : q + HEADER * (mem q).size = (mem q).ptr

theorem Touches.ne_base (h : Touches mem F q) (hchain : Chain base mem F) : q ≠ base := by
  rintro rfl
  have hend := h.end_eq
  rw [hchain.base_size] at hend
  exact absurd h.lt (by omega)

theorem Touches.next_ne_base (h : Touches mem F q) (hchain : Chain base mem F) :
    (mem q).ptr ≠ base := by
  have hle := hchain.base_le h.mem_list
  have hlt := h.lt
  omega

theorem absorb_of_ne (h : a ≠ q) : absorb mem q a = mem a := update_of_ne h ..

theorem absorb_self : absorb mem q q =
    { ptr := (mem (mem q).ptr).ptr, size := (mem q).size + (mem (mem q).ptr).size } :=
  update_self ..

theorem absorb_ptr (mem : Nat → Header) (q : Nat) :
    (fun a => (absorb mem q a).ptr) =
      update (fun a => (mem a).ptr) q (mem (mem q).ptr).ptr := by
  funext a
  obtain rfl | hq := eq_or_ne a q
  · rw [absorb_self, update_self]
  · rw [absorb_of_ne hq, update_of_ne hq]

theorem Chain.absorb (h : Chain base mem F) (ht : Touches mem F q) :
    Chain base (absorb mem q) (F.erase (mem q).ptr) where
  base_mem := mem_erase.mpr ⟨(ht.next_ne_base h).symm, h.base_mem⟩
  base_size := by rw [absorb_of_ne (ht.ne_base h).symm, h.base_size]
  circular := by
    rw [absorb_ptr]
    exact h.circular.erase ht.mem_list ht.lt.ne'
  above a ha hne := h.above a (mem_of_mem_erase ha) hne
  positive a ha hne := by
    have hpos := h.positive a (mem_of_mem_erase ha) hne
    obtain rfl | hq := eq_or_ne a q
    · rw [absorb_self]
      exact Nat.add_pos_left hpos _
    · rwa [absorb_of_ne hq]
  apart a ha b hb hlt := by
    obtain ⟨-, haF⟩ := mem_erase.mp ha
    obtain ⟨hbn, hbF⟩ := mem_erase.mp hb
    obtain rfl | hq := eq_or_ne a q
    · rw [absorb_self, Nat.mul_add, ← Nat.add_assoc, ht.end_eq]
      obtain ⟨hnext, ⟨-, hgap⟩ | ⟨hwrap, -⟩⟩ := h.circular a haF
      · have hle := (hgap b hbF).resolve_left (not_le.mpr hlt)
        exact h.apart _ hnext b hbF (lt_of_le_of_ne hle hbn.symm)
      · exact absurd ht.lt (not_lt.mpr hwrap)
    · rw [absorb_of_ne hq]
      exact h.apart a haF b hbF hlt

theorem covers_absorb (h : Chain base mem F) (ht : Touches mem F q) (x : Nat) :
    Covers (absorb mem q) (F.erase (mem q).ptr) x ↔ Covers mem F x := by
  have hend := ht.end_eq
  have hsize : (User.absorb mem q q).size = (mem q).size + (mem (mem q).ptr).size := by
    rw [absorb_self]
  constructor
  · rintro ⟨a, ha, hx⟩
    obtain ⟨han, haF⟩ := mem_erase.mp ha
    obtain rfl | hq := eq_or_ne a q
    · rw [InBlock, hsize, Nat.mul_add] at hx
      by_cases hlow : x < (mem a).ptr
      · exact ⟨a, haF, hx.1, by omega⟩
      · exact ⟨_, h.circular.next_mem haF, by omega, by omega⟩
    · rw [InBlock, absorb_of_ne hq] at hx
      exact ⟨a, haF, hx⟩
  · rintro ⟨a, ha, hx⟩
    have hmem : q ∈ F.erase (mem q).ptr := mem_erase.mpr ⟨ht.lt.ne, ht.mem_list⟩
    obtain rfl | hn := eq_or_ne a ((mem q).ptr)
    · refine ⟨q, hmem, ht.lt.le.trans hx.1, ?_⟩
      have hx' := hx.2
      rw [hsize, Nat.mul_add]
      omega
    · obtain rfl | hq := eq_or_ne a q
      · refine ⟨a, hmem, hx.1, ?_⟩
        have hx' := hx.2
        rw [hsize, Nat.mul_add]
        omega
      · refine ⟨a, mem_erase.mpr ⟨hn, ha⟩, ?_⟩
        rwa [InBlock, absorb_of_ne hq]

theorem Split.absorb (h : Split mem F S) (hchain : Chain base mem F) (ht : Touches mem F q)
    (hS : (mem q).ptr ∉ S) : Split (absorb mem q) (F.erase (mem q).ptr) (S.erase q) := by
  intro a ha hnot
  obtain ⟨-, haF⟩ := mem_erase.mp ha
  obtain rfl | hq := eq_or_ne a q
  · have hmem := hchain.circular.next_mem haF
    rw [absorb_self, Nat.mul_add, ← Nat.add_assoc, ht.end_eq]
    intro _
    by_cases hlt : (mem a).ptr < (mem (mem a).ptr).ptr
    · exact h _ hmem hS hlt
    · have hpos := hchain.positive _ hmem (ht.next_ne_base hchain)
      simp only [HEADER]
      omega
  · rw [absorb_of_ne hq]
    exact h a haF fun hmem => hnot (mem_erase.mpr ⟨hq, hmem⟩)

end Absorb

section Take

variable {prevp nunits : Nat}

theorem unlink_size (mem : Nat → Header) (prevp a : Nat) :
    (unlink mem prevp a).size = (mem a).size := by
  obtain rfl | hp := eq_or_ne a prevp
  · rw [unlink, update_self]
  · rw [unlink, update_of_ne hp]

theorem unlink_ptr (mem : Nat → Header) (prevp : Nat) :
    (fun a => (unlink mem prevp a).ptr) =
      update (fun a => (mem a).ptr) prevp (mem (mem prevp).ptr).ptr := by
  funext a
  obtain rfl | hp := eq_or_ne a prevp
  · rw [unlink, update_self, update_self]
  · rw [unlink, update_of_ne hp, update_of_ne hp]

theorem Chain.prev_lt (h : Chain base mem F) (hprev : prevp ∈ F) (hne : (mem prevp).ptr ≠ base) :
    prevp < (mem prevp).ptr := by
  obtain ⟨hnext, ⟨hlt, -⟩ | ⟨-, hall⟩⟩ := h.circular prevp hprev
  · exact hlt
  · exact absurd (le_antisymm (hall base h.base_mem).1 (h.base_le hnext)) hne

theorem FreeList.unlink (h : FreeList base mem F) (hprev : prevp ∈ F)
    (hne : (mem prevp).ptr ≠ base) : FreeList base (unlink mem prevp) (F.erase (mem prevp).ptr) where
  base_mem := mem_erase.mpr ⟨hne.symm, h.base_mem⟩
  base_size := by rw [unlink_size, h.base_size]
  circular := by
    rw [unlink_ptr]
    exact h.circular.erase hprev (h.prev_lt hprev hne).ne'
  above a ha hbase := h.above a (mem_of_mem_erase ha) hbase
  positive a ha hbase := by
    rw [unlink_size]
    exact h.positive a (mem_of_mem_erase ha) hbase
  apart a ha b hb hlt := by
    rw [unlink_size]
    exact h.apart a (mem_of_mem_erase ha) b (mem_of_mem_erase hb) hlt
  split a ha _ := by
    obtain ⟨han, haF⟩ := mem_erase.mp ha
    rw [unlink_size]
    obtain rfl | hp := eq_or_ne a prevp
    · rw [User.unlink, update_self]
      intro hup
      have hmem := h.circular.next_mem hprev
      have hend := h.apart a haF _ hmem (h.prev_lt hprev hne)
      obtain ⟨hnext, ⟨hstep, -⟩ | ⟨-, hall⟩⟩ := h.circular _ hmem
      · exact (hend.trans_lt hstep).ne
      · exact absurd (hall a haF).1 (not_le.mpr hup)
    · rw [User.unlink, update_of_ne hp]
      exact h.split a haF (notMem_empty a)

theorem covers_unlink (hmem : p ∈ F) (x : Nat) :
    Covers mem F x ↔ Covers (unlink mem prevp) (F.erase p) x ∨ InBlock mem p x := by
  have hblock (a : Nat) : InBlock (User.unlink mem prevp) a x ↔ InBlock mem a x := by
    rw [InBlock, InBlock, unlink_size]
  constructor
  · rintro ⟨a, ha, hx⟩
    by_cases hp : a = p
    · exact .inr (hp ▸ hx)
    · exact .inl ⟨a, mem_erase.mpr ⟨hp, ha⟩, (hblock a).mpr hx⟩
  · rintro (⟨a, ha, hx⟩ | hx)
    · exact ⟨a, mem_of_mem_erase ha, (hblock a).mp hx⟩
    · exact ⟨p, hmem, hx⟩

theorem Chain.eq_of_inBlock (h : Chain base mem F) {b x : Nat} (ha : a ∈ F) (hb : b ∈ F)
    (hxa : InBlock mem a x) (hxb : InBlock mem b x) : a = b := by
  rcases lt_trichotomy a b with hlt | heq | hlt
  · have hend := h.apart a ha b hb hlt
    exact absurd hxa.2 (not_lt.mpr (hend.trans hxb.1))
  · exact heq
  · have hend := h.apart b hb a ha hlt
    exact absurd hxb.2 (not_lt.mpr (hend.trans hxa.1))

theorem outside_unlink (h : FreeList base mem F) (hprev : prevp ∈ F)
    (hne : (mem prevp).ptr ≠ base) :
    Outside base (unlink mem prevp) (F.erase (mem prevp).ptr) (mem prevp).ptr := by
  have hmem := h.circular.next_mem hprev
  refine ⟨h.above _ hmem hne, by rw [unlink_size]; exact h.positive _ hmem hne, ?_⟩
  rintro x hx ⟨a, ha, hxa⟩
  obtain ⟨han, haF⟩ := mem_erase.mp ha
  rw [InBlock, unlink_size] at hx hxa
  exact han (h.eq_of_inBlock haF hmem hxa hx)

theorem cutAt_lt (hunits : nunits < (mem p).size) : p < cutAt mem p nunits := by
  unfold cutAt
  simp only [HEADER]
  omega

theorem cutAt_end (hunits : nunits < (mem p).size) :
    cutAt mem p nunits + HEADER * nunits = p + HEADER * (mem p).size := by
  unfold cutAt
  simp only [HEADER]
  omega

theorem cutAt_notMem (h : Chain base mem F) (hp : p ∈ F) (hpos : 0 < nunits)
    (hunits : nunits < (mem p).size) : cutAt mem p nunits ∉ F := by
  intro hmem
  have hlt := cutAt_lt hunits
  have hend := cutAt_end hunits
  have happart := h.apart p hp _ hmem hlt
  simp only [HEADER] at happart hend
  omega

theorem cut_of_ne (hp : a ≠ p) (hq : a ≠ cutAt mem p nunits) : cut mem p nunits a = mem a := by
  unfold cut
  rw [update_of_ne hq, update_of_ne hp]

theorem cut_self (hunits : nunits < (mem p).size) :
    cut mem p nunits p = { mem p with size := (mem p).size - nunits } := by
  unfold cut
  rw [update_of_ne (cutAt_lt hunits).ne, update_self]

theorem cut_size : (cut mem p nunits (cutAt mem p nunits)).size = nunits := by
  unfold cut
  rw [update_self]

theorem FreeList.cut (h : FreeList base mem F) (hp : p ∈ F) (hpos : 0 < nunits)
    (hunits : nunits < (mem p).size) : FreeList base (cut mem p nunits) F := by
  have hnot := cutAt_notMem h.toChain hp hpos hunits
  have hptr : ∀ a ∈ F, (User.cut mem p nunits a).ptr = (mem a).ptr := by
    intro a ha
    obtain rfl | hap := eq_or_ne a p
    · rw [cut_self hunits]
    · rw [cut_of_ne hap fun heq => hnot (heq ▸ ha)]
  have hsize : ∀ a ∈ F, (User.cut mem p nunits a).size ≤ (mem a).size := by
    intro a ha
    obtain rfl | hap := eq_or_ne a p
    · rw [cut_self hunits]
      exact Nat.sub_le _ _
    · rw [cut_of_ne hap fun heq => hnot (heq ▸ ha)]
  have hend : ∀ a ∈ F, ∀ b ∈ F, a < b → a + HEADER * (User.cut mem p nunits a).size ≤ b := by
    intro a ha b hb hlt
    have hle := h.apart a ha b hb hlt
    have hless := Nat.mul_le_mul_left HEADER (hsize a ha)
    omega
  refine ⟨⟨h.base_mem, ?_, h.circular.congr hptr, h.above, ?_, hend⟩, ?_⟩
  · exact Nat.le_zero.mp ((hsize base h.base_mem).trans h.base_size.le)
  · intro a ha hne
    obtain rfl | hap := eq_or_ne a p
    · rw [cut_self hunits]
      exact Nat.sub_pos_of_lt hunits
    · rw [cut_of_ne hap fun heq => hnot (heq ▸ ha)]
      exact h.positive a ha hne
  · intro a ha hS
    rw [hptr a ha]
    intro hlt
    obtain rfl | hap := eq_or_ne a p
    · have hle := h.apart a ha _ (h.circular.next_mem ha) hlt
      rw [cut_self hunits]
      have hfull := cutAt_end hunits
      unfold cutAt at hfull
      simp only [HEADER] at hfull hle ⊢
      omega
    · rw [cut_of_ne hap fun heq => hnot (heq ▸ ha)]
      exact h.split a ha hS hlt

theorem covers_cut (h : FreeList base mem F) (hp : p ∈ F) (hpos : 0 < nunits)
    (hunits : nunits < (mem p).size) (x : Nat) : Covers mem F x ↔
      Covers (cut mem p nunits) F x ∨ InBlock (cut mem p nunits) (cutAt mem p nunits) x := by
  have hnot := cutAt_notMem h.toChain hp hpos hunits
  have hfull := cutAt_end hunits
  have hlow : InBlock (User.cut mem p nunits) p x ↔ p ≤ x ∧ x < cutAt mem p nunits := by
    rw [InBlock, cut_self hunits]
    rfl
  have hhigh : InBlock (User.cut mem p nunits) (cutAt mem p nunits) x ↔
      cutAt mem p nunits ≤ x ∧ x < p + HEADER * (mem p).size := by
    rw [InBlock, cut_size, hfull]
  have hlt := cutAt_lt hunits
  constructor
  · rintro ⟨a, ha, hx⟩
    obtain rfl | hap := eq_or_ne a p
    · by_cases hxq : x < cutAt mem a nunits
      · exact .inl ⟨a, ha, hlow.mpr ⟨hx.1, hxq⟩⟩
      · exact .inr (hhigh.mpr ⟨not_lt.mp hxq, hx.2⟩)
    · refine .inl ⟨a, ha, ?_⟩
      rwa [InBlock, cut_of_ne hap fun heq => hnot (heq ▸ ha)]
  · rintro (⟨a, ha, hx⟩ | hx)
    · obtain rfl | hap := eq_or_ne a p
      · obtain ⟨hle, hxq⟩ := hlow.mp hx
        exact ⟨a, ha, hle, by simp only [HEADER] at hfull ⊢; omega⟩
      · rw [InBlock, cut_of_ne hap fun heq => hnot (heq ▸ ha)] at hx
        exact ⟨a, ha, hx⟩
    · obtain ⟨hle, hxe⟩ := hhigh.mp hx
      exact ⟨p, hp, hlt.le.trans hle, hxe⟩

theorem outside_cut (h : FreeList base mem F) (hp : p ∈ F) (hpos : 0 < nunits)
    (hunits : nunits < (mem p).size) :
    Outside base (cut mem p nunits) F (cutAt mem p nunits) := by
  have hnot := cutAt_notMem h.toChain hp hpos hunits
  have hfull := cutAt_end hunits
  have hlt := cutAt_lt hunits
  have hne : p ≠ base := by
    rintro rfl
    rw [h.base_size] at hunits
    exact absurd hunits (Nat.not_lt_zero _)
  refine ⟨(h.above p hp hne).trans hlt.le, by rwa [cut_size], ?_⟩
  rintro x hx ⟨a, ha, hxa⟩
  rw [InBlock, cut_size, hfull] at hx
  obtain rfl | hap := eq_or_ne a p
  · rw [InBlock, cut_self hunits] at hxa
    exact absurd hxa.2 (not_lt.mpr hx.1)
  · rw [InBlock, cut_of_ne hap fun heq => hnot (heq ▸ ha)] at hxa
    exact hap (h.eq_of_inBlock ha hp hxa ⟨hlt.le.trans hx.1, hx.2⟩)

end Take

end Xv6.User
