import Mathlib.Data.Finset.Insert
import Xv6.User.FreeList

/-! `free` puts a block back on the free list and joins it with its neighbours. -/
namespace Xv6.User

open Function Finset
open Lib Lib.Exec

variable {base : Nat} {mem : Nat → Header} {F : Finset Nat} {p bp : Nat}

/-- Join `bp` with the next block if they touch. -/
def joinNext (mem : Nat → Header) (bp : Nat) : Nat → Header :=
  if bp + HEADER * (mem bp).size = (mem bp).ptr then absorb mem bp else mem

def release (mem : Nat → Header) (p bp : Nat) : Nat → Header :=
  let mem' := joinNext (link mem p bp) bp
  if p + HEADER * (mem' p).size = bp then absorb mem' p else mem'

/-- The new block can only touch the one before it. -/
structure Joined (base : Nat) (mem mem' : Nat → Header) (F F' : Finset Nat) (p bp : Nat) :
    Prop where
  chain : Chain base mem' F'
  split : Split mem' F' {p}
  prev_mem : p ∈ F'
  block_mem : bp ∈ F'
  prev_ptr : (mem' p).ptr = bp
  subset : F' ⊆ insert bp F
  covers : ∀ x, Covers mem' F' x ↔ Covers mem F x ∨ InBlock mem bp x
  frame : ∀ a, a ≠ p → a ≠ bp → mem' a = mem a
  room : (mem bp).size ≤ (mem' bp).size

theorem link_self : (link mem p bp p).ptr = bp := by rw [link, update_self]

theorem link_block (h : bp ≠ p) : (link mem p bp bp).ptr = (mem p).ptr := by
  rw [link, update_of_ne h, update_self]

theorem link_of_ne {a : Nat} (hp : a ≠ p) (hbp : a ≠ bp) : link mem p bp a = mem a := by
  rw [link, update_of_ne hp, update_of_ne hbp]

theorem joined (h : FreeList base mem F) (hp : p ∈ F) (hout : Outside base mem F bp)
    (hbetween : Between p bp (mem p).ptr) :
    ∃ F', Joined base mem (joinNext (link mem p bp) bp) F F' p bp := by
  have hne : bp ≠ p := fun heq => hout.not_mem (heq ▸ hp)
  have hchain := h.toChain.link hp hout hbetween
  have hsplit : Split (link mem p bp) (insert bp F) {p, bp} := h.split.link
  have hpmem : p ∈ insert bp F := mem_insert_of_mem hp
  have hbmem : bp ∈ insert bp F := mem_insert_self bp F
  unfold joinNext
  split
  · rename_i hend
    have hsize : 0 < (link mem p bp bp).size := by
      rw [link_size]
      exact hout.positive
    have htouch : Touches (link mem p bp) (insert bp F) bp := by
      refine ⟨hbmem, ?_, hend⟩
      simp only [HEADER] at hend
      omega
    have hnext : (link mem p bp bp).ptr ≠ p := by
      rw [link_block hne]
      intro hself
      have hbase := h.circular.eq_of_next_eq hp hself h.base_mem
      have hlt := htouch.lt
      rw [link_block hne, hself, ← hbase] at hlt
      have habove := hout.above
      omega
    refine ⟨(insert bp F).erase (link mem p bp bp).ptr, ?_⟩
    refine
      { chain := hchain.absorb htouch
        split := ?_
        prev_mem := mem_erase.mpr ⟨hnext.symm, hpmem⟩
        block_mem := mem_erase.mpr ⟨htouch.lt.ne, hbmem⟩
        prev_ptr := by rw [absorb_of_ne hne.symm, link_self]
        subset := erase_subset _ _
        covers := fun x => (covers_absorb hchain htouch x).trans (covers_link x)
        frame := fun a hap hab => by rw [absorb_of_ne hab, link_of_ne hap hab]
        room := by
          rw [absorb_self, link_size]
          exact Nat.le_add_right _ _ }
    have hrest := hsplit.absorb hchain htouch (by
      simp only [mem_insert, mem_singleton, not_or]
      exact ⟨hnext, htouch.lt.ne'⟩)
    intro a ha hnot
    exact hrest a ha fun hmem => hnot (by
      simp only [mem_erase, mem_insert, mem_singleton] at hmem ⊢
      exact hmem.2.resolve_right hmem.1)
  · rename_i hend
    refine ⟨insert bp F, ?_⟩
    refine
      { chain := hchain
        split := ?_
        prev_mem := hpmem
        block_mem := hbmem
        prev_ptr := link_self
        subset := subset_rfl
        covers := covers_link
        frame := fun a hap hab => link_of_ne hap hab
        room := (link_size ..).ge }
    intro a ha hnot
    obtain rfl | hab := eq_or_ne a bp
    · exact fun _ => hend
    · refine hsplit a ha fun hmem => ?_
      simp only [mem_insert, mem_singleton] at hmem hnot
      exact hmem.elim hnot hab

structure Released (base : Nat) (mem mem' : Nat → Header) (F F' : Finset Nat) (p bp : Nat) :
    Prop where
  list : FreeList base mem' F'
  prev_mem : p ∈ F'
  subset : F' ⊆ insert bp F
  covers : ∀ x, Covers mem' F' x ↔ Covers mem F x ∨ InBlock mem bp x
  frame : ∀ a, a ∉ insert bp F → mem' a = mem a
  room : ∃ t ∈ F', (mem bp).size ≤ (mem' t).size

theorem released (h : FreeList base mem F) (hp : p ∈ F) (hout : Outside base mem F bp)
    (hbetween : Between p bp (mem p).ptr) : ∃ F', Released base mem (release mem p bp) F F' p bp := by
  obtain ⟨F', hj⟩ := joined h hp hout hbetween
  have hne : bp ≠ p := fun heq => hout.not_mem (heq ▸ hp)
  have hframe : ∀ a, a ∉ insert bp F → a ≠ p ∧ a ≠ bp := fun a ha =>
    ⟨fun heq => ha (heq ▸ mem_insert_of_mem hp),
      fun heq => ha (heq ▸ mem_insert_self bp F)⟩
  unfold release
  dsimp only
  generalize joinNext (link mem p bp) bp = mem' at hj
  split
  · rename_i hend
    have hbase : p ≠ base := by
      rintro rfl
      rw [hj.chain.base_size] at hend
      exact hne hend.symm
    have htouch : Touches mem' F' p := by
      refine ⟨hj.prev_mem, ?_, by rw [hj.prev_ptr, hend]⟩
      have hpos := hj.chain.positive p hj.prev_mem hbase
      rw [hj.prev_ptr]
      simp only [HEADER] at hend
      omega
    refine ⟨F'.erase (mem' p).ptr, ?_⟩
    have hsplit := hj.split.absorb hj.chain htouch (by
      rw [hj.prev_ptr, mem_singleton]
      exact hne)
    rw [erase_singleton] at hsplit
    exact
      { list := ⟨hj.chain.absorb htouch, hsplit⟩
        prev_mem := mem_erase.mpr ⟨htouch.lt.ne, hj.prev_mem⟩
        subset := (erase_subset _ _).trans hj.subset
        covers := fun x => (covers_absorb hj.chain htouch x).trans (hj.covers x)
        frame := fun a ha => by
          rw [absorb_of_ne (hframe a ha).1, hj.frame a (hframe a ha).1 (hframe a ha).2]
        room := ⟨p, mem_erase.mpr ⟨htouch.lt.ne, hj.prev_mem⟩, by
          rw [absorb_self, hj.prev_ptr]
          exact hj.room.trans (Nat.le_add_left _ _)⟩ }
  · rename_i hend
    refine ⟨F', ?_⟩
    exact
      { list := ⟨hj.chain, fun a ha _ => by
          obtain rfl | hap := eq_or_ne a p
          · rw [hj.prev_ptr]
            exact fun _ => hend
          · exact hj.split a ha (by rwa [mem_singleton])⟩
        prev_mem := hj.prev_mem
        subset := hj.subset
        covers := hj.covers
        frame := fun a ha => hj.frame a (hframe a ha).1 (hframe a ha).2
        room := ⟨bp, hj.block_mem, hj.room⟩ }

/-- After the first half of `free`; `p` is not written yet. -/
def mergeUp (mem : Nat → Header) (p bp : Nat) : Nat → Header :=
  if bp + HEADER * (mem bp).size = (mem p).ptr then
    update mem bp
      { ptr := (mem (mem p).ptr).ptr, size := (mem bp).size + (mem (mem p).ptr).size }
  else update mem bp { mem bp with ptr := (mem p).ptr }

theorem mergeUp_of_ne {a : Nat} (h : a ≠ bp) : mergeUp mem p bp a = mem a := by
  unfold mergeUp
  split
  · exact update_of_ne h ..
  · exact update_of_ne h ..

theorem joinNext_link (hne : bp ≠ p)
    (hnext : bp + HEADER * (mem bp).size = (mem p).ptr → (mem p).ptr ≠ p ∧ (mem p).ptr ≠ bp) :
    joinNext (link mem p bp) bp =
      update (mergeUp mem p bp) p { mem p with ptr := bp } := by
  unfold joinNext mergeUp
  rw [link_size, link_block hne]
  split
  · rename_i hend
    obtain ⟨hp, hbp⟩ := hnext hend
    rw [absorb, link_block hne, link_of_ne hp hbp, link_size, link, update_comm hne,
      update_idem]
    exact update_comm hne.symm ..
  · rfl

theorem wp_freeLoop {s : Heap} (h : Circular F fun a => (s.mem a).ptr) (hp : p ∈ F) {k : Nat}
    (hk : Between ((fun a => (s.mem a).ptr)^[k] p) bp (s.mem ((fun a => (s.mem a).ptr)^[k] p)).ptr)
    (fuel : Nat) :
    wp (freeLoop fuel bp p) (fun p' s' => s' = s ∧ p' ∈ F ∧ Between p' bp (s.mem p').ptr)
      (fun e => e = .outOfFuel ∧ fuel ≤ k) s := by
  induction fuel generalizing p k with
  | zero => exact ⟨rfl, Nat.zero_le _⟩
  | succ fuel ih =>
    rw [freeLoop]
    simp only [wp_bind, wp_get, wp_ite]
    split
    · rename_i hstop
      exact ⟨rfl, hp, .inl hstop⟩
    split
    · rename_i hstop
      exact ⟨rfl, hp, .inr hstop⟩
    · rename_i hinside hwrap
      rcases k with _ | k
      · exact absurd hk (not_or.mpr ⟨hinside, hwrap⟩)
      · refine wp_mono (ih (h.next_mem hp) (k := k) hk) (fun _ _ => id) ?_
        rintro e ⟨rfl, hle⟩
        exact ⟨rfl, Nat.succ_le_succ hle⟩

theorem Heap.setPtr_setSize (s : Heap) (a ptr size : Nat) :
    (s.setSize a size).setPtr a ptr = { s with mem := update s.mem a ⟨ptr, size⟩ } := by
  simp [setPtr, setSize]

theorem release_eq (hne : bp ≠ p)
    (hnext : bp + HEADER * (mem bp).size = (mem p).ptr → (mem p).ptr ≠ p ∧ (mem p).ptr ≠ bp) :
    release mem p bp =
      if p + HEADER * (mem p).size = bp then
        update (mergeUp mem p bp) p
          { ptr := (mergeUp mem p bp bp).ptr, size := (mem p).size + (mergeUp mem p bp bp).size }
      else update (mergeUp mem p bp) p { mem p with ptr := bp } := by
  unfold release
  dsimp only
  rw [joinNext_link hne hnext, update_self]
  split
  · rw [absorb, update_self, update_idem, update_of_ne hne]
  · rfl

theorem merge_down {s : Heap} {Q : Heap → Prop} (hne : bp ≠ p)
    (hnext : bp + HEADER * (s.mem bp).size = (s.mem p).ptr →
      (s.mem p).ptr ≠ p ∧ (s.mem p).ptr ≠ bp)
    (hsmall : (release s.mem p bp p).size < 2 ^ 32)
    (hQ : Q { s with mem := release s.mem p bp, freep := p }) :
    let s₁ : Heap := { s with mem := mergeUp s.mem p bp }
    if p + HEADER * (s₁.mem p).size = bp then
      Q { (s₁.setSize p (((s₁.mem p).size + (s₁.mem bp).size) % 2 ^ 32)).setPtr p (s₁.mem bp).ptr
        with freep := p }
    else Q { s₁.setPtr p bp with freep := p } := by
  dsimp only
  rw [release_eq hne hnext] at hsmall hQ
  have hprev : mergeUp s.mem p bp p = s.mem p := mergeUp_of_ne hne.symm
  by_cases hend : p + HEADER * (s.mem p).size = bp
  · rw [if_pos hend] at hsmall hQ
    rw [update_self] at hsmall
    rw [if_pos (by rw [hprev]; exact hend), Heap.setPtr_setSize, hprev, Nat.mod_eq_of_lt hsmall]
    exact hQ
  · rw [if_neg hend, ← hprev] at hQ
    rw [if_neg (by rw [hprev]; exact hend)]
    exact hQ

theorem wp_free {s : Heap} (h : FreeList base s.mem F) (hfreep : s.freep ∈ F)
    (hout : Outside base s.mem F bp)
    (hsmall : ∀ mem' F', (∀ x, Covers mem' F' x ↔ Covers s.mem F x ∨ InBlock s.mem bp x) →
      ∀ a ∈ F', (mem' a).size < 2 ^ 32) (fuel : Nat) :
    wp (free fuel (bp + HEADER))
      (fun _ s' => ∃ p F', Released base s.mem s'.mem F F' p bp ∧
        s' = { s with mem := s'.mem, freep := p })
      (fun e => e = .outOfFuel ∧ fuel ≤ 2 * F.card) s := by
  obtain ⟨a, ha, hbetween⟩ := h.circular.exists_between ⟨_, hfreep⟩ bp hout.not_mem
  obtain ⟨k, hk, rfl⟩ := h.circular.reach hfreep ha
  unfold free
  rw [Nat.add_sub_cancel, wp_bind, wp_get]
  simp only [wp_bind]
  refine wp_mono (wp_freeLoop h.circular hfreep hbetween fuel) ?_ ?_
  · rintro p s' ⟨rfl, hp, hbet⟩
    have hne : bp ≠ p := fun heq => hout.not_mem (heq ▸ hp)
    obtain ⟨F₁, hjoined⟩ := joined h hp hout hbet
    obtain ⟨F₂, hreleased⟩ := released h hp hout hbet
    have hsmall₁ := hsmall _ _ hjoined.covers bp hjoined.block_mem
    have hsmall₂ := hsmall _ _ hreleased.covers p hreleased.prev_mem
    have hnext : bp + HEADER * (s'.mem bp).size = (s'.mem p).ptr →
        (s'.mem p).ptr ≠ p ∧ (s'.mem p).ptr ≠ bp := by
      intro hend
      have hpos := hout.positive
      have habove := hout.above
      have hlt : bp < (s'.mem p).ptr := by
        simp only [HEADER] at hend
        omega
      refine ⟨fun hself => ?_, hlt.ne'⟩
      have hbase := h.circular.eq_of_next_eq hp hself h.base_mem
      rw [hself, ← hbase] at hlt
      omega
    have hsecond := merge_down (Q := fun s₁ => ∃ p F', Released base s'.mem s₁.mem F F' p bp ∧
      s₁ = { s' with mem := s₁.mem, freep := p }) hne hnext hsmall₂ ⟨p, F₂, hreleased, rfl⟩
    simp only [wp_get, wp_ite, wp_bind, wp_modify]
    by_cases hend : bp + HEADER * (s'.mem bp).size = (s'.mem p).ptr
    · have hsum : (s'.mem bp).size + (s'.mem (s'.mem p).ptr).size < 2 ^ 32 := by
        rw [joinNext_link hne hnext, update_of_ne hne, mergeUp, if_pos hend,
          update_self] at hsmall₁
        exact hsmall₁
      rw [if_pos hend, Nat.mod_eq_of_lt hsum, Heap.setPtr_setSize]
      rw [mergeUp, if_pos hend] at hsecond
      exact hsecond
    · rw [if_neg hend]
      rw [mergeUp, if_neg hend] at hsecond
      exact hsecond
  · rintro e ⟨rfl, hle⟩
    exact ⟨rfl, by omega⟩
end Xv6.User
