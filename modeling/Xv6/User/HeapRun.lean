import Mathlib.Logic.Relation
import Xv6.User.HeapSpec

/-! Programs that call `malloc` and `free` and write to their blocks, whatever `sbrk` answers. -/
namespace Xv6.User

open Function
open Lib Lib.Exec

/-- The heap, and headers and requested bytes of live blocks. -/
structure World where
  heap : Heap
  live : Finset Nat
  header : Nat → Header
  asked : Nat → Nat

/-- `mem'` may differ inside live blocks. -/
def WritesInside (w : World) (mem' : Nat → Header) : Prop :=
  ∀ a, (∀ b ∈ w.live, a + HEADER ≤ b + HEADER ∨ b + HEADER * (w.heap.mem b).size ≤ a) →
    mem' a = w.heap.mem a

/-- Requests stay within `2 ^ 31 - 32` bytes, and only live blocks are freed. -/
inductive Step (m : Machine) : World → World → Prop where
  | malloc {w : World} {nbytes fuel q : Nat} {s : Heap} :
    nbytes ≤ 2 ^ 31 - 32 → malloc m fuel nbytes w.heap = .ok (some (q + HEADER), s) →
    Step m w
      { heap := s
        live := insert q w.live
        header := update w.header q (s.mem q)
        asked := update w.asked q nbytes }
  | full {w : World} {nbytes fuel : Nat} {s : Heap} :
    nbytes ≤ 2 ^ 31 - 32 → malloc m fuel nbytes w.heap = .ok (none, s) →
    Step m w { w with heap := s }
  | free {w : World} {a fuel : Nat} {s : Heap} :
    a ∈ w.live → free fuel (a + HEADER) w.heap = .ok (⟨⟩, s) →
    Step m w { w with heap := s, live := w.live.erase a }
  | write {w : World} {mem' : Nat → Header} :
    WritesInside w mem' → Step m w { w with heap := { w.heap with mem := mem' } }

/-- Reached from before the first `malloc`. -/
inductive Reached (m : Machine) : World → Prop where
  | start {w : World} : Fresh m w.heap → w.live = ∅ → Reached m w
  | step {w w' : World} : Reached m w → Step m w w' → Reached m w'

/-- Live blocks keep their headers and are large enough. -/
def World.Intact (w : World) : Prop :=
  ∀ a ∈ w.live, w.heap.mem a = w.header a ∧ w.asked a + HEADER ≤ HEADER * (w.header a).size

/-- No block yet, or free list and live blocks are sound. -/
def World.Good (m : Machine) (w : World) : Prop :=
  Fresh m w.heap ∧ w.live = ∅ ∨ ∃ F, Sound m w.heap F w.live

variable {m : Machine} {w w' : World}

section Write

variable {F : Finset Nat} {mem' : Nat → Header}

/-- Writes inside live blocks reach no headers. -/
theorem Sound.writesInside (h : Sound m w.heap F w.live) (hwrite : WritesInside w mem') {a : Nat}
    (ha : a ∈ F ∨ a ∈ w.live) : mem' a = w.heap.mem a := by
  refine hwrite a fun b hb => ?_
  by_contra hnot
  rw [not_or] at hnot
  -- `b` lies below `a`, and its block reaches over the header at `a`
  have hover : InBlock w.heap.mem b a := ⟨by omega, by omega⟩
  rcases ha with hF | hL
  · by_cases hbase : a = m.base
    · have habove := h.live_above b hb
      simp only [HEADER] at habove hnot
      omega
    · exact h.live_free b hb a hover ⟨a, hF, inBlock_self (h.list.positive a hF hbase)⟩
  · obtain rfl := h.live_apart b hb a hL a hover (inBlock_self (h.live_positive a hL))
    exact hnot.1 le_rfl

theorem Sound.write (h : Sound m w.heap F w.live) (hwrite : WritesInside w mem') :
    Sound m { w.heap with mem := mem' } F w.live := by
  have hfree : ∀ a ∈ F, mem' a = w.heap.mem a := fun a ha => h.writesInside hwrite (.inl ha)
  have hlive : ∀ a ∈ w.live, mem' a = w.heap.mem a := fun a ha => h.writesInside hwrite (.inr ha)
  have hblock : ∀ a ∈ w.live, ∀ x, InBlock mem' a x ↔ InBlock w.heap.mem a x := by
    intro a ha x
    rw [InBlock, InBlock, hlive a ha]
  have hcovers : ∀ x, Covers mem' F x ↔ Covers w.heap.mem F x := by
    intro x
    refine exists_congr fun a => and_congr_right fun ha => ?_
    rw [InBlock, InBlock, hfree a ha]
  exact
    { list := h.list.congr hfree
      freep_mem := h.freep_mem
      live_above := h.live_above
      live_positive := fun a ha => by
        dsimp only
        rw [hlive a ha]
        exact h.live_positive a ha
      live_apart := fun a ha b hb x hxa hxb =>
        h.live_apart a ha b hb x ((hblock a ha x).mp hxa) ((hblock b hb x).mp hxb)
      live_free := fun a ha x hx hcov =>
        h.live_free a ha x ((hblock a ha x).mp hx) ((hcovers x).mp hcov)
      account := fun x => by
        refine (h.account x).trans (or_congr (hcovers x).symm ?_)
        exact exists_congr fun a => and_congr_right fun ha => (hblock a ha x).symm
      below := h.below
      base_top := h.base_top
      total_le := h.total_le }

end Write

theorem World.Good.allocated (h : w.Good m) (hbase : 0 < m.base) (hlimit : m.limit < 2 ^ 36)
    {nbytes : Nat} (hnbytes : nbytes ≤ 2 ^ 31 - 32) :
    ∃ bound, ∀ fuel, wp (User.malloc m fuel nbytes) (Allocated m w.live (nunitsOf nbytes) w.heap)
      (fun e => e = .outOfFuel ∧ fuel ≤ bound) w.heap := by
  rcases h with ⟨hfresh, hlive⟩ | ⟨F, hsound⟩
  · rw [hlive]
    exact ⟨_, fun fuel => hfresh.wp_malloc hlimit hnbytes fuel⟩
  · exact ⟨_, fun fuel => hsound.wp_malloc hbase hlimit hnbytes fuel⟩

theorem World.Good.sound_of_live (h : w.Good m) {a : Nat} (ha : a ∈ w.live) :
    ∃ F, Sound m w.heap F w.live := by
  rcases h with ⟨-, hlive⟩ | hsound
  · rw [hlive] at ha
    cases ha
  · exact hsound

theorem Step.good (hbase : 0 < m.base) (hlimit : m.limit < 2 ^ 36) (hstep : Step m w w')
    (h : w.Good m) (hintact : w.Intact) : w'.Good m ∧ w'.Intact := by
  cases hstep with
  | @malloc nbytes fuel q s hnbytes hrun =>
    obtain ⟨bound, hwp⟩ := h.allocated hbase hlimit hnbytes
    obtain ⟨hkeep, -, F, q', hq, hnot, hsize, hsound⟩ := post_of_wp (hwp fuel) hrun
    obtain rfl : q = q' := Nat.add_right_cancel hq
    refine ⟨.inr ⟨F, hsound⟩, fun a ha => ?_⟩
    dsimp only at ha ⊢
    obtain rfl | hne := eq_or_ne a q
    · rw [update_self, update_self, hsize]
      exact ⟨rfl, (nunitsOf_eq hnbytes).2.2⟩
    · have haL := (Finset.mem_insert.mp ha).resolve_left hne
      rw [update_of_ne hne, update_of_ne hne, hkeep a haL]
      exact hintact a haL
  | @full nbytes fuel s hnbytes hrun =>
    obtain ⟨bound, hwp⟩ := h.allocated hbase hlimit hnbytes
    obtain ⟨hkeep, -, F, hsound⟩ := post_of_wp (hwp fuel) hrun
    refine ⟨.inr ⟨F, hsound⟩, fun a ha => ?_⟩
    dsimp only at ha ⊢
    rw [hkeep a ha]
    exact hintact a ha
  | @free a fuel s ha hrun =>
    obtain ⟨F, hsound⟩ := h.sound_of_live ha
    obtain ⟨-, F', hsound', hkeep, -⟩ := post_of_wp (hsound.wp_free hlimit ha fuel) hrun
    refine ⟨.inr ⟨F', hsound'⟩, fun b hb => ?_⟩
    dsimp only at hb ⊢
    rw [hkeep b hb]
    exact hintact b (Finset.mem_of_mem_erase hb)
  | @write mem' hwrite =>
    rcases h with ⟨hfresh, hlive⟩ | ⟨F, hsound⟩
    · refine ⟨.inl ⟨⟨hfresh.freep_eq, hfresh.obtained_eq, hfresh.base_top⟩, hlive⟩, fun a ha => ?_⟩
      rw [show World.live _ = ∅ from hlive] at ha
      cases ha
    · refine ⟨.inr ⟨F, hsound.write hwrite⟩, fun a ha => ?_⟩
      dsimp only at ha ⊢
      rw [hsound.writesInside hwrite (.inr ha)]
      exact hintact a ha

theorem Reached.good (hbase : 0 < m.base) (hlimit : m.limit < 2 ^ 36) (h : Reached m w) :
    w.Good m ∧ w.Intact := by
  induction h with
  | start hfresh hlive =>
    refine ⟨.inl ⟨hfresh, hlive⟩, fun a ha => ?_⟩
    rw [hlive] at ha
    cases ha
  | step _ hstep ih => exact hstep.good hbase hlimit ih.1 ih.2

theorem FreeList.lt_of_lt {base : Nat} {mem : Nat → Header} {F : Finset Nat}
    (h : FreeList base mem F) {a b : Nat} (ha : a ∈ F) (hb : b ∈ F) (hlt : a < b) :
    a + HEADER * (mem a).size < b := by
  obtain ⟨hmem, ⟨hup, hgap⟩ | ⟨-, hall⟩⟩ := h.circular a ha
  · have hle := (hgap b hb).resolve_left (not_le.mpr hlt)
    have hend := h.apart a ha _ hmem hup
    exact (lt_of_le_of_ne hend (h.split a ha (Finset.notMem_empty a) hup)).trans_le hle
  · exact absurd (hall b hb).2 (not_le.mpr hlt)

/-- Below `2 ^ 36` bytes of memory the heap stays sound in every run, and `malloc` and `free`
end. -/
theorem heap_sound (hbase : 0 < m.base) (hlimit : m.limit < 2 ^ 36) (h : Reached m w) :
    (Fresh m w.heap ∧ w.live = ∅ ∨ ∃ F, Sound m w.heap F w.live ∧
      ∀ a ∈ F, ∀ b ∈ F, a < b → a + HEADER * (w.heap.mem a).size < b) ∧
    (∀ a ∈ w.live, w.heap.mem a = w.header a ∧
      w.asked a + HEADER ≤ HEADER * (w.header a).size) ∧
    (∀ nbytes ≤ 2 ^ 31 - 32, ∃ bound, ∀ fuel > bound, ∃ r,
      malloc m fuel nbytes w.heap = .ok r) ∧
    ∀ a ∈ w.live, ∃ bound, ∀ fuel > bound, ∃ r, free fuel (a + HEADER) w.heap = .ok r := by
  obtain ⟨hgood, hintact⟩ := h.good hbase hlimit
  refine ⟨?_, hintact, fun nbytes hnbytes => ?_, fun a ha => ?_⟩
  · refine hgood.imp id ?_
    rintro ⟨F, hsound⟩
    exact ⟨F, hsound, fun a ha b hb hlt => hsound.list.lt_of_lt ha hb hlt⟩
  · obtain ⟨bound, hwp⟩ := hgood.allocated hbase hlimit hnbytes
    refine ⟨bound, fun fuel hfuel => ?_⟩
    obtain ⟨r, s, hrun, -⟩ := returns_of_wp (hwp fuel) fun e he => not_le.mpr hfuel he.2
    exact ⟨_, hrun⟩
  · obtain ⟨F, hsound⟩ := hgood.sound_of_live ha
    refine ⟨2 * F.card, fun fuel hfuel => ?_⟩
    obtain ⟨r, s, hrun, -⟩ :=
      returns_of_wp (hsound.wp_free hlimit ha fuel) fun e he => not_le.mpr hfuel he.2
    exact ⟨_, hrun⟩

inductive Call where
  | malloc (nbytes : Nat)
  | free (a : Nat)

def Call.run (m : Machine) (fuel : Nat) (w : World) : Call → Option World
  | .malloc nbytes =>
    if nbytes ≤ 2 ^ 31 - 32 then
      match User.malloc m fuel nbytes w.heap with
      | .ok (some ap, s) =>
        if HEADER ≤ ap then
          some
            { heap := s
              live := insert (ap - HEADER) w.live
              header := update w.header (ap - HEADER) (s.mem (ap - HEADER))
              asked := update w.asked (ap - HEADER) nbytes }
        else none
      | .ok (none, s) => some { w with heap := s }
      | .error _ => none
    else none
  | .free a =>
    if a ∈ w.live then
      match User.free fuel (a + HEADER) w.heap with
      | .ok (_, s) => some { w with heap := s, live := w.live.erase a }
      | .error _ => none
    else none

theorem Call.step {m : Machine} {fuel : Nat} {w w' : World} {c : Call}
    (h : c.run m fuel w = some w') : Step m w w' := by
  cases c with
  | malloc nbytes =>
    rw [run] at h
    split at h
    · rename_i hnbytes
      split at h
      · rename_i ap s hrun
        split at h
        · rename_i hle
          obtain rfl := Option.some.inj h
          exact .malloc hnbytes (by rw [Nat.sub_add_cancel hle]; exact hrun)
        · cases h
      · rename_i s hrun
        obtain rfl := Option.some.inj h
        exact .full hnbytes hrun
      · cases h
    · cases h
  | free a =>
    rw [run] at h
    split at h
    · rename_i ha
      split at h
      · rename_i s hrun
        obtain rfl := Option.some.inj h
        exact .free ha hrun
      · cases h
    · cases h

def runCalls (m : Machine) (fuel : Nat) : World → List Call → Option World
  | w, [] => some w
  | w, c :: cs => (c.run m fuel w).bind fun w' => runCalls m fuel w' cs

theorem Reached.runCalls {m : Machine} {fuel : Nat} {cs : List Call} {w w' : World}
    (h : Reached m w) (hrun : User.runCalls m fuel w cs = some w') : Reached m w' := by
  induction cs generalizing w with
  | nil =>
    obtain rfl := Option.some.inj hrun
    exact h
  | cons c cs ih =>
    obtain ⟨w₁, hstep, hrest⟩ := Option.bind_eq_some_iff.mp hrun
    exact ih (h.step (Call.step hstep)) hrest

/-- `2 ^ 40` bytes, given out without gaps. -/
def bigMachine : Machine where
  base := 0x1000
  limit := 2 ^ 40
  answer _ := some 0

def bigStart : World where
  heap := { mem := fun _ => ⟨0, 0⟩, freep := 0, obtained := [], top := 0x2000, calls := 0 }
  live := ∅
  header _ := ⟨0, 0⟩
  asked _ := 0

def bigCalls : List Call :=
  .replicate 33 (.malloc (2 ^ 31 - 65)) ++
    (List.range 33).map fun i => .free (0x2000 + i * (HEADER * nunitsOf (2 ^ 31 - 65)))

def bigEnd : Option (Nat × Nat × Nat × Nat × Nat × Bool) :=
  (runCalls bigMachine 9 bigStart bigCalls).map fun w =>
    (w.live.card, (w.heap.mem 0x1000).ptr, (w.heap.mem 0x1000).size, (w.heap.mem 0x2000).ptr,
      (w.heap.mem 0x2000).size, w.heap.obtained.contains (0x2000, HEADER * nunitsOf (2 ^ 31 - 65)))

theorem bigEnd_eq : bigEnd = some (0, 0x2000, 0, 0x1000, 2 ^ 27 - 99, true) := by decide +kernel

/-- The size of the free block has wrapped around. -/
theorem heap_overflow : 0 < bigMachine.base ∧ ∃ w, Reached bigMachine w ∧
    ¬ (Fresh bigMachine w.heap ∧ w.live = ∅ ∨ ∃ F, Sound bigMachine w.heap F w.live) := by
  refine ⟨by decide, ?_⟩
  obtain ⟨w, hrun, hend⟩ := Option.map_eq_some_iff.mp bigEnd_eq
  simp only [Prod.mk.injEq] at hend
  obtain ⟨hlive, hptr, hsize, hptr', hsize', hobtained⟩ := hend
  rw [List.contains_iff_mem] at hobtained
  refine ⟨w, Reached.runCalls (.start ⟨rfl, rfl, by decide⟩ rfl) hrun, ?_⟩
  rintro (⟨hfresh, -⟩ | ⟨F, hsound⟩)
  · rw [hfresh.obtained_eq] at hobtained
    cases hobtained
  · have hgiven : Obtained w.heap (0x2000 + 16 * (2 ^ 27 - 99)) :=
      ⟨_, hobtained, by decide, by decide⟩
    rcases (hsound.account _).mp hgiven with ⟨a, ha, hx⟩ | ⟨a, ha, -⟩
    · have hblocks : ∀ k, (fun a => (w.heap.mem a).ptr)^[k] 0x1000 = 0x1000 ∨
          (fun a => (w.heap.mem a).ptr)^[k] 0x1000 = 0x2000 := by
        intro k
        induction k with
        | zero => exact .inl rfl
        | succ k ih =>
          rw [Function.iterate_succ_apply']
          rcases ih with heq | heq
          · rw [heq]
            exact .inr hptr
          · rw [heq]
            exact .inl hptr'
      obtain ⟨k, -, rfl⟩ := hsound.list.circular.reach hsound.list.base_mem ha
      rcases hblocks k with heq | heq
      · rw [show bigMachine.base = 0x1000 from rfl, heq, InBlock, hsize] at hx
        omega
      · rw [show bigMachine.base = 0x1000 from rfl, heq, InBlock, hsize'] at hx
        simp only [HEADER] at hx
        omega
    · rw [Finset.card_eq_zero.mp hlive] at ha
      cases ha

def smallMachine : Machine := { bigMachine with limit := 2 ^ 27 }

/-- Three blocks are taken from the end of one; the second is freed, then the third, which lies
between two free blocks. -/
def joinCalls : List Call :=
  [.malloc 100, .malloc 100, .malloc 100, .free (0x2000 + HEADER * 4080),
    .free (0x2000 + HEADER * 4072)]

theorem joinCalls_end : (runCalls smallMachine 9 bigStart joinCalls).map (fun w =>
    (w.live.card, (w.heap.mem 0x1000).ptr, (w.heap.mem 0x2000).ptr, (w.heap.mem 0x2000).size)) =
    some (1, 0x2000, 0x1000, 4088) := by
  decide +kernel

theorem heap_sound_joined : ∃ w, Reached smallMachine w ∧ w.live.card = 1 ∧
    (w.heap.mem 0x1000).ptr = 0x2000 ∧ (w.heap.mem 0x2000).ptr = 0x1000 ∧
    (w.heap.mem 0x2000).size = 4088 ∧ ∃ F, Sound smallMachine w.heap F w.live := by
  obtain ⟨w, hrun, hend⟩ := Option.map_eq_some_iff.mp joinCalls_end
  simp only [Prod.mk.injEq] at hend
  obtain ⟨hlive, hptr, hptr', hsize⟩ := hend
  have hreached : Reached smallMachine w :=
    Reached.runCalls (.start ⟨rfl, rfl, by decide⟩ rfl) hrun
  refine ⟨w, hreached, hlive, hptr, hptr', hsize, ?_⟩
  rcases (heap_sound (by decide) (by decide) hreached).1 with ⟨-, hnone⟩ | ⟨F, hsound, -⟩
  · rw [hnone] at hlive
    cases hlive
  · exact ⟨F, hsound⟩

section Fuel

variable {fuel fuel' : Nat} (hle : fuel ≤ fuel')
include hle

theorem follows_freeLoop (bp p : Nat) : Follows (freeLoop fuel bp p) (freeLoop fuel' bp p) := by
  induction fuel generalizing fuel' p with
  | zero =>
    rintro _ _ ⟨⟩
  | succ fuel ih =>
    obtain ⟨fuel', rfl⟩ := Nat.exists_eq_succ_of_ne_zero (Nat.ne_zero_of_lt hle)
    unfold freeLoop
    refine .bind (.refl _) fun s => ?_
    dsimp only
    split
    · exact .refl _
    · split
      · exact .refl _
      · exact ih (by omega) _

theorem follows_free (ap : Nat) : Follows (free fuel ap) (free fuel' ap) :=
  .bind (.refl _) fun _ => .bind (follows_freeLoop hle _ _) fun _ => .refl _

theorem follows_morecore (nu : Nat) : Follows (morecore m fuel nu) (morecore m fuel' nu) := by
  refine .bind (.refl _) fun hp => ?_
  cases hp with
  | none => exact .refl _
  | some hp => exact .bind (.refl _) fun _ => .bind (follows_free hle _) fun _ => .refl _

theorem follows_mallocLoop (nunits prevp p : Nat) :
    Follows (mallocLoop m nunits fuel prevp p) (mallocLoop m nunits fuel' prevp p) := by
  induction fuel generalizing fuel' prevp p with
  | zero =>
    rintro _ _ ⟨⟩
  | succ fuel ih =>
    obtain ⟨fuel', rfl⟩ := Nat.exists_eq_succ_of_ne_zero (Nat.ne_zero_of_lt hle)
    unfold mallocLoop
    refine .bind (.refl _) fun s => ?_
    dsimp only
    split
    · exact .refl _
    · split
      · refine .bind (follows_morecore (by omega) _) fun r => ?_
        cases r with
        | none => exact .refl _
        | some p => exact .bind (.refl _) fun _ => ih (by omega) _ _
      · refine .bind (.refl _) fun r => ?_
        cases r with
        | none => exact .refl _
        | some p => exact .bind (.refl _) fun _ => ih (by omega) _ _

/-- With more fuel `malloc` returns the same. -/
theorem follows_malloc (nbytes : Nat) : Follows (malloc m fuel nbytes) (malloc m fuel' nbytes) := by
  unfold malloc
  refine .bind (.refl _) fun s => ?_
  split
  · exact .bind (.refl _) fun _ => .bind (.refl _) fun _ => .bind (.refl _) fun _ =>
      .bind (.refl _) fun _ => follows_mallocLoop hle _ _ _
  · exact .bind (.refl _) fun _ => follows_mallocLoop hle _ _ _

end Fuel

/-- Up to `2 ^ 31 - 32` bytes, `malloc` returns memory from `sbrk`, below the break and in no
live block. -/
theorem malloc_has_memory (hbase : 0 < m.base) (hlimit : m.limit < 2 ^ 36) (h : Reached m w)
    {nbytes : Nat} (hnbytes : nbytes ≤ 2 ^ 31 - 32) :
    ∃ bound r s, (∀ fuel > bound, malloc m fuel nbytes w.heap = .ok (r, s)) ∧
      w.heap.top ≤ s.top ∧ ∀ ap, r = some ap → ∀ x, ap ≤ x → x < ap + nbytes →
        x < s.top ∧ Obtained s x ∧ ∀ a ∈ w.live, ¬ InBlock s.mem a x := by
  obtain ⟨bound, hwp⟩ := (h.good hbase hlimit).1.allocated hbase hlimit hnbytes
  obtain ⟨r, s, hrun, -, hup, hr⟩ := returns_of_wp (hwp (bound + 1)) fun e he => by omega
  refine ⟨bound, r, s, fun fuel hfuel => follows_malloc hfuel nbytes _ _ hrun, hup, ?_⟩
  rintro ap rfl x hle hlt
  obtain ⟨F, q, rfl, hq, hsize, hsound⟩ := hr
  have hblock : InBlock s.mem q x := by
    have hunits := (nunitsOf_eq hnbytes).2.2
    rw [InBlock, hsize]
    omega
  have hgiven := (hsound.account x).mpr (.inr ⟨q, Finset.mem_insert_self _ _, hblock⟩)
  refine ⟨hsound.below x hgiven, hgiven, fun a ha hin => hq ?_⟩
  rwa [hsound.live_apart q (Finset.mem_insert_self _ _) a (Finset.mem_insert_of_mem ha) x hblock hin]

/-- The block is cut from the free block below the live one. -/
theorem malloc_has_memory_joined : ∃ w s, Reached smallMachine w ∧ w.live.card = 1 ∧
    malloc smallMachine 9 40 w.heap = .ok (some (0x2000 + HEADER * 4085), s) ∧
    ∀ x, 0x2000 + HEADER * 4085 ≤ x → x < 0x2000 + HEADER * 4085 + 40 →
      x < s.top ∧ Obtained s x ∧ ∀ a ∈ w.live, ¬ InBlock s.mem a x := by
  have heval : (runCalls smallMachine 9 bigStart joinCalls).map (fun w => (w.live.card,
      resultOf (malloc smallMachine 9 40) w.heap)) =
      some (1, some (some (0x2000 + HEADER * 4085))) := by
    decide +kernel
  obtain ⟨w, hcalls, hend⟩ := Option.map_eq_some_iff.mp heval
  simp only [Prod.mk.injEq] at hend
  obtain ⟨s, hrun⟩ := exists_of_resultOf hend.2
  have hreached : Reached smallMachine w :=
    Reached.runCalls (.start ⟨rfl, rfl, by decide⟩ rfl) hcalls
  obtain ⟨bound, r, s', hall, -, hmemory⟩ := malloc_has_memory (by decide) (by decide) hreached
    (show 40 ≤ 2 ^ 31 - 32 by decide)
  -- nine rounds are enough, and more give the same
  have hsame := (hall (bound + 9) (by omega)).symm.trans
    (follows_malloc (Nat.le_add_left 9 bound) 40 _ _ hrun)
  simp only [Except.ok.injEq, Prod.mk.injEq] at hsame
  rw [← hsame.2] at hrun
  exact ⟨w, s', hreached, hend.1, hrun, hmemory _ hsame.1⟩

/-- For all the bytes that a uint can count `sbrk` gets 16, and the memory starts at the break;
for a megabyte less it gets a negative argument. -/
theorem malloc_beyond_break :
    (malloc smallMachine 9 (2 ^ 32 - 1) bigStart.heap).map (fun r => (r.1, r.2.top)) =
      .ok (some 0x2010, 0x2010) ∧
    stopOf (malloc smallMachine 9 (2 ^ 32 - 2 ^ 20)) bigStart.heap = some .shrink ∧
    stopOf (malloc smallMachine 9 (2 ^ 31 - 31)) bigStart.heap = some .shrink := by
  decide +kernel

end Xv6.User
