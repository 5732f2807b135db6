import Xv6.Fs.Ownership

/-! The block allocator over whole histories. `balloc` finds the bit of a block by the position
in the loops and `bfree` by division. -/
namespace Xv6

open Lib Lib.Exec Store List

variable {sb : Superblock} {s s' s'' : Store} {b c x : Nat}

def Superblock.InBitmap (sb : Superblock) (x : Nat) : Prop := ∃ c, c < sb.size ∧ sb.BBLOCK c = x

def BitmapMarked (sb : Superblock) (s : Store) : Prop := ∀ x, sb.InBitmap x → s.used sb x = true

def Store.LogRoom (s : Store) (n : Nat) : Prop :=
  1 ≤ s.log.outstanding ∧ s.log.lh.length + n ≤ LOGSIZE ∧ s.log.lh.length + n < s.log.size

def Panic.OfLog (e : Panic) : Prop := e = .tooBigTransaction ∨ e = .logWriteOutsideTrans

/-- In its block of the free map only the bit of `b` changes, to `v`. -/
def SetsBit (sb : Superblock) (s : Store) (b : Nat) (v : Bool) (s' : Store) : Prop :=
  ∀ j, j < BPB → BitMap.test (s'.buf (sb.BBLOCK b)).byte j =
    if j = b % BPB then v else BitMap.test (s.buf (sb.BBLOCK b)).byte j

structure Allocates (sb : Superblock) (s : Store) (b : Nat) (s' : Store) : Prop where
  lt : b < sb.size
  free : s.used sb b = false
  smallest : ∀ c, c < b → s.used sb c = true
  bit : SetsBit sb s b true s'
  zero : s'.buf b = Block.zero
  frame : ∀ x, x ≠ b → x ≠ sb.BBLOCK b → s'.buf x = s.buf x
  disk : s'.disk = s.disk

structure Frees (sb : Superblock) (s : Store) (b : Nat) (s' : Store) : Prop where
  used : s.used sb b = true
  bit : SetsBit sb s b false s'
  frame : ∀ x, x ≠ sb.BBLOCK b → s'.buf x = s.buf x
  disk : s'.disk = s.disk

theorem Superblock.InBitmap.bounds (h : sb.InBitmap x) : sb.bmapstart ≤ x ∧ x < sb.size := by
  obtain ⟨c, hc, rfl⟩ := h
  have hlt := sb.bblock_lt hc
  have hfits := sb.bmap_le
  unfold Superblock.dataStart at hlt
  exact ⟨sb.bmapstart_le_bblock c, by omega⟩

theorem inBitmap_bblock (h : c < sb.size) : sb.InBitmap (sb.BBLOCK c) := ⟨c, h, rfl⟩

theorem mod_bpb_lt (c : Nat) : c % BPB < BPB := Nat.mod_lt c (by decide)

theorem BitmapMarked.not_inBitmap (h : BitmapMarked sb s) (hfree : s.used sb b = false) :
    ¬ sb.InBitmap b := by
  intro hin
  rw [h b hin] at hfree
  cases hfree

section Bits

variable {v : Bool}

theorem SetsBit.self (h : SetsBit sb s b v s') : s'.used sb b = v := by
  unfold Store.used
  rw [h _ (mod_bpb_lt b), if_pos rfl]

theorem SetsBit.of_block_eq (h : SetsBit sb s b v s') (hne : c ≠ b)
    (hblock : sb.BBLOCK c = sb.BBLOCK b) : s'.used sb c = s.used sb c := by
  have hmod : c % BPB ≠ b % BPB := fun hmod => bblock_ne_of_mod_eq hne hmod hblock
  unfold Store.used
  rw [hblock, h _ (mod_bpb_lt c), if_neg hmod]

theorem setsBit_ofFn {bytes : Nat → UInt8} (hself : BitMap.test bytes (b % BPB) = v)
    (hother : ∀ j, j ≠ b % BPB → BitMap.test bytes j = BitMap.test (s.buf (sb.BBLOCK b)).byte j)
    (hbuf : s'.buf (sb.BBLOCK b) = Block.ofFn bytes) : SetsBit sb s b v s' := by
  intro j hj
  have hbyte : j / 8 < BSIZE := by
    simp only [BPB] at hj
    omega
  rw [hbuf, BitMap.test_congr (Block.byte_ofFn bytes hbyte)]
  split
  · rename_i heq
    rw [heq, hself]
  · rename_i hne
    exact hother j hne

end Bits

theorem Allocates.used_ne (h : Allocates sb s b s') (hb : ¬ sb.InBitmap b)
    (hc : sb.InBitmap (sb.BBLOCK c)) (hne : c ≠ b) : s'.used sb c = s.used sb c := by
  by_cases hblock : sb.BBLOCK c = sb.BBLOCK b
  · exact h.bit.of_block_eq hne hblock
  · apply used_congr
    refine h.frame _ ?_ hblock
    rintro rfl
    exact hb hc

theorem Frees.used_ne (h : Frees sb s b s') (hne : c ≠ b) : s'.used sb c = s.used sb c := by
  by_cases hblock : sb.BBLOCK c = sb.BBLOCK b
  · exact h.bit.of_block_eq hne hblock
  · exact used_congr (h.frame _ hblock)

/-! The functions. -/
namespace Store

theorem LogRoom.note {n : Nat} (h : s.LogRoom (n + 1)) (blockno : Nat) :
    (s.note blockno).LogRoom n := by
  obtain ⟨hopen, hheader, hsize⟩ := h
  have hlength : (s.note blockno).log.lh.length ≤ s.log.lh.length + 1 := by
    unfold Store.note setLh
    dsimp only
    split
    · exact Nat.le_succ _
    · rw [length_append, length_singleton]
  refine ⟨hopen, by omega, ?_⟩
  change (s.note blockno).log.lh.length + n < s.log.size
  omega

variable {E : Panic → Prop} {Q : Unit → Store → Prop}

theorem wp_logWrite_room {blockno : Nat} (post : Q () (s.note blockno))
    (stop : ∀ e, e.OfLog → ¬ s.LogRoom 1 → E e) : wp (logWrite blockno) Q E s := by
  unfold wp
  rw [logWrite_eq]
  split_ifs with hfull houtside
  · exact stop _ (.inl rfl) fun ⟨_, hheader, hsize⟩ => by omega
  · exact stop _ (.inr rfl) fun ⟨hopen, _⟩ => by omega
  · exact post

def allocate (sb : Superblock) (s : Store) (b : Nat) : Store :=
  (((s.markBit sb b).note (sb.BBLOCK b)).setData b Block.zero).note b

def release (sb : Superblock) (s : Store) (b : Nat) : Store :=
  (s.clearBit sb b).note (sb.BBLOCK b)

theorem wp_balloc_exact {Q : Nat → Store → Prop}
    (found : ∀ b, s.firstFree sb = some b → Q b (s.allocate sb b))
    (out : s.firstFree sb = none → E .outOfBlocks)
    (stop : ∀ b e, s.firstFree sb = some b → e.OfLog → ¬ s.LogRoom 2 → E e) :
    wp (balloc sb) Q E s := by
  apply wp_balloc_search out
  intro b hfound
  simp only [wp_bind, bzero, wp_modify, wp_pure]
  refine wp_logWrite_room (wp_logWrite_room (found b hfound) ?_) ?_
  · intro e he hfull
    exact stop b e hfound he fun hroom => hfull (LogRoom.note (s := s.markBit sb b) hroom _)
  · intro e he hfull
    refine stop b e hfound he ?_
    rintro ⟨hopen, hheader, hsize⟩
    refine hfull ⟨hopen, ?_, ?_⟩
    · change s.log.lh.length + 1 ≤ LOGSIZE
      omega
    · change s.log.lh.length + 1 < s.log.size
      omega

theorem wp_bfree_exact (used : s.used sb b = true → Q () (s.release sb b))
    (clear : s.used sb b = false → E .freeingFreeBlock)
    (stop : ∀ e, s.used sb b = true → e.OfLog → ¬ s.LogRoom 1 → E e) : wp (bfree sb b) Q E s := by
  unfold bfree
  simp only [wp_bind, wp_get]
  rw [wp_ite]
  split
  · rename_i hclear
    exact clear hclear
  · rename_i hused
    have hused' : s.used sb b = true := by simpa using hused
    simp only [wp_bind, wp_set]
    exact wp_logWrite_room (used hused') fun e he hfull => stop e hused' he hfull

end Store

theorem allocates_allocate (marked : BitmapMarked sb s) (h : s.firstFree sb = some b) :
    Allocates sb s b (s.allocate sb b) := by
  obtain ⟨hlt, hfree, hfirst⟩ := firstFree_eq_some h
  have hne : sb.BBLOCK b ≠ b := by
    intro heq
    exact marked.not_inBitmap hfree (heq ▸ inBitmap_bblock hlt)
  refine ⟨hlt, hfree, hfirst, ?_, buf_setData_self .., ?_, rfl⟩
  · refine setsBit_ofFn (BitMap.test_mark_self _ _) (fun j hj => BitMap.test_mark_ne hj) ?_
    unfold Store.allocate
    rw [buf_note, buf_setData_ne hne]
    exact buf_setData_self ..
  · intro x hxb hxmap
    unfold Store.allocate
    rw [buf_note, buf_setData_ne hxb]
    exact buf_setData_ne hxmap

theorem frees_release (h : s.used sb b = true) : Frees sb s b (s.release sb b) := by
  refine ⟨h, ?_, ?_, rfl⟩
  · exact setsBit_ofFn (BitMap.test_clear_self _ _) (fun j hj => BitMap.test_clear_ne hj)
      (buf_setData_self ..)
  · exact fun x hx => buf_setData_ne hx

theorem firstFree_eq_none_iff : s.firstFree sb = none ↔ ∀ c, c < sb.size → s.used sb c = true := by
  constructor
  · exact fun h c hc => firstFree_eq_none h hc
  · intro h
    cases hfound : s.firstFree sb with
    | none => rfl
    | some b =>
      obtain ⟨hlt, hfree, -⟩ := firstFree_eq_some hfound
      rw [h b hlt] at hfree
      cases hfree

/-! Histories. -/

inductive AllocEvent where
  | alloc (b : Nat)
  | free (b : Nat)
deriving DecidableEq

/-- A history of `balloc` and of `bfree` on blocks outside the free map; transactions may begin
and end between. -/
inductive AllocRun (sb : Superblock) : Store → List AllocEvent → Store → Prop where
  | done (s : Store) : AllocRun sb s [] s
  | log {s s' s'' : Store} {events : List AllocEvent} (buf : s'.buf = s.buf)
      (rest : AllocRun sb s' events s'') : AllocRun sb s events s''
  | alloc {s s' s'' : Store} {events : List AllocEvent} {b : Nat}
      (call : Store.balloc sb s = .ok (b, s'))
      (rest : AllocRun sb s' events s'') : AllocRun sb s (.alloc b :: events) s''
  | free {s s' s'' : Store} {events : List AllocEvent} {b : Nat} (hlt : b < sb.size)
      (hb : ¬ sb.InBitmap b) (call : Store.bfree sb b s = .ok ((), s'))
      (rest : AllocRun sb s' events s'') : AllocRun sb s (.free b :: events) s''

theorem BitmapMarked.congr (h : BitmapMarked sb s) (hbuf : s'.buf = s.buf) : BitmapMarked sb s' := by
  intro x hx
  rw [← h x hx]
  exact used_congr (congrFun hbuf _)

theorem BitmapMarked.allocates (h : BitmapMarked sb s) (step : Allocates sb s b s') :
    BitmapMarked sb s' := by
  intro x hx
  have hb := h.not_inBitmap step.free
  have hne : x ≠ b := by
    rintro rfl
    exact hb hx
  rw [step.used_ne hb (inBitmap_bblock hx.bounds.2) hne, h x hx]

theorem BitmapMarked.frees (h : BitmapMarked sb s) (hb : ¬ sb.InBitmap b) (step : Frees sb s b s') :
    BitmapMarked sb s' := by
  intro x hx
  have hne : x ≠ b := by
    rintro rfl
    exact hb hx
  rw [step.used_ne hne, h x hx]

theorem allocates_of_balloc (marked : BitmapMarked sb s) (call : Store.balloc sb s = .ok (b, s')) :
    Allocates sb s b s' := by
  have hspec : wp (Store.balloc sb) (fun b s' => Allocates sb s b s') (fun _ => True) s :=
    wp_balloc_exact (fun _ => allocates_allocate marked) (fun _ => trivial)
      fun _ _ _ _ _ => trivial
  exact post_of_wp hspec call

theorem frees_of_bfree (call : Store.bfree sb b s = .ok ((), s')) : Frees sb s b s' := by
  have hspec : wp (Store.bfree sb b) (fun _ s' => Frees sb s b s') (fun _ => True) s :=
    wp_bfree_exact frees_release (fun _ => trivial) fun _ _ _ _ => trivial
  have hfrees := post_of_wp hspec call
  exact hfrees

variable {events : List AllocEvent}

theorem AllocRun.in_range (runs : AllocRun sb s events s') (hc : sb.size ≤ c) :
    AllocEvent.alloc c ∉ events ∧ AllocEvent.free c ∉ events := by
  induction runs with
  | done s => exact ⟨not_mem_nil, not_mem_nil⟩
  | log _ _ ih => exact ih
  | @alloc s s₁ _ events b call _ ih =>
    have hspec : wp (Store.balloc sb) (fun b _ => b < sb.size) (fun _ => True) s :=
      wp_balloc_exact (fun b hfound => (firstFree_eq_some hfound).1) (fun _ => trivial)
        fun _ _ _ _ _ => trivial
    have hlt := post_of_wp hspec call
    simp only [mem_cons, AllocEvent.alloc.injEq, reduceCtorEq, false_or]
    exact ⟨fun hmem => hmem.elim (by omega) ih.1, ih.2⟩
  | free hlt _ _ _ ih =>
    simp only [mem_cons, AllocEvent.free.injEq, reduceCtorEq, false_or]
    exact ⟨ih.1, fun hmem => hmem.elim (by omega) ih.2⟩

/-- The free map stays marked, and a bit changes only in calls about its block. -/
theorem AllocRun.keeps (runs : AllocRun sb s events s') (marked : BitmapMarked sb s) :
    BitmapMarked sb s' ∧
      ∀ c, sb.InBitmap (sb.BBLOCK c) → AllocEvent.alloc c ∉ events → AllocEvent.free c ∉ events →
        s'.used sb c = s.used sb c := by
  induction runs with
  | done s => exact ⟨marked, fun _ _ _ _ => rfl⟩
  | log buf _ ih =>
    obtain ⟨hmarked, hkeeps⟩ := ih (marked.congr buf)
    refine ⟨hmarked, fun c hc halloc hfree => ?_⟩
    rw [hkeeps c hc halloc hfree]
    exact used_congr (congrFun buf _)
  | alloc call _ ih =>
    have step := allocates_of_balloc marked call
    obtain ⟨hmarked, hkeeps⟩ := ih (marked.allocates step)
    refine ⟨hmarked, fun c hc halloc hfree => ?_⟩
    rw [mem_cons, not_or] at halloc hfree
    rw [hkeeps c hc halloc.2 hfree.2]
    refine step.used_ne (marked.not_inBitmap step.free) hc ?_
    rintro rfl
    exact halloc.1 rfl
  | free hlt hb call _ ih =>
    have step := frees_of_bfree call
    obtain ⟨hmarked, hkeeps⟩ := ih (marked.frees hb step)
    refine ⟨hmarked, fun c hc halloc hfree => ?_⟩
    rw [mem_cons, not_or] at halloc hfree
    rw [hkeeps c hc halloc.2 hfree.2]
    refine step.used_ne ?_
    rintro rfl
    exact hfree.1 rfl

theorem AllocRun.not_alloc (runs : AllocRun sb s events s') (marked : BitmapMarked sb s)
    (hlt : b < sb.size) (hused : s.used sb b = true) {mid post : List AllocEvent}
    (hevents : events = mid ++ .alloc b :: post) : AllocEvent.free b ∈ mid := by
  induction runs generalizing mid with
  | done s => exact absurd hevents.symm (append_ne_nil_of_right_ne_nil _ (cons_ne_nil _ _))
  | log buf _ ih =>
    refine ih (marked.congr buf) ?_ hevents
    rw [← hused]
    exact used_congr (congrFun buf _)
  | @alloc s s₁ _ events c call _ ih =>
    have step := allocates_of_balloc marked call
    have hne : b ≠ c := by
      rintro rfl
      rw [step.free] at hused
      cases hused
    cases mid with
    | nil =>
      rw [nil_append, List.cons.injEq, AllocEvent.alloc.injEq] at hevents
      exact absurd hevents.1.symm hne
    | cons e mid =>
      rw [cons_append, List.cons.injEq] at hevents
      refine mem_cons_of_mem _ (ih (marked.allocates step) ?_ hevents.2)
      rw [step.used_ne (marked.not_inBitmap step.free) (inBitmap_bblock hlt) hne, hused]
  | @free s s₁ _ events c hltc hb call _ ih =>
    have step := frees_of_bfree call
    cases mid with
    | nil =>
      rw [nil_append, List.cons.injEq] at hevents
      cases hevents.1
    | cons e mid =>
      rw [cons_append, List.cons.injEq] at hevents
      by_cases hne : b = c
      · rw [← hevents.1, hne]
        exact mem_cons_self
      · refine mem_cons_of_mem _ (ih (marked.frees hb step) ?_ hevents.2)
        rw [step.used_ne hne, hused]

/-- Between two times that a block is handed out it is freed. -/
theorem AllocRun.freed_between {pre mid post : List AllocEvent} (runs : AllocRun sb s events s')
    (marked : BitmapMarked sb s) (hevents : events = pre ++ .alloc b :: (mid ++ .alloc b :: post)) :
    AllocEvent.free b ∈ mid := by
  induction runs generalizing pre with
  | done s => exact absurd hevents.symm (append_ne_nil_of_right_ne_nil _ (cons_ne_nil _ _))
  | log buf _ ih => exact ih (marked.congr buf) hevents
  | @alloc s s₁ _ events c call rest ih =>
    have step := allocates_of_balloc marked call
    cases pre with
    | nil =>
      rw [nil_append, List.cons.injEq, AllocEvent.alloc.injEq] at hevents
      obtain ⟨rfl, hrest⟩ := hevents
      exact rest.not_alloc (marked.allocates step) step.lt step.bit.self hrest
    | cons e pre =>
      rw [cons_append, List.cons.injEq] at hevents
      exact ih (marked.allocates step) hevents.2
  | @free s s₁ _ events c hltc hb call _ ih =>
    cases pre with
    | nil =>
      rw [nil_append, List.cons.injEq] at hevents
      cases hevents.1
    | cons e pre =>
      rw [cons_append, List.cons.injEq] at hevents
      exact ih (marked.frees hb (frees_of_bfree call)) hevents.2

theorem balloc_outcomes (marked : BitmapMarked sb s) :
    (∀ b s', Store.balloc sb s = .ok (b, s') → Allocates sb s b s') ∧
    (Store.balloc sb s = .error .outOfBlocks ↔ ∀ c, c < sb.size → s.used sb c = true) ∧
    (s.LogRoom 2 → (∃ c, c < sb.size ∧ s.used sb c = false) →
      ∃ b s', Store.balloc sb s = .ok (b, s')) := by
  refine ⟨fun b s' call => allocates_of_balloc marked call, ?_, ?_⟩
  · rw [← firstFree_eq_none_iff]
    constructor
    · intro hstop
      have hspec : wp (Store.balloc sb) (fun _ _ => True)
          (fun e => e = .outOfBlocks → s.firstFree sb = none) s :=
        wp_balloc_exact (fun _ _ => trivial) (fun hnone _ => hnone)
          fun _ e _ he _ heq => by
            subst heq
            rcases he with he | he <;> cases he
      exact stop_of_wp hspec hstop rfl
    · intro hnone
      refine stops_of_wp (wp_balloc_exact ?_ (fun _ => rfl) ?_)
      · intro b hfound
        rw [hnone] at hfound
        cases hfound
      · intro b e hfound
        rw [hnone] at hfound
        cases hfound
  · rintro hroom ⟨c, hc, hfree⟩
    have hspec : wp (Store.balloc sb) (fun _ _ => True) (fun _ => False) s := by
      refine wp_balloc_exact (fun _ _ => trivial) ?_ fun _ _ _ _ hfull => hfull hroom
      intro hnone
      rw [firstFree_eq_none hnone hc] at hfree
      cases hfree
    obtain ⟨b, s', hrun, -⟩ := returns_of_wp hspec fun _ => id
    exact ⟨b, s', hrun⟩

theorem bfree_outcomes :
    (∀ s', Store.bfree sb b s = .ok ((), s') → Frees sb s b s') ∧
    (Store.bfree sb b s = .error .freeingFreeBlock ↔ s.used sb b = false) ∧
    (s.LogRoom 1 → s.used sb b = true → ∃ s', Store.bfree sb b s = .ok ((), s')) := by
  refine ⟨fun s' call => frees_of_bfree call, ?_, ?_⟩
  · constructor
    · intro hstop
      have hspec : wp (Store.bfree sb b) (fun _ _ => True)
          (fun e => e = .freeingFreeBlock → s.used sb b = false) s :=
        wp_bfree_exact (fun _ => trivial) (fun hclear _ => hclear)
          fun e _ he _ heq => by
            subst heq
            rcases he with he | he <;> cases he
      exact stop_of_wp hspec hstop rfl
    · intro hclear
      refine stops_of_wp (wp_bfree_exact ?_ (fun _ => rfl) ?_)
      · intro hused
        rw [hclear] at hused
        cases hused
      · intro e hused
        rw [hclear] at hused
        cases hused
  · intro hroom hused
    have hspec : wp (Store.bfree sb b) (fun _ _ => True) (fun _ => False) s := by
      refine wp_bfree_exact (fun _ => trivial) ?_ fun _ _ _ hfull => hfull hroom
      intro hclear
      rw [hused] at hclear
      cases hclear
    obtain ⟨_, s', hrun, -⟩ := returns_of_wp hspec fun _ => id
    exact ⟨s', hrun⟩

/-- In every history `balloc` hands out the smallest free block, zeroed, and panics exactly if
there is none; `bfree` panics exactly at a clear bit; and a block is handed out again only
after it was freed. -/
theorem bitmap_allocator {events : List AllocEvent} (marked : BitmapMarked sb s)
    (runs : AllocRun sb s events s') :
    ((∀ b t, Store.balloc sb s' = .ok (b, t) → Allocates sb s' b t) ∧
      (Store.balloc sb s' = .error .outOfBlocks ↔ ∀ c, c < sb.size → s'.used sb c = true) ∧
      (s'.LogRoom 2 → (∃ c, c < sb.size ∧ s'.used sb c = false) →
        ∃ b t, Store.balloc sb s' = .ok (b, t))) ∧
    (∀ b, b < sb.size → ¬ sb.InBitmap b →
      (∀ t, Store.bfree sb b s' = .ok ((), t) → Frees sb s' b t) ∧
      (Store.bfree sb b s' = .error .freeingFreeBlock ↔ s'.used sb b = false) ∧
      (s'.LogRoom 1 → s'.used sb b = true → ∃ t, Store.bfree sb b s' = .ok ((), t))) ∧
    (∀ b pre mid post, events = pre ++ .alloc b :: (mid ++ .alloc b :: post) →
      AllocEvent.free b ∈ mid) ∧
    ∀ c, sb.size ≤ c → sb.InBitmap (sb.BBLOCK c) → s'.used sb c = s.used sb c := by
  obtain ⟨hmarked, hkeeps⟩ := runs.keeps marked
  refine ⟨balloc_outcomes hmarked, fun b _ _ => bfree_outcomes, ?_, ?_⟩
  · exact fun b pre mid post hevents => runs.freed_between marked hevents
  · intro c hc hin
    obtain ⟨halloc, hfree⟩ := runs.in_range hc
    exact hkeeps c hin halloc hfree

theorem smallStore_marked : BitmapMarked smallSb40 smallStore := by
  rintro x ⟨c, hc, rfl⟩
  have hblock : smallSb40.BBLOCK c = 33 := by
    change c / BPB + 33 = 33
    rw [Nat.div_eq_of_lt (Nat.lt_of_lt_of_le hc (by decide)), Nat.zero_add]
  rw [hblock]
  decide +kernel

theorem bitmap_allocator_small : ∃ s', AllocRun smallSb40 smallStore [.alloc 35] s' ∧
    Allocates smallSb40 smallStore 35 s' ∧ s'.used smallSb40 41 = smallStore.used smallSb40 41 := by
  have heval : resultOf (Store.balloc smallSb40) smallStore = some 35 := by decide +kernel
  obtain ⟨s', hrun⟩ := exists_of_resultOf heval
  have runs : AllocRun smallSb40 smallStore [.alloc 35] s' := .alloc hrun (.done s')
  obtain ⟨⟨hspec, -⟩, -⟩ := bitmap_allocator smallStore_marked (.done smallStore)
  obtain ⟨-, -, -, hbeyond⟩ := bitmap_allocator smallStore_marked runs
  exact ⟨s', runs, hspec 35 s' hrun, hbeyond 41 (by decide) ⟨0, by decide, rfl⟩⟩

end Xv6
