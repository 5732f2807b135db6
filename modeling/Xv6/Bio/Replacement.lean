import Xv6.Bio.Cache

/-! The replacement policy of the buffer cache. -/
namespace Xv6.Cache

open Function
open Lib Bcache

inductive Call where
  | bget (dev blockno : UInt32)
  | brelse (b : Fin NBUF)
  | bpin (b : Fin NBUF)
  | bunpin (b : Fin NBUF)

/-- The cache with a clock: when `brelse` last dropped the count of a buffer to 0. The code
does not keep it. -/
structure Timed where
  cache : Bcache
  now : Nat
  released : Fin NBUF → Option Nat

namespace Timed

def start : Timed := ⟨Bcache.binit, 0, fun _ => none⟩

def tick (t : Timed) (cache : Bcache) : Timed := { t with cache := cache, now := t.now + 1 }

def stamp (t : Timed) (b : Fin NBUF) : Timed :=
  if (t.cache.buf b).refcnt = 0 then
    { t with released := update t.released b (some t.now) }
  else t

def call (t : Timed) : Call → Except Panic Timed
  | .bget dev blockno => do
    let (_, cache) ← t.cache.bget dev blockno
    return t.tick cache
  | .brelse b => return (t.tick (t.cache.brelse b)).stamp b
  | .bpin b => return t.tick (t.cache.bpin b)
  | .bunpin b => return t.tick (t.cache.bunpin b)

def run (t : Timed) (calls : List Call) : Except Panic Timed := calls.foldlM call t

end Timed

/-- `a` was released after `b`. Buffers that never were are older, in the order of `binit`. -/
def After (released : Fin NBUF → Option Nat) (a b : Fin NBUF) : Prop :=
  match released a, released b with
  | some s, some t => t < s
  | some _, none => True
  | none, some _ => False
  | none, none => b < a

structure Sorted (t : Timed) (order : List (Fin NBUF)) : Prop where
  cover : ∀ b, b ∈ order
  ring : t.cache.links.Ring none (order.map some)
  sorted : order.Pairwise (After t.released)
  past : ∀ b s, t.released b = some s → s ≤ t.now

variable {t t' : Timed} {order : List (Fin NBUF)} {b : Fin NBUF} {cache : Bcache}

theorem Sorted.start : Sorted Timed.start (List.finRange NBUF).reverse where
  cover b := by simp
  ring := ring_binit
  sorted := by
    rw [List.pairwise_reverse]
    exact (List.pairwise_lt_finRange NBUF).imp id
  past _ _ h := by cases h

theorem Sorted.tick (h : Sorted t order) (hlinks : cache.links = t.cache.links) :
    Sorted (t.tick cache) order where
  cover := h.cover
  ring := by
    change cache.links.Ring none (order.map some)
    rw [hlinks]
    exact h.ring
  sorted := h.sorted
  past b s hs := Nat.le_succ_of_le (h.past b s hs)

/-- The last reference goes: the buffer moves to the front. -/
theorem Sorted.moveFront (h : Sorted t order) {left right : List (Fin NBUF)}
    (horder : order = left ++ b :: right)
    (hlinks : cache.links = (t.cache.links.unlink (some b)).pushFront none (some b)) :
    Sorted { t.tick cache with released := update t.released b (some (t.now + 1)) }
      (b :: (left ++ right)) := by
  subst horder
  have hnodup := List.nodup_middle.mp (nodup_of_ring h.ring)
  have hb : b ∉ left ++ right := (List.nodup_cons.mp hnodup).1
  refine ⟨?_, ?_, ?_, ?_⟩
  · intro b'
    have hmem := h.cover b'
    simp only [List.mem_append, List.mem_cons] at hmem ⊢
    tauto
  · change cache.links.Ring none _
    rw [hlinks]
    exact ring_moveFront h.ring
  · rw [List.pairwise_cons]
    constructor
    · intro b' hb'
      have hne : b' ≠ b := by
        rintro rfl
        exact hb hb'
      unfold After
      dsimp only
      rw [update_self, update_of_ne hne]
      split
      · rename_i s r hs hr
        cases hs
        exact Nat.lt_succ_of_le (h.past b' r hr)
      · trivial
      · rename_i hs _
        cases hs
      · rename_i hs _
        cases hs
    · have hsorted := h.sorted.sublist
        ((List.Sublist.refl left).append (List.sublist_cons_self b right))
      refine hsorted.imp_of_mem ?_
      intro x y hx hy hafter
      have hxb : x ≠ b := by
        rintro rfl
        exact hb hx
      have hyb : y ≠ b := by
        rintro rfl
        exact hb hy
      unfold After at hafter ⊢
      dsimp only
      rwa [update_of_ne hxb, update_of_ne hyb]
  · intro b' s hs
    dsimp only at hs
    obtain rfl | hb' := eq_or_ne b' b
    · rw [update_self] at hs
      cases hs
      exact le_rfl
    · rw [update_of_ne hb'] at hs
      exact Nat.le_succ_of_le (h.past b' s hs)

theorem Sorted.linked (h : Sorted t order) : t.cache.Linked := ⟨order, h.cover, h.ring⟩

/-- The search for an unused buffer runs backwards and stops at the oldest one. -/
theorem Sorted.oldest (h : Sorted t order) {b' : Fin NBUF}
    (hfind : t.cache.find t.cache.links.prev (fun x => x.refcnt = 0) = some b)
    (hunused : (t.cache.buf b').refcnt = 0) (hne : b' ≠ b) : After t.released b' b := by
  rw [find_prev h.cover h.ring] at hfind
  obtain ⟨-, last, first, hsplit, hlast⟩ := List.find?_eq_some_iff_append.mp hfind
  have horder : order = first.reverse ++ b :: last.reverse := by
    rw [← List.reverse_reverse order, hsplit]
    simp
  have hmem := h.cover b'
  rw [horder, List.mem_append, List.mem_cons] at hmem
  rcases hmem with hbefore | heq | hafter
  · have hsorted := h.sorted
    rw [horder, List.pairwise_append] at hsorted
    exact hsorted.2.2 b' hbefore b List.mem_cons_self
  · exact absurd heq hne
  · -- the buffers after it in the list are all in use
    have hused := hlast b' (List.mem_reverse.mp hafter)
    simp [hunused] at hused

theorem Sorted.bget_miss (h : Sorted t order) {dev blockno : UInt32}
    (run : t.cache.bget dev blockno = .ok (b, cache))
    (hmiss : ∀ b', ¬ ((t.cache.buf b').dev = dev ∧ (t.cache.buf b').blockno = blockno)) {b' : Fin NBUF}
    (hunused : (t.cache.buf b').refcnt = 0) (hne : b' ≠ b) : After t.released b' b := by
  unfold Bcache.bget at run
  split at run
  · rename_i b₁ hfind
    rw [find_next h.cover h.ring] at hfind
    exact absurd (by simpa using List.find?_some hfind) (hmiss b₁)
  · split at run
    · rename_i b₁ hfind
      cases run
      exact h.oldest hfind hunused hne
    · cases run

theorem Sorted.call (h : Sorted t order) {call : Call} (run : t.call call = .ok t') :
    ∃ order', Sorted t' order' := by
  cases call with
  | bget dev blockno =>
    dsimp only [Timed.call] at run
    cases hget : t.cache.bget dev blockno with
    | error e =>
      rw [hget] at run
      cases run
    | ok result =>
      obtain ⟨b, cache⟩ := result
      rw [hget] at run
      cases run
      refine ⟨order, h.tick ?_⟩
      cases h.linked.got hget <;> rfl
  | brelse b =>
    cases run
    unfold Timed.stamp
    split
    · rename_i hzero
      obtain ⟨left, right, horder⟩ := List.append_of_mem (h.cover b)
      refine ⟨_, h.moveFront horder ?_⟩
      change ((t.cache.brelse b).buf b).refcnt = 0 at hzero
      rw [brelse_buf] at hzero
      unfold Bcache.brelse
      dsimp only
      rw [if_pos hzero]
      rfl
    · rename_i hmore
      refine ⟨order, h.tick ?_⟩
      change ¬ ((t.cache.brelse b).buf b).refcnt = 0 at hmore
      rw [brelse_buf] at hmore
      unfold Bcache.brelse
      dsimp only
      rw [if_neg hmore]
      rfl
  | bpin b =>
    cases run
    exact ⟨order, h.tick rfl⟩
  | bunpin b =>
    cases run
    exact ⟨order, h.tick rfl⟩

theorem Sorted.run (h : Sorted t order) {calls : List Call} (run : t.run calls = .ok t') :
    ∃ order', Sorted t' order' := by
  induction calls generalizing t order with
  | nil =>
    cases run
    exact ⟨order, h⟩
  | cons call calls ih =>
    unfold Timed.run at run
    rw [List.foldlM_cons] at run
    cases hcall : t.call call with
    | error e =>
      rw [hcall] at run
      cases run
    | ok t₁ =>
      rw [hcall] at run
      obtain ⟨order₁, h₁⟩ := h.call hcall
      exact ih h₁ run

/-- The list is in decreasing order of the last release. `bget` takes one more reference to the
cached buffer, or on a miss gives the block the unused buffer whose last release is oldest; it
panics exactly if the block is not cached and no buffer is unused. -/
theorem lru_replacement {calls : List Call} (run : Timed.start.run calls = .ok t) :
    (∃ order : List (Fin NBUF), (∀ b, b ∈ order) ∧ t.cache.links.Ring none (order.map some) ∧
      order.Pairwise (After t.released)) ∧
    ∀ dev blockno,
      ((∃ b, (t.cache.buf b).dev = dev ∧ (t.cache.buf b).blockno = blockno ∨
          (t.cache.buf b).refcnt = 0) →
        ∃ b cache, t.cache.bget dev blockno = .ok (b, cache)) ∧
      ((∀ b, ¬ ((t.cache.buf b).dev = dev ∧ (t.cache.buf b).blockno = blockno) ∧
          (t.cache.buf b).refcnt ≠ 0) →
        t.cache.bget dev blockno = .error .bgetNoBuffers) ∧
      ∀ b cache, t.cache.bget dev blockno = .ok (b, cache) →
        cache.links = t.cache.links ∧
        ((∃ b', (t.cache.buf b').dev = dev ∧ (t.cache.buf b').blockno = blockno) →
          (t.cache.buf b).dev = dev ∧ (t.cache.buf b).blockno = blockno ∧
          cache.buf = update t.cache.buf b
            { t.cache.buf b with refcnt := (t.cache.buf b).refcnt + 1 }) ∧
        ((∀ b', ¬ ((t.cache.buf b').dev = dev ∧ (t.cache.buf b').blockno = blockno)) →
          (t.cache.buf b).refcnt = 0 ∧
          (∀ b', (t.cache.buf b').refcnt = 0 → b' ≠ b → After t.released b' b) ∧
          cache.buf = update t.cache.buf b
            { t.cache.buf b with dev := dev, blockno := blockno, valid := false, refcnt := 1 }) := by
  obtain ⟨order, h⟩ := Sorted.start.run run
  refine ⟨⟨order, h.cover, h.ring, h.sorted⟩, fun dev blockno => ⟨?_, ?_, ?_⟩⟩
  · rintro ⟨b, hb⟩
    cases hget : t.cache.bget dev blockno with
    | error e =>
      obtain ⟨hmissing, hused⟩ := (h.linked.bget_error hget).2 b
      rcases hb with hhit | hunused
      · exact absurd hhit hmissing
      · exact absurd hunused hused
    | ok result => exact ⟨result.1, result.2, rfl⟩
  · intro hall
    cases hget : t.cache.bget dev blockno with
    | error e => rw [(h.linked.bget_error hget).1]
    | ok result =>
      obtain ⟨b, cache⟩ := result
      cases h.linked.got hget with
      | hit cached => exact absurd cached (hall _).1
      | recycled unused missing => exact absurd unused (hall _).2
  · intro b cache hget
    have holdest := h.bget_miss hget
    cases h.linked.got hget with
    | hit cached =>
      refine ⟨rfl, fun _ => ⟨cached.1, cached.2, rfl⟩, fun hmiss => ?_⟩
      exact absurd cached (hmiss b)
    | recycled unused missing =>
      refine ⟨rfl, ?_, fun hmiss => ⟨unused, fun b' => holdest hmiss, rfl⟩⟩
      rintro ⟨b', hb'⟩
      exact absurd hb' (missing b')

/-- The buffer that `bget` picks after some calls, and whether the block was missing. -/
def pickedAfter (calls : List Call) (dev blockno : UInt32) : Option (Fin NBUF × Bool) :=
  match Timed.start.run calls with
  | .ok t => (t.cache.bget dev blockno).toOption.map fun result => (result.1, decide (∀ b,
      ¬ ((t.cache.buf b).dev = dev ∧ (t.cache.buf b).blockno = blockno)))
  | .error _ => none

/-- Block 7 is read and released; the next miss recycles another buffer for block 8. -/
theorem lru_replacement_next : ∃ t cache, Timed.start.run [.bget 1 7, .brelse 0] = .ok t ∧
    t.cache.bget 1 8 = .ok (1, cache) ∧ (cache.buf 1).blockno = 8 ∧ (cache.buf 1).refcnt = 1 ∧
    (cache.buf 0).blockno = (t.cache.buf 0).blockno := by
  have heval : pickedAfter [.bget 1 7, .brelse 0] 1 8 = some (1, true) := by decide +kernel
  unfold pickedAfter at heval
  split at heval
  · rename_i t hrun
    cases hget : t.cache.bget 1 8 with
    | error e =>
      rw [hget] at heval
      cases heval
    | ok result =>
      obtain ⟨b, cache⟩ := result
      rw [hget] at heval
      obtain ⟨rfl, hmiss⟩ := Prod.mk.inj (Option.some.inj heval)
      obtain ⟨-, -, hdone⟩ := (lru_replacement hrun).2 1 8
      obtain ⟨-, -, hbuf⟩ := (hdone 1 cache hget).2.2 (of_decide_eq_true hmiss)
      refine ⟨t, cache, hrun, hget, ?_⟩
      rw [hbuf]
      exact ⟨rfl, rfl, rfl⟩
  · cases heval

end Xv6.Cache
