import Xv6.Bio.Cache

/-! Runs of the buffer cache by any number of processes. -/
namespace Xv6.Cache

open Lib Bcache

structure State (P : Type) where
  cache : Bcache
  /-- References from `bget` not dropped yet. -/
  held : Multiset (P × Fin NBUF) := 0
  /-- Pins not undone yet. -/
  pins : Multiset (Fin NBUF) := 0

inductive Event (P : Type) where
  | bget (p : P) (dev blockno : UInt32)
  | brelse (p : P) (b : Fin NBUF)
  | bpin (p : P) (b : Fin NBUF)
  | bunpin (p : P) (b : Fin NBUF)

variable {P : Type} [DecidableEq P]

/-- None if a buffer that is not held is released, or one that is not pinned is unpinned. -/
def step (g : State P) : Event P → Option (Except Panic (State P))
  | .bget p dev blockno => some (do
      let (b, cache) ← g.cache.bget dev blockno
      pure { g with cache := cache, held := (p, b) ::ₘ g.held })
  | .brelse p b =>
    if (p, b) ∈ g.held then
      some (.ok { g with cache := g.cache.brelse b, held := g.held.erase (p, b) })
    else none
  | .bpin _ b => some (.ok { g with cache := g.cache.bpin b, pins := b ::ₘ g.pins })
  | .bunpin _ b =>
    if b ∈ g.pins then
      some (.ok { g with cache := g.cache.bunpin b, pins := g.pins.erase b })
    else none

inductive Reachable : State P → Prop where
  | binit : Reachable { cache := Bcache.binit }
  | step {g next : State P} {event : Event P} :
      Reachable g → step g event = some (.ok next) → Reachable next

def references (g : State P) (b : Fin NBUF) : Nat :=
  (g.held.map Prod.snd).count b + g.pins.count b

inductive Step (g : State P) : State P → Prop where
  | bget (p : P) (dev blockno : UInt32) (b : Fin NBUF) (cache : Bcache)
      (got : Got g.cache dev blockno b cache) :
      Step g { g with cache := cache, held := (p, b) ::ₘ g.held }
  | brelse (p : P) (b : Fin NBUF) (holds : (p, b) ∈ g.held) :
      Step g { g with cache := g.cache.brelse b, held := g.held.erase (p, b) }
  | bpin (b : Fin NBUF) : Step g { g with cache := g.cache.bpin b, pins := b ::ₘ g.pins }
  | bunpin (b : Fin NBUF) (pinned : b ∈ g.pins) :
      Step g { g with cache := g.cache.bunpin b, pins := g.pins.erase b }

theorem step_of_event {g next : State P} {event : Event P} (linked : g.cache.Linked)
    (h : step g event = some (.ok next)) : Step g next := by
  cases event with
  | bget p dev blockno =>
    simp only [step] at h
    cases hrun : g.cache.bget dev blockno with
    | error e =>
      rw [hrun] at h
      cases h
    | ok result =>
      rw [hrun] at h
      cases h
      exact .bget p dev blockno result.1 result.2 (linked.got hrun)
  | brelse p b =>
    simp only [step] at h
    split at h
    · rename_i holds
      cases h
      exact .brelse p b holds
    · cases h
  | bpin p b =>
    cases h
    exact .bpin b
  | bunpin p b =>
    simp only [step] at h
    split at h
    · rename_i pinned
      cases h
      exact .bunpin b pinned
    · cases h

structure Invariant (g : State P) : Prop where
  linked : g.cache.Linked
  unique : g.cache.Unique
  counted : ∀ b, (g.cache.buf b).refcnt = UInt32.ofNat (references g b)

variable {g next : State P}

omit [DecidableEq P] in
theorem references_bget (p : P) (b b' : Fin NBUF) (cache : Bcache) :
    references { g with cache := cache, held := (p, b) ::ₘ g.held } b' =
      references g b' + if b' = b then 1 else 0 := by
  unfold references
  rw [Multiset.map_cons, Multiset.count_cons]
  dsimp only
  omega

omit [DecidableEq P] in
theorem references_bpin (b b' : Fin NBUF) (cache : Bcache) :
    references { g with cache := cache, pins := b ::ₘ g.pins } b' =
      references g b' + if b' = b then 1 else 0 := by
  unfold references
  rw [Multiset.count_cons]
  dsimp only
  omega

variable {b : Fin NBUF}

theorem references_brelse {p : P} (holds : (p, b) ∈ g.held) (b' : Fin NBUF) (cache : Bcache) :
    references g b' = references { g with cache := cache, held := g.held.erase (p, b) } b' +
      if b' = b then 1 else 0 := by
  have hcons : (p, b) ::ₘ g.held.erase (p, b) = g.held := Multiset.cons_erase holds
  have hadd := references_bget (g := { g with held := g.held.erase (p, b) }) p b b' cache
  rw [hcons] at hadd
  exact hadd

omit [DecidableEq P] in
theorem references_bunpin (pinned : b ∈ g.pins) (b' : Fin NBUF) (cache : Bcache) :
    references g b' = references { g with cache := cache, pins := g.pins.erase b } b' +
      if b' = b then 1 else 0 := by
  have hcons : b ::ₘ g.pins.erase b = g.pins := Multiset.cons_erase pinned
  have hadd := references_bpin (g := { g with pins := g.pins.erase b }) b b' cache
  rw [hcons] at hadd
  exact hadd

theorem counted_add {c : Bcache} {before after : Fin NBUF → Nat}
    (h : ∀ b', (c.buf b').refcnt = UInt32.ofNat (before b'))
    (more : ∀ b', after b' = before b' + if b' = b then 1 else 0) (b' : Fin NBUF) :
    ((c.setBuf b fun x => { x with refcnt := x.refcnt + 1 }).buf b').refcnt =
      UInt32.ofNat (after b') := by
  rw [more b']
  obtain rfl | hb := eq_or_ne b' b
  · rw [setBuf_self, if_pos rfl, UInt32.ofNat_add, h b']
    rfl
  · rw [setBuf_of_ne _ hb, if_neg hb, Nat.add_zero, h b']

theorem counted_sub {c : Bcache} {before after : Fin NBUF → Nat}
    (h : ∀ b', (c.buf b').refcnt = UInt32.ofNat (before b'))
    (less : ∀ b', before b' = after b' + if b' = b then 1 else 0) (b' : Fin NBUF) :
    ((c.setBuf b fun x => { x with refcnt := x.refcnt - 1 }).buf b').refcnt =
      UInt32.ofNat (after b') := by
  have hcount := h b'
  rw [less b'] at hcount
  obtain rfl | hb := eq_or_ne b' b
  · rw [if_pos rfl, UInt32.ofNat_add] at hcount
    rw [setBuf_self, hcount]
    exact UInt32.add_sub_cancel ..
  · rw [if_neg hb, Nat.add_zero] at hcount
    rw [setBuf_of_ne _ hb, hcount]

theorem Invariant.step (inv : Invariant g) (h : Step g next) : Invariant next := by
  cases h with
  | bget p dev blockno b cache got =>
    refine ⟨?_, inv.unique.got got, ?_⟩
    · cases got with
      | hit cached => exact inv.linked.setBuf _
      | recycled unused missing => exact inv.linked.setBuf _
    · intro b'
      cases got with
      | hit cached => exact counted_add inv.counted (references_bget p b · _) b'
      | recycled unused missing =>
        -- the recycled buffer had no references, so that 1 is one more than before
        rw [references_bget, ← counted_add inv.counted (b := b) (fun _ => rfl) b']
        obtain rfl | hb := eq_or_ne b' b
        · rw [setBuf_self, setBuf_self, unused]
          rfl
        · rw [setBuf_of_ne _ hb, setBuf_of_ne _ hb]
  | brelse p b holds =>
    refine ⟨inv.linked.brelse, ?_, ?_⟩
    · apply inv.unique.of_same
      intro b'
      rw [brelse_buf]
      exact setRefcnt_same (· - 1) b'
    · intro b'
      rw [brelse_buf]
      exact counted_sub inv.counted (references_brelse holds · _) b'
  | bpin b =>
    exact ⟨inv.linked.setBuf _, inv.unique.of_same (setRefcnt_same (· + 1)),
      counted_add inv.counted (references_bpin b · _)⟩
  | bunpin b pinned =>
    exact ⟨inv.linked.setBuf _, inv.unique.of_same (setRefcnt_same (· - 1)),
      counted_sub inv.counted (references_bunpin pinned · _)⟩

omit [DecidableEq P] in
theorem Invariant.binit : Invariant ({ cache := Bcache.binit } : State P) :=
  ⟨Linked.binit, fun _ _ hdev => absurd rfl hdev, fun _ => rfl⟩

theorem Reachable.invariant (h : Reachable g) : Invariant g := by
  induction h with
  | binit => exact Invariant.binit
  | step _ hstep ih => exact ih.step (step_of_event ih.linked hstep)

theorem Step.keeps_identity (h : Step g next) (used : (g.cache.buf b).refcnt ≠ 0) :
    (next.cache.buf b).dev = (g.cache.buf b).dev ∧
      (next.cache.buf b).blockno = (g.cache.buf b).blockno := by
  cases h with
  | bget p dev blockno b' cache got =>
    cases got with
    | hit cached => exact setRefcnt_same (· + 1) b
    | recycled unused missing =>
      have hne : b ≠ b' := by
        rintro rfl
        exact used unused
      dsimp only
      rw [setBuf_of_ne _ hne]
      exact ⟨rfl, rfl⟩
  | brelse p b' holds =>
    dsimp only
    rw [brelse_buf]
    exact setRefcnt_same (· - 1) b
  | bpin b' => exact setRefcnt_same (· + 1) b
  | bunpin b' pinned => exact setRefcnt_same (· - 1) b

theorem visits_of_linked {c : Bcache} (h : c.Linked) :
    (∀ b, ∃! i, i < NBUF ∧ c.links.next^[i + 1] none = some b) ∧
      c.links.next^[NBUF + 1] none = none ∧
      ∀ x, c.links.prev (c.links.next x) = x ∧ c.links.next (c.links.prev x) = x := by
  obtain ⟨order, cover, hring⟩ := h
  have hlength := length_of_ring cover hring
  have hvisit : ∀ i, (hi : i < order.length) →
      c.links.next^[i + 1] none = some order[i] := by
    intro i hi
    rw [hring.iterate i (by simpa using Nat.lt_succ_of_lt hi)]
    rw [List.getElem_append_left (by simpa using hi), List.getElem_map]
  refine ⟨?_, ?_, ?_⟩
  · intro b
    obtain ⟨i, hi, hb⟩ := List.getElem_of_mem (cover b)
    refine ⟨i, ⟨hlength ▸ hi, (hvisit i hi).trans (congrArg some hb)⟩, ?_⟩
    rintro j ⟨hj, hjb⟩
    rw [hvisit j (hlength.symm ▸ hj)] at hjb
    have heq : order[j] = order[i] := (Option.some.inj hjb).trans hb.symm
    exact (nodup_of_ring hring).getElem_inj_iff.mp heq
  · have hlast := hring.iterate order.length (by simp)
    have hend : List.get (order.map some ++ [none]) ⟨order.length, by simp⟩ = none := by simp
    have hcount : NBUF + 1 = order.length + 1 := by rw [hlength]
    rw [hcount]
    exact hlast.trans hend
  · intro x
    have hx : x ∈ none :: order.map some := by
      cases x with
      | none => simp
      | some b => simp [cover b]
    exact ⟨hring.prev_next hx, hring.next_prev hx⟩

/-- In every reachable state the list is a ring through all buffers, a block is cached at most
once, counts are the references modulo the width of `uint`, and no buffer in use is recycled.
-/
theorem wellFormed_of_reachable {g : State P} (h : Reachable g) :
    ((∀ b, ∃! i, i < NBUF ∧ g.cache.links.next^[i + 1] none = some b) ∧
      g.cache.links.next^[NBUF + 1] none = none ∧
      ∀ x, g.cache.links.prev (g.cache.links.next x) = x ∧
        g.cache.links.next (g.cache.links.prev x) = x) ∧
    (∀ b b', (g.cache.buf b).dev ≠ 0 → (g.cache.buf b').dev = (g.cache.buf b).dev →
      (g.cache.buf b').blockno = (g.cache.buf b).blockno → b' = b) ∧
    (∀ b, (g.cache.buf b).refcnt.toNat = references g b % 2 ^ 32 ∧
      (references g b < 2 ^ 32 → (g.cache.buf b).refcnt.toNat = references g b)) ∧
    ∀ event next, step g event = some (.ok next) → ∀ b, (g.cache.buf b).refcnt ≠ 0 →
      (next.cache.buf b).dev = (g.cache.buf b).dev ∧
        (next.cache.buf b).blockno = (g.cache.buf b).blockno := by
  have inv := h.invariant
  refine ⟨visits_of_linked inv.linked, inv.unique, ?_, ?_⟩
  · intro b
    have hcount : (g.cache.buf b).refcnt.toNat = references g b % 2 ^ 32 := by
      rw [inv.counted b, UInt32.toNat_ofNat']
    exact ⟨hcount, fun hsmall => hcount.trans (Nat.mod_eq_of_lt hsmall)⟩
  · intro event next hstep b used
    exact (step_of_event inv.linked hstep).keeps_identity used

def run (g : State P) : List (Event P) → Option (State P)
  | [] => some g
  | event :: events =>
    match step g event with
    | some (.ok next) => run next events
    | _ => none

theorem Reachable.of_run {events : List (Event P)} (h : Reachable g) {g' : State P}
    (hrun : run g events = some g') : Reachable g' := by
  induction events generalizing g with
  | nil =>
    cases hrun
    exact h
  | cons event events ih =>
    unfold run at hrun
    split at hrun
    · rename_i hstep
      exact ih (h.step hstep) hrun
    · cases hrun

/-- All buffers are taken for blocks 0 to 29. The last one is released, taken for block 30 and
pinned, and the first is released. -/
def recycling : List (Event Unit) :=
  (List.range NBUF).map (fun i => .bget () 1 i.toUInt32) ++
    [.brelse () 29, .bget () 1 30, .bpin () 29, .brelse () 0]

theorem wellFormed_of_reachable_recycling : ∃ g : State Unit, Reachable g ∧
    (g.cache.buf 29).blockno = 30 ∧ references g 29 = 2 ∧ references g 0 = 0 ∧
    (g.cache.buf 29).refcnt.toNat = 2 ∧ (g.cache.buf 0).refcnt.toNat = 0 := by
  have hrun : (run { cache := Bcache.binit } recycling).map (fun g =>
      ((g.cache.buf 29).blockno, references g 29, references g 0)) = some (30, 2, 0) := by
    decide +kernel
  obtain ⟨g, hg, hobs⟩ := Option.map_eq_some_iff.mp hrun
  simp only [Prod.mk.injEq] at hobs
  obtain ⟨hblock, hlast, hfirst⟩ := hobs
  have hreach := Reachable.binit.of_run hg
  have hcount := (wellFormed_of_reachable hreach).2.2.1
  refine ⟨g, hreach, hblock, hlast, hfirst, ?_, ?_⟩
  · rw [(hcount 29).2 (by rw [hlast]; decide), hlast]
  · rw [(hcount 0).2 (by rw [hfirst]; decide), hfirst]

/-- Pins can be more than `uint` counts. -/
theorem references_exceed_refcnt :
    ∃ (g : State Unit) (b : Fin NBUF), Reachable g ∧
      (g.cache.buf b).refcnt.toNat ≠ references g b := by
  have hpins : ∀ n : Nat, ∃ g : State Unit, Reachable g ∧ n ≤ references g 0 := by
    intro n
    induction n with
    | zero => exact ⟨_, Reachable.binit, Nat.zero_le _⟩
    | succ n ih =>
      obtain ⟨g, hg, hn⟩ := ih
      have hstep : step g (.bpin () 0) = some _ := rfl
      refine ⟨_, hg.step hstep, ?_⟩
      rw [references_bpin, if_pos rfl]
      omega
  obtain ⟨g, hg, hmany⟩ := hpins (2 ^ 32)
  have hsmall := (g.cache.buf 0).refcnt.toNat_lt
  exact ⟨g, 0, hg, by omega⟩

end Xv6.Cache
