import Mathlib.Data.List.Perm.Basic
import Mathlib.Data.List.Perm.Subperm
import Xv6.Virtio.Descriptors

/-! The invariant of the disk driver: whose the descriptors are, and where each request is. -/
namespace Xv6.Virtio

open Lib.IndexRing

variable {P H B D : Type}

namespace Pc

def buf : Pc B → Option B
  | .idle => none
  | .alloc b _ | .allocSleep b _ | .publish b _ | .wait b _ | .waitSleep b _ => some b

/-- Buffer and descriptors of a process. -/
def flight : Pc B → Option (B × List Nat)
  | .publish b idx | .wait b idx | .waitSleep b idx => some (b, idx)
  | _ => none

def published : Pc B → Option (B × List Nat)
  | .wait b idx | .waitSleep b idx => some (b, idx)
  | _ => none

def chain (pc : Pc B) : List Nat :=
  match pc.flight with
  | some (_, idx) => idx
  | none => []

def locks : Pc B → Bool
  | .alloc .. | .publish .. | .wait .. => true
  | _ => false

theorem flight_of_published {pc : Pc B} {x : B × List Nat} (h : pc.published = some x) :
    pc.flight = some x := by
  cases pc with
  | wait b idx => exact h
  | waitSleep b idx => exact h
  | idle => cases h
  | alloc b write => cases h
  | allocSleep b write => cases h
  | publish b idx => cases h

theorem buf_of_flight {pc : Pc B} {b : B} {idx : List Nat} (h : pc.flight = some (b, idx)) :
    pc.buf = some b := by
  cases pc with
  | publish b idx | wait b idx | waitSleep b idx =>
    cases h
    rfl
  | idle => cases h
  | alloc b write => cases h
  | allocSleep b write => cases h

theorem chain_of_flight {pc : Pc B} {b : B} {idx : List Nat} (h : pc.flight = some (b, idx)) :
    pc.chain = idx := by
  unfold chain
  rw [h]

end Pc

namespace State

variable (s : State P H B D)

/-- Not taken by the device. -/
def queued : List Nat := pending NUM s.disk.avail.ring s.seen s.disk.avail.idx

/-- Not seen by the driver. -/
def reported : List Nat := pending NUM s.disk.used.ring s.disk.usedIdx s.disk.used.idx

/-- On their way between driver and device. -/
def flying : List Nat := s.queued ++ s.taken ++ s.performed.map Prod.fst ++ s.reported

end State

/-- Processes and locks. -/
structure Threads (s : State P H B D) : Prop where
  lock : ∀ p, (s.pc p).locks = true ↔ s.lock = some (.inl p)
  owner : ∀ p b, (s.pc p).buf = some b → s.holder b = some p

def IsRequest (d : Disk B) (b : B) (idx : List Nat) : Prop :=
  idx.Nodup ∧ (∀ i ∈ idx, i < NUM) ∧ ∃ i0 i1 i2, idx = [i0, i1, i2] ∧ Linked d b i0 i1 i2

structure Chains (s : State P H B D) : Prop where
  request : ∀ p b idx, (s.pc p).flight = some (b, idx) → IsRequest s.disk b idx
  free : ∀ i, i < NUM → (s.disk.free i = false ↔ ∃ p, i ∈ (s.pc p).chain)
  apart : ∀ p q i, i ∈ (s.pc p).chain → i ∈ (s.pc q).chain → p = q
  slot : ∀ p b idx, s.pc p = .publish b idx →
    s.disk.avail.ring (s.disk.avail.idx.toNat % NUM) = idx.getD 0 0 ∧ s.busy b = true

/-- Published requests not seen done. -/
structure Flights (s : State P H B D) : Prop where
  nodup : s.flying.Nodup
  mem : ∀ h, h ∈ s.flying ↔
    ∃ p b idx, (s.pc p).published = some (b, idx) ∧ s.busy b = true ∧ idx.getD 0 0 = h
  status : ∀ h, h ∈ s.performed.map Prod.fst ∨ h ∈ s.reported → (s.disk.info h).status = 0
  same : ∀ x ∈ s.performed, (s.disk.info x.1).b = some x.2

structure Counts (s : State P H B D) : Prop where
  flying : ∀ p b idx, (s.pc p).published = some (b, idx) →
    s.requests b = s.returns b + 1 ∧
    s.clears b = s.returns b + (if s.busy b = true then 0 else 1) ∧
    s.completions b =
      s.returns b + (if s.busy b = true ∧ idx.getD 0 0 ∉ s.reported then 0 else 1)
  resting : ∀ b, (∀ p idx, (s.pc p).published ≠ some (b, idx)) →
    s.requests b = s.returns b ∧ s.clears b = s.returns b ∧ s.completions b = s.returns b

structure Invariant (s : State P H B D) : Prop where
  threads : Threads s
  chains : Chains s
  flights : Flights s
  counts : Counts s

variable {s : State P H B D} {p q : P} {b : B} {idx : List Nat}

theorem IsRequest.head_mem {d : Disk B} (h : IsRequest d b idx) : idx.getD 0 0 ∈ idx := by
  obtain ⟨-, -, i0, i1, i2, rfl, -⟩ := h
  exact List.mem_cons_self

theorem IsRequest.linked {d : Disk B} (h : IsRequest d b idx) :
    ∃ i1 i2, idx = [idx.getD 0 0, i1, i2] ∧ Linked d b (idx.getD 0 0) i1 i2 := by
  obtain ⟨-, -, i0, i1, i2, rfl, hlinked⟩ := h
  exact ⟨i1, i2, rfl, hlinked⟩

namespace Invariant

variable (inv : Invariant s)

include inv

theorem mem_chain_head (h : (s.pc p).flight = some (b, idx)) : idx.getD 0 0 ∈ (s.pc p).chain := by
  rw [Pc.chain_of_flight h]
  exact (inv.chains.request p b idx h).head_mem

theorem used_of_flight (h : (s.pc p).flight = some (b, idx)) :
    ∀ i ∈ idx, i < NUM ∧ s.disk.free i = false := by
  intro i hi
  have hlt := (inv.chains.request p b idx h).2.1 i hi
  refine ⟨hlt, (inv.chains.free i hlt).mpr ⟨p, ?_⟩⟩
  rw [Pc.chain_of_flight h]
  exact hi

theorem owner_unique (hp : (s.pc p).buf = some b) (hq : (s.pc q).buf = some b) : p = q :=
  Option.some.inj ((inv.threads.owner p b hp).symm.trans (inv.threads.owner q b hq))

theorem published_of_mem {h : Nat} (hmem : h ∈ s.flying) :
    ∃ p b idx, (s.pc p).published = some (b, idx) ∧ s.busy b = true ∧ idx.getD 0 0 = h ∧
      IsRequest s.disk b idx := by
  obtain ⟨p, b, idx, hpub, hbusy, hhead⟩ := (inv.flights.mem h).mp hmem
  exact ⟨p, b, idx, hpub, hbusy, hhead, inv.chains.request p b idx (Pc.flight_of_published hpub)⟩

theorem eq_of_head {b' : B} {idx' : List Nat} (hp : (s.pc p).flight = some (b, idx))
    (hq : (s.pc q).flight = some (b', idx')) (heq : idx.getD 0 0 = idx'.getD 0 0) : p = q := by
  have hmem := inv.mem_chain_head hp
  rw [heq] at hmem
  exact inv.chains.apart p q _ hmem (inv.mem_chain_head hq)

/-- Two chains are all that fit. -/
theorem length_flying : s.flying.length ≤ 2 := by
  let f := fun h => [h, (s.disk.desc h).next, (s.disk.desc (s.disk.desc h).next).next]
  have hchain : ∀ h ∈ s.flying, ∃ p b idx, (s.pc p).flight = some (b, idx) ∧
      idx.getD 0 0 = h ∧ f h = idx := by
    intro h hh
    obtain ⟨p, b, idx, hpub, -, hhead, hreq⟩ := inv.published_of_mem hh
    refine ⟨p, b, idx, Pc.flight_of_published hpub, hhead, ?_⟩
    obtain ⟨i1, i2, hidx, hlinked⟩ := hreq.linked
    dsimp only [f]
    rw [← hhead, hlinked.fst.2.2, hlinked.snd.2.2, ← hidx]
  have hnodup : (s.flying.flatMap f).Nodup := by
    rw [List.nodup_flatMap]
    constructor
    · intro h hh
      obtain ⟨p, b, idx, hflight, -, heq⟩ := hchain h hh
      rw [heq]
      exact (inv.chains.request p b idx hflight).1
    · apply inv.flights.nodup.pairwise_of_forall_ne
      intro h hh h' hh' hne
      obtain ⟨p, b, idx, hflight, hhead, heq⟩ := hchain h hh
      obtain ⟨p', b', idx', hflight', hhead', heq'⟩ := hchain h' hh'
      rw [Function.onFun_apply, heq, heq']
      intro i hi hi'
      rw [← Pc.chain_of_flight hflight] at hi
      rw [← Pc.chain_of_flight hflight'] at hi'
      obtain rfl := inv.chains.apart p p' i hi hi'
      rw [hflight] at hflight'
      cases hflight'
      exact hne (hhead.symm.trans hhead')
  have hsub : s.flying.flatMap f ⊆ List.range NUM := by
    intro i hi
    obtain ⟨h, hh, hi⟩ := List.mem_flatMap.mp hi
    obtain ⟨p, b, idx, hflight, -, heq⟩ := hchain h hh
    rw [heq] at hi
    exact List.mem_range.mpr (inv.used_of_flight hflight i hi).1
  have hlength := (List.subperm_of_subset hnodup hsub).length_le
  have hthree : (s.flying.flatMap f).length = 3 * s.flying.length := by
    rw [List.length_flatMap]
    simp [f, Nat.mul_comm]
  rw [hthree, List.length_range] at hlength
  unfold NUM at hlength
  omega

theorem length_queued : s.queued.length < NUM := by
  have hlength := inv.length_flying
  unfold State.flying at hlength
  simp only [List.length_append] at hlength
  unfold NUM
  omega

theorem length_reported : s.reported.length < NUM := by
  have hlength := inv.length_flying
  unfold State.flying at hlength
  simp only [List.length_append] at hlength
  unfold NUM
  omega

/-- One process at a time is past `alloc3_desc`. -/
theorem eq_of_locks (hp : (s.pc p).locks = true) (hq : (s.pc q).locks = true) : p = q := by
  have hlock := (inv.threads.lock p).mp hp
  rw [(inv.threads.lock q).mp hq] at hlock
  exact (Sum.inl.inj (Option.some.inj hlock)).symm

end Invariant

/-- Counters follow each other, at most one apart. -/
theorem Counts.ordered (h : Counts s) (b : B) :
    s.returns b ≤ s.clears b ∧ s.clears b ≤ s.completions b ∧ s.completions b ≤ s.requests b ∧
      s.requests b ≤ s.returns b + 1 := by
  by_cases hpub : ∃ p idx, (s.pc p).published = some (b, idx)
  · obtain ⟨p, idx, hpub⟩ := hpub
    obtain ⟨hrequests, hclears, hcompletions⟩ := h.flying p b idx hpub
    by_cases hbusy : s.busy b = true
    · rw [if_pos hbusy] at hclears
      split at hcompletions <;> omega
    · rw [if_neg hbusy] at hclears
      rw [if_neg (fun h => hbusy h.1)] at hcompletions
      omega
  · push Not at hpub
    obtain ⟨hrequests, hclears, hcompletions⟩ := h.resting b hpub
    omega

end Xv6.Virtio
