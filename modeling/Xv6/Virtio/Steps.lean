import Xv6.Virtio.Invariant

/-! Every step of the driver and of the device keeps the invariant. -/
namespace Xv6.Virtio

open Function List
open Lib.IndexRing

variable {P H B D : Type} {s s' : State P H B D} {p q : P} {b : B} {idx : List Nat}

theorem IsRequest.congr {d d' : Disk B} (h : IsRequest d b idx)
    (desc : ∀ i ∈ idx, d'.desc i = d.desc i) (ops : d'.ops (idx.getD 0 0) = d.ops (idx.getD 0 0))
    (info : (d'.info (idx.getD 0 0)).b = (d.info (idx.getD 0 0)).b) : IsRequest d' b idx := by
  obtain ⟨hnodup, hlt, i0, i1, i2, rfl, hlinked⟩ := h
  exact ⟨hnodup, hlt, i0, i1, i2, rfl, hlinked.congr desc ops info⟩

/-- No descriptor in use, ring or request is touched. -/
structure Quiet (s s' : State P H B D) : Prop where
  avail : s'.disk.avail = s.disk.avail
  used : s'.disk.used = s.disk.used
  usedIdx : s'.disk.usedIdx = s.disk.usedIdx
  info : s'.disk.info = s.disk.info
  ops : s'.disk.ops = s.disk.ops
  free : s'.disk.free = s.disk.free
  desc : ∀ i, s.disk.free i = false → s'.disk.desc i = s.disk.desc i
  seen : s'.seen = s.seen
  taken : s'.taken = s.taken
  performed : s'.performed = s.performed
  busy : s'.busy = s.busy
  requests : s'.requests = s.requests
  completions : s'.completions = s.completions
  clears : s'.clears = s.clears
  returns : s'.returns = s.returns
  flight : ∀ p, (s'.pc p).flight = (s.pc p).flight
  published : ∀ p, (s'.pc p).published = (s.pc p).published
  publish : ∀ p b idx, s'.pc p = .publish b idx → s.pc p = .publish b idx

theorem Invariant.quiet (inv : Invariant s) (h : Quiet s s') (threads : Threads s') :
    Invariant s' := by
  have hchain : ∀ p, (s'.pc p).chain = (s.pc p).chain := by
    intro p
    unfold Pc.chain
    rw [h.flight]
  have hqueued : s'.queued = s.queued := by
    unfold State.queued
    rw [h.avail, h.seen]
  have hreported : s'.reported = s.reported := by
    unfold State.reported
    rw [h.used, h.usedIdx]
  have hflying : s'.flying = s.flying := by
    unfold State.flying
    rw [hqueued, hreported, h.taken, h.performed]
  refine ⟨threads, ⟨?_, ?_, ?_, ?_⟩, ⟨?_, ?_, ?_, ?_⟩, ⟨?_, ?_⟩⟩
  · intro p b idx hp
    rw [h.flight] at hp
    refine (inv.chains.request p b idx hp).congr ?_ (by rw [h.ops]) (by rw [h.info])
    intro i hi
    exact h.desc i (inv.used_of_flight hp i hi).2
  · intro i hi
    rw [h.free, inv.chains.free i hi]
    simp only [hchain]
  · intro p q i
    rw [hchain, hchain]
    exact inv.chains.apart p q i
  · intro p b idx hp
    rw [h.avail, h.busy]
    exact inv.chains.slot p b idx (h.publish p b idx hp)
  · rw [hflying]
    exact inv.flights.nodup
  · rw [hflying, h.busy]
    simp only [h.published]
    exact inv.flights.mem
  · rw [h.performed, hreported, h.info]
    exact inv.flights.status
  · rw [h.performed, h.info]
    exact inv.flights.same
  · rw [h.requests, h.completions, h.clears, h.returns, h.busy, hreported]
    simp only [h.published]
    exact inv.counts.flying
  · rw [h.requests, h.completions, h.clears, h.returns]
    simp only [h.published]
    exact inv.counts.resting

section Goto

variable [DecidableEq P]

@[simp] theorem goto_self (s : State P H B D) (p : P) (pc : Pc B) : (s.goto p pc).pc p = pc :=
  update_self ..

theorem goto_of_ne (s : State P H B D) (pc : Pc B) (hq : q ≠ p) : (s.goto p pc).pc q = s.pc q :=
  update_of_ne hq ..

theorem pc_cases {pc : Pc B} (moved : s'.pc = (s.goto p pc).pc) (q : P) :
    (q = p ∧ s'.pc q = pc) ∨ (q ≠ p ∧ s'.pc q = s.pc q) := by
  rw [moved]
  by_cases hq : q = p
  · rw [hq, goto_self]
    exact .inl ⟨rfl, rfl⟩
  · exact .inr ⟨hq, goto_of_ne _ _ hq⟩

theorem Threads.move (h : Threads s) {pc : Pc B} (moved : s'.pc = (s.goto p pc).pc)
    (before : s.lock = none ∨ s.lock = some (.inl p))
    (after : s'.lock = if pc.locks then some (.inl p) else none)
    (holder : s'.holder = s.holder) (buf : ∀ b, pc.buf = some b → s.holder b = some p) :
    Threads s' := by
  refine ⟨fun q => ?_, fun q b => ?_⟩
  · obtain ⟨rfl, hpc⟩ | ⟨hq, hpc⟩ := pc_cases moved q
    · rw [hpc, after]
      cases pc.locks <;> simp
    · have hbefore : ¬(s.pc q).locks = true := by
        rw [h.lock]
        intro hlock
        obtain hnone | hsome := before
        · rw [hnone] at hlock
          cases hlock
        · rw [hsome] at hlock
          exact hq (Sum.inl.inj (Option.some.inj hlock)).symm
      rw [hpc]
      refine iff_of_false hbefore ?_
      rw [after]
      split
      · intro hlock
        exact hq (Sum.inl.inj (Option.some.inj hlock)).symm
      · exact nofun
  · rw [holder]
    obtain ⟨rfl, hpc⟩ | ⟨hq, hpc⟩ := pc_cases moved q
    · rw [hpc]
      exact buf b
    · rw [hpc]
      exact h.owner q b

theorem Invariant.move (inv : Invariant s) {pc : Pc B} {d : Disk B} {lock : Option (P ⊕ H)}
    (avail : d.avail = s.disk.avail) (used : d.used = s.disk.used)
    (usedIdx : d.usedIdx = s.disk.usedIdx) (info : d.info = s.disk.info) (ops : d.ops = s.disk.ops)
    (free : d.free = s.disk.free) (desc : ∀ i, s.disk.free i = false → d.desc i = s.disk.desc i)
    (flight : pc.flight = (s.pc p).flight) (published : pc.published = (s.pc p).published)
    (publish : ∀ b idx, pc ≠ .publish b idx)
    (before : s.lock = none ∨ s.lock = some (.inl p))
    (after : lock = if pc.locks then some (.inl p) else none)
    (buf : ∀ b, pc.buf = some b → s.holder b = some p) :
    Invariant ({ s with disk := d, lock := lock }.goto p pc) := by
  have hcases : ∀ q, (q = p ∧ ({ s with disk := d, lock := lock }.goto p pc).pc q = pc) ∨
      (q ≠ p ∧ ({ s with disk := d, lock := lock }.goto p pc).pc q = s.pc q) := pc_cases rfl
  refine inv.quiet ⟨avail, used, usedIdx, info, ops, free, desc, rfl, rfl, rfl, rfl, rfl, rfl, rfl,
    rfl, fun q => ?_, fun q => ?_, fun q b idx => ?_⟩ (inv.threads.move rfl before after rfl buf)
  · obtain ⟨rfl, hpc⟩ | ⟨hq, hpc⟩ := hcases q
    · rw [hpc, flight]
    · rw [hpc]
  · obtain ⟨rfl, hpc⟩ | ⟨hq, hpc⟩ := hcases q
    · rw [hpc, published]
    · rw [hpc]
  · obtain ⟨rfl, hpc⟩ | ⟨hq, hpc⟩ := hcases q
    · rw [hpc]
      intro h
      exact absurd h (publish b idx)
    · rw [hpc]
      exact id

end Goto

section Format

variable {d : Disk B} {blockno : UInt32} {write : Bool} {i : Nat}

theorem format_desc_of_not_mem (hlength : idx.length = 3) (hi : i ∉ idx) :
    (d.format b blockno write idx).desc i = d.desc i := by
  obtain ⟨i0, i1, i2, rfl⟩ := length_eq_three.mp hlength
  simp only [mem_cons, not_mem_nil, or_false, not_or] at hi
  simp [Disk.format, hi]

theorem format_ops_of_ne (hi : i ≠ idx.getD 0 0) :
    (d.format b blockno write idx).ops i = d.ops i :=
  update_of_ne hi ..

theorem format_info_of_ne (hi : i ≠ idx.getD 0 0) :
    (d.format b blockno write idx).info i = d.info i :=
  update_of_ne hi ..

end Format

theorem mem_flying_of_performed {x : Nat × B} (h : x ∈ s.performed) : x.1 ∈ s.flying := by
  unfold State.flying
  simp only [mem_append]
  exact .inl (.inr (mem_map_of_mem h))

theorem mem_flying_of_done {h : Nat} (hmem : h ∈ s.performed.map Prod.fst ∨ h ∈ s.reported) :
    h ∈ s.flying := by
  unfold State.flying
  simp only [mem_append]
  exact hmem.elim (fun h => .inl (.inr h)) .inr

namespace Invariant

variable (inv : Invariant s)

include inv

theorem ne_of_free {h i : Nat} (hmem : h ∈ s.flying) (free : s.disk.free i = true) : h ≠ i := by
  rintro rfl
  obtain ⟨p, b, idx, hpub, -, rfl, hreq⟩ := inv.published_of_mem hmem
  have hused := (inv.used_of_flight (Pc.flight_of_published hpub) _ hreq.head_mem).2
  rw [free] at hused
  cases hused

theorem not_mem_of_free (hq : (s.pc q).flight = some (b, idx)) {new : List Nat}
    (free : ∀ i ∈ new, s.disk.free i = true) {i : Nat} (hi : i ∈ idx) : i ∉ new := by
  intro hmem
  have hfree := free i hmem
  rw [(inv.used_of_flight hq i hi).2] at hfree
  cases hfree

variable [DecidableEq P]

/-- A process takes or gives up descriptors. -/
theorem chains_move {pc : Pc B} (moved : s'.pc = (s.goto p pc).pc) (locked : (s.pc p).locks = true)
    (own : ∀ b idx, pc.flight = some (b, idx) → IsRequest s'.disk b idx)
    (kept : ∀ q b idx, q ≠ p → (s.pc q).flight = some (b, idx) → IsRequest s'.disk b idx)
    (free : ∀ i, s'.disk.free i = false ↔
      i ∈ pc.chain ∨ s.disk.free i = false ∧ i ∉ (s.pc p).chain)
    (apart : ∀ q i, q ≠ p → i ∈ (s.pc q).chain → i ∉ pc.chain)
    (slot : ∀ b idx, pc = .publish b idx →
      s'.disk.avail.ring (s'.disk.avail.idx.toNat % NUM) = idx.getD 0 0 ∧ s'.busy b = true) :
    Chains s' := by
  refine ⟨fun q b idx hq => ?_, fun i hi => ?_, fun q r i hq hr => ?_, fun q b idx hq => ?_⟩
  · obtain ⟨rfl, hpc⟩ | ⟨hqp, hpc⟩ := pc_cases moved q
    · exact own b idx (hpc ▸ hq)
    · exact kept q b idx hqp (hpc ▸ hq)
  · rw [free, inv.chains.free i hi, moved]
    constructor
    · rintro (hmem | ⟨⟨q, hq⟩, hnot⟩)
      · exact ⟨p, by rwa [goto_self]⟩
      · have hqp : q ≠ p := by
          rintro rfl
          exact hnot hq
        exact ⟨q, by rwa [goto_of_ne _ _ hqp]⟩
    · rintro ⟨q, hq⟩
      obtain rfl | hqp := eq_or_ne q p
      · rw [goto_self] at hq
        exact .inl hq
      · rw [goto_of_ne _ _ hqp] at hq
        exact .inr ⟨⟨q, hq⟩, fun hp => hqp (inv.chains.apart q p i hq hp)⟩
  · obtain ⟨rfl, hpc⟩ | ⟨hqp, hpc⟩ := pc_cases moved q
    · obtain ⟨rfl, hpc'⟩ | ⟨hrp, hpc'⟩ := pc_cases moved r
      · rfl
      · exact absurd (hpc ▸ hq) (apart r i hrp (hpc' ▸ hr))
    · obtain ⟨rfl, hpc'⟩ | ⟨hrp, hpc'⟩ := pc_cases moved r
      · exact absurd (hpc' ▸ hr) (apart q i hqp (hpc ▸ hq))
      · exact inv.chains.apart q r i (hpc ▸ hq) (hpc' ▸ hr)
  · obtain ⟨rfl, hpc⟩ | ⟨hqp, hpc⟩ := pc_cases moved q
    · exact slot b idx (hpc.symm.trans hq)
    · rw [hpc] at hq
      exact absurd (inv.eq_of_locks (by rw [hq]; rfl) locked) hqp

theorem format [DecidableEq B] {write : Bool} (here : s.pc p = .alloc b write)
    (length : idx.length = 3) (nodup : idx.Nodup)
    (unused : ∀ i ∈ idx, i < NUM ∧ s.disk.free i = true) :
    Invariant (({ s with
      disk := (s.disk.reserve idx).format b (s.blockno b) write idx }.setBusy b true).goto p
        (.publish b idx)) := by
  set s' := (({ s with
      disk := (s.disk.reserve idx).format b (s.blockno b) write idx }.setBusy b true).goto p
        (.publish b idx)) with hs'
  have hcases : ∀ q, (q = p ∧ s'.pc q = .publish b idx) ∨ (q ≠ p ∧ s'.pc q = s.pc q) :=
    pc_cases rfl
  have hlock : s.lock = some (.inl p) := (inv.threads.lock p).mp (by rw [here]; rfl)
  have howner : s.holder b = some p := inv.threads.owner p b (by rw [here]; rfl)
  have hhead : idx.getD 0 0 ∈ idx := by
    obtain ⟨i0, i1, i2, rfl⟩ := length_eq_three.mp length
    exact mem_cons_self
  have hfree : ∀ i ∈ idx, s.disk.free i = true := fun i hi => (unused i hi).2
  have hbusy : ∀ q b' idx', (s.pc q).published = some (b', idx') → s'.busy b' = s.busy b' := by
    intro q b' idx' hq
    refine update_of_ne ?_ ..
    rintro rfl
    have hqp := inv.owner_unique (Pc.buf_of_flight (Pc.flight_of_published hq))
      (by rw [here]; rfl : (s.pc p).buf = some b')
    rw [hqp, here] at hq
    cases hq
  have hpublished : ∀ q, (s'.pc q).published = (s.pc q).published := by
    intro q
    obtain ⟨rfl, hpc⟩ | ⟨hq, hpc⟩ := hcases q
    · rw [hpc, here]
      rfl
    · rw [hpc]
  have hqueued : s'.queued = s.queued := pending_write (by decide) inv.length_queued _
  have hflying : s'.flying = s.flying := by
    unfold State.flying
    rw [hqueued]
    rfl
  have hinfo : ∀ h ∈ s.flying, s'.disk.info h = s.disk.info h := fun h hh =>
    format_info_of_ne (inv.ne_of_free hh (unused _ hhead).2)
  refine ⟨inv.threads.move rfl (.inr hlock) hlock rfl ?_,
    inv.chains_move rfl (by rw [here]; rfl) ?_ ?_ ?_ ?_ ?_, ⟨?_, ?_, ?_, ?_⟩, ⟨?_, ?_⟩⟩
  · rintro _ ⟨⟩
    exact howner
  · rintro _ _ ⟨⟩
    obtain ⟨i0, i1, i2, rfl⟩ := length_eq_three.mp length
    exact ⟨nodup, fun i hi => (unused i hi).1, i0, i1, i2, rfl, linked_format _ _ _ nodup⟩
  · intro q b' idx' _ hq
    have hreq := inv.chains.request q b' idx' hq
    have hne : idx'.getD 0 0 ≠ idx.getD 0 0 := fun heq =>
      inv.not_mem_of_free hq hfree hreq.head_mem (heq ▸ hhead)
    refine hreq.congr (fun i hi => ?_) (format_ops_of_ne hne)
      (congrArg Info.b (format_info_of_ne hne))
    exact format_desc_of_not_mem length (inv.not_mem_of_free hq hfree hi)
  · intro i
    have hfree' : s'.disk.free i = if i ∈ idx then false else s.disk.free i := rfl
    have hnew : (Pc.publish b idx).chain = idx := rfl
    have hold : (s.pc p).chain = [] := by rw [here]; rfl
    rw [hfree', hnew, hold]
    by_cases hmem : i ∈ idx <;> simp [hmem]
  · intro q i _ hi hmem
    obtain ⟨hlt, hfree⟩ := unused i hmem
    rw [(inv.chains.free i hlt).mpr ⟨q, hi⟩] at hfree
    cases hfree
  · rintro _ _ ⟨⟩
    exact ⟨update_self .., update_self ..⟩
  · rw [hflying]
    exact inv.flights.nodup
  · intro h
    rw [hflying, inv.flights.mem]
    constructor
    · rintro ⟨q, b', idx', hq, hb, hh⟩
      exact ⟨q, b', idx', (hpublished q).trans hq, (hbusy q b' idx' hq).trans hb, hh⟩
    · rintro ⟨q, b', idx', hq, hb, hh⟩
      rw [hpublished] at hq
      rw [hbusy q b' idx' hq] at hb
      exact ⟨q, b', idx', hq, hb, hh⟩
  · intro h hh
    rw [hinfo h (mem_flying_of_done hh)]
    exact inv.flights.status h hh
  · intro x hx
    rw [hinfo x.1 (mem_flying_of_performed hx)]
    exact inv.flights.same x hx
  · intro q b' idx' hq
    rw [hpublished] at hq
    rw [hbusy q b' idx' hq]
    exact inv.counts.flying q b' idx' hq
  · simp only [hpublished]
    exact inv.counts.resting

omit [DecidableEq P] in
theorem ne_buf {b' : B} {idx' : List Nat} (hp : (s.pc p).buf = some b)
    (hq : (s.pc q).published = some (b', idx')) (hne : q ≠ p) : b' ≠ b := by
  rintro rfl
  exact hne (inv.owner_unique (Pc.buf_of_flight (Pc.flight_of_published hq)) hp)

theorem publish [DecidableEq B] (here : s.pc p = .publish b idx) :
    Invariant ({ s with
      disk := { s.disk with avail := { s.disk.avail with idx := s.disk.avail.idx + 1 } }
      requests := State.tally s.requests b }.goto p (.wait b idx)) := by
  set s' := ({ s with
      disk := { s.disk with avail := { s.disk.avail with idx := s.disk.avail.idx + 1 } }
      requests := State.tally s.requests b }.goto p (.wait b idx)) with hs'
  have hcases : ∀ q, (q = p ∧ s'.pc q = .wait b idx) ∨ (q ≠ p ∧ s'.pc q = s.pc q) := pc_cases rfl
  have hself : s'.pc p = .wait b idx := (hcases p).resolve_right (fun h => h.1 rfl) |>.2
  have hother : ∀ q, q ≠ p → s'.pc q = s.pc q := fun q hq =>
    (hcases q).resolve_left (fun h => hq h.1) |>.2
  have hlock : s.lock = some (.inl p) := (inv.threads.lock p).mp (by rw [here]; rfl)
  have hbuf : (s.pc p).buf = some b := by rw [here]; rfl
  have hflightp : (s.pc p).flight = some (b, idx) := by rw [here]; rfl
  obtain ⟨hslot, hbusy⟩ := inv.chains.slot p b idx here
  have hflight : ∀ q, (s'.pc q).flight = (s.pc q).flight := by
    intro q
    obtain ⟨rfl, hpc⟩ | ⟨hq, hpc⟩ := hcases q
    · rw [hpc, here]
      rfl
    · rw [hpc]
  have hchain : ∀ q, (s'.pc q).chain = (s.pc q).chain := by
    intro q
    unfold Pc.chain
    rw [hflight]
  have hfresh : idx.getD 0 0 ∉ s.flying := by
    intro hmem
    obtain ⟨q, b', idx', hpub, -, hhead⟩ := (inv.flights.mem _).mp hmem
    have hqp := inv.eq_of_head (Pc.flight_of_published hpub) hflightp hhead
    rw [hqp, here] at hpub
    cases hpub
  have hqueued : s'.queued = s.queued ++ [idx.getD 0 0] := by
    have hroom : s.queued.length + 1 < 2 ^ 16 :=
      Nat.lt_of_le_of_lt (Nat.succ_le_of_lt inv.length_queued) (by decide)
    rw [← hslot]
    exact pending_advance (by decide) hroom
  have hflying : s'.flying.Perm (idx.getD 0 0 :: s.flying) := by
    unfold State.flying
    rw [hqueued]
    simp only [append_assoc, singleton_append]
    exact perm_middle
  have hunpublished : ∀ q idx', (s.pc q).published ≠ some (b, idx') := by
    intro q idx' hq
    have hqp := inv.owner_unique (Pc.buf_of_flight (Pc.flight_of_published hq)) hbuf
    rw [hqp, here] at hq
    cases hq
  have hrequests : ∀ b', b' ≠ b → s'.requests b' = s.requests b' := fun b' hb =>
    update_of_ne hb ..
  refine ⟨inv.threads.move rfl (.inr hlock) hlock rfl ?_,
    ⟨fun q b' idx' hq => (inv.chains.request q b' idx' (hflight q ▸ hq)).congr (fun _ _ => rfl) rfl rfl,
      ?_, ?_, ?_⟩,
    ⟨?_, ?_, inv.flights.status, inv.flights.same⟩, ⟨?_, ?_⟩⟩
  · rintro _ ⟨⟩
    exact inv.threads.owner p b hbuf
  · simp only [hchain]
    exact inv.chains.free
  · simp only [hchain]
    exact inv.chains.apart
  · intro q b' idx' hq
    obtain ⟨rfl, hpc⟩ | ⟨hqp, hpc⟩ := hcases q
    · rw [hpc] at hq
      cases hq
    · rw [hpc] at hq
      exact absurd (inv.eq_of_locks (by rw [hq]; rfl) (by rw [here]; rfl)) hqp
  · exact hflying.nodup_iff.mpr (nodup_cons.mpr ⟨hfresh, inv.flights.nodup⟩)
  · intro h
    rw [hflying.mem_iff, mem_cons, inv.flights.mem]
    constructor
    · rintro (rfl | ⟨q, b', idx', hq, hb, hh⟩)
      · exact ⟨p, b, idx, by rw [hself]; rfl, hbusy, rfl⟩
      · have hqp : q ≠ p := by
          rintro rfl
          rw [here] at hq
          cases hq
        exact ⟨q, b', idx', by rw [hother q hqp]; exact hq, hb, hh⟩
    · rintro ⟨q, b', idx', hq, hb, hh⟩
      obtain ⟨rfl, hpc⟩ | ⟨hqp, hpc⟩ := hcases q
      · rw [hpc] at hq
        cases hq
        exact .inl hh.symm
      · rw [hpc] at hq
        exact .inr ⟨q, b', idx', hq, hb, hh⟩
  · intro q b' idx' hq
    obtain ⟨rfl, hpc⟩ | ⟨hqp, hpc⟩ := hcases q
    · rw [hpc] at hq
      cases hq
      obtain ⟨hr, hc, hd⟩ := inv.counts.resting b hunpublished
      have hnot : idx.getD 0 0 ∉ s.reported := fun h => hfresh (mem_flying_of_done (.inr h))
      refine ⟨?_, ?_, ?_⟩
      · change State.tally s.requests b b = s.returns b + 1
        unfold State.tally
        rw [update_self, hr]
      · change s.clears b = s.returns b + (if s.busy b = true then 0 else 1)
        rw [if_pos hbusy, hc, Nat.add_zero]
      · change s.completions b =
          s.returns b + (if s.busy b = true ∧ idx.getD 0 0 ∉ s.reported then 0 else 1)
        rw [if_pos ⟨hbusy, hnot⟩, hd, Nat.add_zero]
    · rw [hpc] at hq
      rw [hrequests b' (inv.ne_buf hbuf hq hqp)]
      exact inv.counts.flying q b' idx' hq
  · intro b' hb'
    have hne : b' ≠ b := by
      rintro rfl
      exact hb' p idx (by rw [hself]; rfl)
    rw [hrequests b' hne]
    refine inv.counts.resting b' fun q idx' hq => ?_
    have hqp : q ≠ p := by
      rintro rfl
      rw [here] at hq
      cases hq
    exact hb' q idx' (by rw [hother q hqp]; exact hq)

theorem finish [DecidableEq B] {d : Disk B} (here : s.pc p = .wait b idx) (done : s.busy b = false)
    (hd : d = { s.disk with
      info := update s.disk.info (idx.getD 0 0)
        { s.disk.info (idx.getD 0 0) with b := none } }) :
    Invariant ({ s with
      disk := d.release idx
      lock := (none : Option (P ⊕ H))
      returns := State.tally s.returns b }.goto p .idle) := by
  subst hd
  set s' := ({ s with
      disk := Disk.release { s.disk with
        info := update s.disk.info (idx.getD 0 0)
          { s.disk.info (idx.getD 0 0) with b := none } } idx
      lock := (none : Option (P ⊕ H))
      returns := State.tally s.returns b }.goto p .idle) with hs'
  have hmoved : s'.pc = (s.goto p .idle).pc := rfl
  have hcases := pc_cases hmoved
  have hother : ∀ q, q ≠ p → s'.pc q = s.pc q := fun q hq =>
    (hcases q).resolve_left (fun h => hq h.1) |>.2
  have hlock : s.lock = some (.inl p) := (inv.threads.lock p).mp (by rw [here]; rfl)
  have hbuf : (s.pc p).buf = some b := by rw [here]; rfl
  have hpub : (s.pc p).published = some (b, idx) := by rw [here]; rfl
  have hflight := Pc.flight_of_published hpub
  have hchainp : (s.pc p).chain = idx := Pc.chain_of_flight hflight
  -- only the buffer of the entry is erased, and no other chain has this entry
  have hinfo : ∀ i, (s'.disk.info i).status = (s.disk.info i).status ∧
      (i ≠ idx.getD 0 0 → s'.disk.info i = s.disk.info i) := by
    intro i
    change (update s.disk.info (idx.getD 0 0) _ i).status = _ ∧
      (_ → update s.disk.info (idx.getD 0 0) _ i = _)
    by_cases hi : i = idx.getD 0 0
    · rw [hi, update_self]
      exact ⟨rfl, fun h => absurd rfl h⟩
    · rw [update_of_ne hi]
      exact ⟨rfl, fun _ => rfl⟩
  have hdesc : ∀ i, i ∉ idx → s'.disk.desc i = s.disk.desc i := fun i hi => if_neg hi
  have hfree : ∀ i, s'.disk.free i = if i ∈ idx then true else s.disk.free i := fun _ => rfl
  have hflying : s'.flying = s.flying := rfl
  have hhead : ∀ h ∈ s.flying, h ≠ idx.getD 0 0 := by
    rintro h hh rfl
    obtain ⟨q, b', idx', hq, hb, hhead, -⟩ := inv.published_of_mem hh
    obtain rfl := inv.eq_of_head (Pc.flight_of_published hq) hflight hhead
    rw [hpub] at hq
    cases hq
    rw [done] at hb
    cases hb
  have hpublished : ∀ q b' idx', (s'.pc q).published = some (b', idx') →
      q ≠ p ∧ (s.pc q).published = some (b', idx') := by
    intro q b' idx' hq
    obtain ⟨rfl, hpc⟩ | ⟨hqp, hpc⟩ := hcases q
    · rw [hpc] at hq
      cases hq
    · rw [hpc] at hq
      exact ⟨hqp, hq⟩
  have hreturns : ∀ b', b' ≠ b → s'.returns b' = s.returns b' := fun b' hb =>
    update_of_ne hb ..
  refine ⟨inv.threads.move hmoved (.inr hlock) rfl rfl nofun,
    inv.chains_move hmoved (by rw [here]; rfl) nofun ?_ ?_ (fun _ _ _ _ => not_mem_nil) nofun,
    ⟨?_, ?_, ?_, ?_⟩, ⟨?_, ?_⟩⟩
  · intro q b' idx' hqp hq
    have hreq := inv.chains.request q b' idx' hq
    have hne : idx'.getD 0 0 ≠ idx.getD 0 0 := fun heq => hqp (inv.eq_of_head hq hflight heq)
    refine hreq.congr (fun i hi => hdesc i fun hmem => hqp ?_) rfl (by rw [(hinfo _).2 hne])
    exact inv.chains.apart q p i (by rwa [Pc.chain_of_flight hq]) (by rwa [hchainp])
  · intro i
    rw [hfree, hchainp]
    by_cases hmem : i ∈ idx <;> simp [hmem, Pc.chain, Pc.flight]
  · rw [hflying]
    exact inv.flights.nodup
  · intro h
    rw [hflying, inv.flights.mem]
    constructor
    · rintro ⟨q, b', idx', hq, hb, hh⟩
      have hqp : q ≠ p := by
        rintro rfl
        rw [hpub] at hq
        cases hq
        rw [done] at hb
        cases hb
      exact ⟨q, b', idx', by rw [hother q hqp]; exact hq, hb, hh⟩
    · rintro ⟨q, b', idx', hq, hb, hh⟩
      exact ⟨q, b', idx', (hpublished q b' idx' hq).2, hb, hh⟩
  · intro h hh
    rw [(hinfo h).1]
    exact inv.flights.status h hh
  · intro x hx
    rw [(hinfo x.1).2 (hhead x.1 (mem_flying_of_performed hx))]
    exact inv.flights.same x hx
  · intro q b' idx' hq
    obtain ⟨hqp, hq⟩ := hpublished q b' idx' hq
    rw [hreturns b' (inv.ne_buf hbuf hq hqp)]
    exact inv.counts.flying q b' idx' hq
  · intro b' hb'
    by_cases hb : b' = b
    · rw [hb]
      obtain ⟨hr, hc, hcomp⟩ := inv.counts.flying p b idx hpub
      rw [if_neg (by rw [done]; exact Bool.false_ne_true)] at hc
      rw [if_neg (fun h => by rw [done] at h; exact Bool.false_ne_true h.1)] at hcomp
      have hret : s'.returns b = s.returns b + 1 := update_self ..
      rw [hret]
      exact ⟨hr, hc, hcomp⟩
    · rw [hreturns b' hb]
      refine inv.counts.resting b' fun q idx' hq => ?_
      have hqp : q ≠ p := by
        rintro rfl
        rw [hpub] at hq
        cases hq
        exact hb rfl
      exact hb' q idx' (by rw [hother q hqp]; exact hq)

omit [DecidableEq P]

/-- Descriptors stay with their owners. -/
theorem same_chains (pc : s'.pc = s.pc) (free : s'.disk.free = s.disk.free)
    (desc : s'.disk.desc = s.disk.desc) (ops : s'.disk.ops = s.disk.ops)
    (info : ∀ i, (s'.disk.info i).b = (s.disk.info i).b) (avail : s'.disk.avail = s.disk.avail)
    (busy : ∀ p b idx, s.pc p = .publish b idx → s'.busy b = s.busy b) : Chains s' := by
  refine ⟨?_, ?_, ?_, ?_⟩
  · intro p b idx hp
    rw [pc] at hp
    exact (inv.chains.request p b idx hp).congr (fun i _ => by rw [desc]) (by rw [ops]) (info _)
  · rw [free, pc]
    exact inv.chains.free
  · rw [pc]
    exact inv.chains.apart
  · intro p b idx hp
    rw [pc] at hp
    rw [avail, busy p b idx hp]
    exact inv.chains.slot p b idx hp

theorem same_flights (perm : s'.flying.Perm s.flying) (pc : s'.pc = s.pc)
    (busy : s'.busy = s.busy) : s'.flying.Nodup ∧ ∀ h, h ∈ s'.flying ↔
      ∃ p b idx, (s'.pc p).published = some (b, idx) ∧ s'.busy b = true ∧ idx.getD 0 0 = h := by
  refine ⟨perm.nodup_iff.mpr inv.flights.nodup, fun h => ?_⟩
  rw [perm.mem_iff, pc, busy]
  exact inv.flights.mem h

theorem take (more : s.seen ≠ s.disk.avail.idx) :
    Invariant { s with
      seen := s.seen + 1
      taken := s.taken ++ [s.disk.avail.ring (s.seen.toNat % NUM)] } := by
  set s' : State P H B D := { s with
      seen := s.seen + 1
      taken := s.taken ++ [s.disk.avail.ring (s.seen.toNat % NUM)] }
  have hqueued : s.queued = s.disk.avail.ring (s.seen.toNat % NUM) :: s'.queued :=
    pending_pop (by decide) more
  have hperm : s'.flying.Perm s.flying := by
    have htaken : s'.taken = s.taken ++ [s.disk.avail.ring (s.seen.toNat % NUM)] := rfl
    have hperformed : s'.performed = s.performed := rfl
    have hreported : s'.reported = s.reported := rfl
    unfold State.flying
    rw [hqueued, htaken, hperformed, hreported, perm_iff_count]
    intro h
    simp only [count_append, count_cons, count_nil]
    omega
  obtain ⟨hnodup, hmem⟩ := inv.same_flights hperm rfl rfl
  exact ⟨⟨inv.threads.lock, inv.threads.owner⟩,
    inv.same_chains rfl rfl rfl rfl (fun _ => rfl) rfl fun _ _ _ _ => rfl,
    ⟨hnodup, hmem, inv.flights.status, inv.flights.same⟩, ⟨inv.counts.flying, inv.counts.resting⟩⟩

theorem perform {k h : Nat} {req : Req} {j : Nat} {data : B → D} {sectors : UInt64 → D}
    (taken : s.taken[k]? = some h) (request : s.disk.request h = some (req, b, j)) :
    Invariant { s with
      sectors := sectors
      data := data
      disk := { s.disk with
        info := update s.disk.info j { s.disk.info j with status := 0 } }
      taken := s.taken.eraseIdx k
      performed := s.performed ++ [(h, b)] } := by
  set s' : State P H B D := { s with
      sectors := sectors
      data := data
      disk := { s.disk with
        info := update s.disk.info j { s.disk.info j with status := 0 } }
      taken := s.taken.eraseIdx k
      performed := s.performed ++ [(h, b)] } with hs'
  obtain ⟨hk, rfl⟩ := List.getElem?_eq_some_iff.mp taken
  have herase := getElem_cons_eraseIdx_perm hk
  have hperm : s'.flying.Perm s.flying := by
    have htaken : s'.taken = s.taken.eraseIdx k := rfl
    have hperformed : s'.performed = s.performed ++ [(s.taken[k], b)] := rfl
    have hqueued : s'.queued = s.queued := rfl
    have hreported : s'.reported = s.reported := rfl
    have hcount := perm_iff_count.mp herase
    unfold State.flying
    rw [hqueued, htaken, hperformed, hreported, perm_iff_count]
    intro h
    have hh := hcount h
    simp only [count_append, count_cons, count_nil, map_append, map_cons,
      map_nil] at hh ⊢
    omega
  have hflying : s.taken[k] ∈ s.flying := by
    unfold State.flying
    simp only [mem_append]
    exact .inl (.inl (.inr (getElem_mem hk)))
  -- the request is that of the process whose chain it is
  obtain ⟨p, b', idx, hpub, -, hhead, hreq⟩ := inv.published_of_mem hflying
  obtain ⟨i1, i2, hidx, hlinked⟩ := hreq.linked
  rw [hhead] at hlinked
  rw [hlinked.request] at request
  cases request
  have hinfo : ∀ i, (s'.disk.info i).b = (s.disk.info i).b := by
    intro i
    change (update s.disk.info _ _ i).b = _
    by_cases hi : i = s.taken[k]
    · rw [hi, update_self]
    · rw [update_of_ne hi]
  obtain ⟨hnodup, hmem⟩ := inv.same_flights hperm rfl rfl
  refine ⟨⟨inv.threads.lock, inv.threads.owner⟩,
    inv.same_chains rfl rfl rfl rfl hinfo rfl fun _ _ _ _ => rfl,
    ⟨hnodup, hmem, ?_, ?_⟩, ⟨inv.counts.flying, inv.counts.resting⟩⟩
  · intro i hi
    change (update s.disk.info s.taken[k] { s.disk.info s.taken[k] with status := 0 } i).status = 0
    by_cases hik : i = s.taken[k]
    · rw [hik, update_self]
    · rw [update_of_ne hik]
      refine inv.flights.status i (hi.imp_left fun hi => ?_)
      have hmap : i ∈ (s.performed ++ [(s.taken[k], b)]).map Prod.fst := hi
      simpa [hik] using hmap
  · intro x hx
    rw [hinfo]
    obtain hold | hnew := mem_append.mp hx
    · exact inv.flights.same x hold
    · rw [mem_singleton.mp hnew]
      exact hlinked.info

theorem report [DecidableEq B] {k h : Nat} (performed : s.performed[k]? = some (h, b)) :
    Invariant { s with
      disk := { s.disk with used :=
        { idx := s.disk.used.idx + 1
          ring := update s.disk.used.ring (s.disk.used.idx.toNat % NUM) h } }
      performed := s.performed.eraseIdx k
      completions := State.tally s.completions b } := by
  set s' : State P H B D := { s with
      disk := { s.disk with used :=
        { idx := s.disk.used.idx + 1
          ring := update s.disk.used.ring (s.disk.used.idx.toNat % NUM) h } }
      performed := s.performed.eraseIdx k
      completions := State.tally s.completions b } with hs'
  obtain ⟨hk, hget⟩ := List.getElem?_eq_some_iff.mp performed
  have herase := getElem_cons_eraseIdx_perm hk
  rw [hget] at herase
  have hperf : (h, b) ∈ s.performed := hget ▸ getElem_mem hk
  have hflying := mem_flying_of_performed hperf
  have hreported : s'.reported = s.reported ++ [h] := by
    have hwrite : pending NUM (update s.disk.used.ring (s.disk.used.idx.toNat % NUM) h)
        s.disk.usedIdx s.disk.used.idx = s.reported :=
      pending_write (by decide) inv.length_reported h
    have hroom : (pending NUM (update s.disk.used.ring (s.disk.used.idx.toNat % NUM) h)
        s.disk.usedIdx s.disk.used.idx).length + 1 < 2 ^ 16 := by
      rw [hwrite]
      exact Nat.lt_of_le_of_lt (Nat.succ_le_of_lt inv.length_reported) (by decide)
    have hadvance := pending_advance (by decide) hroom
    rw [hwrite, update_self] at hadvance
    exact hadvance
  have hperm : s'.flying.Perm s.flying := by
    have hperformed : s'.performed = s.performed.eraseIdx k := rfl
    have hqueued : s'.queued = s.queued := rfl
    have htaken : s'.taken = s.taken := rfl
    have hcount := perm_iff_count.mp (herase.map Prod.fst)
    unfold State.flying
    rw [hqueued, htaken, hperformed, hreported, perm_iff_count]
    intro i
    have hi := hcount i
    simp only [count_append, count_cons, count_nil, map_cons] at hi ⊢
    omega
  have hnot : h ∉ s.reported := by
    intro hmem
    have hdisjoint := (nodup_append.mp inv.flights.nodup).2.2
    refine hdisjoint h ?_ h hmem rfl
    simp only [mem_append]
    exact .inr (mem_map_of_mem (f := Prod.fst) hperf)
  -- the buffer is that of the process whose chain it is
  obtain ⟨p, b', idx, hpub, hbusy, hhead, hreq⟩ := inv.published_of_mem hflying
  obtain rfl : b' = b := by
    obtain ⟨i1, i2, hidx, hlinked⟩ := hreq.linked
    rw [hhead] at hlinked
    exact Option.some.inj (hlinked.info.symm.trans (inv.flights.same (h, b) hperf))
  have hcompletions : ∀ c, c ≠ b' → s'.completions c = s.completions c := fun c hc =>
    update_of_ne hc ..
  obtain ⟨hnodup, hmem⟩ := inv.same_flights hperm rfl rfl
  refine ⟨⟨inv.threads.lock, inv.threads.owner⟩,
    inv.same_chains rfl rfl rfl rfl (fun _ => rfl) rfl fun _ _ _ _ => rfl,
    ⟨hnodup, hmem, ?_, ?_⟩, ⟨?_, ?_⟩⟩
  · intro i hi
    rw [hreported] at hi
    refine inv.flights.status i ?_
    obtain hi | hi := hi
    · exact .inl (map_subset Prod.fst (eraseIdx_subset) hi)
    · obtain hold | hnew := mem_append.mp hi
      · exact .inr hold
      · rw [mem_singleton.mp hnew]
        exact .inl (mem_map_of_mem (f := Prod.fst) hperf)
  · intro x hx
    exact inv.flights.same x (eraseIdx_subset hx)
  · intro q c idx' hq
    rw [hreported]
    obtain rfl | hqp := eq_or_ne q p
    · rw [show s'.pc = s.pc from rfl, hpub] at hq
      cases hq
      obtain ⟨hr, hc, hd⟩ := inv.counts.flying q b' idx hpub
      rw [hhead, if_pos ⟨hbusy, hnot⟩] at hd
      refine ⟨hr, hc, ?_⟩
      have hcomp : s'.completions b' = s.completions b' + 1 := update_self ..
      rw [hcomp, hhead, if_neg (fun h => h.2 (mem_append_right _ mem_cons_self)), hd]
    · have hne := inv.ne_buf (Pc.buf_of_flight (Pc.flight_of_published hpub)) hq hqp
      have hheads : idx'.getD 0 0 ≠ h := fun heq => hqp
        (inv.eq_of_head (Pc.flight_of_published hq) (Pc.flight_of_published hpub)
          (heq.trans hhead.symm))
      rw [hcompletions c hne]
      have hiff : idx'.getD 0 0 ∈ s.reported ++ [h] ↔ idx'.getD 0 0 ∈ s.reported := by
        rw [mem_append, mem_singleton]
        exact or_iff_left hheads
      simp only [hiff]
      exact inv.counts.flying q c idx' hq
  · intro c hc
    have hne : c ≠ b' := by
      rintro rfl
      exact hc p idx hpub
    rw [hcompletions c hne]
    exact inv.counts.resting c hc

/-- The first entry is the chain of a process that waits. -/
theorem reported_head (more : s.disk.usedIdx ≠ s.disk.used.idx) :
    ∃ p b idx, (s.pc p).published = some (b, idx) ∧ s.busy b = true ∧
      idx.getD 0 0 = s.disk.used.ring (s.disk.usedIdx.toNat % NUM) ∧
      (s.disk.info (s.disk.used.ring (s.disk.usedIdx.toNat % NUM))).status = 0 ∧
      (s.disk.info (s.disk.used.ring (s.disk.usedIdx.toNat % NUM))).b = some b := by
  have hreported : s.reported = _ :: _ := pending_pop (by decide) more
  have hmem : s.disk.used.ring (s.disk.usedIdx.toNat % NUM) ∈ s.reported := by
    rw [hreported]
    exact mem_cons_self
  obtain ⟨p, b, idx, hpub, hbusy, hhead, hreq⟩ :=
    inv.published_of_mem (mem_flying_of_done (.inr hmem))
  obtain ⟨i1, i2, hidx, hlinked⟩ := hreq.linked
  rw [hhead] at hlinked
  exact ⟨p, b, idx, hpub, hbusy, hhead, inv.flights.status _ (.inr hmem), hlinked.info⟩

theorem clear [DecidableEq B] (locked : ∀ p, s.lock ≠ some (.inl p))
    (more : s.disk.usedIdx ≠ s.disk.used.idx)
    (info : (s.disk.info (s.disk.used.ring (s.disk.usedIdx.toNat % NUM))).b = some b) :
    Invariant ({ s with
      disk := { s.disk with usedIdx := s.disk.usedIdx + 1 }
      clears := State.tally s.clears b }.setBusy b false) := by
  set s' := ({ s with
      disk := { s.disk with usedIdx := s.disk.usedIdx + 1 }
      clears := State.tally s.clears b }.setBusy b false) with hs'
  obtain ⟨p, b', idx, hpub, hbusy, hhead, -, hb⟩ := inv.reported_head more
  obtain rfl : b' = b := Option.some.inj (hb.symm.trans info)
  have hreported : s.reported = idx.getD 0 0 :: s'.reported := by
    rw [hhead]
    exact pending_pop (by decide) more
  have hperm : s.flying.Perm (idx.getD 0 0 :: s'.flying) := by
    have hqueued : s'.queued = s.queued := rfl
    have htaken : s'.taken = s.taken := rfl
    have hperformed : s'.performed = s.performed := rfl
    unfold State.flying
    rw [hreported, hqueued, htaken, hperformed]
    exact perm_middle
  have hcleared : s'.busy b' = false := update_self ..
  have hother : ∀ c, c ≠ b' → s'.busy c = s.busy c := fun c hc => update_of_ne hc ..
  have hclears : ∀ c, c ≠ b' → s'.clears c = s.clears c := fun c hc => update_of_ne hc ..
  have hnodup := hperm.nodup_iff.mp inv.flights.nodup
  have hne : ∀ q c idx', (s.pc q).published = some (c, idx') → q ≠ p →
      c ≠ b' ∧ idx'.getD 0 0 ≠ idx.getD 0 0 := by
    intro q c idx' hq hqp
    refine ⟨inv.ne_buf (Pc.buf_of_flight (Pc.flight_of_published hpub)) hq hqp, fun heq => hqp ?_⟩
    exact inv.eq_of_head (Pc.flight_of_published hq) (Pc.flight_of_published hpub) heq
  refine ⟨⟨inv.threads.lock, inv.threads.owner⟩,
    inv.same_chains rfl rfl rfl rfl (fun _ => rfl) rfl ?_,
    ⟨(nodup_cons.mp hnodup).2, ?_, ?_, inv.flights.same⟩, ⟨?_, ?_⟩⟩
  · -- nobody is publishing while the handler holds the lock
    intro q c idx' hq
    exact absurd ((inv.threads.lock q).mp (by rw [hq]; rfl)) (locked q)
  · intro h
    constructor
    · intro hh
      have hold : h ∈ s.flying := hperm.mem_iff.mpr (mem_cons_of_mem _ hh)
      obtain ⟨q, c, idx', hq, hc, hheadq⟩ := (inv.flights.mem h).mp hold
      have hqp : q ≠ p := by
        rintro rfl
        rw [hpub] at hq
        cases hq
        exact (nodup_cons.mp hnodup).1 (hheadq ▸ hh)
      exact ⟨q, c, idx', hq, (hother c (hne q c idx' hq hqp).1).trans hc, hheadq⟩
    · rintro ⟨q, c, idx', hq, hc, hheadq⟩
      have hcb : c ≠ b' := by
        rintro rfl
        rw [hcleared] at hc
        cases hc
      have hqp : q ≠ p := by
        rintro rfl
        rw [show s'.pc = s.pc from rfl, hpub] at hq
        cases hq
        exact hcb rfl
      rw [hother c hcb] at hc
      have hmem := hperm.mem_iff.mp ((inv.flights.mem h).mpr ⟨q, c, idx', hq, hc, hheadq⟩)
      exact (mem_cons.mp hmem).resolve_left fun heq =>
        (hne q c idx' hq hqp).2 (hheadq.trans heq)
  · intro h hh
    refine inv.flights.status h (hh.imp_right fun hh => ?_)
    rw [hreported]
    exact mem_cons_of_mem _ hh
  · intro q c idx' hq
    obtain rfl | hqp := eq_or_ne q p
    · rw [show s'.pc = s.pc from rfl, hpub] at hq
      cases hq
      obtain ⟨hr, hc, hd⟩ := inv.counts.flying q b' idx hpub
      have hmem : idx.getD 0 0 ∈ s.reported := by
        rw [hreported]
        exact mem_cons_self
      rw [if_pos hbusy] at hc
      rw [if_neg (fun h => h.2 hmem)] at hd
      have hcount : s'.clears b' = s.clears b' + 1 := update_self ..
      refine ⟨hr, ?_, ?_⟩
      · rw [hcount, hcleared, if_neg Bool.false_ne_true, hc]
        rfl
      · rw [hcleared, if_neg (fun h => Bool.false_ne_true h.1)]
        exact hd
    · obtain ⟨hcb, hheads⟩ := hne q c idx' hq hqp
      have hiff : idx'.getD 0 0 ∈ s.reported ↔ idx'.getD 0 0 ∈ s'.reported := by
        rw [hreported, mem_cons]
        exact or_iff_right hheads
      rw [hother c hcb, hclears c hcb]
      simp only [← hiff]
      exact inv.counts.flying q c idx' hq
  · intro c hc
    have hcb : c ≠ b' := by
      rintro rfl
      exact hc p idx hpub
    rw [hclears c hcb]
    exact inv.counts.resting c hc

end Invariant

end Xv6.Virtio
