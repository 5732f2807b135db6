import Xv6.Virtio.Steps

/-! What holds in every run of the driver and the device. -/
namespace Xv6.Virtio

open Function
open Lib.IndexRing

variable {P H B D : Type} [DecidableEq P] [DecidableEq B]
  {s next : State P H B D} {p : P} {b : B} {idx : List Nat}

/-- Between places with the same request, or none. -/
structure Moves (s : State P H B D) (p : P) (pc : Pc B) (d : Disk B) (lock : Option (P ⊕ H)) :
    Prop where
  rest : d = { s.disk with desc := d.desc, free := d.free }
  free : d.free = s.disk.free
  desc : ∀ i, s.disk.free i = false → d.desc i = s.disk.desc i
  flight : pc.flight = (s.pc p).flight
  published : pc.published = (s.pc p).published
  publish : ∀ b idx, pc ≠ .publish b idx
  before : s.lock = none ∨ s.lock = some (.inl p)
  after : lock = if pc.locks then some (.inl p) else none
  buf : ∀ b, pc.buf = some b → s.holder b = some p

inductive Step (s : State P H B D) : State P H B D → Prop where
  | lockBuf (p : P) (b : B) (blockno : UInt32) (free : s.holder b = none) :
      Step s { s with
        holder := update s.holder b (some p)
        blockno := update s.blockno b blockno }
  | unlockBuf (p : P) (b : B) (here : s.pc p = .idle) (holds : s.holder b = some p) :
      Step s { s with holder := update s.holder b none }
  | change (b : B) (data : D) : Step s { s with data := update s.data b data }
  | move (p : P) (pc : Pc B) (d : Disk B) (lock : Option (P ⊕ H)) (moves : Moves s p pc d lock) :
      Step s ({ s with disk := d, lock := lock }.goto p pc)
  | format (p : P) (b : B) (write : Bool) (idx : List Nat) (here : s.pc p = .alloc b write)
      (length : idx.length = 3) (nodup : idx.Nodup)
      (unused : ∀ i ∈ idx, i < NUM ∧ s.disk.free i = true) :
      Step s (({ s with
        disk := (s.disk.reserve idx).format b (s.blockno b) write idx }.setBusy b true).goto p
          (.publish b idx))
  | publish (p : P) (b : B) (idx : List Nat) (here : s.pc p = .publish b idx) :
      Step s ({ s with
        disk := { s.disk with avail := { s.disk.avail with idx := s.disk.avail.idx + 1 } }
        requests := State.tally s.requests b }.goto p (.wait b idx))
  | finish (p : P) (b : B) (idx : List Nat) (d : Disk B) (here : s.pc p = .wait b idx)
      (done : s.busy b = false)
      (hd : d = { s.disk with
        info := update s.disk.info (idx.getD 0 0)
          { s.disk.info (idx.getD 0 0) with b := none } }) :
      Step s ({ s with
        disk := d.release idx
        lock := (none : Option (P ⊕ H))
        returns := State.tally s.returns b }.goto p .idle)
  | intr (h : H) (free : s.lock = none) : Step s { s with lock := some (.inr h) }
  | leave (h : H) (locked : s.lock = some (.inr h)) : Step s { s with lock := none }
  | clear (h : H) (b : B) (locked : s.lock = some (.inr h))
      (more : s.disk.usedIdx ≠ s.disk.used.idx)
      (info : (s.disk.info (s.disk.used.ring (s.disk.usedIdx.toNat % NUM))).b = some b) :
      Step s ({ s with
        disk := { s.disk with usedIdx := s.disk.usedIdx + 1 }
        clears := State.tally s.clears b }.setBusy b false)
  | take (more : s.seen ≠ s.disk.avail.idx) :
      Step s { s with
        seen := s.seen + 1
        taken := s.taken ++ [s.disk.avail.ring (s.seen.toNat % NUM)] }
  | perform (k h j : Nat) (b : B) (req : Req) (data : B → D) (sectors : UInt64 → D)
      (taken : s.taken[k]? = some h) (request : s.disk.request h = some (req, b, j)) :
      Step s { s with
        sectors := sectors
        data := data
        disk := { s.disk with
          info := update s.disk.info j { s.disk.info j with status := 0 } }
        taken := s.taken.eraseIdx k
        performed := s.performed ++ [(h, b)] }
  | report (k h : Nat) (b : B) (performed : s.performed[k]? = some (h, b)) :
      Step s { s with
        disk := { s.disk with used :=
          { idx := s.disk.used.idx + 1
            ring := update s.disk.used.ring (s.disk.used.idx.toNat % NUM) h } }
        performed := s.performed.eraseIdx k
        completions := State.tally s.completions b }

def Runs (s : State P H B D) (result : Option (Except Fault (State P H B D))) : Prop :=
  ∀ r, result = some r → ∃ next, r = .ok next ∧ Step s next

theorem runs_ok (h : Step s next) : Runs s (some (.ok next)) := by
  rintro _ ⟨⟩
  exact ⟨next, rfl, h⟩

theorem runs_none : Runs s none := nofun

namespace Invariant

variable (inv : Invariant s)

include inv

theorem runs_run (p : P) : Runs s (s.run p) := by
  unfold State.run
  cases here : s.pc p with
  | idle => exact runs_none
  | alloc b write =>
    have hlock : s.lock = some (.inl p) := (inv.threads.lock p).mp (by rw [here]; rfl)
    have howner : s.holder b = some p := inv.threads.owner p b (by rw [here]; rfl)
    have hallocs := s.disk.allocs_alloc3Desc
    dsimp only
    generalize s.disk.alloc3Desc = result at hallocs
    cases hallocs with
    | found new length nodup unused =>
      exact runs_ok (.format p b write new here length nodup unused)
    | full d free desc rest =>
      have hfree : d.free = s.disk.free := by
        rw [free]
        funext i
        simp [Disk.release]
      refine runs_ok (.move p _ d _ ⟨rest, hfree, fun i hi => desc i List.not_mem_nil hi,
        by rw [here]; rfl, by rw [here]; rfl, (by simp), .inr hlock, rfl, ?_⟩)
      rintro _ ⟨⟩
      exact howner
  | allocSleep b write =>
    have howner : s.holder b = some p := inv.threads.owner p b (by rw [here]; rfl)
    dsimp only
    split
    · exact runs_none
    · rename_i hfree
      refine runs_ok (.move p _ s.disk _ ⟨rfl, rfl, fun _ _ => rfl, by rw [here]; rfl,
        by rw [here]; rfl, (by simp), .inl (by simpa using hfree), rfl, ?_⟩)
      rintro _ ⟨⟩
      exact howner
  | publish b idx => exact runs_ok (.publish p b idx here)
  | wait b idx =>
    have hlock : s.lock = some (.inl p) := (inv.threads.lock p).mp (by rw [here]; rfl)
    have howner : s.holder b = some p := inv.threads.owner p b (by rw [here]; rfl)
    have hflight : (s.pc p).flight = some (b, idx) := by rw [here]; rfl
    dsimp only
    split
    · refine runs_ok (.move p _ s.disk _ ⟨rfl, rfl, fun _ _ => rfl, by rw [here]; rfl,
        by rw [here]; rfl, (by simp), .inr hlock, rfl, ?_⟩)
      rintro _ ⟨⟩
      exact howner
    · rename_i hdone
      have hreq := inv.chains.request p b idx hflight
      have hused := inv.used_of_flight hflight
      obtain ⟨i1, i2, hidx, hlinked⟩ := hreq.linked
      generalize hd : ({ s.disk with
        info := update s.disk.info (idx.getD 0 0)
          { s.disk.info (idx.getD 0 0) with b := none } } : Disk B) = d
      have hchain : d.freeChain (idx.getD 0 0) = .ok (d.release idx) := by
        have hdisk : d.desc = s.disk.desc ∧ d.free = s.disk.free := by
          rw [← hd]
          exact ⟨rfl, rfl⟩
        have hnodup := hreq.1
        rw [hidx] at hnodup hused
        rw [hidx]
        exact hlinked.freeChain hdisk.1 hnodup (by rw [hdisk.2]; exact hused)
      rw [hchain]
      exact runs_ok (.finish p b idx d here (by simpa using hdone) hd.symm)
  | waitSleep b idx =>
    have howner : s.holder b = some p := inv.threads.owner p b (by rw [here]; rfl)
    dsimp only
    split
    · exact runs_none
    · rename_i hfree
      refine runs_ok (.move p _ s.disk _ ⟨rfl, rfl, fun _ _ => rfl, by rw [here]; rfl,
        by rw [here]; rfl, (by simp), .inl (by simpa using hfree), rfl, ?_⟩)
      rintro _ ⟨⟩
      exact howner

omit [DecidableEq P] in
/-- `virtio_disk_intr` does not panic. -/
theorem runs_handle [DecidableEq P] {h : H} (locked : s.lock = some (.inr h)) :
    Runs s s.handle := by
  unfold State.handle
  split
  · exact runs_ok (.leave h locked)
  · rename_i more
    obtain ⟨p, b, idx, -, -, -, hstatus, hb⟩ := inv.reported_head more
    dsimp only
    rw [if_neg (not_not_intro hstatus), hb]
    exact runs_ok (.clear h b locked more hb)

/-- The device finds a request at every head taken. -/
theorem runs_perform (k : Nat) : Runs s (s.perform k) := by
  unfold State.perform
  cases htaken : s.taken[k]? with
  | none => exact runs_none
  | some h =>
    have hmem : h ∈ s.flying := by
      unfold State.flying
      simp only [List.mem_append]
      exact .inl (.inl (.inr (List.mem_of_getElem? htaken)))
    obtain ⟨p, b, idx, -, -, hhead, hreq⟩ := inv.published_of_mem hmem
    obtain ⟨i1, i2, -, hlinked⟩ := hreq.linked
    rw [hhead] at hlinked
    dsimp only
    rw [hlinked.request]
    exact runs_ok (.perform k h h b _ _ _ htaken hlinked.request)

theorem runs_step [DecidableEq H] {event : Event P H B D} (allowed : s.Allowed event) :
    Runs s (s.step event) := by
  cases event with
  | lockBuf p b blockno =>
    simp only [State.step]
    split
    · rename_i free
      exact runs_ok (.lockBuf p b blockno free)
    · exact runs_none
  | unlockBuf p b =>
    simp only [State.step]
    split
    · rename_i here
      exact runs_ok (.unlockBuf p b here allowed)
    · exact runs_none
  | change p b data =>
    simp only [State.step]
    split
    · exact runs_ok (.change b data)
    · exact runs_none
  | rw p b write =>
    simp only [State.step]
    split
    · rename_i here free
      refine runs_ok (.move p _ s.disk _ ⟨rfl, rfl, fun _ _ => rfl, by rw [here]; rfl,
        by rw [here]; rfl, nofun, .inl free, rfl, ?_⟩)
      rintro _ ⟨⟩
      exact allowed
    · exact runs_none
  | run p => exact inv.runs_run p
  | intr h =>
    simp only [State.step]
    split
    · rename_i free
      exact runs_ok (.intr h free)
    · exact runs_none
  | handle h =>
    simp only [State.step]
    split
    · rename_i locked
      exact inv.runs_handle locked
    · exact runs_none
  | take =>
    simp only [State.step, State.take]
    split
    · exact runs_none
    · rename_i more
      exact runs_ok (.take more)
  | perform k => exact inv.runs_perform k
  | report k =>
    simp only [State.step, State.report]
    split
    · exact runs_none
    · rename_i h b performed
      exact runs_ok (.report k h b performed)

omit [DecidableEq P] [DecidableEq B] in
theorem relock {lock : Option (P ⊕ H)} {holder : B → Option P} {blockno : B → UInt32} {data : B → D}
    (threads : Threads { s with lock := lock, holder := holder, blockno := blockno, data := data }) :
    Invariant { s with lock := lock, holder := holder, blockno := blockno, data := data } :=
  inv.quiet ⟨rfl, rfl, rfl, rfl, rfl, rfl, fun _ _ => rfl, rfl, rfl, rfl, rfl, rfl, rfl, rfl, rfl,
    fun _ => rfl, fun _ => rfl, fun _ _ _ h => h⟩ threads

theorem step (h : Step s next) : Invariant next := by
  cases h with
  | lockBuf p b blockno free =>
    refine inv.relock ⟨inv.threads.lock, ?_⟩
    intro q c hc
    have howner := inv.threads.owner q c hc
    have hne : c ≠ b := by
      rintro rfl
      rw [free] at howner
      cases howner
    exact (update_of_ne hne ..).trans howner
  | unlockBuf p b here holds =>
    refine inv.relock ⟨inv.threads.lock, ?_⟩
    intro q c hc
    have howner := inv.threads.owner q c hc
    have hne : c ≠ b := by
      rintro rfl
      obtain rfl : p = q := Option.some.inj (holds.symm.trans howner)
      rw [show s.pc p = .idle from here] at hc
      cases hc
    exact (update_of_ne hne ..).trans howner
  | change b data =>
    exact inv.relock ⟨inv.threads.lock, inv.threads.owner⟩
  | move p pc d lock moves =>
    exact inv.move (by rw [moves.rest]) (by rw [moves.rest]) (by rw [moves.rest])
      (by rw [moves.rest]) (by rw [moves.rest]) moves.free moves.desc moves.flight moves.published
      moves.publish moves.before moves.after moves.buf
  | format p b write idx here length nodup unused => exact inv.format here length nodup unused
  | publish p b idx here => exact inv.publish here
  | finish p b idx d here done hd => exact inv.finish here done hd
  | intr h free =>
    refine inv.relock ⟨fun q => ?_, inv.threads.owner⟩
    refine iff_of_false ?_ nofun
    dsimp only
    rw [inv.threads.lock q, free]
    exact nofun
  | leave h locked =>
    refine inv.relock ⟨fun q => ?_, inv.threads.owner⟩
    refine iff_of_false ?_ nofun
    dsimp only
    rw [inv.threads.lock q, locked]
    exact nofun
  | clear h b locked more info =>
    refine inv.clear (fun p hp => ?_) more info
    rw [locked] at hp
    cases hp
  | take more => exact inv.take more
  | perform k h j b req data sectors taken request => exact inv.perform taken request
  | report k h b performed => exact inv.report performed

end Invariant

omit [DecidableEq P] [DecidableEq B] in
theorem Invariant.init (blockno : B → UInt32) (data : B → D) (sectors : UInt64 → D) :
    Invariant (State.init blockno data sectors : State P H B D) := by
  have hreported : (State.init blockno data sectors : State P H B D).reported = [] :=
    pending_eq_nil.mpr rfl
  have hflying : (State.init blockno data sectors : State P H B D).flying = [] := by
    have hqueued : (State.init blockno data sectors : State P H B D).queued = [] :=
      pending_eq_nil.mpr rfl
    unfold State.flying
    rw [hqueued, hreported]
    rfl
  refine ⟨⟨fun p => ⟨nofun, nofun⟩, nofun⟩, ⟨nofun, ?_, nofun, nofun⟩,
    ⟨hflying ▸ List.nodup_nil, ?_, ?_, nofun⟩, ⟨nofun, fun _ _ => ⟨rfl, rfl, rfl⟩⟩⟩
  · intro i hi
    refine iff_of_false ?_ ?_
    · simp [State.init, Disk.init, hi]
    · rintro ⟨p, hp⟩
      cases hp
  · intro h
    rw [hflying]
    refine iff_of_false List.not_mem_nil ?_
    rintro ⟨p, b, idx, hp, -⟩
    cases hp
  · rw [hreported]
    rintro h (hh | hh) <;> cases hh

/-- Entries stay until they are taken. -/
theorem Step.slot_eq (inv : Invariant s) (h : Step s next) {j : Nat} (hj : j < s.queued.length) :
    next.disk.avail.ring ((s.seen.toNat + j) % NUM) =
      s.disk.avail.ring ((s.seen.toNat + j) % NUM) := by
  cases h with
  | format p b write idx here length nodup unused =>
    exact update_of_ne (slot_ne (by decide) inv.length_queued hj) ..
  | move p pc d lock moves =>
    have hring : d.avail = s.disk.avail := by rw [moves.rest]
    change d.avail.ring _ = _
    rw [hring]
  | finish p b idx d here done hd =>
    have hring : d.avail = s.disk.avail := by rw [hd]
    change d.avail.ring _ = _
    rw [hring]
  | _ => rfl

/-- Only the handler clears `b->disk`, once for each report. -/
theorem Step.cleared (h : Step s next) (busy : s.busy b = true) (clear : next.busy b = false) :
    next.clears b = s.clears b + 1 ∧ next.completions b = s.completions b := by
  cases h with
  | clear h c locked more info =>
    have hb : b = c := by
      by_contra hne
      have hsame : update s.busy c false b = s.busy b := update_of_ne hne ..
      exact absurd (clear.symm.trans (hsame.trans busy)) Bool.false_ne_true
    rw [hb]
    exact ⟨update_self .., rfl⟩
  | format p c write idx here length nodup unused =>
    have hset : update s.busy c true b = true := by
      by_cases hb : b = c
      · rw [hb, update_self]
      · rw [update_of_ne hb, busy]
    exact absurd (clear.symm.trans hset) Bool.false_ne_true
  | _ => exact absurd (clear.symm.trans busy) Bool.false_ne_true

/-- One return for each time that `b->disk` was cleared. -/
theorem Step.returned (inv : Invariant s) (h : Step s next)
    (here : (s.pc p).published = some (b, idx)) (idle : next.pc p = .idle) :
    next.returns b = s.returns b + 1 ∧ s.clears b = s.returns b + 1 ∧
      s.completions b = s.returns b + 1 ∧ s.requests b = s.returns b + 1 := by
  have hne : ∀ q pc, (pc = .idle → (s.pc q).published = none) → (s.goto q pc).pc p ≠ .idle := by
    intro q pc hidle heq
    by_cases hq : p = q
    · rw [hq, goto_self] at heq
      rw [hq, hidle heq] at here
      cases here
    · rw [goto_of_ne _ _ hq] at heq
      rw [heq] at here
      cases here
  cases h with
  | finish q c idx' d hq done hd =>
    have hpq : p = q := by
      by_contra hpq
      have hsame : (s.goto q .idle).pc p = s.pc p := goto_of_ne _ _ hpq
      rw [show s.pc p = .idle from hsame.symm.trans idle] at here
      cases here
    rw [hpq, hq] at here
    cases here
    obtain ⟨hr, hc, hcomp⟩ := inv.counts.flying q b idx (by rw [hq]; rfl)
    rw [if_neg (by rw [done]; exact Bool.false_ne_true)] at hc
    rw [if_neg (fun h => by rw [done] at h; exact Bool.false_ne_true h.1)] at hcomp
    exact ⟨update_self .., hc, hcomp, hr⟩
  | move q pc d lock moves =>
    refine absurd idle (hne q pc fun hpc => ?_)
    rw [← moves.published, hpc]
    rfl
  | format q c write idx' hq length nodup unused => exact absurd idle (hne q _ nofun)
  | publish q c idx' hq => exact absurd idle (hne q _ nofun)
  | _ =>
    rw [show s.pc p = .idle from idle] at here
    cases here

variable [DecidableEq H]

theorem Reachable.invariant (h : Reachable s) : Invariant s := by
  induction h with
  | init blockno data sectors => exact Invariant.init blockno data sectors
  | step reach allowed run ih =>
    obtain ⟨next, hok, hstep⟩ := ih.runs_step allowed _ run
    cases hok
    exact ih.step hstep

/-- In every run: free descriptors and chains in flight partition the descriptors, a failed
`alloc3_desc` changes no free one, no entry is overwritten before it is taken, no step panics,
and each request is published, reported, cleared and returned from once. -/
theorem protocol_of_reachable (h : Reachable s) :
    ((∀ p, (s.pc p).chain ≠ [] → (s.pc p).chain.length = 3 ∧ (s.pc p).chain.Nodup ∧
        ∀ i ∈ (s.pc p).chain, i < NUM) ∧
      (∀ p q i, i ∈ (s.pc p).chain → i ∈ (s.pc q).chain → p = q) ∧
      ∀ i, i < NUM → (s.disk.free i = true ↔ ∀ p, i ∉ (s.pc p).chain)) ∧
    (∀ d, s.disk.alloc3Desc = .ok (none, d) → d.free = s.disk.free) ∧
    (∀ event, s.Allowed event → ∀ e, s.step event ≠ some (.error e)) ∧
    (∀ event next, s.Allowed event → s.step event = some (.ok next) →
      (∀ j, j < (s.disk.avail.idx - s.seen).toNat →
        next.disk.avail.ring ((s.seen.toNat + j) % NUM) =
          s.disk.avail.ring ((s.seen.toNat + j) % NUM)) ∧
      (∀ b, s.busy b = true → next.busy b = false →
        next.clears b = s.clears b + 1 ∧ s.clears b < s.completions b) ∧
      (∀ p b idx, (s.pc p).published = some (b, idx) → next.pc p = .idle →
        next.returns b = s.returns b + 1 ∧ s.clears b = s.returns b + 1 ∧
          s.completions b = s.returns b + 1 ∧ s.requests b = s.returns b + 1)) ∧
    (∀ b, s.returns b ≤ s.clears b ∧ s.clears b ≤ s.completions b ∧
      s.completions b ≤ s.requests b ∧ s.requests b ≤ s.returns b + 1) := by
  have inv := h.invariant
  refine ⟨⟨?_, inv.chains.apart, ?_⟩, ?_, ?_, ?_, inv.counts.ordered⟩
  · intro p hp
    cases hflight : (s.pc p).flight with
    | none =>
      unfold Pc.chain at hp
      rw [hflight] at hp
      exact absurd rfl hp
    | some x =>
      obtain ⟨b, idx⟩ := x
      rw [Pc.chain_of_flight hflight]
      obtain ⟨hnodup, hlt, i0, i1, i2, rfl, -⟩ := inv.chains.request p b idx hflight
      exact ⟨rfl, hnodup, hlt⟩
  · intro i hi
    rw [← not_iff_not, Bool.not_eq_true, inv.chains.free i hi]
    push Not
    rfl
  · intro d hd
    have hallocs := s.disk.allocs_alloc3Desc
    rw [hd] at hallocs
    cases hallocs with
    | full _ free desc rest =>
      rw [free]
      funext i
      simp [Disk.release]
  · intro event allowed e he
    obtain ⟨next, hok, -⟩ := inv.runs_step allowed _ he
    cases hok
  · intro event next allowed run
    obtain ⟨next', hok, hstep⟩ := inv.runs_step allowed _ run
    cases hok
    refine ⟨fun j hj => hstep.slot_eq inv (by unfold State.queued; rwa [length_pending]),
      fun b hbusy hclear => ?_, fun p b idx hp hidle => hstep.returned inv hp hidle⟩
    obtain ⟨hclears, hcompletions⟩ := hstep.cleared hbusy hclear
    have hordered := ((inv.step hstep).counts.ordered b).2.1
    exact ⟨hclears, by omega⟩

instance (s : State P H B D) : (event : Event P H B D) → Decidable (s.Allowed event)
  | .unlockBuf p b => inferInstanceAs (Decidable (s.holder b = some p))
  | .change p b _ => inferInstanceAs (Decidable (s.holder b = some p))
  | .rw p b _ => inferInstanceAs (Decidable (s.holder b = some p))
  | .lockBuf .. | .run _ | .intr _ | .handle _ | .take | .perform _ | .report _ =>
    inferInstanceAs (Decidable True)

def State.exec (s : State P H B D) : List (Event P H B D) → Option (State P H B D)
  | [] => some s
  | event :: events =>
    if s.Allowed event then
      match s.step event with
      | some (.ok next) => next.exec events
      | _ => none
    else none

theorem Reachable.of_exec (h : Reachable s) {events : List (Event P H B D)}
    (run : s.exec events = some next) : Reachable next := by
  induction events generalizing s with
  | nil =>
    cases run
    exact h
  | cons event events ih =>
    simp only [State.exec] at run
    split at run
    · rename_i allowed
      split at run
      · rename_i s' hstep
        exact ih (h.step allowed hstep) run
      · cases run
    · cases run

/-- A process reads block 5. -/
def reading : List (Event Unit Unit Unit UInt64) :=
  [.lockBuf () () 5, .rw () () false, .run (), .run (), .run (), .take, .perform 0, .report 0,
    .intr (), .handle (), .handle (), .run (), .run ()]

theorem protocol_of_reachable_reading : ∃ s : State Unit Unit Unit UInt64,
    Reachable s ∧ s.data () = 10 ∧ s.returns () = 1 ∧ 1 ≤ s.clears () ∧ 1 ≤ s.completions () := by
  have hrun : ((State.init (fun _ => 0) (fun _ => 0) id :
      State Unit Unit Unit UInt64).exec reading).map (fun s => (s.data (), s.returns ())) =
        some (10, 1) := by
    decide +kernel
  obtain ⟨s, hs, hvals⟩ := Option.map_eq_some_iff.mp hrun
  simp only [Prod.mk.injEq] at hvals
  have hreach := (Reachable.init _ _ _).of_exec hs
  obtain ⟨hreturns, hclears, -⟩ := (protocol_of_reachable hreach).2.2.2.2 ()
  exact ⟨s, hreach, hvals.1, hvals.2, by omega, by omega⟩

end Xv6.Virtio
