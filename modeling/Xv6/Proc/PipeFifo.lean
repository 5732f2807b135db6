import Xv6.Proc.Pipe

/-! A pipe is a queue, however often the counters wrap. -/
namespace Xv6.Pipe

open Function

variable {pi pi' : Pipe} {ch : UInt8}

def level (pi : Pipe) : Nat := (pi.nwrite - pi.nread).toNat

theorem slot_val (n : UInt32) (i : Nat) :
    (slot (n + UInt32.ofNat i)).val = (n.toNat + i) % 512 := by
  have hslot : (slot (n + UInt32.ofNat i)).val = (n + UInt32.ofNat i).toNat % 512 := rfl
  rw [hslot, UInt32.toNat_add, UInt32.toNat_ofNat']
  omega

theorem slot_ne (n : UInt32) {i j : Nat} (hij : i < j) (hj : j < i + 512) :
    slot (n + UInt32.ofNat i) ≠ slot (n + UInt32.ofNat j) := by
  intro heq
  have hval := congrArg Fin.val heq
  rw [slot_val, slot_val] at hval
  omega

theorem nwrite_eq (pi : Pipe) : pi.nread + UInt32.ofNat pi.level = pi.nwrite := by
  unfold level
  rw [UInt32.ofNat_toNat, UInt32.add_comm, UInt32.sub_add_cancel]

theorem level_lt (hle : pi.level ≤ PIPESIZE)
    (room : pi.nwrite ≠ pi.nread + UInt32.ofNat PIPESIZE) : pi.level < PIPESIZE := by
  refine Nat.lt_of_le_of_ne hle fun heq => room ?_
  rw [← heq, nwrite_eq]

theorem level_eq_zero_iff : pi.level = 0 ↔ pi.nread = pi.nwrite := by
  constructor
  · intro hzero
    have hw := pi.nwrite_eq
    rw [hzero] at hw
    simpa using hw
  · intro heq
    unfold level
    rw [heq, UInt32.sub_self]
    rfl

theorem contents_eq_nil (h : pi.nread = pi.nwrite) : pi.contents = [] := by
  unfold contents
  rw [h, UInt32.sub_self]
  rfl

theorem level_push (hlt : pi.level < PIPESIZE) : (pi.push ch).level = pi.level + 1 := by
  have hsub : (pi.push ch).nwrite - (pi.push ch).nread = (pi.nwrite - pi.nread) + 1 := by
    change pi.nwrite + 1 - pi.nread = _
    rw [UInt32.sub_eq_add_neg, UInt32.sub_eq_add_neg, UInt32.add_assoc, UInt32.add_assoc,
      UInt32.add_comm 1]
  unfold level at hlt ⊢
  have hsmall : (pi.nwrite - pi.nread).toNat < 512 := hlt
  rw [hsub, UInt32.toNat_add]
  simp only [UInt32.toNat_one]
  omega

theorem contents_push (hlt : pi.level < PIPESIZE) :
    (pi.push ch).contents = pi.contents ++ [ch] := by
  have hsmall : pi.level < 512 := hlt
  have hlevel : ((pi.push ch).nwrite - (pi.push ch).nread).toNat = pi.level + 1 := level_push hlt
  unfold contents
  rw [hlevel, List.range_succ, List.map_append]
  congr 1
  · apply List.map_congr_left
    intro i hi
    have hi' : i < pi.level := List.mem_range.mp hi
    apply update_of_ne
    have hne := slot_ne pi.nread hi' (by omega)
    rw [nwrite_eq] at hne
    exact hne
  · have hlast : slot (pi.nread + UInt32.ofNat pi.level) = slot pi.nwrite := by rw [nwrite_eq]
    change [update pi.data (slot pi.nwrite) ch (slot (pi.nread + UInt32.ofNat pi.level))] = _
    rw [hlast, update_self]

def pop (pi : Pipe) : Pipe := { pi with nread := pi.nread + 1 }

theorem level_pop (h : pi.nread ≠ pi.nwrite) : pi.level = pi.pop.level + 1 := by
  have hpos : pi.level ≠ 0 := fun hzero => h (level_eq_zero_iff.mp hzero)
  have hsub : pi.nwrite - pi.nread = (pi.pop.nwrite - pi.pop.nread) + 1 := by
    change _ = pi.nwrite - (pi.nread + 1) + 1
    rw [UInt32.sub_eq_add_neg, UInt32.sub_eq_add_neg, UInt32.neg_add, UInt32.sub_eq_add_neg,
      UInt32.add_assoc, UInt32.add_assoc, UInt32.add_left_neg, UInt32.add_zero]
  unfold level at hpos ⊢
  rw [hsub, UInt32.toNat_add] at hpos ⊢
  simp only [UInt32.toNat_one] at hpos ⊢
  have hlt := (pi.pop.nwrite - pi.pop.nread).toNat_lt
  omega

theorem contents_pop (h : pi.nread ≠ pi.nwrite) :
    pi.contents = pi.data (slot pi.nread) :: pi.pop.contents := by
  have hlevel : (pi.nwrite - pi.nread).toNat = pi.pop.level + 1 := level_pop h
  unfold contents
  rw [hlevel, List.range_succ_eq_map, List.map_cons, List.map_map]
  congr 1
  · simp
  · apply List.map_congr_left
    intro i _
    change pi.data (slot (pi.nread + UInt32.ofNat (i + 1))) =
      pi.data (slot (pi.nread + 1 + UInt32.ofNat i))
    rw [UInt32.ofNat_add, UInt32.add_assoc, UInt32.add_comm (UInt32.ofNat i)]
    rfl

/-- Accepted bytes go to the end of the queue. -/
theorem pipewriteLoop_spec (src : Nat → Option UInt8) (killed : Nat → Bool) (todo i : Nat)
    (hle : pi.level ≤ PIPESIZE) :
    (pipewriteLoop src killed todo i pi).1.level ≤ PIPESIZE ∧
      (pipewriteLoop src killed todo i pi).1.contents =
        pi.contents ++ (pipewriteLoop src killed todo i pi).2.1 := by
  induction todo generalizing i pi with
  | zero => exact ⟨hle, (List.append_nil _).symm⟩
  | succ todo ih =>
    unfold pipewriteLoop
    split
    · exact ⟨hle, (List.append_nil _).symm⟩
    · split
      · exact ⟨hle, (List.append_nil _).symm⟩
      · rename_i room
        have hlt := level_lt hle room
        split
        · exact ⟨hle, (List.append_nil _).symm⟩
        · rename_i ch _
          have hpush : (pi.push ch).level ≤ PIPESIZE := by
            rw [level_push hlt]
            exact hlt
          obtain ⟨hlevel, hcontents⟩ := ih (i + 1) hpush
          refine ⟨hlevel, hcontents.trans ?_⟩
          rw [contents_push hlt, List.append_assoc]
          rfl

variable {dst : Nat → Bool}

/-- Delivered bytes come from the front of the queue, unless it is empty or none are asked for. -/
theorem pipereadLoop_spec (copies : ∀ i, dst i = true) (todo i : Nat) (hle : pi.level ≤ PIPESIZE) :
    (pipereadLoop dst todo i pi).1.level ≤ PIPESIZE ∧
      pi.contents = (pipereadLoop dst todo i pi).2.1 ++ (pipereadLoop dst todo i pi).1.contents ∧
      (pipereadLoop dst todo i pi).2.2 = i + (pipereadLoop dst todo i pi).2.1.length := by
  induction todo generalizing i pi with
  | zero => exact ⟨hle, rfl, rfl⟩
  | succ todo ih =>
    unfold pipereadLoop
    split
    · exact ⟨hle, rfl, rfl⟩
    · rename_i some'
      have hlevel := level_pop some'
      have hpop : pi.pop.level ≤ PIPESIZE := by omega
      obtain ⟨hle', hcontents, hcount⟩ := ih (i + 1) hpop
      dsimp only
      rw [if_pos (copies i)]
      refine ⟨hle', ?_, ?_⟩
      · rw [contents_pop some', hcontents]
        rfl
      · change (pipereadLoop dst todo (i + 1) pi.pop).2.2 =
          i + (pi.data (slot pi.nread) :: (pipereadLoop dst todo (i + 1) pi.pop).2.1).length
        rw [hcount, List.length_cons]
        omega

theorem pipereadLoop_of_empty (todo : Nat) {i : Nat} (h : pi.nread = pi.nwrite) :
    pipereadLoop dst todo i pi = (pi, [], i) := by
  cases todo with
  | zero => rfl
  | succ todo =>
    unfold pipereadLoop
    rw [if_pos h]

theorem pipereadLoop_pos (copies : ∀ i, dst i = true) {todo i : Nat} (hle : pi.level ≤ PIPESIZE)
    (asked : 0 < todo) (h : pi.nread ≠ pi.nwrite) : i < (pipereadLoop dst todo i pi).2.2 := by
  obtain ⟨todo, rfl⟩ := Nat.exists_eq_add_one.mpr asked
  have hlevel := level_pop h
  have hpop : pi.pop.level ≤ PIPESIZE := by omega
  have hcount := (pipereadLoop_spec copies todo (i + 1) hpop).2.2
  unfold pipereadLoop
  rw [if_neg h]
  dsimp only
  rw [if_pos (copies i)]
  change i < (pipereadLoop dst todo (i + 1) pi.pop).2.2
  omega

def Phase.Copies : Phase → Prop
  | .outside => True
  | .writing src _ _ _ => ∀ i, src i ≠ none
  | .reading dst _ _ => ∀ i, dst i = true

variable {P : Type}

structure Fifo (g : State P) : Prop where
  bounded : ∀ pi, g.pipe = some pi → pi.level ≤ PIPESIZE
  ordered : ∀ pi, g.pipe = some pi → g.delivered ++ pi.contents = g.accepted
  copies : ∀ p, (g.proc p).Copies

namespace Fifo

variable {g : State P} {p : P}

theorem wakeReaders (h : Fifo g) : Fifo g.wakeReaders := by
  refine ⟨h.bounded, h.ordered, fun p => ?_⟩
  have hp := h.copies p
  unfold State.wakeReaders
  dsimp only
  split
  · rename_i heq
    rw [heq] at hp
    exact hp
  · exact hp

theorem wakeWriters (h : Fifo g) : Fifo g.wakeWriters := by
  refine ⟨h.bounded, h.ordered, fun p => ?_⟩
  have hp := h.copies p
  unfold State.wakeWriters
  dsimp only
  split
  · rename_i heq
    rw [heq] at hp
    exact hp
  · exact hp

theorem setPipe (h : Fifo g) (hpipe : g.pipe = some pi) (hsame : pi'.contents = pi.contents)
    (hlevel : pi'.level = pi.level) : Fifo { g with pipe := some pi' } := by
  refine ⟨?_, ?_, h.copies⟩
  · rintro _ ⟨⟩
    rw [hlevel]
    exact h.bounded pi hpipe
  · rintro _ ⟨⟩
    rw [hsame]
    exact h.ordered pi hpipe

theorem close (h : Fifo g) (hpipe : g.pipe = some pi) (writable : Bool) :
    Fifo (g.close pi writable) := by
  have hwoken : Fifo (if writable then g.wakeReaders else g.wakeWriters) := by
    split
    · exact h.wakeReaders
    · exact h.wakeWriters
  have hsame : (if writable then g.wakeReaders else g.wakeWriters).pipe = some pi := by
    split <;> exact hpipe
  unfold State.close
  dsimp only
  split
  · exact ⟨by rintro _ ⟨⟩, by rintro _ ⟨⟩, hwoken.copies⟩
  · apply hwoken.setPipe hsame <;> cases writable <;> rfl

variable [DecidableEq P]

theorem setProc (h : Fifo g) {phase : Phase} (copies : phase.Copies) :
    Fifo (g.setProc p phase) := by
  refine ⟨h.bounded, h.ordered, fun q => ?_⟩
  unfold State.setProc
  dsimp only
  obtain rfl | hq := eq_or_ne q p
  · rw [update_self]
    exact copies
  · rw [update_of_ne hq]
    exact h.copies q

theorem write (h : Fifo g) (hpipe : g.pipe = some pi) {src : Nat → Option UInt8}
    (copies : ∀ i, src i ≠ none) (n : Int) (i : Nat) (killed : Nat → Bool) :
    Fifo (g.write p pi src n i killed).1 := by
  obtain ⟨hlevel, hcontents⟩ :=
    pipewriteLoop_spec src killed (n.toNat - i) i (h.bounded pi hpipe)
  have hmoved : Fifo { g with
      pipe := some (pipewriteLoop src killed (n.toNat - i) i pi).1
      accepted := g.accepted ++ (pipewriteLoop src killed (n.toNat - i) i pi).2.1 } := by
    refine ⟨?_, ?_, h.copies⟩
    · rintro pi' ⟨⟩
      exact hlevel
    · rintro pi' ⟨⟩
      dsimp only
      rw [hcontents, ← List.append_assoc, h.ordered pi hpipe]
  unfold State.write
  dsimp only
  split
  · exact hmoved.wakeReaders.setProc copies
  · exact hmoved.setProc trivial
  · exact hmoved.wakeReaders.setProc trivial

theorem read (h : Fifo g) (hpipe : g.pipe = some pi) (copies : ∀ i, dst i = true) (n : Int)
    (killed : Bool) : Fifo (g.read p pi dst n killed).1 := by
  unfold State.read
  split
  · split
    · exact h.setProc trivial
    · exact h.setProc copies
  · obtain ⟨hlevel, hcontents, -⟩ := pipereadLoop_spec copies n.toNat 0 (h.bounded pi hpipe)
    have hmoved : Fifo { g with
        pipe := some (pipereadLoop dst n.toNat 0 pi).1
        delivered := g.delivered ++ (pipereadLoop dst n.toNat 0 pi).2.1 } := by
      refine ⟨?_, ?_, h.copies⟩
      · rintro pi' ⟨⟩
        exact hlevel
      · rintro pi' ⟨⟩
        dsimp only
        rw [List.append_assoc, ← hcontents, h.ordered pi hpipe]
    exact hmoved.wakeWriters.setProc trivial

theorem step {next : State P} {event : Event P} {result : Option Int} (h : Fifo g)
    (copies : event.Copies) (hstep : g.step event = some (next, result)) : Fifo next := by
  obtain ⟨pi, hpipe, hstep⟩ := Option.bind_eq_some_iff.mp hstep
  cases event with
  | pipewrite p src n killed =>
    dsimp only at hstep
    split at hstep
    · have hnext : _ = next := congrArg Prod.fst (Option.some.inj hstep)
      rw [← hnext]
      exact h.write hpipe copies n 0 killed
    · cases hstep
  | piperead p dst n killed =>
    dsimp only at hstep
    split at hstep
    · have hnext : _ = next := congrArg Prod.fst (Option.some.inj hstep)
      rw [← hnext]
      exact h.read hpipe copies n killed
    · cases hstep
  | resume p killed =>
    have hp := h.copies p
    dsimp only at hstep
    split at hstep
    · rename_i src n i heq
      rw [heq] at hp
      have hnext : _ = next := congrArg Prod.fst (Option.some.inj hstep)
      rw [← hnext]
      exact h.write hpipe hp n i killed
    · rename_i dst n heq
      rw [heq] at hp
      have hnext : _ = next := congrArg Prod.fst (Option.some.inj hstep)
      rw [← hnext]
      exact h.read hpipe hp n (killed 0)
    · cases hstep
  | kill p =>
    have hp := h.copies p
    dsimp only at hstep
    split at hstep
    · rename_i heq
      rw [heq] at hp
      cases hstep
      exact h.setProc hp
    · rename_i heq
      rw [heq] at hp
      cases hstep
      exact h.setProc hp
    · cases hstep
      exact h
  | pipeclose writable =>
    cases hstep
    exact h.close hpipe writable

theorem of_reachable (h : Reachable g) : Fifo g := by
  induction h with
  | pipealloc data =>
    refine ⟨?_, ?_, fun p => trivial⟩
    · rintro pi ⟨⟩
      rw [level_eq_zero_iff.mpr rfl]
      exact Nat.zero_le _
    · rintro pi ⟨⟩
      rw [contents_eq_nil rfl]
      rfl
  | step _ copies hstep ih => exact ih.step copies hstep

end Fifo

variable [DecidableEq P]

/-- The event runs `piperead` for `n` bytes. -/
def Event.Reads (g : State P) (n : Int) : Event P → Prop
  | .piperead _ _ m _ => m = n
  | .resume p _ => ∃ dst, g.proc p = .reading dst n false
  | _ => False

theorem read_zero {g : State P} (h : Fifo g) {p : P} (hpipe : g.pipe = some pi)
    (copies : ∀ i, dst i = true) {n : Int} {killed : Bool} (asked : 0 < n) {next : State P}
    (hread : g.read p pi dst n killed = (next, some 0)) :
    ∃ pi', next.pipe = some pi' ∧ pi'.contents = [] ∧ pi'.writeopen = false := by
  unfold State.read at hread
  split at hread
  · split at hread
    · have hvalue := congrArg Prod.snd hread
      cases hvalue
    · cases hread
  · rename_i hopen
    have hempty : pi.nread = pi.nwrite := by
      by_contra hne
      have htodo : 0 < n.toNat := by omega
      have hpos := pipereadLoop_pos (i := 0) copies (h.bounded pi hpipe) htodo hne
      have hvalue : ((pipereadLoop dst n.toNat 0 pi).2.2 : Int) = 0 :=
        Option.some.inj (congrArg Prod.snd hread)
      omega
    rw [pipereadLoop_of_empty _ hempty] at hread
    have hnext := congrArg (fun result => result.1.pipe) hread
    refine ⟨pi, hnext.symm, contents_eq_nil hempty, ?_⟩
    simpa [hempty] using hopen

/-- In every reachable state, if user copies succeed: at most `PIPESIZE` bytes, delivered in
the order accepted, and `piperead` returns 0 only at the end of a closed pipe. -/
theorem fifo_of_reachable {g : State P} (h : Reachable g) :
    (∀ pi, g.pipe = some pi → (pi.nwrite - pi.nread).toNat ≤ PIPESIZE ∧
      g.delivered ++ pi.contents = g.accepted) ∧
    ∀ event next n, event.Copies → event.Reads g n → 0 < n →
      g.step event = some (next, some 0) →
      ∃ pi, next.pipe = some pi ∧ pi.contents = [] ∧ pi.writeopen = false := by
  have fifo := Fifo.of_reachable h
  refine ⟨fun pi hpipe => ⟨fifo.bounded pi hpipe, fifo.ordered pi hpipe⟩, ?_⟩
  intro event next n copies reads asked hstep
  obtain ⟨pi, hpipe, hstep⟩ := Option.bind_eq_some_iff.mp hstep
  cases event with
  | piperead p dst m killed =>
    cases reads
    dsimp only at hstep
    split at hstep
    · exact read_zero fifo hpipe copies asked (Option.some.inj hstep)
    · cases hstep
  | resume p killed =>
    obtain ⟨dst, hproc⟩ := reads
    have hp := fifo.copies p
    rw [hproc] at hp
    simp only [hproc] at hstep
    exact read_zero fifo hpipe hp asked (Option.some.inj hstep)
  | pipewrite p src m killed => exact reads.elim
  | kill p => exact reads.elim
  | pipeclose writable => exact reads.elim

theorem fifo_of_reachable_three :
    ∃ (g : State Bool) (pi : Pipe), Reachable g ∧ g.pipe = some pi ∧ g.delivered = [7, 8] ∧
      pi.contents = [9] ∧ g.delivered ++ pi.contents = g.accepted := by
  let src : Nat → Option UInt8 := fun i => some (UInt8.ofNat (7 + i))
  have hnew : Reachable ({ pipe := some { data := fun _ => 5 } } : State Bool) :=
    Reachable.pipealloc _
  let write : Event Bool := .pipewrite true src 3 fun _ => false
  let read : Event Bool := .piperead false (fun _ => true) 2 false
  have hwrites : write.Copies := fun i => Option.some_ne_none _
  have hreads : read.Copies := fun _ => rfl
  have hread := (hnew.step hwrites rfl).step hreads rfl
  exact ⟨_, _, hread, rfl, by decide +kernel, by decide +kernel,
    ((fifo_of_reachable hread).1 _ rfl).2⟩

end Xv6.Pipe
