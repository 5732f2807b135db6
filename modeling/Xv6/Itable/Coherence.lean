import Xv6.Itable.Steps

/-! The inode table in every reachable state. -/
namespace Xv6.Itable

variable {P : Type} [DecidableEq P] {ninodes : Nat} {s next : State P}

theorem Invariant.iinit {disk : Nat → Nat → Dinode} {named : Nat → Nat → Bool}
    (free : ∀ dev inum, (disk dev inum).type = 0 → (disk dev inum).nlink = 0) :
    Invariant (State.iinit disk named : State P) := by
  refine ⟨?_, ⟨?_, ?_, free, ?_, ?_, ?_, ?_⟩⟩
  · intro p
    refine Local.of_valid rfl trivial ?_
    intro k hk
    cases hk
  · intro k
    rfl
  · intro k l hk
    exact absurd hk (lt_irrefl 0)
  · intro p k hp
    exact absurd hp (Multiset.notMem_zero _)
  · intro k hk
    exact absurd hk (lt_irrefl 0)
  · intro p dev inum hp
    cases hp
  · intro p q dev inum hp
    cases hp

namespace Reachable

theorem linked (h : Reachable ninodes s) : s.Linked := by
  cases h with
  | iinit free linked => exact linked
  | step reach allowed run linked => exact linked

theorem invariant (h : Reachable ninodes s) : Invariant s := by
  induction h with
  | iinit free linked => exact Invariant.iinit free
  | step reach allowed run linked ih => exact ih.step reach.linked (step_of_event allowed run)

end Reachable

omit [DecidableEq P] in
theorem type_writeBack {t : State P} {k : Fin NINODE} {dev inum : Nat}
    (free : ((t.writeBack k).disk dev inum).type = 0) (used : (t.disk dev inum).type ≠ 0) :
    (t.inode k).dev = dev ∧ (t.inode k).inum = inum ∧ (t.inode k).type = 0 := by
  by_cases hkey : dev = (t.inode k).dev → inum ≠ (t.inode k).inum
  · have hsame : (t.writeBack k).disk dev inum = t.disk dev inum := t.setDisk_of_ne _ hkey
    rw [hsame] at free
    exact absurd free used
  · push Not at hkey
    obtain ⟨rfl, rfl⟩ := hkey
    rw [State.writeBack_disk] at free
    exact ⟨rfl, rfl, free⟩

/-- Only `iput` marks an inode free, that of the entry it frees. -/
theorem Step.freed {event : Event P} (inv : Invariant s) (h : Step s event next) {dev inum : Nat}
    (used : (s.disk dev inum).type ≠ 0) (free : (next.disk dev inum).type = 0) :
    ∃ p k, event = .run p .next ∧ s.pc p = .free k ∧ (s.inode k).dev = dev ∧
      (s.inode k).inum = inum := by
  cases h with
  | iupdate p k here locked =>
    have hsync := inv.synced locked (inv.held locked (by simp [here])).2 (by simp [here])
    exact absurd (type_writeBack free used).2.2 hsync.used
  | truncated p k i here =>
    have locked := (inv.process p).locks k (by rw [here]; rfl)
    have last := (inv.process p).frees k (by rw [here]; rfl)
    rw [State.goto_disk] at free
    have hzero := (type_writeBack free used).2.2
    rw [State.setInode_self] at hzero
    exact absurd hzero (inv.synced locked last.valid (by simp [here])).used
  | free p k here =>
    rw [State.goto_disk] at free
    obtain ⟨hdev, hinum, -⟩ := type_writeBack free used
    rw [State.setInode_self] at hdev hinum
    exact ⟨p, k, rfl, here, hdev, hinum⟩
  | claim p dev' type inum' here free' =>
    by_cases hkey : dev = dev' → inum ≠ inum'
    · rw [State.goto_disk, State.setDisk_of_ne _ _ hkey] at free
      exact absurd free used
    · push Not at hkey
      obtain ⟨rfl, rfl⟩ := hkey
      exact absurd free' used
  | _ => exact absurd free used

instance (s : State P) : (event : Event P) → Decidable (s.Allowed event)
  | .run _ (.iget dev inum) => inferInstanceAs (Decidable (s.named dev inum = true))
  | .run p (.idup k) => inferInstanceAs (Decidable ((p, k) ∈ s.refs))
  | .run p (.ilock k) => inferInstanceAs (Decidable ((p, k) ∈ s.refs))
  | .run p (.iunlock k) =>
    inferInstanceAs (Decidable ((p, k) ∈ s.refs ∧ (s.inode k).lock = some p))
  | .run p (.iupdate k) =>
    inferInstanceAs (Decidable ((p, k) ∈ s.refs ∧ (s.inode k).lock = some p))
  | .run p (.change k d) => inferInstanceAs
    (Decidable ((p, k) ∈ s.refs ∧ (s.inode k).lock = some p ∧ d.type = (s.inode k).type))
  | .run _ (.ialloc _ type) => inferInstanceAs (Decidable (type ≠ 0))
  | .run p (.iput k) => inferInstanceAs
    (Decidable ((if (s.inode k).lock = some p then 2 else 1) ≤ s.refs.count (p, k)))
  | .run _ .next => inferInstanceAs (Decidable True)
  | .entries _ => inferInstanceAs (Decidable True)

def State.run (ninodes : Nat) (s : State P) : List (P × Act) → Option (State P)
  | [] => some s
  | (p, act) :: acts =>
    if s.Allowed (.run p act) then
      match s.step ninodes (.run p act) with
      | some (.ok next) => next.run ninodes acts
      | _ => none
    else none

theorem Step.named_eq {p : P} {act : Act} (h : Step s (.run p act) next) :
    next.named = s.named := by
  cases h <;> rfl

theorem Reachable.of_run (h : Reachable ninodes s) (unnamed : ∀ dev inum, s.named dev inum = false)
    {acts : List (P × Act)} (run : s.run ninodes acts = some next) : Reachable ninodes next := by
  induction acts generalizing s with
  | nil =>
    cases run
    exact h
  | cons act acts ih =>
    simp only [State.run] at run
    split at run
    · rename_i allowed
      split at run
      · rename_i s' hstep
        have hnamed := (step_of_event allowed hstep).named_eq
        have unnamed' : ∀ dev inum, s'.named dev inum = false := by
          rw [hnamed]
          exact unnamed
        refine ih (h.step allowed hstep ?_) unnamed' run
        intro dev inum named
        rw [unnamed'] at named
        cases named
      · cases run
    · cases run

/-- Process 0 drops inode 1, which process 1 allocates before 0 gives up its copy. -/
def freeing : List (Fin 2 × Act) :=
  [(0, .ialloc 1 T_FILE), (0, .next), (0, .next), (0, .ilock 0), (0, .next), (0, .iunlock 0),
    (0, .iput 0)] ++ List.replicate 16 (0, .next) ++ [(1, .ialloc 1 T_DIR), (1, .next)]

def emptyDisk : State (Fin 2) := .iinit (fun _ _ => Dinode.zero) fun _ _ => false

theorem reachable_emptyDisk : Reachable 2 emptyDisk :=
  .iinit (fun _ _ _ => rfl) fun _ _ named => by cases named

/-- In every reachable state: an inode has one entry, counts are numbers of references, locked
and unchanged inodes are as on disk (but in an `iput` that has just freed it), only inodes
without links and references are freed, and no `iput` waits with `itable.lock`. -/
theorem coherent_of_reachable (h : Reachable ninodes s) :
    (∀ k l, 0 < (s.inode k).ref → 0 < (s.inode l).ref → (s.inode k).dev = (s.inode l).dev →
      (s.inode k).inum = (s.inode l).inum → k = l) ∧
    (∀ k, (s.inode k).ref = (s.refs.countP fun r => r.2 = k : Nat)) ∧
    (∀ p k, (s.inode k).lock = some p → (s.inode k).valid = true → s.dirty k = false →
      s.pc p ≠ .invalidate k →
      (s.inode k).toDinode = s.disk (s.inode k).dev (s.inode k).inum) ∧
    (∀ p k, ((∃ i, s.pc p = .itrunc k i) ∨ s.pc p = .free k) → (s.inode k).nlink = 0 ∧
      (s.inode k).ref = 1 ∧ (p, k) ∈ s.refs) ∧
    (∀ event next, s.Allowed event → s.step ninodes event = some (.ok next) →
      ∀ dev inum, (s.disk dev inum).type ≠ 0 → (next.disk dev inum).type = 0 →
        ∃ p k, event = .run p .next ∧ s.pc p = .free k ∧ (s.inode k).dev = dev ∧
          (s.inode k).inum = inum) ∧
    ∀ p k, s.pc p = .iputLock k → s.lock = some p ∧ (s.inode k).lock = none := by
  have inv := h.invariant
  refine ⟨inv.shared.unique, inv.shared.counted, ?_, ?_, ?_, ?_⟩
  · intro p k locked valid clean here
    exact (inv.synced locked valid here).clean clean
  · intro p k here
    have last : Last s p k := by
      apply (inv.process p).frees k
      obtain ⟨i, hpc⟩ | hpc := here <;> rw [hpc] <;> rfl
    exact ⟨last.nlink, last.ref, last.holds⟩
  · intro event next allowed run dev inum used free
    exact (step_of_event allowed run).freed inv used free
  · intro p k here
    exact (inv.process p).waits k here

/-- Process 1 locks what process 0 was freeing. -/
theorem coherent_of_reachable_realloc :
    ∃ s : State (Fin 2), Reachable 2 s ∧ (s.inode 0).lock = some 1 ∧ (s.inode 0).type = T_DIR ∧
      (s.inode 0).toDinode = s.disk (s.inode 0).dev (s.inode 0).inum := by
  have hrun : ((emptyDisk.run 2 (freeing ++ [(1, .next), (0, .next), (1, .ilock 0),
      (1, .next)])).map fun t => ((t.inode 0).lock, (t.inode 0).valid, t.dirty 0, t.pc 1,
        (t.inode 0).type)) = some (some 1, true, false, .caller, T_DIR) := by
    decide +kernel
  obtain ⟨s, hs, hobs⟩ := Option.map_eq_some_iff.mp hrun
  simp only [Prod.mk.injEq] at hobs
  obtain ⟨hlock, hvalid, hclean, hpc, htype⟩ := hobs
  have hreach := reachable_emptyDisk.of_run (fun _ _ => rfl) hs
  exact ⟨s, hreach, hlock, htype,
    (coherent_of_reachable hreach).2.2.1 1 0 hlock hvalid hclean (by simp [hpc])⟩

/-- Before `ip->valid = 0`, the copy of `iput` can differ from the disk. -/
theorem stale_while_freeing :
    ∃ s : State (Fin 2), Reachable 2 s ∧ ∃ p k, (s.inode k).lock = some p ∧
      (s.inode k).valid = true ∧ s.dirty k = false ∧
      (s.inode k).type ≠ (s.disk (s.inode k).dev (s.inode k).inum).type := by
  have hrun : ((emptyDisk.run 2 freeing).map fun t => ((t.inode 0).lock, (t.inode 0).valid,
      t.dirty 0, (t.inode 0).type, (t.disk (t.inode 0).dev (t.inode 0).inum).type)) =
      some (some 0, true, false, 0, T_DIR) := by
    decide +kernel
  obtain ⟨s, hs, hobs⟩ := Option.map_eq_some_iff.mp hrun
  simp only [Prod.mk.injEq] at hobs
  obtain ⟨hlock, hvalid, hclean, htype, hdisk⟩ := hobs
  refine ⟨s, reachable_emptyDisk.of_run (fun _ _ => rfl) hs, 0, 0, hlock, hvalid, hclean, ?_⟩
  rw [htype, hdisk]
  decide

end Xv6.Itable
