import Xv6.Itable.Table

/-! The invariant of the inode table: a part for each process, which others do not disturb, and
a part about what they share. -/
namespace Xv6.Itable

open Function

variable {P : Type}

def Pc.locks : Pc → Option (Fin NINODE)
  | .load k | .itrunc k _ | .free k | .invalidate k => some k
  | _ => none

def Pc.frees : Pc → Option (Fin NINODE)
  | .iputLock k | .itrunc k _ | .free k => some k
  | _ => none

/-- The entry that was freed and is still referred to. -/
def Pc.leaves : Pc → Option (Fin NINODE)
  | .invalidate k | .drop k => some k
  | _ => none

structure Last (s : State P) (p : P) (k : Fin NINODE) : Prop where
  valid : (s.inode k).valid = true
  nlink : (s.inode k).nlink = 0
  ref : (s.inode k).ref = 1
  holds : (p, k) ∈ s.refs

variable [DecidableEq P]

structure Local (s : State P) (p : P) : Prop where
  held : ∀ k, (s.inode k).lock = some p →
    (p, k) ∈ s.refs ∧ ((s.inode k).valid = true ∨ s.pc p = .load k)
  locks : ∀ k, (s.pc p).locks = some k → (s.inode k).lock = some p
  frees : ∀ k, (s.pc p).frees = some k → Last s p k
  waits : ∀ k, s.pc p = .iputLock k → s.lock = some p ∧ (s.inode k).lock = none
  freed : ∀ k, s.pc p = .invalidate k → (s.inode k).valid = true ∧ (s.inode k).nlink = 0
  leaves : ∀ k, (s.pc p).leaves = some k → s.refs.count (p, k) = 1
  drops : ∀ k, s.pc p = .drop k → (s.inode k).lock ≠ some p
  typed : ∀ dev type inum, s.pc p = .ialloc dev type inum → type ≠ 0

/-- A read entry agrees with the disk, up to changes not written. -/
structure Synced (s : State P) (k : Fin NINODE) : Prop where
  used : (s.inode k).type ≠ 0
  type_eq : (s.disk (s.inode k).dev (s.inode k).inum).type = (s.inode k).type
  clean : s.dirty k = false → (s.inode k).toDinode = s.disk (s.inode k).dev (s.inode k).inum

/-- Inode `inum` was marked allocated and not returned by `iget` since. -/
structure Claimed (s : State P) (dev inum : Nat) : Prop where
  used : (s.disk dev inum).type ≠ 0
  nlink : (s.disk dev inum).nlink = 0
  leaving : ∀ k, (s.inode k).dev = dev → (s.inode k).inum = inum →
    ∀ p, (p, k) ∈ s.refs → (s.pc p).leaves = some k
  stale : ∀ k, 0 < (s.inode k).ref → (s.inode k).dev = dev → (s.inode k).inum = inum →
    (s.inode k).valid = true → ∃ p, s.pc p = .invalidate k

def State.count (s : State P) (k : Fin NINODE) : Nat := s.refs.countP fun r => r.2 = k

structure Shared (s : State P) : Prop where
  counted : ∀ k, (s.inode k).ref = s.count k
  unique : ∀ k l, 0 < (s.inode k).ref → 0 < (s.inode l).ref → (s.inode k).dev = (s.inode l).dev →
    (s.inode k).inum = (s.inode l).inum → k = l
  unlinked : ∀ dev inum, (s.disk dev inum).type = 0 → (s.disk dev inum).nlink = 0
  alive : ∀ p k, (p, k) ∈ s.refs →
    (s.pc p).leaves = some k ∨ (s.disk (s.inode k).dev (s.inode k).inum).type ≠ 0
  synced : ∀ k, 0 < (s.inode k).ref → (s.inode k).valid = true →
    (∃ p, s.pc p = .invalidate k) ∨ Synced s k
  claimed : ∀ p dev inum, s.pc p = .claimed dev inum → Claimed s dev inum
  claimant : ∀ p q dev inum, s.pc p = .claimed dev inum → s.pc q = .claimed dev inum → p = q

structure Invariant (s : State P) : Prop where
  process : ∀ p, Local s p
  shared : Shared s

/-- A step of `p` as others see it. -/
structure Frame (s s' : State P) (p : P) : Prop where
  pc : ∀ q, q ≠ p → s'.pc q = s.pc q
  refs : ∀ q k, q ≠ p → s'.refs.count (q, k) = s.refs.count (q, k)
  mutex : ∀ q, q ≠ p → s.lock = some q → s'.lock = some q
  lock : ∀ q k, q ≠ p → ((s'.inode k).lock = some q ↔ (s.inode k).lock = some q)
  unlocked : ∀ q k, q ≠ p → s.pc q = .iputLock k → (s'.inode k).lock = none
  entry : ∀ q k, q ≠ p → (s.inode k).lock = some q ∨ s.pc q = .iputLock k →
    (s'.inode k).toDinode = (s.inode k).toDinode ∧ (s'.inode k).valid = (s.inode k).valid
  ref : ∀ q k, q ≠ p → (s.pc q).frees = some k → (s'.inode k).ref = (s.inode k).ref

variable {s s' : State P} {p q : P} {k : Fin NINODE}

theorem Pc.frees_cases {pc : Pc} (h : pc.frees = some k) :
    pc = .iputLock k ∨ pc.locks = some k := by
  cases pc with
  | iputLock l => exact .inl (congrArg Pc.iputLock (Option.some.inj h))
  | itrunc l i => exact .inr h
  | free l => exact .inr h
  | _ => cases h

theorem Frame.mem (f : Frame s s' p) (hne : q ≠ p) : (q, k) ∈ s'.refs ↔ (q, k) ∈ s.refs := by
  rw [← Multiset.count_pos, ← Multiset.count_pos, f.refs q k hne]

theorem Local.frame (h : Local s q) (f : Frame s s' p) (hne : q ≠ p) : Local s' q := by
  have hpc := f.pc q hne
  refine ⟨?_, ?_, ?_, ?_, ?_, ?_, ?_, ?_⟩
  · intro k hk
    have hold := (f.lock q k hne).mp hk
    rw [f.mem hne, (f.entry q k hne (.inl hold)).2, hpc]
    exact h.held k hold
  · intro k hk
    rw [hpc] at hk
    exact (f.lock q k hne).mpr (h.locks k hk)
  · intro k hk
    rw [hpc] at hk
    have hlast := h.frees k hk
    have hown : (s.inode k).lock = some q ∨ s.pc q = .iputLock k := by
      obtain hw | hl := Pc.frees_cases hk
      · exact .inr hw
      · exact .inl (h.locks k hl)
    obtain ⟨hd, hv⟩ := f.entry q k hne hown
    exact ⟨hv.trans hlast.valid, by rw [hd, hlast.nlink], (f.ref q k hne hk).trans hlast.ref,
      (f.mem hne).mpr hlast.holds⟩
  · intro k hk
    rw [hpc] at hk
    exact ⟨f.mutex q hne (h.waits k hk).1, f.unlocked q k hne hk⟩
  · intro k hk
    rw [hpc] at hk
    obtain ⟨hd, hv⟩ := f.entry q k hne (.inl (h.locks k (by rw [hk]; rfl)))
    rw [hd, hv]
    exact h.freed k hk
  · intro k hk
    rw [hpc] at hk
    exact (f.refs q k hne).trans (h.leaves k hk)
  · intro k hk hlock
    rw [hpc] at hk
    exact h.drops k hk ((f.lock q k hne).mp hlock)
  · intro dev type inum hk
    rw [hpc] at hk
    exact h.typed dev type inum hk

omit [DecidableEq P] in
theorem Shared.pos (h : Shared s) (holds : (p, k) ∈ s.refs) : 0 < (s.inode k).ref := by
  have hcount : 0 < s.count k := Multiset.countP_pos.mpr ⟨(p, k), holds, rfl⟩
  rw [h.counted k]
  omega

omit [DecidableEq P] in
theorem Synced.transfer (h : Synced s k) (data : (s'.inode k).toDinode = (s.inode k).toDinode)
    (disk : s'.disk (s'.inode k).dev (s'.inode k).inum =
      s.disk (s.inode k).dev (s.inode k).inum) (dirty : s'.dirty k = s.dirty k) : Synced s' k := by
  refine ⟨?_, ?_, ?_⟩
  · rw [data]
    exact h.used
  · rw [data, disk]
    exact h.type_eq
  · rw [data, disk, dirty]
    exact h.clean

structure Entry.Same (ip ip' : Entry P) : Prop where
  data : ip'.toDinode = ip.toDinode
  dev : ip'.dev = ip.dev
  inum : ip'.inum = ip.inum
  ref : ip'.ref = ip.ref
  valid : ip'.valid = ip.valid

omit [DecidableEq P] in
theorem Shared.of_same (h : Shared s) (entry : ∀ k, (s.inode k).Same (s'.inode k))
    (refs : s'.refs = s.refs) (disk : s'.disk = s.disk) (dirty : s'.dirty = s.dirty)
    (leaves : ∀ q k, (q, k) ∈ s.refs → ((s'.pc q).leaves = some k ↔ (s.pc q).leaves = some k))
    (frees : ∀ q k, s'.pc q = .invalidate k ↔ s.pc q = .invalidate k)
    (claims : ∀ q dev inum, s'.pc q = .claimed dev inum → s.pc q = .claimed dev inum) :
    Shared s' := by
  refine ⟨?_, ?_, ?_, ?_, ?_, ?_, ?_⟩
  · intro k
    unfold State.count
    rw [(entry k).ref, refs]
    exact h.counted k
  · intro k l
    rw [(entry k).ref, (entry l).ref, (entry k).dev, (entry l).dev, (entry k).inum,
      (entry l).inum]
    exact h.unique k l
  · rw [disk]
    exact h.unlinked
  · intro q k
    rw [refs, disk, (entry k).dev, (entry k).inum]
    intro hq
    rw [leaves q k hq]
    exact h.alive q k hq
  · intro k
    rw [(entry k).ref, (entry k).valid]
    intro used valid
    obtain ⟨q, hq⟩ | hsync := h.synced k used valid
    · exact .inl ⟨q, (frees q k).mpr hq⟩
    · refine .inr (hsync.transfer (entry k).data ?_ (by rw [dirty]))
      rw [disk, (entry k).dev, (entry k).inum]
  · intro q dev inum hq
    have hclaim := h.claimed q dev inum (claims q dev inum hq)
    refine ⟨?_, ?_, ?_, ?_⟩
    · rw [disk]
      exact hclaim.used
    · rw [disk]
      exact hclaim.nlink
    · intro k
      rw [(entry k).dev, (entry k).inum, refs]
      intro hdev hinum r hr
      exact (leaves r k hr).mpr (hclaim.leaving k hdev hinum r hr)
    · intro k
      rw [(entry k).ref, (entry k).dev, (entry k).inum, (entry k).valid]
      intro used hdev hinum valid
      obtain ⟨r, hr⟩ := hclaim.stale k used hdev hinum valid
      exact ⟨r, (frees r k).mpr hr⟩
  · intro q r dev inum hq hr
    exact h.claimant q r dev inum (claims q dev inum hq) (claims r dev inum hr)

/-- A step that changes the contents of entry `k` and of its inode on disk. -/
structure Edit (s s' : State P) (k : Fin NINODE) : Prop where
  refs : s'.refs = s.refs
  other : ∀ l, l ≠ k → s'.inode l = s.inode l
  dirty : ∀ l, l ≠ k → s'.dirty l = s.dirty l
  dev : (s'.inode k).dev = (s.inode k).dev
  inum : (s'.inode k).inum = (s.inode k).inum
  ref : (s'.inode k).ref = (s.inode k).ref
  disk : ∀ dev inum, (dev = (s.inode k).dev → inum ≠ (s.inode k).inum) →
    s'.disk dev inum = s.disk dev inum
  leaves : ∀ q l, l ≠ k → ((s'.pc q).leaves = some l ↔ (s.pc q).leaves = some l)
  frees : ∀ q l, l ≠ k → (s'.pc q = .invalidate l ↔ s.pc q = .invalidate l)
  claims : ∀ q dev inum, s'.pc q = .claimed dev inum ↔ s.pc q = .claimed dev inum

namespace Edit

variable (e : Edit s s' k)

include e
omit [DecidableEq P]

theorem dev_eq (l : Fin NINODE) : (s'.inode l).dev = (s.inode l).dev := by
  by_cases hl : l = k
  · rw [hl, e.dev]
  · rw [e.other l hl]

theorem inum_eq (l : Fin NINODE) : (s'.inode l).inum = (s.inode l).inum := by
  by_cases hl : l = k
  · rw [hl, e.inum]
  · rw [e.other l hl]

theorem ref_eq (l : Fin NINODE) : (s'.inode l).ref = (s.inode l).ref := by
  by_cases hl : l = k
  · rw [hl, e.ref]
  · rw [e.other l hl]

theorem disk_eq (h : Shared s) (pos : 0 < (s.inode k).ref) {l : Fin NINODE} (hl : l ≠ k)
    (used : 0 < (s.inode l).ref) :
    s'.disk (s.inode l).dev (s.inode l).inum = s.disk (s.inode l).dev (s.inode l).inum := by
  apply e.disk
  intro hdev hinum
  exact hl (h.unique l k used pos hdev hinum)

theorem synced (h : Shared s) (pos : 0 < (s.inode k).ref) {l : Fin NINODE} (hl : l ≠ k)
    (used : 0 < (s.inode l).ref) (hsync : Synced s l) : Synced s' l := by
  refine hsync.transfer (by rw [e.other l hl]) ?_ (e.dirty l hl)
  rw [e.other l hl]
  exact e.disk_eq h pos hl used

theorem claimed {dev inum : Nat} (hkey : dev = (s.inode k).dev → inum ≠ (s.inode k).inum)
    (hclaim : Claimed s dev inum) : Claimed s' dev inum := by
  have hother : ∀ l, (s.inode l).dev = dev → (s.inode l).inum = inum → l ≠ k := by
    rintro l hdev hinum rfl
    exact hkey hdev.symm hinum.symm
  refine ⟨?_, ?_, ?_, ?_⟩
  · rw [e.disk dev inum hkey]
    exact hclaim.used
  · rw [e.disk dev inum hkey]
    exact hclaim.nlink
  · intro l
    rw [e.dev_eq, e.inum_eq, e.refs]
    intro hdev hinum q hq
    rw [e.leaves q l (hother l hdev hinum)]
    exact hclaim.leaving l hdev hinum q hq
  · intro l
    rw [e.dev_eq, e.inum_eq, e.ref_eq]
    intro used hdev hinum valid
    have hl := hother l hdev hinum
    rw [e.other l hl] at valid
    obtain ⟨q, hq⟩ := hclaim.stale l used hdev hinum valid
    exact ⟨q, (e.frees q l hl).mpr hq⟩

theorem shared (h : Shared s) (pos : 0 < (s.inode k).ref)
    (unlinked : (s'.disk (s.inode k).dev (s.inode k).inum).type = 0 →
      (s'.disk (s.inode k).dev (s.inode k).inum).nlink = 0)
    (alive : ∀ q, (q, k) ∈ s.refs → (s'.pc q).leaves = some k ∨
      (s'.disk (s.inode k).dev (s.inode k).inum).type ≠ 0)
    (sync : (s'.inode k).valid = true → (∃ q, s'.pc q = .invalidate k) ∨ Synced s' k)
    (claim : ∀ q, s.pc q = .claimed (s.inode k).dev (s.inode k).inum →
      Claimed s' (s.inode k).dev (s.inode k).inum) : Shared s' := by
  refine ⟨?_, ?_, ?_, ?_, ?_, ?_, ?_⟩
  · intro l
    unfold State.count
    rw [e.ref_eq, e.refs]
    exact h.counted l
  · intro l m
    rw [e.ref_eq, e.ref_eq, e.dev_eq, e.dev_eq, e.inum_eq, e.inum_eq]
    exact h.unique l m
  · intro dev inum
    by_cases hkey : dev = (s.inode k).dev → inum ≠ (s.inode k).inum
    · rw [e.disk dev inum hkey]
      exact h.unlinked dev inum
    · push Not at hkey
      rw [hkey.1, hkey.2]
      exact unlinked
  · intro q l
    rw [e.refs, e.dev_eq, e.inum_eq]
    intro hq
    by_cases hl : l = k
    · rw [hl] at hq ⊢
      exact alive q hq
    · rw [e.leaves q l hl, e.disk_eq h pos hl (h.pos hq)]
      exact h.alive q l hq
  · intro l
    rw [e.ref_eq]
    intro used valid
    by_cases hl : l = k
    · rw [hl] at valid ⊢
      exact sync valid
    · rw [e.other l hl] at valid
      obtain ⟨q, hq⟩ | hsync := h.synced l used valid
      · exact .inl ⟨q, (e.frees q l hl).mpr hq⟩
      · exact .inr (e.synced h pos hl used hsync)
  · intro q dev inum hq
    rw [e.claims] at hq
    by_cases hkey : dev = (s.inode k).dev → inum ≠ (s.inode k).inum
    · exact e.claimed hkey (h.claimed q dev inum hq)
    · push Not at hkey
      rw [hkey.1, hkey.2] at hq ⊢
      exact claim q hq
  · intro q r dev inum hq hr
    rw [e.claims] at hq hr
    exact h.claimant q r dev inum hq hr

end Edit

omit [DecidableEq P] in
theorem count_gain (s : State P) (p : P) (k : Fin NINODE) (ip : Entry P) (l : Fin NINODE) :
    (s.gain p k ip).count l = s.count l + if k = l then 1 else 0 :=
  Multiset.countP_cons ..

theorem count_lose (holds : (p, k) ∈ s.refs) (l : Fin NINODE) :
    (s.lose p k).count l + (if k = l then 1 else 0) = s.count l := by
  have hcons := Multiset.countP_cons (fun r => r.2 = l) (p, k) (s.refs.erase (p, k))
  rw [Multiset.cons_erase holds] at hcons
  exact hcons.symm

/-- The entry from `iget` has one more reference; if it was not in use it has to be read in. -/
structure Got.Spec (s : State P) (dev inum : Nat) (k : Fin NINODE) (ip : Entry P) : Prop where
  dev_eq : ip.dev = dev
  inum_eq : ip.inum = inum
  ref_eq : ip.ref = (s.inode k).ref + 1
  lock_eq : ip.lock = (s.inode k).lock
  data_eq : ip.toDinode = (s.inode k).toDinode
  used : 0 < (s.inode k).ref →
    (s.inode k).dev = dev ∧ (s.inode k).inum = inum ∧ ip.valid = (s.inode k).valid
  unused : (s.inode k).ref ≤ 0 → ip.valid = false
  other : ∀ l, l ≠ k → 0 < (s.inode l).ref → (s.inode l).dev = dev → (s.inode l).inum ≠ inum

omit [DecidableEq P] in
theorem Got.spec {dev inum : Nat} {ip : Entry P} (h : Shared s) (got : Got s.inode dev inum k ip) :
    Got.Spec s dev inum k ip := by
  cases got with
  | hit used dev_eq inum_eq =>
    refine ⟨dev_eq, inum_eq, rfl, rfl, rfl, fun _ => ⟨dev_eq, inum_eq, rfl⟩, ?_, ?_⟩
    · intro unused
      omega
    · intro l hl pos hdev hinum
      exact hl (h.unique l k pos used (hdev.trans dev_eq.symm) (hinum.trans inum_eq.symm))
  | recycled unused missing =>
    refine ⟨rfl, rfl, by rw [unused]; rfl, rfl, rfl, ?_, fun _ => rfl, fun l _ => missing l⟩
    intro used
    omega

omit [DecidableEq P] in
theorem Shared.gain {dev inum : Nat} {ip : Entry P} (h : Shared s) (p : P)
    (got : Got s.inode dev inum k ip) (used : (s.disk dev inum).type ≠ 0)
    (unclaimed : ∀ q, s.pc q ≠ .claimed dev inum) : Shared (s.gain p k ip) := by
  have spec := got.spec h
  have hself : (s.gain p k ip).inode k = ip := update_self ..
  have hother : ∀ l, l ≠ k → (s.gain p k ip).inode l = s.inode l := fun l hl =>
    update_of_ne hl ..
  -- a reference from before keeps its inode
  have hkey : ∀ l, 0 < (s.inode l).ref → ((s.gain p k ip).inode l).dev = (s.inode l).dev ∧
      ((s.gain p k ip).inode l).inum = (s.inode l).inum := by
    intro l pos
    obtain rfl | hl := eq_or_ne l k
    · obtain ⟨hdev, hinum, -⟩ := spec.used pos
      rw [hself, spec.dev_eq, spec.inum_eq, hdev, hinum]
      exact ⟨rfl, rfl⟩
    · rw [hother l hl]
      exact ⟨rfl, rfl⟩
  refine ⟨?_, ?_, h.unlinked, ?_, ?_, ?_, h.claimant⟩
  · intro l
    rw [count_gain]
    obtain rfl | hl := eq_or_ne l k
    · rw [hself, spec.ref_eq, h.counted, if_pos rfl]
      rfl
    · rw [hother l hl, if_neg (Ne.symm hl), h.counted]
      rfl
  · intro l m
    by_cases hl : l = k
    · by_cases hm : m = k
      · intros
        rw [hl, hm]
      · rw [hl, hself, hother m hm, spec.dev_eq, spec.inum_eq]
        intro _ pos hdev hinum
        exact absurd hinum.symm (spec.other m hm pos hdev.symm)
    · by_cases hm : m = k
      · rw [hm, hself, hother l hl, spec.dev_eq, spec.inum_eq]
        intro pos _ hdev hinum
        exact absurd hinum (spec.other l hl pos hdev)
      · rw [hother l hl, hother m hm]
        exact h.unique l m
  · intro q l hq
    obtain heq | hq := Multiset.mem_cons.mp hq
    · cases heq
      rw [hself, spec.dev_eq, spec.inum_eq]
      exact .inr used
    · obtain ⟨hdev, hinum⟩ := hkey l (h.pos hq)
      rw [hdev, hinum]
      exact h.alive q l hq
  · intro l
    obtain rfl | hl := eq_or_ne l k
    · rw [hself]
      intro _ valid
      have pos : 0 < (s.inode l).ref := by
        by_contra hnot
        rw [spec.unused (Int.not_lt.mp hnot)] at valid
        cases valid
      obtain ⟨hdev, hinum, hvalid⟩ := spec.used pos
      obtain hfree | hsync := h.synced l pos (hvalid.symm.trans valid)
      · exact .inl hfree
      · refine .inr (hsync.transfer (by rw [hself, spec.data_eq]) ?_ rfl)
        rw [hself, spec.dev_eq, spec.inum_eq, ← hdev, ← hinum]
        rfl
    · rw [hother l hl]
      intro pos valid
      obtain hfree | hsync := h.synced l pos valid
      · exact .inl hfree
      · refine .inr (hsync.transfer (by rw [hother l hl]) ?_ rfl)
        rw [hother l hl]
        rfl
  · intro q d i hq
    have hclaim := h.claimed q d i hq
    -- the entry is not one for a claimed inode
    have hne : ∀ l, ((s.gain p k ip).inode l).dev = d → ((s.gain p k ip).inode l).inum = i →
        l ≠ k := by
      rintro l hdev hinum rfl
      rw [hself, spec.dev_eq] at hdev
      rw [hself, spec.inum_eq] at hinum
      subst hdev hinum
      exact unclaimed q hq
    refine ⟨hclaim.used, hclaim.nlink, ?_, ?_⟩
    · intro l hdev hinum r hr
      have hl := hne l hdev hinum
      rw [hother l hl] at hdev hinum
      obtain heq | hr := Multiset.mem_cons.mp hr
      · cases heq
        exact absurd rfl hl
      · exact hclaim.leaving l hdev hinum r hr
    · intro l pos hdev hinum valid
      have hl := hne l hdev hinum
      rw [hother l hl] at pos hdev hinum valid
      exact hclaim.stale l pos hdev hinum valid

theorem Shared.lose (h : Shared s) (holds : (p, k) ∈ s.refs) : Shared (s.lose p k) := by
  have hentry : ∀ l, ((s.lose p k).inode l).toDinode = (s.inode l).toDinode ∧
      ((s.lose p k).inode l).dev = (s.inode l).dev ∧
      ((s.lose p k).inode l).inum = (s.inode l).inum ∧
      ((s.lose p k).inode l).valid = (s.inode l).valid := by
    intro l
    obtain rfl | hl := eq_or_ne l k
    · have hself : (s.lose p l).inode l = { s.inode l with ref := (s.inode l).ref - 1 } :=
        update_self ..
      rw [hself]
      exact ⟨rfl, rfl, rfl, rfl⟩
    · have hother : (s.lose p k).inode l = s.inode l := update_of_ne hl ..
      rw [hother]
      exact ⟨rfl, rfl, rfl, rfl⟩
  have hcount : ∀ l, ((s.lose p k).inode l).ref = (s.lose p k).count l := by
    intro l
    have hless := count_lose holds l
    have hold := h.counted l
    obtain rfl | hl := eq_or_ne l k
    · have hself : (s.lose p l).inode l = { s.inode l with ref := (s.inode l).ref - 1 } :=
        update_self ..
      rw [if_pos rfl] at hless
      rw [hself, hold, ← hless]
      push_cast
      omega
    · have hother : (s.lose p k).inode l = s.inode l := update_of_ne hl ..
      rw [if_neg (Ne.symm hl)] at hless
      rw [hother, hold]
      omega
  have hpos : ∀ l, 0 < ((s.lose p k).inode l).ref → 0 < (s.inode l).ref := by
    intro l pos
    have hless := count_lose holds l
    rw [hcount] at pos
    rw [h.counted]
    omega
  have hmem : ∀ q l, (q, l) ∈ (s.lose p k).refs → (q, l) ∈ s.refs := fun q l =>
    Multiset.mem_of_mem_erase
  refine ⟨hcount, ?_, h.unlinked, ?_, ?_, ?_, h.claimant⟩
  · intro l m hl hm
    rw [(hentry l).2.1, (hentry m).2.1, (hentry l).2.2.1, (hentry m).2.2.1]
    exact h.unique l m (hpos l hl) (hpos m hm)
  · intro q l hq
    rw [(hentry l).2.1, (hentry l).2.2.1]
    exact h.alive q l (hmem q l hq)
  · intro l pos valid
    rw [(hentry l).2.2.2] at valid
    obtain hfree | hsync := h.synced l (hpos l pos) valid
    · exact .inl hfree
    · refine .inr (hsync.transfer (hentry l).1 ?_ rfl)
      rw [(hentry l).2.1, (hentry l).2.2.1]
      rfl
  · intro q dev inum hq
    have hclaim := h.claimed q dev inum hq
    refine ⟨hclaim.used, hclaim.nlink, ?_, ?_⟩
    · intro l
      rw [(hentry l).2.1, (hentry l).2.2.1]
      intro hdev hinum r hr
      exact hclaim.leaving l hdev hinum r (hmem r l hr)
    · intro l pos
      rw [(hentry l).2.1, (hentry l).2.2.1, (hentry l).2.2.2]
      exact hclaim.stale l (hpos l pos)

theorem Shared.claim {dev inum n : Nat} {type : BitVec 16} (h : Shared s)
    (here : s.pc p = .ialloc dev type n) (typed : type ≠ 0)
    (free : (s.disk dev inum).type = 0) :
    Shared ((s.setDisk dev inum { Dinode.zero with type := type }).goto p (.claimed dev inum)) := by
  set s' := (s.setDisk dev inum { Dinode.zero with type := type }).goto p (.claimed dev inum)
    with hs'
  have hhit : s'.disk dev inum = { Dinode.zero with type := type } := by
    simp [hs', State.goto, State.setDisk]
  have hmiss : ∀ d i, ¬(d = dev ∧ i = inum) → s'.disk d i = s.disk d i := by
    intro d i hne
    obtain rfl | hd := eq_or_ne d dev
    · have hi : i ≠ inum := fun hi => hne ⟨rfl, hi⟩
      simp [hs', State.goto, State.setDisk, hi]
    · simp [hs', State.goto, State.setDisk, hd]
  have hinode : s'.inode = s.inode := rfl
  have hself : s'.pc p = .claimed dev inum := update_self ..
  have hother : ∀ q, q ≠ p → s'.pc q = s.pc q := fun q hq => update_of_ne hq ..
  have hleaves : ∀ q, (s'.pc q).leaves = (s.pc q).leaves := by
    intro q
    by_cases hq : q = p
    · rw [hq, hself, here]
      rfl
    · rw [hother q hq]
  have hfrees : ∀ q l, s.pc q = .invalidate l → s'.pc q = .invalidate l := by
    intro q l hq
    have hne : q ≠ p := by
      rintro rfl
      rw [here] at hq
      cases hq
    rw [hother q hne, hq]
  refine ⟨h.counted, h.unique, ?_, ?_, ?_, ?_, ?_⟩
  · intro d i
    by_cases hkey : d = dev ∧ i = inum
    · rw [hkey.1, hkey.2, hhit]
      intro hzero
      exact absurd hzero typed
    · rw [hmiss d i hkey]
      exact h.unlinked d i
  · intro q l hq
    rw [hleaves, hinode]
    by_cases hkey : (s.inode l).dev = dev ∧ (s.inode l).inum = inum
    · rw [hkey.1, hkey.2, hhit]
      exact .inr typed
    · rw [hmiss _ _ hkey]
      exact h.alive q l hq
  · intro l pos valid
    obtain ⟨q, hq⟩ | hsync := h.synced l pos valid
    · exact .inl ⟨q, hfrees q l hq⟩
    · refine .inr (hsync.transfer rfl (hmiss _ _ ?_) rfl)
      rw [hinode]
      rintro ⟨hdev, hinum⟩
      apply hsync.used
      rw [← hsync.type_eq, hdev, hinum, free]
  · intro q d i hq
    by_cases hp : q = p
    · rw [hp, hself] at hq
      cases hq
      refine ⟨?_, ?_, ?_, ?_⟩
      · rw [hhit]
        exact typed
      · rw [hhit]
        rfl
      · intro l hdev hinum r hr
        rw [hleaves]
        obtain hleave | hused := h.alive r l hr
        · exact hleave
        · rw [hinode] at hdev hinum
          rw [hdev, hinum, free] at hused
          exact absurd rfl hused
      · intro l pos hdev hinum valid
        obtain ⟨r, hr⟩ | hsync := h.synced l pos valid
        · exact ⟨r, hfrees r l hr⟩
        · rw [hinode] at hdev hinum
          have htype := hsync.type_eq
          rw [hdev, hinum, free] at htype
          exact absurd htype.symm hsync.used
    · rw [hother q hp] at hq
      have hclaim := h.claimed q d i hq
      have hkey : ¬(d = dev ∧ i = inum) := by
        rintro ⟨rfl, rfl⟩
        exact hclaim.used free
      refine ⟨?_, ?_, ?_, ?_⟩
      · rw [hmiss d i hkey]
        exact hclaim.used
      · rw [hmiss d i hkey]
        exact hclaim.nlink
      · intro l hdev hinum r hr
        rw [hleaves]
        exact hclaim.leaving l hdev hinum r hr
      · intro l pos hdev hinum valid
        obtain ⟨r, hr⟩ := hclaim.stale l pos hdev hinum valid
        exact ⟨r, hfrees r l hr⟩
  · -- only one process can find the inode free
    have hlone : ∀ q d i, q ≠ p → s'.pc q = .claimed d i → ¬(d = dev ∧ i = inum) := by
      rintro q d i hq hclaims ⟨rfl, rfl⟩
      rw [hother q hq] at hclaims
      exact (h.claimed q d i hclaims).used free
    intro q r d i hq hr
    by_cases hqp : q = p <;> by_cases hrp : r = p
    · rw [hqp, hrp]
    · rw [hqp, hself] at hq
      cases hq
      exact absurd ⟨rfl, rfl⟩ (hlone r dev inum hrp hr)
    · rw [hrp, hself] at hr
      cases hr
      exact absurd ⟨rfl, rfl⟩ (hlone q dev inum hqp hq)
    · rw [hother q hqp] at hq
      rw [hother r hrp] at hr
      exact h.claimant q r d i hq hr

end Xv6.Itable
