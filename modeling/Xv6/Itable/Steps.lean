import Xv6.Itable.Invariant

/-! Every step of a process keeps the invariant of the inode table. -/
namespace Xv6.Itable

open Multiset State

variable {P : Type} [DecidableEq P] {s s' t next : State P} {p q : P} {k : Fin NINODE} {pc : Pc}

theorem Shared.only (h : Shared s) (one : (s.inode k).ref = 1) (hp : (p, k) ∈ s.refs)
    (hq : (q, k) ∈ s.refs) : q = p := by
  by_contra hne
  have hmem : (q, k) ∈ (s.lose p k).refs :=
    (mem_erase_of_ne (fun heq => hne (congrArg Prod.fst heq))).mpr hq
  have hpos : 0 < (s.lose p k).count k := countP_pos.mpr ⟨(q, k), hmem, rfl⟩
  have hless := count_lose hp k
  rw [if_pos rfl] at hless
  rw [h.counted] at one
  omega

theorem Shared.count_one (h : Shared s) (one : (s.inode k).ref = 1) (hp : (p, k) ∈ s.refs) :
    s.refs.count (p, k) = 1 := by
  have hless := count_lose hp k
  rw [if_pos rfl] at hless
  rw [h.counted] at one
  have hnot : (p, k) ∉ s.refs.erase (p, k) := by
    intro hmem
    have hpos : 0 < (s.lose p k).count k := countP_pos.mpr ⟨(p, k), hmem, rfl⟩
    omega
  have herase := count_erase_self (p, k) s.refs
  rw [count_eq_zero.mpr hnot] at herase
  have hmem := count_pos.mpr hp
  omega

/-- Nothing to do with entries other than `k`. -/
def Pc.Near (k : Fin NINODE) : Pc → Prop
  | .invalidate l | .drop l => l = k
  | .claimed _ _ => False
  | _ => True

theorem Pc.leaves_of_frees (h : pc.frees = some k) : pc.leaves = none := by
  cases pc <;> first | rfl | cases h

theorem Pc.Near.leaves {l : Fin NINODE} (h : pc.Near k) (hl : l ≠ k) : pc.leaves ≠ some l := by
  cases pc with
  | invalidate m | drop m =>
    intro hm
    exact hl ((Option.some.inj hm).symm.trans h)
  | _ =>
    intro hm
    cases hm

theorem Pc.Near.invalidate {l : Fin NINODE} (h : pc.Near k) (hl : l ≠ k) :
    pc ≠ .invalidate l := by
  rintro rfl
  exact hl h

theorem Pc.Near.claimed {dev inum : Nat} (h : pc.Near k) : pc ≠ .claimed dev inum := by
  rintro rfl
  exact h

namespace Edit

theorem of_setInode {ip : Entry P} (dev : ip.dev = (s.inode k).dev)
    (inum : ip.inum = (s.inode k).inum) (ref : ip.ref = (s.inode k).ref)
    (before : (s.pc p).Near k) (after : pc.Near k) : Edit s ((s.setInode k ip).goto p pc) k := by
  have hself : ((s.setInode k ip).goto p pc).pc p = pc := Function.update_self ..
  have hother : ∀ q, q ≠ p → ((s.setInode k ip).goto p pc).pc q = s.pc q := fun q hq =>
    Function.update_of_ne hq ..
  have hentry : ((s.setInode k ip).goto p pc).inode k = ip := s.setInode_self k ip
  refine ⟨rfl, fun l => s.setInode_of_ne ip, fun _ _ => rfl, ?_, ?_, ?_, fun _ _ _ => rfl,
    ?_, ?_, ?_⟩
  · rw [hentry, dev]
  · rw [hentry, inum]
  · rw [hentry, ref]
  · intro q l hl
    by_cases hq : q = p
    · rw [hq, hself]
      exact ⟨fun h => absurd h (after.leaves hl), fun h => absurd h (before.leaves hl)⟩
    · rw [hother q hq]
  · intro q l hl
    by_cases hq : q = p
    · rw [hq, hself]
      exact ⟨fun h => absurd h (after.invalidate hl), fun h => absurd h (before.invalidate hl)⟩
    · rw [hother q hq]
  · intro q dev inum
    by_cases hq : q = p
    · rw [hq, hself]
      exact ⟨fun h => absurd h after.claimed, fun h => absurd h before.claimed⟩
    · rw [hother q hq]

theorem setDirty (e : Edit s (t.goto p pc) k) (b : Bool) :
    Edit s ((t.setDirty k b).goto p pc) k :=
  { e with
    dirty := fun l hl => (t.setDirty_of_ne b hl).trans (e.dirty l hl) }

theorem writeBack (e : Edit s (t.goto p pc) k) : Edit s ((t.writeBack k).goto p pc) k := by
  have hdev : (t.inode k).dev = (s.inode k).dev := e.dev
  have hinum : (t.inode k).inum = (s.inode k).inum := e.inum
  exact { e with
    dirty := fun l hl => (t.setDirty_of_ne false hl).trans (e.dirty l hl)
    disk := fun dev inum hne =>
      (t.setDisk_of_ne _ (by rw [hdev, hinum]; exact hne)).trans (e.disk dev inum hne) }

end Edit

/-- Only the lock's holder edits an entry. -/
theorem Frame.of_edit (inv : Invariant s) (locked : (s.inode k).lock = some p)
    (e : Edit s (t.goto p pc) k) (pcs : t.pc = s.pc) (mutex : t.lock = s.lock)
    (lock : (t.inode k).lock = some p ∨ (t.inode k).lock = none) : Frame s (t.goto p pc) p := by
  -- no other process holds the lock or is about to take it in `iput`
  have hlone : ∀ q, q ≠ p → (s.inode k).lock ≠ some q ∧ s.pc q ≠ .iputLock k := by
    intro q hq
    rw [locked]
    refine ⟨fun h => hq (Option.some.inj h).symm, ?_⟩
    intro hwaits
    have hnone := ((inv.process q).waits k hwaits).2
    rw [locked] at hnone
    cases hnone
  refine ⟨?_, ?_, ?_, ?_, ?_, ?_, ?_⟩
  · intro q hq
    rw [← pcs]
    exact Function.update_of_ne hq ..
  · intro q l _
    rw [e.refs]
  · intro q _ hlock
    exact mutex.trans hlock
  · intro q l hq
    obtain rfl | hl := eq_or_ne l k
    · refine ⟨?_, fun h => absurd h (hlone q hq).1⟩
      intro h
      obtain hlock | hlock := lock
      · exact absurd (Option.some.inj (hlock.symm.trans h)).symm hq
      · cases hlock.symm.trans h
    · rw [e.other l hl]
  · intro q l hq hwaits
    have hl : l ≠ k := by
      rintro rfl
      exact (hlone q hq).2 hwaits
    rw [e.other l hl]
    exact ((inv.process q).waits l hwaits).2
  · intro q l hq hown
    have hl : l ≠ k := by
      rintro rfl
      obtain h | h := hown
      · exact (hlone q hq).1 h
      · exact (hlone q hq).2 h
    rw [e.other l hl]
    exact ⟨rfl, rfl⟩
  · intro q l _ _
    exact e.ref_eq l

theorem Invariant.of_frame (inv : Invariant s) (f : Frame s s' p) (own : Local s' p)
    (shared : Shared s') : Invariant s' := by
  refine ⟨?_, shared⟩
  intro q
  by_cases hq : q = p
  · rw [hq]
    exact own
  · exact (inv.process q).frame f hq

/-- What a process at a place has to keep. -/
def Pc.Keeps (s : State P) (p : P) : Pc → Prop
  | .caller | .claimed _ _ => True
  | .ialloc _ type _ => type ≠ 0
  | .load k => (s.inode k).lock = some p
  | .iputLock k => Last s p k ∧ s.lock = some p ∧ (s.inode k).lock = none
  | .itrunc k _ | .free k => Last s p k ∧ (s.inode k).lock = some p
  | .invalidate k => s.refs.count (p, k) = 1 ∧ (s.inode k).lock = some p ∧
      (s.inode k).valid = true ∧ (s.inode k).nlink = 0
  | .drop k => s.refs.count (p, k) = 1 ∧ (s.inode k).lock ≠ some p

theorem Local.of_keeps (here : s.pc p = pc) (keeps : pc.Keeps s p)
    (held : ∀ k, (s.inode k).lock = some p →
      (p, k) ∈ s.refs ∧ ((s.inode k).valid = true ∨ pc = .load k)) : Local s p := by
  refine ⟨fun k hk => here.symm ▸ held k hk, ?_, ?_, ?_, ?_, ?_, ?_, ?_⟩
  all_goals
    rw [here]
    intros
    cases pc <;> simp_all [Pc.Keeps, Pc.locks, Pc.frees, Pc.leaves]

theorem Local.of_valid (here : s.pc p = pc) (keeps : pc.Keeps s p)
    (held : ∀ k, (s.inode k).lock = some p → (p, k) ∈ s.refs ∧ (s.inode k).valid = true) :
    Local s p :=
  .of_keeps here keeps fun k hk => (held k hk).imp_right .inl

theorem Frame.of_goto (inode : t.inode = s.inode) (refs : t.refs = s.refs) (pcs : t.pc = s.pc)
    (mutex : ∀ q, q ≠ p → s.lock = some q → t.lock = some q) (inv : Invariant s) :
    Frame s (t.goto p pc) p := by
  refine ⟨?_, ?_, mutex, ?_, ?_, ?_, ?_⟩
  · intro q hq
    rw [goto_of_ne _ _ hq, pcs]
  · intro q l _
    rw [goto_refs, refs]
  · intro q l _
    rw [goto_inode, inode]
  · intro q l _ hwaits
    rw [goto_inode, inode]
    exact ((inv.process q).waits l hwaits).2
  · intro q l _ _
    rw [goto_inode, inode]
    exact ⟨rfl, rfl⟩
  · intro q l _ _
    rw [goto_inode, inode]

theorem Shared.goto (h : Shared s) (before : (s.pc p).leaves = none) (after : pc.leaves = none)
    (unclaims : ∀ dev inum, pc ≠ .claimed dev inum) : Shared (s.goto p pc) := by
  refine h.of_same (fun _ => ⟨rfl, rfl, rfl, rfl, rfl⟩) rfl rfl rfl ?_ ?_ ?_
  · intro q l _
    by_cases hq : q = p
    · simp [hq, before, after]
    · rw [goto_of_ne _ _ hq]
  · intro q l
    by_cases hq : q = p
    · rw [hq, goto_self]
      refine ⟨fun h => ?_, fun h => ?_⟩
      · rw [h] at after
        cases after
      · rw [h] at before
        cases before
    · rw [goto_of_ne _ _ hq]
  · intro q dev inum hclaims
    by_cases hq : q = p
    · rw [hq, goto_self] at hclaims
      exact absurd hclaims (unclaims dev inum)
    · rwa [goto_of_ne _ _ hq] at hclaims

omit [DecidableEq P] in
theorem same_setLock (s : State P) (k : Fin NINODE) (lock : Option P) (l : Fin NINODE) :
    (s.inode l).Same ((s.setInode k { s.inode k with lock := lock }).inode l) := by
  obtain rfl | hl := eq_or_ne l k
  · rw [setInode_self]
    exact ⟨rfl, rfl, rfl, rfl, rfl⟩
  · rw [setInode_of_ne _ _ hl]
    exact ⟨rfl, rfl, rfl, rfl, rfl⟩

omit [DecidableEq P] in
theorem Shared.setLock (h : Shared s) (k : Fin NINODE) (lock mutex : Option P) :
    Shared { s.setInode k { s.inode k with lock := lock } with lock := mutex } :=
  h.of_same (same_setLock s k lock) rfl rfl rfl (fun _ _ _ => Iff.rfl) (fun _ _ => Iff.rfl)
    (fun _ _ _ h => h)

namespace Invariant

variable (inv : Invariant s)

include inv

theorem held (hlock : (s.inode k).lock = some p) (here : s.pc p ≠ .load k) :
    (p, k) ∈ s.refs ∧ (s.inode k).valid = true := by
  obtain ⟨holds, valid | hload⟩ := (inv.process p).held k hlock
  · exact ⟨holds, valid⟩
  · exact absurd hload here

/-- The lock's holder sees the inode as on disk, up to its own changes. -/
theorem synced (locked : (s.inode k).lock = some p) (valid : (s.inode k).valid = true)
    (here : s.pc p ≠ .invalidate k) : Synced s k := by
  have holds := ((inv.process p).held k locked).1
  obtain ⟨q, hq⟩ | hsync := inv.shared.synced k (inv.shared.pos holds) valid
  · have hlock := (inv.process q).locks k (by rw [hq]; rfl)
    rw [locked] at hlock
    cases hlock
    exact absurd hq here
  · exact hsync

theorem edit (locked : (s.inode k).lock = some p) (stays : (s.pc p).leaves ≠ some k)
    (e : Edit s (t.goto p pc) k) (pcs : t.pc = s.pc) (mutex : t.lock = s.lock)
    (lock : (t.inode k).lock = some p ∨ (t.inode k).lock = none) (own : Local (t.goto p pc) p)
    (sync : Synced (t.goto p pc) k) : Invariant (t.goto p pc) := by
  have holds := ((inv.process p).held k locked).1
  have hused := sync.type_eq.trans_ne sync.used
  rw [e.dev, e.inum] at hused
  refine inv.of_frame (Frame.of_edit inv locked e pcs mutex lock) own
    (e.shared inv.shared (inv.shared.pos holds) ?_ (fun _ _ => .inr hused) (fun _ => .inr sync) ?_)
  · intro hzero
    exact absurd hzero hused
  · intro q hq
    exact absurd ((inv.shared.claimed q _ _ hq).leaving k rfl rfl p holds) stays

theorem iunlock (here : s.pc p = .caller) (locked : (s.inode k).lock = some p) :
    Invariant (s.setInode k { s.inode k with lock := none }) := by
  have hload : ∀ l, s.pc p ≠ .load l := by simp [here]
  have hsync := inv.synced locked (inv.held locked (hload k)).2 (by simp [here])
  rw [← goto_eq (s.setInode k { s.inode k with lock := none }) here]
  refine inv.edit locked (by simp [here, Pc.leaves])
    (Edit.of_setInode rfl rfl rfl (by simp [here, Pc.Near]) trivial) rfl rfl (.inr (by simp))
    (Local.of_valid (goto_self ..) trivial ?_) (hsync.transfer (by simp) (by simp; rfl) rfl)
  intro l hl
  have hne : l ≠ k := by
    rintro rfl
    simp at hl
  rw [goto_inode, setInode_of_ne _ _ hne] at hl ⊢
  exact inv.held hl (hload l)

theorem change {d : Dinode} (locked : (s.inode k).lock = some p) (hload : ∀ l, s.pc p ≠ .load l)
    (stays : (s.pc p).leaves ≠ some k) (near : (s.pc p).Near k) (after : pc.Near k)
    (type_eq : d.type = (s.inode k).type)
    (keeps : pc.Keeps (((s.setInode k ((s.inode k).setData d)).setDirty k true).goto p pc) p) :
    Invariant (((s.setInode k ((s.inode k).setData d)).setDirty k true).goto p pc) := by
  have sync := inv.synced locked (inv.held locked (hload k)).2 fun h => stays (congrArg Pc.leaves h)
  have e : Edit s ((s.setInode k ((s.inode k).setData d)).goto p pc) k :=
    Edit.of_setInode rfl rfl rfl near after
  refine inv.edit locked stays (e.setDirty true) rfl rfl (.inl (by simpa using locked))
    (Local.of_valid (goto_self ..) keeps ?_) ⟨?_, ?_, ?_⟩
  · intro l hl
    simpa using inv.held (by simpa using hl) (hload l)
  · simp only [goto_inode, setDirty_inode, setInode_self]
    exact type_eq.trans_ne sync.used
  · simp only [goto_inode, setDirty_inode, setInode_self]
    exact sync.type_eq.trans type_eq.symm
  · intro clean
    simp at clean

theorem update {d : Dinode} (locked : (s.inode k).lock = some p) (hload : ∀ l, s.pc p ≠ .load l)
    (stays : (s.pc p).leaves ≠ some k) (near : (s.pc p).Near k) (after : pc.Near k)
    (type_eq : d.type = (s.inode k).type)
    (keeps : pc.Keeps (((s.setInode k ((s.inode k).setData d)).writeBack k).goto p pc) p) :
    Invariant (((s.setInode k ((s.inode k).setData d)).writeBack k).goto p pc) := by
  have sync := inv.synced locked (inv.held locked (hload k)).2 fun h => stays (congrArg Pc.leaves h)
  have e : Edit s ((s.setInode k ((s.inode k).setData d)).goto p pc) k :=
    Edit.of_setInode rfl rfl rfl near after
  refine inv.edit locked stays e.writeBack rfl rfl (.inl (by simpa using locked))
    (Local.of_valid (goto_self ..) keeps ?_) ⟨?_, ?_, ?_⟩
  · intro l hl
    simpa using inv.held (by simpa using hl) (hload l)
  · simp only [goto_inode, writeBack_inode, setInode_self]
    exact type_eq.trans_ne sync.used
  · simp only [goto_inode, goto_disk, writeBack_inode, writeBack_disk]
  · intro _
    simp only [goto_inode, goto_disk, writeBack_inode, writeBack_disk]

theorem load (here : s.pc p = .load k)
    (used : (s.disk (s.inode k).dev (s.inode k).inum).type ≠ 0) :
    Invariant (((s.setInode k
      { (s.inode k).setData (s.disk (s.inode k).dev (s.inode k).inum) with
        valid := true }).setDirty k false).goto p .caller) := by
  have locked := (inv.process p).locks k (by rw [here]; rfl)
  have e : Edit s ((s.setInode k
      { (s.inode k).setData (s.disk (s.inode k).dev (s.inode k).inum) with
        valid := true }).goto p .caller) k :=
    Edit.of_setInode rfl rfl rfl (by simp [here, Pc.Near]) trivial
  refine inv.edit locked (by simp [here, Pc.leaves]) (e.setDirty false) rfl rfl
    (.inl (by simpa using locked)) (Local.of_valid (goto_self ..) trivial ?_) ⟨?_, ?_, ?_⟩
  · intro l hl
    obtain rfl | hk := eq_or_ne l k
    · exact ⟨((inv.process p).held l locked).1, by simp⟩
    · simp only [goto_inode, setDirty_inode, setInode_of_ne _ _ hk] at hl ⊢
      exact inv.held hl (by simp [here, Ne.symm hk])
  · simpa using used
  · simp
    rfl
  · intro _
    simp
    rfl

theorem free (here : s.pc p = .free k) :
    Invariant (((s.setInode k ((s.inode k).setData
      { (s.inode k).toDinode with type := 0 })).writeBack k).goto p (.invalidate k)) := by
  have locked := (inv.process p).locks k (by rw [here]; rfl)
  have last := (inv.process p).frees k (by rw [here]; rfl)
  have e : Edit s ((s.setInode k ((s.inode k).setData
      { (s.inode k).toDinode with type := 0 })).goto p (.invalidate k)) k :=
    Edit.of_setInode rfl rfl rfl (by simp [here, Pc.Near]) rfl
  have hdisk := writeBack_disk (s.setInode k ((s.inode k).setData
    { (s.inode k).toDinode with type := 0 })) k
  simp only [setInode_self, Entry.setData_dev, Entry.setData_inum, Entry.setData_data]
    at hdisk
  refine inv.of_frame (Frame.of_edit inv locked e.writeBack rfl rfl (.inl (by simpa using locked)))
    (Local.of_valid (goto_self ..) ⟨inv.shared.count_one last.ref last.holds, by simpa using locked, ?_⟩
      ?_)
    (e.writeBack.shared inv.shared (inv.shared.pos last.holds) ?_ ?_ ?_ ?_)
  · simpa using ⟨last.valid, last.nlink⟩
  · intro l hl
    simp only [goto_inode, writeBack_inode, setInode_setData_lock,
      setInode_setData_valid] at hl ⊢
    exact inv.held hl (by simp [here])
  · intro _
    rw [goto_disk, hdisk]
    exact last.nlink
  · intro q hq
    rw [inv.shared.only last.ref last.holds hq, goto_self]
    exact .inl rfl
  · intro _
    exact .inl ⟨p, goto_self ..⟩
  · intro q hq
    have hleaves := (inv.shared.claimed q _ _ hq).leaving k rfl rfl p last.holds
    rw [here] at hleaves
    cases hleaves

theorem invalidate (here : s.pc p = .invalidate k) :
    Invariant ((s.setInode k { s.inode k with valid := false, lock := none }).goto p
      (.drop k)) := by
  have locked := (inv.process p).locks k (by rw [here]; rfl)
  have one := (inv.process p).leaves k (by rw [here]; rfl)
  have holds : (p, k) ∈ s.refs := count_pos.mp (by omega)
  have e : Edit s ((s.setInode k { s.inode k with valid := false, lock := none }).goto p
      (.drop k)) k :=
    Edit.of_setInode rfl rfl rfl (by simp [here, Pc.Near]) rfl
  set s' := (s.setInode k { s.inode k with valid := false, lock := none }).goto p (.drop k)
  have hself : s'.inode k = { s.inode k with valid := false, lock := none } :=
    s.setInode_self k _
  have hleaves : ∀ q l, (s.pc q).leaves = some l → (s'.pc q).leaves = some l := by
    intro q l hq
    by_cases hqp : q = p
    · rw [hqp, here] at hq
      rw [hqp, goto_self]
      exact hq
    · rwa [goto_of_ne _ _ hqp]
  refine inv.of_frame (Frame.of_edit inv locked e rfl rfl (.inr (by simp)))
    (Local.of_valid (goto_self ..) ⟨one, by simp [hself]⟩ ?_)
    (e.shared inv.shared (inv.shared.pos holds) (inv.shared.unlinked _ _) ?_ ?_ ?_)
  · intro l hl
    have hl' : l ≠ k := by
      rintro rfl
      simp [hself] at hl
    rw [e.other l hl'] at hl ⊢
    exact inv.held hl (by simp [here])
  · intro q hq
    obtain hq | hused := inv.shared.alive q k hq
    · exact .inl (hleaves q k hq)
    · exact .inr hused
  · intro valid
    simp [hself] at valid
  · intro q hq
    have hclaim := inv.shared.claimed q _ _ hq
    refine ⟨hclaim.used, hclaim.nlink, ?_, ?_⟩
    · intro l
      rw [e.dev_eq, e.inum_eq]
      intro hdev hinum r hr
      exact hleaves r l (hclaim.leaving l hdev hinum r hr)
    · intro l
      rw [e.dev_eq, e.inum_eq, e.ref_eq]
      intro pos hdev hinum valid
      have hl : l ≠ k := by
        rintro rfl
        simp [hself] at valid
      rw [e.other l hl] at valid
      obtain ⟨r, hr⟩ := hclaim.stale l pos hdev hinum valid
      exact ⟨r, (e.frees r l hl).mpr hr⟩

theorem frame_acquire (holds : (p, k) ∈ s.refs) (unlocked : (s.inode k).lock = none)
    (mutex : Option P) (hmutex : ∀ q, q ≠ p → s.lock = some q → mutex = some q) :
    Frame s ({ s.setInode k { s.inode k with lock := some p } with lock := mutex }.goto p pc) p := by
  have hself : (s.setInode k { s.inode k with lock := some p }).inode k =
      { s.inode k with lock := some p } := s.setInode_self k _
  -- a process about to lock the entry in `iput` has the only reference
  have hidle : ∀ q, q ≠ p → s.pc q ≠ .iputLock k := by
    intro q hq hwaits
    have last := (inv.process q).frees k (by rw [hwaits]; rfl)
    exact hq (inv.shared.only last.ref last.holds holds).symm
  refine ⟨fun q hq => goto_of_ne _ _ hq, fun _ _ _ => rfl, hmutex, ?_, ?_, ?_, ?_⟩
  · intro q l hq
    rw [goto_inode]
    obtain rfl | hl := eq_or_ne l k
    · rw [hself, unlocked]
      simp [Ne.symm hq]
    · dsimp only
      rw [setInode_of_ne _ _ hl]
  · intro q l hq hwaits
    have hl : l ≠ k := by
      rintro rfl
      exact hidle q hq hwaits
    rw [goto_inode]
    dsimp only
    rw [setInode_of_ne _ _ hl]
    exact ((inv.process q).waits l hwaits).2
  · intro q l _ _
    have hsame := same_setLock s k (some p) l
    exact ⟨hsame.data, hsame.valid⟩
  · intro q l _ _
    exact (same_setLock s k (some p) l).ref

theorem ilock (here : s.pc p = .caller) (holds : (p, k) ∈ s.refs)
    (unlocked : (s.inode k).lock = none) :
    Invariant ((s.setInode k { s.inode k with lock := some p }).goto p
      (if (s.inode k).valid then .caller else .load k)) := by
  have hframe : Frame s ((s.setInode k { s.inode k with lock := some p }).goto p
      (if (s.inode k).valid then .caller else .load k)) p :=
    inv.frame_acquire holds unlocked s.lock (fun _ _ h => h)
  have hother : ∀ l, ((s.setInode k { s.inode k with lock := some p }).inode l).lock = some p →
      l ≠ k → (p, l) ∈ s.refs ∧
        ((s.setInode k { s.inode k with lock := some p }).inode l).valid = true := by
    intro l hl hne
    rw [setInode_of_ne _ _ hne] at hl ⊢
    exact inv.held hl (by simp [here])
  have hshared := inv.shared.setLock k (some p) s.lock
  cases hvalid : (s.inode k).valid with
  | true =>
    rw [hvalid] at hframe
    refine inv.of_frame hframe (Local.of_valid (goto_self ..) trivial ?_)
      (hshared.goto (by simp [State.setInode, here, Pc.leaves]) rfl (by simp))
    intro l hl
    obtain rfl | hne := eq_or_ne l k
    · exact ⟨holds, by simpa using hvalid⟩
    · exact hother l hl hne
  | false =>
    rw [hvalid] at hframe
    refine inv.of_frame hframe (Local.of_keeps (goto_self ..) (by simp [Pc.Keeps]) ?_)
      (hshared.goto (by simp [State.setInode, here, Pc.leaves]) rfl (by simp))
    intro l hl
    obtain rfl | hne := eq_or_ne l k
    · exact ⟨holds, .inr rfl⟩
    · exact (hother l hl hne).imp_right .inl

theorem iputLock (here : s.pc p = .iputLock k) :
    Invariant ({ s.setInode k { s.inode k with lock := some p } with lock := none }.goto p
      (.itrunc k 0)) := by
  have last := (inv.process p).frees k (by rw [here]; rfl)
  obtain ⟨hmutex, unlocked⟩ := (inv.process p).waits k here
  refine inv.of_frame (inv.frame_acquire last.holds unlocked none ?_)
    (Local.of_valid (goto_self ..) ⟨?_, by simp⟩ ?_)
    ((inv.shared.setLock k (some p) none).goto
      (by simp [State.setInode, here, Pc.leaves]) rfl (by simp))
  · intro q hq hlock
    rw [hmutex] at hlock
    exact absurd (Option.some.inj hlock).symm hq
  · exact ⟨by simpa using last.valid, by simpa using last.nlink, by simpa using last.ref,
      last.holds⟩
  · intro l hl
    obtain rfl | hne := eq_or_ne l k
    · exact ⟨last.holds, by simpa using last.valid⟩
    · simp only [goto_inode, setInode_of_ne _ _ hne] at hl ⊢
      exact inv.held hl (by simp [here])

theorem goto_caller (before : (s.pc p).leaves = none) (hload : ∀ l, s.pc p ≠ .load l) :
    Invariant (s.goto p .caller) :=
  inv.of_frame (Frame.of_goto rfl rfl rfl (fun _ _ h => h) inv)
    (Local.of_valid (goto_self ..) trivial fun l hl => inv.held hl (hload l))
    (inv.shared.goto before rfl (by simp))

theorem goto_ialloc {dev inum : Nat} {type : BitVec 16} (before : (s.pc p).leaves = none)
    (hload : ∀ l, s.pc p ≠ .load l) (typed : type ≠ 0) :
    Invariant (s.goto p (.ialloc dev type inum)) :=
  inv.of_frame (Frame.of_goto rfl rfl rfl (fun _ _ h => h) inv)
    (Local.of_valid (goto_self ..) typed fun l hl => inv.held hl (hload l))
    (inv.shared.goto before rfl (by simp))

theorem iputLast (here : s.pc p = .caller)
    (holds : (if (s.inode k).lock = some p then 2 else 1) ≤ s.refs.count (p, k))
    (free : s.lock = none) (ref : (s.inode k).ref = 1) (valid : (s.inode k).valid = true)
    (nlink : (s.inode k).nlink = 0) : Invariant ({ s with lock := some p }.goto p (.iputLock k)) := by
  have hmem : (p, k) ∈ s.refs := by
    apply count_pos.mp
    split at holds <;> omega
  have hone := inv.shared.count_one ref hmem
  have hlock : (s.inode k).lock = none := by
    cases hlock : (s.inode k).lock with
    | none => rfl
    | some q =>
      have hq := inv.shared.only ref hmem ((inv.process q).held k hlock).1
      rw [if_pos (by rw [hlock, hq])] at holds
      omega
  have hshared : Shared { s with lock := some p } :=
    inv.shared.of_same (fun _ => ⟨rfl, rfl, rfl, rfl, rfl⟩) rfl rfl rfl (fun _ _ _ => Iff.rfl)
      (fun _ _ => Iff.rfl) (fun _ _ _ h => h)
  refine inv.of_frame (Frame.of_goto rfl rfl rfl ?_ inv)
    (Local.of_valid (goto_self ..) ⟨⟨valid, nlink, ref, hmem⟩, rfl, hlock⟩ ?_)
    (hshared.goto (by simp [here, Pc.leaves]) rfl (by simp))
  · intro q _ hq
    rw [free] at hq
    cases hq
  · intro l hl
    exact inv.held hl (by simp [here])

theorem claim {dev inum : Nat} {type : BitVec 16} (here : s.pc p = .ialloc dev type inum)
    (free : (s.disk dev inum).type = 0) :
    Invariant ((s.setDisk dev inum { Dinode.zero with type := type }).goto p
      (.claimed dev inum)) := by
  have typed := (inv.process p).typed dev type inum here
  refine inv.of_frame (Frame.of_goto rfl rfl rfl (fun _ _ h => h) inv)
    (Local.of_valid (goto_self ..) trivial ?_) (inv.shared.claim here typed free)
  intro l hl
  exact inv.held hl (by simp [here])

theorem gain {dev inum : Nat} {ip : Entry P} (here : s.pc p = .caller)
    (got : Got s.inode dev inum k ip) (used : (s.disk dev inum).type ≠ 0)
    (unclaimed : ∀ q, s.pc q ≠ .claimed dev inum)
    (kept : ∀ q, 0 < (s.inode k).ref → (s.pc q).frees ≠ some k) : Invariant (s.gain p k ip) := by
  have spec := got.spec inv.shared
  have hself : (s.gain p k ip).inode k = ip := s.setInode_self k ip
  have hother : ∀ l, l ≠ k → (s.gain p k ip).inode l = s.inode l := fun l hl =>
    s.setInode_of_ne ip hl
  have hlock : ∀ l, ((s.gain p k ip).inode l).lock = (s.inode l).lock := by
    intro l
    by_cases hl : l = k
    · rw [hl, hself, spec.lock_eq]
    · rw [hother l hl]
  -- an entry that somebody refers to stays as it was
  have hentry : ∀ q l, (q, l) ∈ s.refs →
      ((s.gain p k ip).inode l).toDinode = (s.inode l).toDinode ∧
      ((s.gain p k ip).inode l).valid = (s.inode l).valid := by
    intro q l hq
    obtain rfl | hl := eq_or_ne l k
    · rw [hself, spec.data_eq, (spec.used (inv.shared.pos hq)).2.2]
      exact ⟨rfl, rfl⟩
    · rw [hother l hl]
      exact ⟨rfl, rfl⟩
  refine inv.of_frame ⟨fun _ _ => rfl, ?_, fun _ _ h => h, ?_, ?_, ?_, ?_⟩
    (Local.of_valid here trivial ?_) (inv.shared.gain p got used unclaimed)
  · intro q l hq
    exact count_cons_of_ne (fun h => hq (congrArg Prod.fst h)) s.refs
  · intro q l _
    rw [hlock]
  · intro q l _ hwaits
    rw [hlock]
    exact ((inv.process q).waits l hwaits).2
  · intro q l _ hown
    obtain hown | hown := hown
    · exact hentry q l ((inv.process q).held l hown).1
    · exact hentry q l ((inv.process q).frees l (by rw [hown]; rfl)).holds
  · intro q l _ hfrees
    have hl : l ≠ k := by
      rintro rfl
      exact kept q (inv.shared.pos ((inv.process q).frees l hfrees).holds) hfrees
    rw [hother l hl]
  · intro l hl
    rw [hlock] at hl
    obtain ⟨holds, valid⟩ := inv.held hl (by simp [here])
    exact ⟨mem_cons_of_mem holds, (hentry p l holds).2.trans valid⟩

omit inv in
theorem lose_entry (s : State P) (p : P) (k l : Fin NINODE) :
    ((s.lose p k).inode l).lock = (s.inode l).lock ∧
      ((s.lose p k).inode l).valid = (s.inode l).valid ∧
      ((s.lose p k).inode l).toDinode = (s.inode l).toDinode := by
  obtain rfl | hl := eq_or_ne l k
  · have hself : (s.lose p l).inode l = { s.inode l with ref := (s.inode l).ref - 1 } :=
      s.setInode_self l _
    rw [hself]
    exact ⟨rfl, rfl, rfl⟩
  · have hother : (s.lose p k).inode l = s.inode l := s.setInode_of_ne _ hl
    rw [hother]
    exact ⟨rfl, rfl, rfl⟩

theorem frame_lose (holds : (p, k) ∈ s.refs) :
    Frame s ((s.lose p k).goto p pc) p := by
  refine ⟨fun q hq => goto_of_ne _ _ hq, ?_, fun _ _ h => h, ?_, ?_, ?_, ?_⟩
  · intro q l hq
    exact count_erase_of_ne (fun h => hq (congrArg Prod.fst h)) s.refs
  · intro q l _
    rw [goto_inode, (lose_entry s p k l).1]
  · intro q l _ hwaits
    rw [goto_inode, (lose_entry s p k l).1]
    exact ((inv.process q).waits l hwaits).2
  · intro q l _ _
    exact (lose_entry s p k l).2.symm
  · intro q l hq hfrees
    have hl : l ≠ k := by
      rintro rfl
      have last := (inv.process q).frees l hfrees
      exact hq (inv.shared.only last.ref last.holds holds).symm
    exact congrArg Entry.ref (s.setInode_of_ne _ hl)

theorem iputKeep (here : s.pc p = .caller)
    (holds : (if (s.inode k).lock = some p then 2 else 1) ≤ s.refs.count (p, k)) :
    Invariant (s.lose p k) := by
  have hmem : (p, k) ∈ s.refs := by
    apply count_pos.mp
    split at holds <;> omega
  have hframe : Frame s ((s.lose p k).goto p .caller) p := inv.frame_lose hmem
  rw [goto_eq (s.lose p k) here] at hframe
  refine inv.of_frame hframe (Local.of_valid here trivial ?_) (inv.shared.lose hmem)
  intro l hl
  obtain ⟨hlock, hvalid, -⟩ := lose_entry s p k l
  rw [hlock] at hl
  obtain ⟨hold, valid⟩ := inv.held hl (by simp [here])
  refine ⟨?_, hvalid.trans valid⟩
  -- the process keeps a reference to an inode it has locked
  obtain rfl | hk := eq_or_ne l k
  · rw [if_pos hl] at holds
    apply count_pos.mp
    change 0 < (s.refs.erase (p, l)).count (p, l)
    rw [count_erase_self]
    omega
  · exact (mem_erase_of_ne (fun h => hk (congrArg Prod.snd h))).mpr hold

theorem drop (here : s.pc p = .drop k) : Invariant ((s.lose p k).goto p .caller) := by
  have one := (inv.process p).leaves k (by rw [here]; rfl)
  have hmem : (p, k) ∈ s.refs := count_pos.mp (by omega)
  have hgone : (p, k) ∉ (s.lose p k).refs := by
    apply count_eq_zero.mp
    change (s.refs.erase (p, k)).count (p, k) = 0
    rw [count_erase_self]
    omega
  refine inv.of_frame (inv.frame_lose hmem) (Local.of_valid (goto_self ..) trivial ?_)
    ((inv.shared.lose hmem).of_same (fun _ => ⟨rfl, rfl, rfl, rfl, rfl⟩) rfl rfl rfl ?_ ?_ ?_)
  · intro l hl
    obtain ⟨hlock, hvalid, -⟩ := lose_entry s p k l
    rw [goto_inode, hlock] at hl
    have hk : l ≠ k := by
      rintro rfl
      exact (inv.process p).drops l here hl
    obtain ⟨hold, valid⟩ := inv.held hl (by simp [here])
    exact ⟨(mem_erase_of_ne (fun h => hk (congrArg Prod.snd h))).mpr hold,
      hvalid.trans valid⟩
  · intro q l hq
    obtain rfl | hqp := eq_or_ne q p
    · have hk : l ≠ k := by
        rintro rfl
        exact hgone hq
      have hpc : (s.lose q k).pc q = .drop k := here
      simp [hpc, Pc.leaves, Ne.symm hk]
    · rw [goto_of_ne _ _ hqp]
  · intro q l
    by_cases hqp : q = p
    · have hpc : (s.lose p k).pc p = .drop k := here
      simp [hqp, hpc]
    · rw [goto_of_ne _ _ hqp]
  · intro q dev inum hclaims
    by_cases hqp : q = p
    · simp [hqp] at hclaims
    · rwa [goto_of_ne _ _ hqp] at hclaims

end Invariant

omit [DecidableEq P] in
theorem nlink_of_entry (h : Shared s) (used : 0 < (s.inode k).ref)
    (valid : (s.inode k).valid = true) :
    s.nlink (s.inode k).dev (s.inode k).inum = (s.inode k).nlink := by
  unfold State.nlink
  split
  · rename_i l hfind
    have hit := List.find?_some hfind
    simp only [decide_eq_true_eq] at hit
    rw [h.unique l k hit.1 used hit.2.1 hit.2.2.1]
  · rename_i hfind
    have hno := List.find?_eq_none.mp hfind k (List.mem_finRange k)
    simp [used, valid] at hno

omit [DecidableEq P] in
theorem nlink_cases (s : State P) (dev inum : Nat) :
    (∃ k, 0 < (s.inode k).ref ∧ (s.inode k).dev = dev ∧ (s.inode k).inum = inum ∧
      (s.inode k).valid = true ∧ s.nlink dev inum = (s.inode k).nlink) ∨
    s.nlink dev inum = (s.disk dev inum).nlink := by
  unfold State.nlink
  split
  · rename_i k hfind
    have hit := List.find?_some hfind
    simp only [decide_eq_true_eq] at hit
    exact .inl ⟨k, hit.1, hit.2.1, hit.2.2.1, hit.2.2.2, rfl⟩
  · exact .inr rfl

namespace Invariant

variable (inv : Invariant s) (linked : s.Linked) {dev inum : Nat}

include inv linked

theorem named_used (named : s.named dev inum = true) : (s.disk dev inum).type ≠ 0 := by
  intro hfree
  have hlinks := linked dev inum named
  obtain ⟨k, used, rfl, rfl, valid, heq⟩ | heq := nlink_cases s dev inum
  · obtain ⟨q, hq⟩ | hsync := inv.shared.synced k used valid
    · exact hlinks (heq.trans ((inv.process q).freed k hq).2)
    · exact hsync.used (hsync.type_eq.symm.trans hfree)
  · exact hlinks (heq.trans (inv.shared.unlinked dev inum hfree))

theorem named_unclaimed (named : s.named dev inum = true) (q : P) :
    s.pc q ≠ .claimed dev inum := by
  intro hq
  have hclaim := inv.shared.claimed q dev inum hq
  have hlinks := linked dev inum named
  obtain ⟨k, used, hdev, hinum, valid, heq⟩ | heq := nlink_cases s dev inum
  · obtain ⟨r, hr⟩ := hclaim.stale k used hdev hinum valid
    exact hlinks (heq.trans ((inv.process r).freed k hr).2)
  · exact hlinks (heq.trans hclaim.nlink)

theorem named_kept (named : s.named (s.inode k).dev (s.inode k).inum = true) (q : P) :
    (s.pc q).frees ≠ some k := by
  intro hq
  have last := (inv.process q).frees k hq
  apply linked _ _ named
  rw [nlink_of_entry inv.shared (inv.shared.pos last.holds) last.valid, last.nlink]

theorem step {event : Event P} (h : Step s event next) : Invariant next := by
  cases h with
  | iget p dev inum k ip here named got =>
    refine inv.gain here got (inv.named_used linked named) (inv.named_unclaimed linked named) ?_
    intro q used
    obtain ⟨hdev, hinum, -⟩ := (got.spec inv.shared).used used
    exact inv.named_kept linked (by rw [hdev, hinum]; exact named) q
  | idup p k here holds =>
    have hpos := inv.shared.pos holds
    refine inv.gain here (.hit k hpos rfl rfl) ?_ ?_ ?_
    · obtain hleaves | hused := inv.shared.alive p k holds
      · rw [here] at hleaves
        cases hleaves
      · exact hused
    · intro q hq
      have hleaves := (inv.shared.claimed q _ _ hq).leaving k rfl rfl p holds
      rw [here] at hleaves
      cases hleaves
    · intro q _ hq
      have last := (inv.process q).frees k hq
      rw [← inv.shared.only last.ref last.holds holds, here] at hq
      cases hq
  | ilock p k here holds unlocked => exact inv.ilock here holds unlocked
  | iunlock p k here locked => exact inv.iunlock here locked
  | change p k d here locked type_eq =>
    rw [← goto_eq ((s.setInode k ((s.inode k).setData d)).setDirty k true) here]
    exact inv.change locked (by simp [here]) (by simp [here, Pc.leaves]) (by simp [here, Pc.Near])
      trivial type_eq trivial
  | iupdate p k here locked =>
    have hsame : s.setInode k ((s.inode k).setData (s.inode k).toDinode) = s := s.setInode_eq k
    rw [← hsame, ← goto_eq ((s.setInode k _).writeBack k) here]
    exact inv.update locked (by simp [here]) (by simp [here, Pc.leaves]) (by simp [here, Pc.Near])
      trivial rfl trivial
  | ialloc p dev type here used =>
    exact inv.goto_ialloc (by simp [here, Pc.leaves]) (by simp [here]) used
  | iputKeep p k here holds => exact inv.iputKeep here holds
  | iputLast p k here holds free ref valid nlink =>
    exact inv.iputLast here holds free ref valid nlink
  | skip p dev type inum here =>
    exact inv.goto_ialloc (by simp [here, Pc.leaves]) (by simp [here])
      ((inv.process p).typed dev type inum here)
  | claim p dev type inum here free => exact inv.claim here free
  | igetClaimed p dev inum k ip here got =>
    have hclaim := inv.shared.claimed p dev inum here
    refine (inv.goto_caller (p := p) (by simp [here, Pc.leaves]) (by simp [here])).gain
      (goto_self ..) got hclaim.used ?_ ?_
    · intro q hq
      by_cases hqp : q = p
      · simp [hqp] at hq
      · rw [goto_of_ne _ _ hqp] at hq
        exact hqp (inv.shared.claimant q p dev inum hq here)
    · intro q used hq
      by_cases hqp : q = p
      · simp [hqp, Pc.frees] at hq
      · rw [goto_of_ne _ _ hqp] at hq
        obtain ⟨hdev, hinum, -⟩ := (got.spec inv.shared).used used
        have hleaves := hclaim.leaving k hdev hinum q ((inv.process q).frees k hq).holds
        rw [Pc.leaves_of_frees hq] at hleaves
        cases hleaves
  | load p k here used => exact inv.load here used
  | iputLock p k here => exact inv.iputLock here
  | truncate p k i here =>
    have locked := (inv.process p).locks k (by rw [here]; rfl)
    have last := (inv.process p).frees k (by rw [here]; rfl)
    exact inv.change locked (by simp [here]) (by simp [here, Pc.leaves]) (by simp [here, Pc.Near])
      trivial rfl ⟨⟨by simpa using last.valid, by simpa [Dinode.setAddr] using last.nlink,
        by simpa using last.ref, last.holds⟩, by simpa using locked⟩
  | truncated p k i here =>
    have locked := (inv.process p).locks k (by rw [here]; rfl)
    have last := (inv.process p).frees k (by rw [here]; rfl)
    exact inv.update locked (by simp [here]) (by simp [here, Pc.leaves]) (by simp [here, Pc.Near])
      trivial rfl ⟨⟨by simpa using last.valid, by simpa using last.nlink, by simpa using last.ref,
        last.holds⟩, by simpa using locked⟩
  | free p k here => exact inv.free here
  | invalidate p k here => exact inv.invalidate here
  | drop p k here => exact inv.drop here
  | entries named =>
    refine ⟨?_, inv.shared.of_same (fun _ => ⟨rfl, rfl, rfl, rfl, rfl⟩) rfl rfl rfl
      (fun _ _ _ => Iff.rfl) (fun _ _ => Iff.rfl) (fun _ _ _ h => h)⟩
    intro p
    have h := inv.process p
    refine ⟨h.held, h.locks, ?_, h.waits, h.freed, h.leaves, h.drops, h.typed⟩
    intro k hk
    have last := h.frees k hk
    exact ⟨last.valid, last.nlink, last.ref, last.holds⟩

end Invariant

end Xv6.Itable
