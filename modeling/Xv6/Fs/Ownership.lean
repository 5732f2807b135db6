import Mathlib.Algebra.BigOperators.Group.Finset.Piecewise
import Xv6.Fs.DirSpec

/-! Block ownership over whole runs of the inode layer, whichever calls fail half way. -/
namespace Xv6

open Lib Lib.Exec Multiset

inductive InodeOp where
  | beginOp
  | endOp
  | iget (inum : Nat)
  | ialloc (type : BitVec 16)
  | readi (k : Fin NINODE) (dst : Nat → Bool) (off n : UInt32)
  | writei (k : Fin NINODE) (src : Source) (off n : UInt32)
  | itrunc (k : Fin NINODE)
  | dirlink (k : Fin NINODE) (name : Nat → UInt8) (inum : Nat)
  | iput (k : Fin NINODE)

namespace InodeOp

variable (sb : Superblock)

def target : InodeOp → Option (Fin NINODE)
  | beginOp | endOp | iget _ | ialloc _ => none
  | readi k _ _ _ | writei k _ _ _ | itrunc k | dirlink k _ _ | iput k => some k

def locked (k : Fin NINODE) (m : Exec Fs Panic Unit) : Exec Fs Panic Unit := do
  Fs.ilock sb k
  m
  Fs.iunlock k

def run : InodeOp → Exec Fs Panic Unit
  | beginOp => Fs.beginOp
  | endOp => Fs.endOp
  | iget inum => do
    let _ ← Fs.iget ROOTDEV inum
  | ialloc type => do
    let _ ← Fs.ialloc sb ROOTDEV type
  | readi k dst off n => locked sb k do
    let _ ← Fs.readi sb k dst off n
  | writei k src off n => locked sb k do
    let _ ← Fs.writei sb k src off n
  | itrunc k => locked sb k (Fs.itrunc sb k)
  | dirlink k name inum => locked sb k do
    let _ ← Fs.dirlink sb k name inum
  | iput k => Fs.iput sb k

/-- The caller holds a reference to the entry, asks for inodes that the disk has, and one more
reference is no overflow of the `int`. -/
def Allowed (f : Fs) (op : InodeOp) : Prop :=
  (∀ k, op.target = some k → 0 < (f.itable k).ref) ∧
    (∀ inum, op = iget inum → inum < sb.ninodes) ∧ ∀ k, (f.itable k).ref + 1 < 2 ^ 31

end InodeOp

inductive InodeRun (sb : Superblock) : Fs → List InodeOp → Fs → Prop where
  | nil (f : Fs) : InodeRun sb f [] f
  | cons {f f' f'' : Fs} {op : InodeOp} {ops : List InodeOp} (allowed : op.Allowed sb f)
      (run : op.run sb f = .ok ((), f')) (rest : InodeRun sb f' ops f'') :
      InodeRun sb f (op :: ops) f''

/-- Between calls: entries stand for different inodes, agree with the disk once read, none is
locked, and the 3 references a system call takes at most are no overflow of the `int`. -/
structure TableReady (sb : Superblock) (f : Fs) : Prop where
  ref : ∀ k, 0 ≤ (f.itable k).ref ∧ (f.itable k).ref + 3 < 2 ^ 31
  unlocked : ∀ k, (f.itable k).locked = false
  dev : ∀ k, 0 < (f.itable k).ref → (f.itable k).dev = ROOTDEV
  inum_lt : ∀ k, 0 < (f.itable k).ref → (f.itable k).inum < sb.ninodes
  unique : ∀ k l, 0 < (f.itable k).ref → 0 < (f.itable l).ref →
    (f.itable k).inum = (f.itable l).inum → k = l
  read : ∀ k, 0 < (f.itable k).ref → (f.itable k).valid = true →
    (f.itable k).toDinode = f.store.dinode sb (f.itable k).inum ∧ (f.itable k).type ≠ 0

structure InodesReady (sb : Superblock) (f : Fs) : Prop where
  wf : WellFormed sb f.store
  log : LogReady sb f.store
  table : TableReady sb f

variable {sb : Superblock} {f f' : Fs} {op : InodeOp} {ops : List InodeOp} {a : FsView}

def Fs.references (f : Fs) : Multiset (Fin NINODE × Nat) :=
  ∑ k, Multiset.replicate (f.itable k).ref.toNat (k, (f.itable k).inum)

theorem Fs.mem_references {p : Fin NINODE × Nat} :
    p ∈ f.references ↔ 0 < (f.itable p.1).ref ∧ p.2 = (f.itable p.1).inum := by
  unfold references
  rw [mem_sum]
  constructor
  · rintro ⟨k, -, hk⟩
    obtain ⟨hcount, rfl⟩ := mem_replicate.mp hk
    have hpos : 0 < (f.itable k).ref := by omega
    exact ⟨hpos, rfl⟩
  · rintro ⟨hpos, hinum⟩
    refine ⟨p.1, Finset.mem_univ _, mem_replicate.mpr ⟨by omega, ?_⟩⟩
    exact Prod.ext rfl hinum

theorem Fs.countP_references (k : Fin NINODE) :
    (f.references.countP fun p => p.1 = k) = (f.itable k).ref.toNat := by
  have hone : ∀ l, (Multiset.replicate (f.itable l).ref.toNat (l, (f.itable l).inum)).countP
      (fun p => p.1 = k) = if l = k then (f.itable k).ref.toNat else 0 := by
    intro l
    by_cases hl : l = k
    · rw [if_pos hl, hl, countP_eq_card.mpr, card_replicate]
      intro p hp
      rw [eq_of_mem_replicate hp]
    · rw [if_neg hl, countP_eq_zero]
      intro p hp
      rwa [eq_of_mem_replicate hp]
  unfold references
  rw [← coe_countPAddMonoidHom, map_sum]
  simp only [coe_countPAddMonoidHom, hone]
  rw [Finset.sum_ite_eq', if_pos (Finset.mem_univ k)]

def Fs.viewOf (sb : Superblock) (f : Fs) : FsView where
  nodes := (f.store.volume sb).nodes
  own := f.references
  locks := ∅
  valid := { i | ∃ k, (k, i) ∈ f.references ∧ (f.itable k).valid = true }
  ops := f.store.log.outstanding

theorem InodesReady.rep (h : InodesReady sb f) : f.Rep sb (f.viewOf sb) := by
  refine ⟨h.wf, h.log, rfl, rfl, ⟨?_, ?_, ?_, ?_, ?_, ?_⟩⟩
  · intro k
    change _ = ((f.references.countP fun p => p.1 = k : Nat) : Int)
    rw [Fs.countP_references, Int.toNat_of_nonneg (h.table.ref k).1]
  · intro p hp
    obtain ⟨hpos, hinum⟩ := Fs.mem_references.mp hp
    have hsame : ∀ k, (k, p.2) ∈ f.references → k = p.1 := by
      intro k hk
      obtain ⟨hpos', hinum'⟩ := Fs.mem_references.mp hk
      exact h.table.unique k p.1 hpos' hpos (hinum'.symm.trans hinum)
    have hvalid : (f.itable p.1).valid = true ↔ p.2 ∈ (f.viewOf sb).valid := by
      constructor
      · exact fun hv => ⟨p.1, hp, hv⟩
      · rintro ⟨k, hk, hv⟩
        rwa [← hsame k hk]
    refine ⟨hinum.symm, h.table.dev _ hpos, hvalid, ?_, ?_⟩
    · simp [h.table.unlocked, Fs.viewOf]
    · intro hv
      obtain ⟨hdinode, htype⟩ := h.table.read _ hpos (hvalid.mpr hv)
      have hlt := h.table.inum_lt _ hpos
      rw [← hinum] at hdinode hlt
      exact ⟨hlt, by rw [hdinode, Store.volume_inode hlt], htype⟩
  · intro p hp q hq heq
    obtain ⟨hp', hpi⟩ := Fs.mem_references.mp hp
    obtain ⟨hq', hqi⟩ := Fs.mem_references.mp hq
    exact h.table.unique _ _ hp' hq' (by rw [← hpi, heq, hqi])
  · exact fun k _ => h.table.unlocked k
  · rintro i ⟨k, hk, -⟩
    exact ⟨k, hk⟩
  · exact Set.empty_subset _

structure AtRest (sb : Superblock) (f : Fs) (a : FsView) : Prop where
  rep : f.Rep sb a
  unlocked : a.locks = ∅
  inum_lt : ∀ p ∈ a.own, p.2 < sb.ninodes

theorem InodesReady.atRest (h : InodesReady sb f) : AtRest sb f (f.viewOf sb) where
  rep := h.rep
  unlocked := rfl
  inum_lt p hp := by
    obtain ⟨hpos, hinum⟩ := Fs.mem_references.mp hp
    rw [hinum]
    exact h.table.inum_lt _ hpos

/-- The panics on broken block lists. -/
def Panic.Corrupt (e : Panic) : Prop := e = .freeingFreeBlock ∨ e = .bmapOutOfRange

theorem Panic.Limit.not_corrupt {e : Panic} (h : e.Limit) : ¬ e.Corrupt := by
  unfold Panic.Corrupt
  rcases h with (rfl | rfl | rfl) | rfl | rfl | rfl <;> simp

namespace AtRest

variable {k : Fin NINODE} {i : Nat}

theorem mem_own (h : AtRest sb f a) (hpos : 0 < (f.itable k).ref) : ∃ i, (k, i) ∈ a.own := by
  rw [h.rep.table.count] at hpos
  obtain ⟨p, hp, rfl⟩ := countP_pos.mp (Int.natCast_pos.mp hpos)
  exact ⟨p.2, hp⟩

/-- A call on one locked inode that leaves references and locks alone. -/
theorem wp_locked (h : AtRest sb f a) (hk : (k, i) ∈ a.own) {m : Exec Fs Panic Unit}
    (body : ∀ f' a' node, f'.Rep sb a' → (k, i) ∈ a'.own → i ∈ a'.valid → a'.nodes i = some node →
      wp m (fun _ f'' => ∃ nodes, f''.Rep sb { a' with nodes := nodes }) (fun e => ¬ e.Corrupt) f') :
    wp (InodeOp.locked sb k m) (fun _ f' => ∃ a', AtRest sb f' a') (fun e => ¬ e.Corrupt) f := by
  unfold InodeOp.locked
  simp only [wp_bind]
  refine Fs.wp_ilock h.rep hk (h.inum_lt _ hk) (by simp [h.unlocked]) ?_
    (fun _ => by simp [Panic.Corrupt])
  intro f₁ node hnode hrep _
  refine wp_mono (body f₁ _ node hrep hk (Set.mem_insert i _) hnode) ?_ (fun _ he => he)
  rintro _ f₂ ⟨nodes, hrep₂⟩
  refine Fs.wp_iunlock hrep₂ hk (Set.mem_insert i _) ?_
  intro f₃ hrep₃ _
  refine ⟨_, hrep₃, ?_, h.inum_lt⟩
  simp [h.unlocked]

theorem step (h : AtRest sb f a) (allowed : op.Allowed sb f) :
    wp (op.run sb) (fun _ f' => ∃ a', AtRest sb f' a') (fun e => ¬ e.Corrupt) f := by
  have hstop : ∀ e : Panic, e.Limit → ¬ e.Corrupt := fun e he => he.not_corrupt
  have hinner : ∀ k, op.target = some k → ∃ i, (k, i) ∈ a.own :=
    fun k hk => h.mem_own (allowed.1 k hk)
  have hsame : ∀ {f' : Fs} {a' : FsView} {i : Nat} {node : Option Node},
      f'.Rep sb (a'.setNode i node) → ∃ nodes, f'.Rep sb { a' with nodes := nodes } :=
    fun hrep => ⟨_, hrep⟩
  cases op with
  | beginOp =>
    exact Fs.wp_beginOp h.rep (fun f' hrep _ => ⟨_, hrep, h.unlocked, h.inum_lt⟩)
      fun _ => hstop _ Fs.Panic.limit_sleep
  | endOp =>
    exact Fs.wp_endOp h.rep (sub_add_cancel ..).symm fun f' hrep _ _ =>
      ⟨_, hrep, h.unlocked, h.inum_lt⟩
  | iget inum =>
    have hlt := allowed.2.1 inum rfl
    simp only [InodeOp.run, wp_bind, wp_pure]
    refine Fs.wp_iget h.rep (fun k f' hrep _ => ⟨_, hrep, h.unlocked, ?_⟩)
      fun _ => hstop _ Fs.Panic.limit_iget
    intro p hp
    rcases mem_cons.mp hp with rfl | hp
    · exact hlt
    · exact h.inum_lt p hp
  | ialloc type =>
    simp only [InodeOp.run, wp_bind, wp_pure]
    refine Fs.wp_ialloc h.rep (fun k i f' _ hlt _ hrep => ⟨_, hrep, h.unlocked, ?_⟩) hstop
    intro p hp
    rcases mem_cons.mp hp with rfl | hp
    · exact hlt
    · exact h.inum_lt p hp
  | readi k dst off n =>
    obtain ⟨i, hk⟩ := hinner k rfl
    refine h.wp_locked hk fun f' a' node hrep hk' hvalid hnode => ?_
    simp only [wp_bind, wp_pure]
    exact Fs.wp_readi_frame hrep hk' hvalid fun _ => ⟨_, hrep⟩
  | writei k src off n =>
    obtain ⟨i, hk⟩ := hinner k rfl
    refine h.wp_locked hk fun f' a' node hrep hk' hvalid hnode => ?_
    simp only [wp_bind, wp_pure]
    exact Fs.wp_writei hrep hk' hvalid hnode (fun _ => ⟨_, hrep⟩)
      (fun _ _ _ _ _ _ _ hrep' _ => hsame hrep') fun _ e he => hstop e he.limit
  | itrunc k =>
    obtain ⟨i, hk⟩ := hinner k rfl
    refine h.wp_locked hk fun f' a' node hrep hk' hvalid hnode => ?_
    exact Fs.wp_itrunc hrep hk' hvalid hnode (fun _ hrep' => hsame hrep') hstop
  | dirlink k name inum =>
    obtain ⟨i, hk⟩ := hinner k rfl
    refine h.wp_locked hk fun f' a' node hrep hk' hvalid hnode => ?_
    simp only [wp_bind, wp_pure]
    by_cases hdir : node.type = T_DIR
    · exact Fs.wp_dirlink hrep hk' hvalid hnode hdir (fun _ _ _ hrep' _ => ⟨_, hrep'⟩)
        (fun _ _ _ _ _ hrep' _ => hsame hrep') (fun _ _ _ => by simp [Panic.Corrupt])
        (fun _ => by simp [Panic.Corrupt]) (fun _ => hstop _ Fs.Panic.limit_iget)
        fun e he => hstop e he.limit
    · have htype : (f'.itable k).type ≠ T_DIR := by
        intro htype
        apply hdir
        rw [hrep.node_eq hk' hvalid hnode]
        exact htype
      unfold Fs.dirlink Fs.dirlookup
      simp only [wp_bind, wp_get]
      rw [wp_then htype]
      simp [Panic.Corrupt]
  | iput k =>
    obtain ⟨i, hk⟩ := hinner k rfl
    obtain ⟨rest, hrest⟩ := exists_cons_of_mem hk
    have hlt : ∀ p ∈ rest, p.2 < sb.ninodes :=
      fun p hp => h.inum_lt p (hrest ▸ mem_cons_of_mem hp)
    refine Fs.wp_iput h.rep hrest (by simp [h.unlocked]) ?_ ?_ hstop
    · exact fun _ f' hrep => ⟨_, hrep, h.unlocked, hlt⟩
    · exact fun _ _ _ _ _ f' hrep => ⟨_, hrep, h.unlocked, hlt⟩

theorem run (h : AtRest sb f a) (runs : InodeRun sb f ops f') : ∃ a', AtRest sb f' a' := by
  induction runs generalizing a with
  | nil f => exact ⟨a, h⟩
  | cons allowed hrun rest ih =>
    obtain ⟨a', h'⟩ := post_of_wp (h.step allowed) hrun
    exact ih h'

end AtRest

/-- Over any run of the inode layer the blocks stay owned, and no call finds them
otherwise. -/
theorem wellFormed_of_inodeRun (ready : InodesReady sb f) (runs : InodeRun sb f ops f') :
    WellFormed sb f'.store ∧ ∀ op : InodeOp, op.Allowed sb f' → ∀ e : Panic,
      stopOf (op.run sb) f' = some e → ¬ e.Corrupt := by
  obtain ⟨a, h⟩ := ready.atRest.run runs
  refine ⟨h.rep.wf, ?_⟩
  intro op allowed e hstop
  have hwp := h.step allowed
  unfold stopOf at hstop
  unfold wp at hwp
  split at hstop
  · cases hstop
  · rename_i e' herror
    rw [herror] at hwp
    exact Option.some.inj hstop ▸ hwp

/-! The small disk with its file in entry 0. -/

def freeEntry : Inode :=
  { Dinode.zero with dev := 0, inum := 0, ref := 0, valid := false, locked := false }

def smallFs : Fs where
  store := smallStore
  itable k := if k = 0 then { smallFile with locked := false } else freeEntry

def smallSb40 : Superblock := smallSb 40 small_le40 forty_le

theorem smallFs_ready : InodesReady smallSb40 smallFs := by
  have hentry : ∀ k, 0 < (smallFs.itable k).ref → k = 0 := by
    intro k hpos
    by_contra hk
    simp [smallFs, hk, freeEntry] at hpos
  have hzero : smallFs.itable 0 = { smallFile with locked := false } := rfl
  refine ⟨smallStore_wellFormed _ _, ⟨rfl, rfl, List.nodup_nil, ?_, Nat.zero_le _, .inl rfl, rfl⟩,
    ⟨?_, ?_, ?_, ?_, ?_, ?_⟩⟩
  · intro b hb
    cases hb
  · intro k
    unfold smallFs
    dsimp only
    split <;> decide
  · intro k
    unfold smallFs
    dsimp only
    split <;> rfl
  · intro k hk
    rw [hentry k hk, hzero]
    rfl
  · intro k hk
    rw [hentry k hk, hzero]
    exact Nat.one_lt_two
  · intro k l hk hl _
    rw [hentry k hk, hentry l hl]
  · intro k hk _
    rw [hentry k hk, hzero]
    exact ⟨(smallStore_dinode_one _ _).symm, by decide⟩

theorem wellFormed_of_inodeRun_small : ∃ f', InodeRun smallSb40 smallFs
    [.writei 0 (fun _ => some 7) 1024 1, .itrunc 0, .endOp] f' ∧ WellFormed smallSb40 f'.store := by
  let grown := after (InodeOp.run smallSb40 (.writei 0 (fun _ => some 7) 1024 1)) smallFs
  let cut := after (InodeOp.run smallSb40 (.itrunc 0)) grown
  have hrun : InodeRun smallSb40 smallFs
      [.writei 0 (fun _ => some 7) 1024 1, .itrunc 0, .endOp]
      (after (InodeOp.run smallSb40 .endOp) cut) := by
    refine .cons ⟨?_, ?_, ?_⟩ (run_eq_after ?_) (.cons ⟨?_, ?_, ?_⟩ (run_eq_after ?_)
      (.cons ⟨?_, ?_, ?_⟩ (run_eq_after ?_) (.nil _)))
    · rintro k ⟨⟩
      decide
    · rintro inum ⟨⟩
    · decide +kernel
    · decide +kernel
    · rintro k ⟨⟩
      decide +kernel
    · rintro inum ⟨⟩
    · decide +kernel
    · decide +kernel
    · rintro k ⟨⟩
    · rintro inum ⟨⟩
    · decide +kernel
    · decide +kernel
  exact ⟨_, hrun, (wellFormed_of_inodeRun smallFs_ready hrun).1⟩

def unmarkedFs : Fs :=
  { smallFs with store := { smallStore with
      buf := Function.update smallStore.buf 33 (Block.ofFn fun i => if i = 4 then 4 else 0) } }

theorem unmarkedFs_dinode {i : Nat} (hi : i < 2) :
    unmarkedFs.store.dinode smallSb40 i = smallStore.dinode smallSb40 i := by
  have hblock : smallSb40.IBLOCK i ≠ 33 := by
    change i / IPB + 32 ≠ 33
    simp only [IPB, BSIZE]
    omega
  unfold Store.dinode
  exact congrArg (Block.dinode · _) (Function.update_of_ne hblock ..)

theorem unmarkedFs_blocksOwned : BlocksOwned smallSb40 (unmarkedFs.store.volume smallSb40) := by
  have hused : ∀ c : Fin 40, 34 ≤ c.val → unmarkedFs.store.used smallSb40 c.val =
      decide (c.val ≤ 34) := by decide +kernel
  apply small_blocksOwned
  · rfl
  · intro b hlow hhigh
    exact hused ⟨b, hhigh⟩ hlow

/-- Ownership in the data region alone is not kept: an append takes block 0, which the inode
records as no block. -/
theorem append_takes_block_zero : ∃ f',
    BlocksOwned smallSb40 (unmarkedFs.store.volume smallSb40) ∧
      LogReady smallSb40 unmarkedFs.store ∧ TableReady smallSb40 unmarkedFs ∧
      InodeRun smallSb40 unmarkedFs [.writei 0 (fun _ => some 7) 1024 1] f' ∧
      ¬ BlocksOwned smallSb40 (f'.store.volume smallSb40) := by
  let grown := after (InodeOp.run smallSb40 (.writei 0 (fun _ => some 7) 1024 1)) unmarkedFs
  have hfile : (grown.store.dinode smallSb40 1).type ≠ 0 ∧
      (grown.store.dinode smallSb40 1).size = 1025 ∧
      (grown.store.dinode smallSb40 1).addr 1 = 0 := by decide +kernel
  have hinode : (grown.store.volume smallSb40).inode 1 = grown.store.dinode smallSb40 1 :=
    Store.volume_inode Nat.one_lt_two
  refine ⟨grown, unmarkedFs_blocksOwned, ?_, ?_, ?_, ?_⟩
  · have hlog := smallFs_ready.log
    exact ⟨hlog.start_eq, hlog.size_eq, hlog.nodup, hlog.home, hlog.short, hlog.fits, hlog.idle⟩
  · have htable := smallFs_ready.table
    refine ⟨htable.ref, htable.unlocked, htable.dev, htable.inum_lt, htable.unique, ?_⟩
    intro k hk hv
    obtain ⟨hdinode, htype⟩ := htable.read k hk hv
    exact ⟨hdinode.trans (unmarkedFs_dinode (htable.inum_lt k hk)).symm, htype⟩
  · refine .cons ⟨?_, ?_, ?_⟩ (run_eq_after ?_) (.nil _)
    · rintro k ⟨⟩
      decide
    · rintro inum ⟨⟩
    · decide +kernel
    · decide +kernel
  · intro howned
    have hmapped := howned.mapped 1 (by unfold Volume.allocated; rw [hinode]; exact hfile.1) 1
      (by rw [hinode, hfile.2.1]; decide)
    apply hmapped
    change (grown.store.volume smallSb40).slot 1 1 = 0
    rw [Volume.slot_of_le (by decide), hinode, hfile.2.2]

end Xv6
