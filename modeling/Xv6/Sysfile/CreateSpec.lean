import Xv6.Sysfile.NamesSpec

/-! What `create` does: nothing where it fails, and otherwise one entry for one new inode. -/
namespace Xv6

open Function (update_comm update_idem update_of_ne update_self)
open Lib Lib.Exec Multiset

variable {sb : Superblock} {nodes : Nat → Option Node} {own : Multiset (Fin NINODE × Nat)}
variable {c d i : Nat} {ops : Int} {type major minor : BitVec 16}

namespace Dir

variable {contents : List UInt8} {m s : Nat} {name : List UInt8}

theorem not_finds_nil : ¬ Finds [] name m := fun h => Nat.not_lt_zero m h.2.1

theorem freeSlot_nil (h : FreeSlot [] s) : s = 0 := by
  rcases h.1 with ⟨hlt, -⟩ | heq
  · exact absurd hlt (Nat.not_lt_zero s)
  · exact heq

theorem entry_one (inum : Nat) :
    entry (setEntry [] 0 inum (nameField [46])) 0 = (inum % 2 ^ 16, [46]) := by
  rw [entry_setEntry_self (Nat.le_refl 0) rfl]
  rfl

theorem slots_one (inum : Nat) : slots (setEntry [] 0 inum (nameField [46])) = 1 := by
  rw [slots_setEntry (Nat.le_refl 0) rfl]
  rfl

theorem freeSlot_one {inum : Nat} (hne : inum % 2 ^ 16 ≠ 0)
    (h : FreeSlot (setEntry [] 0 inum (nameField [46])) s) : s = 1 := by
  obtain ⟨hslot, -⟩ := h
  rw [slots_one] at hslot
  rcases hslot with ⟨hlt, hfree⟩ | heq
  · obtain rfl : s = 0 := by omega
    rw [entry_one] at hfree
    exact absurd hfree hne
  · exact heq

theorem not_finds_one {inum : Nat} (hname : name ≠ [46]) :
    ¬ Finds (setEntry [] 0 inum (nameField [46])) name m := by
  rintro ⟨-, hlt, hnamed, -⟩
  rw [slots_one] at hlt
  obtain rfl : m = 0 := by omega
  rw [entry_one] at hnamed
  exact hname hnamed.2.symm

end Dir

namespace Fs

variable {k l : Fin NINODE} {f : Fs} {E : Panic → Prop} {node dnode : Node} {locks valid : Set Nat}

def withDots (nodes : Nat → Option Node) (type : BitVec 16) (d : Nat) (dnode : Node) (i : Nat)
    (node : Node) : Nat → Option Node :=
  if type = T_DIR then
    Function.update (Function.update nodes d (some { dnode with nlink := dnode.nlink + 1 })) i
      (some { node with contents := dotEntries i d })
  else nodes

theorem wp_makeDots {Q : Unit → Fs → Prop} (h : f.Sees sb ⟨nodes, own, locks, valid, ops⟩)
    (hk : (k, d) ∈ own) (hl : (l, i) ∈ own) (hd : d ∈ valid) (hi : i ∈ valid)
    (hdnode : nodes d = some dnode) (hnode : nodes i = some node) (hne : i ≠ d) (hpos : 1 ≤ i)
    (htype : node.type = type) (hempty : node.contents = [])
    (post : ∀ f', f'.Sees sb ⟨withDots nodes type d dnode i node, own, locks, valid, ops⟩ → Q () f')
    (stop : ∀ e : Panic, e.Limit → E e) : wp (makeDots sb k l type) Q E f := by
  have hlt := h.lt_of_node hnode
  have hsmall := sb.ninodes_le
  have hmod : i % 2 ^ 16 ≠ 0 := by
    rw [Nat.mod_eq_of_lt (by omega)]
    omega
  unfold makeDots withDots at *
  rw [wp_ite]
  split
  · rename_i hdir
    rw [if_pos hdir] at post
    simp only [wp_bind, wp_get]
    refine h.wp_links (· + 1) hk hd hdnode ?_ stop
    intro f₁ h₁
    have hnode₁ : Function.update nodes d (some { dnode with nlink := dnode.nlink + 1 }) i =
        some node := by
      rw [update_of_ne hne, hnode]
    rw [(h₁.inum hl).1]
    refine h₁.wp_dirlink hl hi hnode₁ (htype.trans hdir) ?_ ?_ ?_ ?_ stop
    · intro m hfinds
      rw [hempty] at hfinds
      exact absurd hfinds Dir.not_finds_nil
    · intro _ s hs f₂ h₂
      rw [hempty] at hs h₂
      obtain rfl := Dir.freeSlot_nil hs
      rw [CString.strncpy_eq, text_dot] at h₂
      rw [wp_else (by decide)]
      simp only [wp_bind, wp_get]
      rw [(h₂.inum hk).1]
      refine h₂.wp_dirlink hl hi (update_self ..) (htype.trans hdir) ?_ ?_ ?_ ?_ stop
      · intro m hfinds
        rw [text_dotdot] at hfinds
        exact absurd hfinds (Dir.not_finds_one (by decide))
      · intro _ s hs f₃ h₃
        obtain rfl := Dir.freeSlot_one hmod hs
        rw [CString.strncpy_eq, text_dotdot] at h₃
        rw [wp_else (by decide), wp_pure]
        refine post f₃ ?_
        unfold FsView.setNode at h₃
        dsimp only at h₃
        rw [update_idem] at h₃
        exact h₃
      · intro s hs hfull
        obtain rfl := Dir.freeSlot_one hmod hs
        exact absurd hfull (by decide)
      · rw [Dir.length_setEntry (Nat.le_refl 0) rfl]
        decide
    · intro s hs hfull
      rw [hempty] at hs
      obtain rfl := Dir.freeSlot_nil hs
      exact absurd hfull (by decide)
    · rw [hempty]
      exact Nat.dvd_zero _
  · rename_i hdir
    rw [if_neg hdir] at post
    rw [wp_pure]
    exact post f h

/-- Directory `d` lacks the last name and has slot `s` for it; inode `i` is free. -/
structure Creates (sb : Superblock) (nodes : Nat → Option Node) (c : Nat) (path : List UInt8)
    (d : Nat) (dnode : Node) (last : List UInt8) (s i : Nat) : Prop where
  parent : ParentOf nodes (startAt c path) (elems path) d last
  dir : nodes d = some dnode
  misses : Dir.Misses dnode.contents last
  slot : Dir.FreeSlot dnode.contents s
  pos : 1 ≤ i
  lt : i < sb.ninodes
  free : nodes i = none

def created (nodes : Nat → Option Node) (type major minor : BitVec 16) (d : Nat) (dnode : Node)
    (last : List UInt8) (s i : Nat) : Nat → Option Node :=
  Function.update (Function.update nodes i (some (madeNode type major minor i d))) d
    (some (dnode.gain type s i last))

theorem withDots_made (hne : i ≠ d) (last : List UInt8) (s : Nat) :
    Function.update (withDots (Function.update nodes i (some ⟨type, major, minor, 1, []⟩)) type d
      dnode i ⟨type, major, minor, 1, []⟩) d (some (dnode.gain type s i last)) =
      created nodes type major minor d dnode last s i := by
  unfold withDots created madeNode
  split
  · rename_i hdir
    rw [update_comm hne.symm, update_idem, update_idem]
  · rfl

theorem wp_createIn {Q : Option (Fin NINODE) → Fs → Prop} {buf : Nat → UInt8}
    (h : f.Sees sb (.locked nodes ((k, d) ::ₘ own) d ops)) (hdnode : nodes d = some dnode)
    (hdir : dnode.type = T_DIR) (hmisses : Dir.Misses dnode.contents (CString.text buf DIRSIZ 0))
    (hdvd : direntSize ∣ dnode.contents.length) (htype : type ≠ 0)
    (makes : ∀ l s i f', Dir.FreeSlot dnode.contents s → 1 ≤ i → i < sb.ninodes → nodes i = none →
      f'.Sees sb (.locked (reclaim (created nodes type major minor d dnode
        (CString.text buf DIRSIZ 0) s i) own d) ((l, i) ::ₘ own) i ops) → Q (some l) f')
    (full : E .dirlink) (stop : ∀ e : Panic, e.Limit → E e) :
    wp (createIn sb k buf type major minor) Q E f := by
  unfold createIn
  simp only [wp_bind, wp_get]
  rw [(h.inum (mem_cons_self _ _)).2]
  refine h.wp_ialloc htype ?_ stop
  intro l i f₁ hpos hlt hfree h₁
  replace hfree : nodes i = none := hfree
  have hne : i ≠ d := by
    rintro rfl
    rw [hdnode] at hfree
    cases hfree
  have hl : (l, i) ∈ (l, i) ::ₘ (k, d) ::ₘ own := mem_cons_self _ _
  have hk : (k, d) ∈ (l, i) ::ₘ (k, d) ::ₘ own :=
    mem_cons_of_mem (mem_cons_self _ _)
  have hi : i ∈ (insert i (insert d ∅) : Set Nat) := Set.mem_insert _ _
  have hd : d ∈ (insert i (insert d ∅) : Set Nat) := Set.mem_insert_of_mem _ (Set.mem_insert _ _)
  have hnew : i ∉ (insert d ∅ : Set Nat) := fun hmem => hmem.elim hne id
  simp only [FsView.setNode, FsView.locked] at h₁
  refine h₁.wp_ilock hl hlt hnew ?_ ?_
  swap
  · intro hnone
    dsimp only at hnone
    rw [update_self] at hnone
    cases hnone
  intro f₂ _ _ h₂
  refine h₂.wp_update hl hi (update_self ..) rfl ?_ stop
  intro f₃ h₃
  simp only [FsView.setNode, update_idem] at h₃
  refine wp_makeDots h₃ hk hl hd hi ((update_of_ne hne.symm ..).trans hdnode)
    (update_self ..) hne hpos rfl rfl ?_ stop
  intro f₄ h₄
  rw [(h₄.inum hl).1]
  have hdnode₄ : withDots (Function.update nodes i (some ⟨type, major, minor, 1, []⟩)) type d
      dnode i ⟨type, major, minor, 1, []⟩ d = some { dnode with
        nlink := if type = T_DIR then dnode.nlink + 1 else dnode.nlink } := by
    unfold withDots
    split
    · rw [update_of_ne hne.symm, update_self]
    · rw [update_of_ne hne.symm, hdnode]
  refine h₄.wp_dirlink hk hd hdnode₄ hdir ?_ ?_ (fun _ _ _ => full) hdvd stop
  · intro m hfinds
    exact absurd hfinds.2.2.1 (hmisses m hfinds.2.1)
  · intro _ s hslot f₅ h₅
    rw [wp_else (by decide)]
    simp only [wp_bind, wp_pure]
    rw [CString.strncpy_eq] at h₅
    simp only [FsView.setNode] at h₅
    replace h₅ : f₅.Sees sb ⟨created nodes type major minor d dnode (CString.text buf DIRSIZ 0) s i,
        (l, i) ::ₘ (k, d) ::ₘ own, insert i (insert d ∅), insert i (insert d ∅), ops⟩ := by
      rw [← withDots_made hne]
      exact h₅
    refine h₅.wp_iunlockput (cons_swap _ _ _) (Set.insert_comm _ _ _)
      (fun hmem => hmem.elim hne.symm id) hd ?_ stop
    intro f₆ h₆
    rw [reclaim_cons hne] at h₆
    refine makes l s i f₆ hslot hpos hlt hfree (h₆.valid_mono ?_)
    rintro j (rfl | hj)
    · exact ⟨hi, l, mem_cons_self _ _⟩
    · exact absurd hj (Set.notMem_empty j)

variable {path : List UInt8} {Q : Int → Fs → Prop}

theorem wp_create {Q : Option (Fin NINODE) → Fs → Prop} (h : Idle sb f nodes own ops k c)
    (hnul : 0 ∉ path) (htype : type ≠ 0)
    (fails : ∀ f', f'.Sees sb (.rest nodes own ops) → Q none f')
    (opens : ∀ l d last i node f', type = T_FILE →
      ParentOf nodes (startAt c path) (elems path) d last → Names nodes d last i →
      nodes i = some node → (node.type = T_FILE ∨ node.type = T_DEVICE) → i < sb.ninodes →
      f'.Sees sb (.locked nodes ((l, i) ::ₘ own) i ops) → Q (some l) f')
    (makes : ∀ l d dnode last s i f', Creates sb nodes c path d dnode last s i →
      f'.Sees sb (.locked (reclaim (created nodes type major minor d dnode last s i) own d)
        ((l, i) ::ₘ own) i ops) → Q (some l) f') (full : E .dirlink)
    (free : ¬ Grounded nodes c → E .ilockNoType) (stop : ∀ e : Panic, e.Limit → E e) :
    wp (create sb k path type major minor) Q E f := by
  unfold create
  rw [wp_bind]
  refine h.wp_nameiparent hnul ?_ (fun buf f' _ h' => fails f' h') free stop
  intro d l buf f₁ hparent hd h₁
  obtain ⟨-, dnode, -, -, hdnode, hdir⟩ := id hparent
  simp only [wp_bind]
  refine h₁.wp_lock (mem_cons_self _ _) hd ?_ (fun hnone => by rw [hnone] at hdnode; cases hdnode)
  intro f₂ _ _ h₂
  refine h₂.wp_dirlookup (mem_cons_self _ _) (Set.mem_insert _ _) hdnode hdir ?_ ?_
    (h.walk.aligned d _ hdnode hdir) fun _ => stop _ Panic.limit_iget
  · -- the name is there
    intro m hfinds l' f₃ h₃
    have hnames : Names nodes d (CString.text buf DIRSIZ 0) (Dir.entry dnode.contents m).1 :=
      ⟨dnode, m, hdnode, hdir, hfinds, rfl⟩
    generalize (Dir.entry dnode.contents m).1 = i at hnames h₃
    have hi := h.walk.inum_lt _ _ _ hnames
    simp only [wp_bind]
    refine Sees.wp_release h₃ (cons_swap _ _ _)
      (fun _ hnode => h.anchored (le_cons_self _ _) hnode) ?_
    intro f₄ h₄
    refine h₄.wp_lock (mem_cons_self _ _) hi ?_
      (fun hnone => free fun hground => hground.entries _ _ _ hnames hnone)
    intro f₅ node hnode h₅
    have hfound := (h₅.inode (mem_cons_self _ _) (Set.mem_insert _ _) hnode).1
    simp only [wp_get]
    rw [wp_ite, hfound]
    split
    · rename_i hfile
      exact opens l' d _ i node f₅ hfile.1 hparent hnames hnode hfile.2 hi h₅
    · simp only [wp_bind, wp_pure]
      exact Sees.wp_release h₅ rfl (fun _ hnode => h.anchored le_rfl hnode) fails
  · -- the name is new
    intro hmisses
    refine wp_createIn h₂ hdnode hdir hmisses (h.walk.aligned d _ hdnode hdir) htype ?_ full stop
    intro l' s i f₃ hslot hpos hlt hfree h₃
    exact makes l' d dnode _ s i f₃ ⟨hparent, hdnode, hmisses, hslot, hpos, hlt, hfree⟩ h₃

theorem Creates.ne {last : List UInt8} {s : Nat} (h : Creates sb nodes c path d dnode last s i) :
    i ≠ d := by
  rintro rfl
  have hfree := h.free
  rw [h.dir] at hfree
  cases hfree

theorem Creates.made {last : List UInt8} {s : Nat} (h : Creates sb nodes c path d dnode last s i) :
    reclaim (created nodes type major minor d dnode last s i) own d i =
      some (madeNode type major minor i d) := by
  unfold created
  rw [reclaim_of_ne h.ne, update_of_ne h.ne, update_self]

theorem wp_createdOrFailed (h : Idle sb f nodes own (ops + 1) k c) (hnul : 0 ∉ path)
    (htype : type ≠ 0) (hfile : type ≠ T_FILE)
    (fails : ∀ f', f'.Sees sb (.rest nodes own ops) → Q (-1) f')
    (makes : ∀ d dnode last s i f', Creates sb nodes c path d dnode last s i →
      f'.Sees sb (.rest (reclaim (created nodes type major minor d dnode last s i) own d) own ops) →
      Q 0 f') (full : E .dirlink) (free : ¬ Grounded nodes c → E .ilockNoType)
    (stop : ∀ e : Panic, e.Limit → E e) :
    wp (create sb k path type major minor >>= createdOrFailed sb) Q E f := by
  rw [wp_bind]
  refine wp_create h hnul htype ?_ (fun _ _ _ _ _ _ heq => absurd heq hfile) ?_ full free stop
  · intro f₁ h₁
    unfold createdOrFailed
    simp only [wp_bind, wp_pure]
    exact h₁.wp_endOp rfl fails
  · intro l d dnode last s i f₁ hcreates h₁
    unfold createdOrFailed
    simp only [wp_bind, wp_pure]
    refine h₁.wp_release rfl ?_ fun f₂ h₂ => h₂.wp_endOp rfl fun f₃ =>
      makes d dnode last s i f₃ hcreates
    intro node hnode hlinks
    rw [hcreates.made] at hnode
    cases hnode
    exact absurd hlinks (show (1 : BitVec 16) ≠ 0 by decide)

theorem wp_sysMkdir {path : Option CStr} (h : Idle sb f nodes own ops k c)
    (fails : ∀ f', f'.Sees sb (.rest nodes own ops) → Q (-1) f')
    (makes : ∀ p d dnode last s i f', path = some p → Creates sb nodes c p.bytes d dnode last s i →
      f'.Sees sb (.rest (reclaim (created nodes T_DIR 0 0 d dnode last s i) own d) own ops) → Q 0 f')
    (full : E .dirlink) (free : ¬ Grounded nodes c → E .ilockNoType)
    (stop : ∀ e : Panic, e.Limit → E e) : wp (sysMkdir sb k path) Q E f := by
  unfold sysMkdir
  rw [wp_bind]
  refine h.sees.wp_beginOp ?_ stop
  intro f₁ h₁
  cases path with
  | none =>
    simp only [wp_bind, wp_pure]
    exact h₁.wp_endOp rfl fails
  | some path =>
    exact wp_createdOrFailed (h.of_sees h₁) path.nul (by decide) (by decide) fails
      (fun d dnode last s i f' => makes path d dnode last s i f' rfl) full free stop

theorem wp_sysMknod {path : Option CStr} {major minor : BitVec 32} (h : Idle sb f nodes own ops k c)
    (fails : ∀ f', f'.Sees sb (.rest nodes own ops) → Q (-1) f')
    (makes : ∀ p d dnode last s i f', path = some p → Creates sb nodes c p.bytes d dnode last s i →
      f'.Sees sb (.rest (reclaim (created nodes T_DEVICE (major.setWidth 16) (minor.setWidth 16)
        d dnode last s i) own d) own ops) → Q 0 f') (full : E .dirlink)
    (free : ¬ Grounded nodes c → E .ilockNoType) (stop : ∀ e : Panic, e.Limit → E e) :
    wp (sysMknod sb k path major minor) Q E f := by
  unfold sysMknod
  rw [wp_bind]
  refine h.sees.wp_beginOp ?_ stop
  intro f₁ h₁
  cases path with
  | none =>
    simp only [wp_bind, wp_pure]
    exact h₁.wp_endOp rfl fails
  | some path =>
    exact wp_createdOrFailed (h.of_sees h₁) path.nul (by decide) (by decide) fails
      (fun d dnode last s i f' => makes path d dnode last s i f' rfl) full free stop

end Fs

end Xv6
