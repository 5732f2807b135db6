import Xv6.Sysfile.NamesSpec

/-! What `sys_link` and `sys_unlink` do. -/
namespace Xv6

open Function (update_eq_self update_idem update_of_ne update_self)
open Lib Lib.Exec Multiset

variable {sb : Superblock} {nodes nodes' : Nat → Option Node} {own own' : Multiset (Fin NINODE × Nat)}
variable {c d i : Nat} {ops : Int}

variable {k l : Fin NINODE} {f : Fs} {E : Panic → Prop} {node dnode : Node}

theorem sameShape_links (hnode : nodes i = some node) (links : BitVec 16) :
    SameShape nodes (Function.update nodes i (some { node with nlink := links })) := by
  intro j
  obtain rfl | hj := eq_or_ne j i
  · rw [update_self, hnode]
    rfl
  · rw [update_of_ne hj]

/-- Lookups go on when the link count of a referenced inode changes. -/
theorem Walkable.links (h : Walkable sb nodes own) (hnode : nodes i = some node)
    (links : BitVec 16) :
    Walkable sb (Function.update nodes i (some { node with nlink := links })) ((l, i) ::ₘ own) where
  aligned d dnode hdnode hdir := by
    obtain ⟨dnode', hdnode', htype, hcontents⟩ := (sameShape_links hnode links).symm.node hdnode
    rw [← hcontents]
    exact h.aligned d dnode' hdnode' (htype.trans hdir)
  inum_lt d name j hnames := h.inum_lt d name j ((sameShape_links hnode links).symm.named hnames)
  anchored j jnode hjnode hlinks := by
    rw [referenced_cons]
    by_cases hj : j = i
    · exact .inl hj
    · rw [update_of_ne hj] at hjnode
      exact .inr (h.anchored j jnode hjnode hlinks)

namespace Fs

/-- File `i`, and directory `d` with slot `s` for the new name. -/
structure Links (nodes : Nat → Option Node) (c : Nat) (old new : List UInt8) (i : Nat) (node : Node)
    (d : Nat) (dnode : Node) (last : List UInt8) (s : Nat) : Prop where
  resolves : Resolves nodes (startAt c old) (elems old) i
  file : nodes i = some node
  notDir : node.type ≠ T_DIR
  parent : ParentOf nodes (startAt c new) (elems new) d last
  dir : nodes d = some dnode
  misses : Dir.Misses dnode.contents last
  slot : Dir.FreeSlot dnode.contents s

def linked (nodes : Nat → Option Node) (i : Nat) (node : Node) (d : Nat) (dnode : Node)
    (last : List UInt8) (s : Nat) : Nat → Option Node :=
  Function.update (Function.update nodes i (some { node with nlink := node.nlink + 1 })) d
    (some { dnode with contents := Dir.setEntry dnode.contents s i (nameField last) })

variable {Q : Int → Fs → Prop}

theorem wp_linkBad (h : Idle sb f nodes own ops k c) (hnode : nodes i = some node)
    (hi : i < sb.ninodes) {f' : Fs} {valid : Set Nat}
    (h' : f'.Sees sb ⟨Function.update nodes i (some { node with nlink := node.nlink + 1 }),
      (l, i) ::ₘ own, ∅, valid, ops + 1⟩)
    (fails : ∀ f'', f''.Sees sb (.rest nodes own ops) → Q (-1) f'')
    (stop : ∀ e : Panic, e.Limit → E e) : wp (linkBad sb l) Q E f' := by
  have hback : Function.update (Function.update nodes i (some { node with nlink := node.nlink + 1 })) i
      (some { node with nlink := node.nlink + 1 - 1 }) = nodes := by
    rw [update_idem, BitVec.add_sub_cancel, ← hnode, update_eq_self]
  replace h' := h'.valid_mono (Set.empty_subset _)
  unfold linkBad
  simp only [wp_bind, wp_pure]
  refine Sees.wp_lock h' (mem_cons_self _ _) hi ?_ ?_
  swap
  · intro hnone
    dsimp only at hnone
    rw [update_self] at hnone
    cases hnone
  intro f₁ _ _ h₁
  refine h₁.wp_links (· - 1) (mem_cons_self _ _) (Set.mem_insert _ _)
    (update_self ..) ?_ stop
  intro f₂ h₂
  simp only [FsView.setNode, FsView.locked, hback] at h₂
  refine Sees.wp_release h₂ rfl (fun _ hnode => h.anchored le_rfl hnode) ?_
  exact fun f₃ h₃ => h₃.wp_endOp rfl fails

theorem wp_sysLink {old new : Option CStr} (h : Idle sb f nodes own ops k c)
    (fails : ∀ f', f'.Sees sb (.rest nodes own ops) → Q (-1) f')
    (links : ∀ p q i node d dnode last s f', old = some p → new = some q →
      Links nodes c p.bytes q.bytes i node d dnode last s →
      f'.Sees sb (.rest (reclaim (linked nodes i node d dnode last s) own i) own ops) → Q 0 f')
    (full : E .dirlink) (free : ¬ Grounded nodes c → E .ilockNoType)
    (stop : ∀ e : Panic, e.Limit → E e) : wp (sysLink sb k old new) Q E f := by
  unfold sysLink
  cases old with
  | none => exact fails f h.sees
  | some old =>
  cases new with
  | none => exact fails f h.sees
  | some new =>
  simp only [wp_bind]
  refine h.sees.wp_beginOp ?_ stop
  intro f₁ h₁
  have idle := h.of_sees h₁
  refine idle.wp_namei old.nul ?_ ?_ free stop
  swap
  · intro f₂ _ h₂
    simp only [wp_bind, wp_pure]
    exact h₂.wp_endOp rfl fails
  intro i l f₂ hresolves hi h₂
  have hl : (l, i) ∈ (l, i) ::ₘ own := mem_cons_self _ _
  simp only [wp_bind]
  refine h₂.wp_lock hl hi ?_ fun hnone => free fun hground =>
    hground.allocated (hground.start _) hresolves hnone
  intro f₃ node hnode h₃
  simp only [wp_get]
  rw [wp_ite, (h₃.inode hl (Set.mem_insert _ _) hnode).1]
  split
  · simp only [wp_bind, wp_pure]
    refine h₃.wp_release rfl (fun _ hnode => h.anchored le_rfl hnode) ?_
    exact fun f₄ h₄ => h₄.wp_endOp rfl fails
  · rename_i hfile
    simp only [wp_bind]
    refine h₃.wp_links (· + 1) hl (Set.mem_insert _ _) hnode ?_ stop
    intro f₄ h₄
    refine Sees.wp_unlock h₄ hl ?_
    intro f₅ h₅
    have shape := sameShape_links hnode (node.nlink + 1)
    have walk := h.walk.links (l := l) hnode (node.nlink + 1)
    refine wp_nameiparent h₅ walk.passable rfl (mem_cons_of_mem h.cwd) h.cwd_lt
      h.root_lt (walk.anchored ROOTINO) new.nul ?_ ?_ ?_ fun _ => stop _ Panic.limit_iget
    · intro d l' buf f₆ hparent hd h₆
      replace hparent := shape.symm.parentOf hparent
      obtain ⟨-, dnode, -, -, hdnode, hdir⟩ := id hparent
      have hne : d ≠ i := by
        rintro rfl
        rw [hdnode] at hnode
        cases hnode
        exact hfile hdir
      have hkeep : ∀ {contents : List UInt8}, ({ dnode with contents := contents } : Node).nlink = 0 →
          d ∈ FsView.referenced ((l, i) ::ₘ own) :=
        fun hlinks => h.anchored (le_cons_self _ _) hdnode hlinks
      have hdnode₁ : Function.update nodes i (some { node with nlink := node.nlink + 1 }) d =
          some dnode := (update_of_ne hne ..).trans hdnode
      have hl' : (l', d) ∈ (l', d) ::ₘ (l, i) ::ₘ own := mem_cons_self _ _
      simp only [wp_bind]
      refine h₆.wp_ilock hl' hd (Set.notMem_empty d) ?_ ?_
      swap
      · exact fun hnone => absurd (hdnode₁.symm.trans hnone) (Option.some_ne_none _)
      intro f₇ _ _ h₇
      have hdev := (h₇.inum hl').2
      obtain ⟨hinum', hdev'⟩ := h₇.inum (mem_cons_of_mem hl)
      simp only [wp_get]
      rw [wp_else (by rw [hdev, hdev']; exact fun hne => hne rfl), wp_bind, hinum']
      refine h₇.wp_dirlink hl' (Set.mem_insert _ _) hdnode₁ hdir ?_ ?_ (fun _ _ _ => full)
        (h.walk.aligned d dnode hdnode hdir) stop
      · -- the name is there already
        intro _ _ f₈ h₈
        rw [wp_then (by decide), wp_bind]
        refine h₈.wp_iunlockput_keep rfl rfl (Set.notMem_empty d) ?_ ?_
        · intro dnode' hdnode' hlinks
          cases hdnode₁.symm.trans hdnode'
          exact hkeep hlinks
        · intro f₉ h₉
          exact wp_linkBad h hnode hi h₉ fails stop
      · intro hmisses s hslot f₈ h₈
        rw [wp_else (by decide)]
        simp only [wp_bind, wp_pure]
        rw [CString.strncpy_eq] at h₈
        refine h₈.wp_iunlockput_keep rfl rfl (Set.notMem_empty d) ?_ ?_
        · intro dnode' hdnode' hlinks
          cases (update_self ..).symm.trans hdnode'
          exact hkeep hlinks
        · intro f₉ h₉
          refine h₉.wp_iput rfl (Set.notMem_empty i)
            ⟨Set.mem_insert_of_mem _ (Set.mem_insert _ _), l, hl⟩ ?_ stop
          intro f₁₀ h₁₀
          refine (h₁₀.valid_mono (Set.empty_subset _)).wp_endOp rfl ?_
          exact fun f₁₁ => links old new i node d dnode _ s f₁₁ rfl rfl
            ⟨hresolves, hnode, hfile, hparent, hdnode, hmisses, hslot⟩
    · intro _ f₆ _ h₆
      exact wp_linkBad h hnode hi h₆ fails stop
    · intro hdangles
      exact free fun hground => hground.not_dangles _ (shape.symm.dangles hdangles)

/-- Slot `m` of `d` has the last name, for an inode `i` without further entries. -/
structure Removes (nodes : Nat → Option Node) (c : Nat) (path : List UInt8) (d : Nat) (dnode : Node)
    (last : List UInt8) (m i : Nat) (node : Node) : Prop where
  parent : ParentOf nodes (startAt c path) (elems path) d last
  dir : nodes d = some dnode
  isDir : dnode.type = T_DIR
  name : last ≠ [46] ∧ last ≠ [46, 46]
  finds : Dir.Finds dnode.contents last m
  inum : (Dir.entry dnode.contents m).1 = i
  node_eq : nodes i = some node
  linked : 1 ≤ node.nlink.toInt
  empty : node.type = T_DIR →
    ∀ m, 2 ≤ m → m < Dir.slots node.contents → (Dir.entry node.contents m).1 = 0
  ne : i ≠ d

noncomputable def removed (nodes : Nat → Option Node) (own : Multiset (Fin NINODE × Nat)) (d : Nat)
    (dnode : Node) (m i : Nat) (node : Node) : Nat → Option Node :=
  reclaim (Function.update
    (reclaim (Function.update nodes d (some (dnode.lose node.type m))) own d) i
    (some { node with nlink := node.nlink - 1 })) own i

theorem wp_loseDots {Q : Unit → Fs → Prop} {locks valid : Set Nat} {type : BitVec 16}
    (h : f.Sees sb ⟨nodes, own, locks, valid, ops⟩) (hk : (k, d) ∈ own) (hd : d ∈ valid)
    (hdnode : nodes d = some dnode)
    (post : ∀ f', f'.Sees sb ⟨Function.update nodes d (some { dnode with
      nlink := if type = T_DIR then dnode.nlink - 1 else dnode.nlink }), own, locks, valid, ops⟩ →
      Q () f')
    (stop : ∀ e : Panic, e.Limit → E e) : wp (loseDots sb k type) Q E f := by
  unfold loseDots
  rw [wp_ite]
  split
  · rename_i hdir
    simp only [if_pos hdir] at post
    exact h.wp_links (· - 1) hk hd hdnode post stop
  · rename_i hdir
    rw [wp_pure]
    refine post f ?_
    simp only [if_neg hdir]
    rw [← hdnode, update_eq_self]
    exact h

theorem wp_unlinkBad (h : Idle sb f nodes own ops k c) {f' : Fs}
    (h' : f'.Sees sb (.locked nodes ((l, d) ::ₘ own) d (ops + 1)))
    (fails : ∀ f'', f''.Sees sb (.rest nodes own ops) → Q (-1) f'') :
    wp (unlinkBad sb l) Q E f' := by
  unfold unlinkBad
  simp only [wp_bind, wp_pure]
  refine h'.wp_release rfl (fun _ hnode => h.anchored le_rfl hnode) ?_
  exact fun f₁ h₁ => h₁.wp_endOp rfl fails

theorem wp_sysUnlink {path : Option CStr} (h : Idle sb f nodes own ops k c)
    (fails : ∀ f', f'.Sees sb (.rest nodes own ops) → Q (-1) f')
    (removes : ∀ p d dnode last m i node f', path = some p →
      Removes nodes c p.bytes d dnode last m i node →
      f'.Sees sb (.rest (removed nodes own d dnode m i node) own ops) → Q 0 f')
    (self : ∀ d name, name ≠ [46] → name ≠ [46, 46] → Names nodes d name d → E .deadlock)
    (unlinked : ∀ d name i node, name ≠ [46] → name ≠ [46, 46] → Names nodes d name i →
      nodes i = some node → node.nlink.toInt < 1 → E .unlinkNlink)
    (free : ¬ Grounded nodes c → E .ilockNoType) (stop : ∀ e : Panic, e.Limit → E e) :
    wp (sysUnlink sb k path) Q E f := by
  unfold sysUnlink
  cases path with
  | none => exact fails f h.sees
  | some path =>
  simp only [wp_bind]
  refine h.sees.wp_beginOp ?_ stop
  intro f₁ h₁
  refine (h.of_sees h₁).wp_nameiparent path.nul ?_ ?_ free stop
  swap
  · intro buf f₂ _ h₂
    simp only [wp_bind, wp_pure]
    exact h₂.wp_endOp rfl fails
  intro d l buf f₂ hparent hd h₂
  obtain ⟨-, dnode, -, -, hdnode, hdir⟩ := id hparent
  have hl : (l, d) ∈ (l, d) ::ₘ own := mem_cons_self _ _
  simp only [wp_bind]
  refine h₂.wp_lock hl hd ?_ fun hnone => absurd (hdnode.symm.trans hnone) (Option.some_ne_none _)
  intro f₃ _ _ h₃
  rw [wp_ite]
  split
  · exact wp_unlinkBad h h₃ fails
  rename_i hdots
  have hname : CString.text buf DIRSIZ 0 ≠ [46] ∧ CString.text buf DIRSIZ 0 ≠ [46, 46] := by
    unfold namecmp at hdots
    rw [CString.strncmp_eq_zero_iff, CString.strncmp_eq_zero_iff, text_dot, text_dotdot,
      not_or] at hdots
    exact hdots
  rw [wp_bind]
  refine h₃.wp_dirlookup hl (Set.mem_insert _ _) hdnode hdir ?_ (fun _ => wp_unlinkBad h h₃ fails)
    (h.walk.aligned d _ hdnode hdir) fun _ => stop _ Panic.limit_iget
  intro m hfinds l' f₄ h₄
  have hnames : Names nodes d (CString.text buf DIRSIZ 0) (Dir.entry dnode.contents m).1 :=
    ⟨dnode, m, hdnode, hdir, hfinds, rfl⟩
  generalize hi : (Dir.entry dnode.contents m).1 = i at hnames h₄
  have hl' : (l', i) ∈ (l', i) ::ₘ (l, d) ::ₘ own := mem_cons_self _ _
  simp only [wp_bind]
  obtain rfl | hne := eq_or_ne i d
  · exact h₄.wp_ilock_locked hl' (Set.mem_insert _ _) (self _ _ hname.1 hname.2 hnames)
  refine h₄.wp_ilock hl' (h.walk.inum_lt _ _ _ hnames) (fun hmem => hmem.elim hne id) ?_
    (fun hnone => free fun hground => hground.entries _ _ _ hnames hnone)
  intro f₅ node hnode h₅
  replace hnode : nodes i = some node := hnode
  obtain ⟨htype, -, -, hlinks, -⟩ := h₅.inode hl' (Set.mem_insert _ _) hnode
  simp only [wp_get]
  rw [wp_ite, htype, hlinks]
  split
  · rename_i hbad
    exact unlinked _ _ _ _ hname.1 hname.2 hnames hnode hbad
  rename_i hlinked
  have hdvd : node.type = T_DIR → direntSize ∣ node.contents.length := h.walk.aligned i node hnode
  have hcheck : wp (removable sb l' node.type)
      (fun empty f' => f' = f₅ ∧ (empty = true → node.type = T_DIR →
      ∀ m, 2 ≤ m → m < Dir.slots node.contents → (Dir.entry node.contents m).1 = 0)) E f₅ := by
    unfold removable
    rw [wp_ite]
    split
    · rename_i hidir
      exact h₅.wp_isdirempty hl' (Set.mem_insert _ _) hnode (fun hempty => ⟨rfl, fun _ _ => hempty⟩)
        (fun _ _ _ _ => ⟨rfl, fun hfalse => Bool.noConfusion hfalse⟩) (hdvd hidir)
    · rename_i hfile
      exact ⟨rfl, fun _ hidir => absurd hidir hfile⟩
  rw [wp_bind]
  refine wp_mono hcheck ?_ fun _ he => he
  rintro empty _ ⟨rfl, hempty⟩
  rw [wp_ite]
  split
  · -- a directory with entries
    rw [wp_bind]
    refine h₅.wp_iunlockput_keep rfl rfl (fun hmem => hmem.elim hne id)
      (fun _ hnode => h.anchored (le_cons_self _ _) hnode) ?_
    intro f₆ h₆
    refine wp_unlinkBad h (h₆.valid_mono ?_) fails
    rintro j (rfl | hj)
    · exact ⟨Set.mem_insert_of_mem _ (Set.mem_insert _ _), l, hl⟩
    · exact absurd hj (Set.notMem_empty j)
  rename_i hyes
  replace hempty := hempty (by simpa using hyes)
  have hd' : d ∈ (insert i (insert d ∅) : Set Nat) := Set.mem_insert_of_mem _ (Set.mem_insert _ _)
  have hi' : i ∈ (insert i (insert d ∅) : Set Nat) := Set.mem_insert _ _
  have hk' : (l, d) ∈ (l', i) ::ₘ (l, d) ::ₘ own := mem_cons_of_mem hl
  have hdi : d ≠ i := fun heq => hne heq.symm
  simp only [wp_bind]
  refine h₅.wp_writeEntry hk' hd' hdnode hfinds.2.1 List.length_replicate ?_ stop
  intro f₆ h₆
  rw [wp_else (fun hbad => hbad rfl)]
  have hnode₆ : Function.update nodes d (some { dnode with
      contents := Dir.setEntry dnode.contents m 0 (List.replicate DIRSIZ 0) }) i = some node :=
    (update_of_ne hne ..).trans hnode
  simp only [wp_bind, wp_pure, wp_get]
  rw [(h₆.inode hl' hi' hnode₆).1]
  refine wp_loseDots h₆ hk' hd' (update_self ..) ?_ stop
  intro f₇ h₇
  rw [show _ = _ from update_idem ..] at h₇
  refine h₇.wp_iunlockput (cons_swap _ _ _) (Set.insert_comm _ _ _)
    (fun hmem => hmem.elim hdi id) hd' ?_ stop
  intro f₈ h₈
  dsimp only at h₈
  rw [reclaim_cons hne] at h₈
  have hnode₈ : reclaim (Function.update nodes d (some (dnode.lose node.type m))) own d i =
      some node := by
    rw [reclaim_of_ne hne, update_of_ne hne, hnode]
  have hl₈ : (l', i) ∈ (l', i) ::ₘ own := mem_cons_self _ _
  refine h₈.wp_links (· - 1) hl₈ ⟨hi', l', hl₈⟩ hnode₈ ?_ stop
  intro f₉ h₉
  refine h₉.wp_iunlockput rfl rfl (Set.notMem_empty i) ⟨hi', l', hl₈⟩ ?_ stop
  intro f₁₀ h₁₀
  refine (h₁₀.valid_mono (Set.empty_subset _)).wp_endOp rfl ?_
  exact fun f₁₁ => removes path d dnode _ m i node f₁₁ rfl
    ⟨hparent, hdnode, hdir, hname, hfinds, hi, hnode, by omega, hempty, hne⟩

end Fs

end Xv6
