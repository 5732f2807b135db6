import Xv6.Fs.PathSpec
import Xv6.Sysfile.Names

/-! What the calls that make and remove names do to the map from inode numbers to nodes. -/
namespace Xv6

open Lib Lib.Exec

variable {sb : Superblock} {nodes nodes' : Nat → Option Node} {own : Multiset (Fin NINODE × Nat)}
variable {c d i j : Nat} {ops : Int} {name last : List UInt8} {names : List (List UInt8)}

theorem text_dot : CString.text dot DIRSIZ 0 = [46] := by decide

theorem text_dotdot : CString.text dotdot DIRSIZ 0 = [46, 46] := by decide

def FsView.rest (nodes : Nat → Option Node) (own : Multiset (Fin NINODE × Nat)) (ops : Int) : FsView :=
  ⟨nodes, own, ∅, ∅, ops⟩

/-- The caller holds the lock of `i` alone. -/
def FsView.locked (nodes : Nat → Option Node) (own : Multiset (Fin NINODE × Nat)) (i : Nat)
    (ops : Int) :
    FsView :=
  ⟨nodes, own, insert i ∅, insert i ∅, ops⟩

open Classical in
/-- After the last `iput`: without links and references inode `i` is free. -/
noncomputable def reclaim (nodes : Nat → Option Node) (own : Multiset (Fin NINODE × Nat)) (i : Nat) :
    Nat → Option Node :=
  if (∃ node, nodes i = some node ∧ node.nlink = 0) ∧ i ∉ FsView.referenced own
  then Function.update nodes i none else nodes

theorem reclaim_of_keep
    (h : ∀ node, nodes i = some node → node.nlink = 0 → i ∈ FsView.referenced own) :
    reclaim nodes own i = nodes :=
  if_neg fun ⟨⟨node, hnode, hlinks⟩, hlast⟩ => hlast (h node hnode hlinks)

theorem reclaim_of_ne (hne : j ≠ i) : reclaim nodes own i j = nodes j := by
  unfold reclaim
  split
  · exact Function.update_of_ne hne ..
  · rfl

theorem referenced_cons {k : Fin NINODE} :
    d ∈ FsView.referenced ((k, i) ::ₘ own) ↔ d = i ∨ d ∈ FsView.referenced own := by
  constructor
  · rintro ⟨l, hl⟩
    rcases Multiset.mem_cons.mp hl with heq | hl
    · exact .inl (congrArg Prod.snd heq)
    · exact .inr ⟨l, hl⟩
  · rintro (rfl | ⟨l, hl⟩)
    · exact ⟨k, Multiset.mem_cons_self _ _⟩
    · exact ⟨l, Multiset.mem_cons_of_mem hl⟩

theorem reclaim_cons {k : Fin NINODE} (hne : i ≠ d) :
    reclaim nodes ((k, i) ::ₘ own) d = reclaim nodes own d := by
  have hiff : d ∈ FsView.referenced ((k, i) ::ₘ own) ↔ d ∈ FsView.referenced own :=
    referenced_cons.trans (or_iff_right hne.symm)
  unfold reclaim
  rw [propext hiff]

def Node.shape (node : Node) : BitVec 16 × List UInt8 := (node.type, node.contents)

def SameShape (nodes nodes' : Nat → Option Node) : Prop :=
  ∀ i, (nodes' i).map Node.shape = (nodes i).map Node.shape

namespace SameShape

section

variable (h : SameShape nodes nodes')

include h

theorem symm : SameShape nodes' nodes := fun i => (h i).symm

theorem node {node : Node} (hnode : nodes i = some node) :
    ∃ node', nodes' i = some node' ∧ node'.type = node.type ∧ node'.contents = node.contents := by
  have hi := h i
  rw [hnode, Option.map_some, Option.map_eq_some_iff] at hi
  obtain ⟨node', hnode', hshape⟩ := hi
  exact ⟨node', hnode', congrArg Prod.fst hshape, congrArg Prod.snd hshape⟩

theorem none (hnone : nodes i = none) : nodes' i = none := by
  have hi := h i
  rwa [hnone, Option.map_none, Option.map_eq_none_iff] at hi

theorem named (hnames : Names nodes d name i) : Names nodes' d name i := by
  obtain ⟨node, m, hnode, hdir, hfinds, hi⟩ := hnames
  obtain ⟨node', hnode', htype, hcontents⟩ := h.node hnode
  refine ⟨node', m, hnode', htype.trans hdir, ?_, ?_⟩
  · rwa [hcontents]
  · rwa [hcontents]

theorem resolves (hresolves : Resolves nodes d names i) : Resolves nodes' d names i := by
  induction hresolves with
  | nil i => exact .nil i
  | cons hfirst _ ih => exact .cons (h.named hfirst) ih

theorem parentOf (hparent : ParentOf nodes j names d last) : ParentOf nodes' j names d last := by
  obtain ⟨init, node, hsplit, hresolves, hnode, hdir⟩ := hparent
  obtain ⟨node', hnode', htype, -⟩ := h.node hnode
  exact ⟨init, node', hsplit, h.resolves hresolves, hnode', htype.trans hdir⟩

theorem dangles (hdangles : Dangles nodes d names) : Dangles nodes' d names := by
  obtain ⟨init, rest, j, hsplit, hne, hresolves, hfree⟩ := hdangles
  exact ⟨init, rest, j, hsplit, hne, h.resolves hresolves, h.none hfree⟩

end

end SameShape

/-- Lookups from `c` or the root meet allocated inodes. -/
structure Grounded (nodes : Nat → Option Node) (c : Nat) : Prop where
  entries : ∀ d name i, Names nodes d name i → nodes i ≠ none
  root : nodes ROOTINO ≠ none
  cwd : nodes c ≠ none

theorem Grounded.allocated (h : Grounded nodes c) (hstart : nodes d ≠ none)
    (hresolves : Resolves nodes d names i) : nodes i ≠ none := by
  induction hresolves with
  | nil i => exact hstart
  | cons hfirst _ ih => exact ih (h.entries _ _ _ hfirst)

theorem Grounded.start (h : Grounded nodes c) (path : List UInt8) : nodes (startAt c path) ≠ none := by
  unfold startAt
  split
  · exact h.root
  · exact h.cwd

theorem Grounded.not_dangles (h : Grounded nodes c) (path : List UInt8) :
    ¬ Dangles nodes (startAt c path) names := by
  rintro ⟨init, rest, j, -, -, hresolves, hfree⟩
  exact h.allocated (h.start path) hresolves hfree

namespace Fs

variable {k l : Fin NINODE} {f : Fs} {a : FsView} {node : Node} {E : Panic → Prop}
variable {rest : Multiset (Fin NINODE × Nat)} {Q : Unit → Fs → Prop}

theorem Sees.wp_iput (h : f.Sees sb a) (hown : a.own = (k, i) ::ₘ rest) (hlock : i ∉ a.locks)
    (hi : i ∈ a.valid)
    (post : ∀ f', f'.Sees sb { a.keep rest with nodes := reclaim a.nodes rest i } → Q () f')
    (stop : ∀ e : Panic, e.Limit → E e) : wp (iput sb k) Q E f := by
  by_cases hlast : (∃ node, a.nodes i = some node ∧ node.nlink = 0) ∧ i ∉ FsView.referenced rest
  · have hreclaim : reclaim a.nodes rest i = Function.update a.nodes i none := if_pos hlast
    obtain ⟨⟨node, hnode, hlinks⟩, hlast'⟩ := hlast
    refine h.wp_iput_free hown hlock hi hlast' hnode hlinks ?_ stop
    intro f' h'
    refine post f' ?_
    rw [hreclaim]
    exact h'
  · have hkeep : ∀ node, a.nodes i = some node → node.nlink = 0 → i ∈ FsView.referenced rest := by
      intro node hnode hlinks
      by_contra hnot
      exact hlast ⟨⟨node, hnode, hlinks⟩, hnot⟩
    rw [reclaim_of_keep hkeep] at post
    exact h.wp_iput_keep hown (fun hmem => absurd hmem hlock) hkeep post

theorem Sees.wp_iput_any (h : f.Sees sb a) (hown : a.own = (k, i) ::ₘ rest) (hlock : i ∉ a.locks)
    (post : ∀ f' nodes', nodes' = a.nodes ∨ nodes' = reclaim a.nodes rest i →
      f'.Sees sb { a.keep rest with nodes := nodes' } → Q () f') (stop : ∀ e : Panic, e.Limit → E e) :
    wp (iput sb k) Q E f := by
  obtain ⟨valid, hle, rep⟩ := h
  refine Fs.wp_iput rep hown (fun hmem => absurd hmem hlock) ?_ ?_ stop
  · intro _ f' rep'
    exact post f' a.nodes (.inl rfl) ⟨_, Set.inter_subset_inter_left _ hle, rep'⟩
  · intro node _ hlast hnode hlinks f' rep'
    have hreclaim : reclaim a.nodes rest i = Function.update a.nodes i none :=
      if_pos ⟨⟨node, hnode, hlinks⟩, hlast⟩
    refine post f' _ (.inr rfl) ⟨_, Set.inter_subset_inter_left _ hle, ?_⟩
    rw [hreclaim]
    exact rep'

theorem Sees.wp_iunlockput {locks : Set Nat} (h : f.Sees sb a) (hown : a.own = (k, i) ::ₘ rest)
    (hlocks : a.locks = insert i locks) (hnew : i ∉ locks) (hi : i ∈ a.valid)
    (post : ∀ f', f'.Sees sb { a.keep rest with
      nodes := reclaim a.nodes rest i, locks := locks } → Q () f')
    (stop : ∀ e : Panic, e.Limit → E e) : wp (iunlockput sb k) Q E f := by
  have hk : (k, i) ∈ a.own := hown ▸ Multiset.mem_cons_self _ _
  unfold iunlockput
  rw [wp_bind]
  refine h.wp_iunlock hk (hlocks ▸ Set.mem_insert i _) ?_
  rw [hlocks, Set.insert_sdiff_self_of_notMem hnew]
  intro f' h'
  exact h'.wp_iput hown hnew hi post stop

theorem Sees.wp_ilock_locked (h : f.Sees sb a) (hk : (k, i) ∈ a.own) (hi : i ∈ a.locks)
    (deadlock : E .deadlock) : wp (ilock sb k) Q E f := by
  obtain ⟨valid, -, rep⟩ := h
  have hlocked := (rep.entry hk).locked_iff.mpr hi
  have href := rep.table.ref_pos hk
  unfold ilock
  simp only [wp_bind, wp_get]
  rw [wp_else (by omega), wp_then hlocked]
  exact deadlock

theorem Sees.wp_links (g : BitVec 16 → BitVec 16) (h : f.Sees sb a) (hk : (k, i) ∈ a.own)
    (hi : i ∈ a.valid) (hnode : a.nodes i = some node)
    (post : ∀ f', f'.Sees sb (a.setNode i (some { node with nlink := g node.nlink })) → Q () f')
    (stop : ∀ e : Panic, e.Limit → E e) :
    wp (update sb k fun ip => { ip with nlink := g ip.nlink }) Q E f := by
  obtain ⟨-, hmajor, hminor, hlinks, -⟩ := h.inode hk hi hnode
  refine h.wp_update hk hi hnode rfl ?_ stop
  intro f' h'
  dsimp only at h'
  rw [hmajor, hminor, hlinks] at h'
  exact post f' h'

theorem Sees.wp_release (h : f.Sees sb (.locked nodes own i ops)) (hown : own = (k, i) ::ₘ rest)
    (hkeep : ∀ node, nodes i = some node → node.nlink = 0 → i ∈ FsView.referenced rest)
    (post : ∀ f', f'.Sees sb (.rest nodes rest ops) → Q () f') : wp (iunlockput sb k) Q E f :=
  h.wp_iunlockput_keep hown rfl (Set.notMem_empty i) hkeep fun f' h' =>
    post f' (h'.valid_mono (Set.empty_subset _))

theorem Sees.wp_unlock (h : f.Sees sb (.locked nodes own i ops)) (hk : (k, i) ∈ own)
    (post : ∀ f', f'.Sees sb ⟨nodes, own, ∅, insert i ∅, ops⟩ → Q () f') :
    wp (iunlock k) Q E f := by
  refine h.wp_iunlock hk (Set.mem_insert i _) ?_
  have hlocks : (FsView.locked nodes own i ops).locks \ {i} = ∅ :=
    Set.insert_sdiff_self_of_notMem (Set.notMem_empty i)
  rw [hlocks]
  exact post

/-- Between calls: nothing is locked, lookups work, and the current directory is entry `k`,
inode `c`. -/
structure Idle (sb : Superblock) (f : Fs) (nodes : Nat → Option Node)
    (own : Multiset (Fin NINODE × Nat)) (ops : Int) (k : Fin NINODE) (c : Nat) : Prop where
  sees : f.Sees sb (.rest nodes own ops)
  walk : Walkable sb nodes own
  cwd : (k, c) ∈ own
  cwd_lt : c < sb.ninodes
  root_lt : ROOTINO < sb.ninodes

namespace Idle

variable {path : List UInt8} {buf : Nat → UInt8}

theorem of_sees (h : Idle sb f nodes own ops k c) {f' : Fs} {ops' : Int}
    (h' : f'.Sees sb (.rest nodes own ops')) : Idle sb f' nodes own ops' k c :=
  ⟨h', h.walk, h.cwd, h.cwd_lt, h.root_lt⟩

theorem anchored (h : Idle sb f nodes own ops k c) (hle : own ≤ rest) (hnode : nodes i = some node)
    (hlinks : node.nlink = 0) : i ∈ FsView.referenced rest := by
  obtain ⟨l, hl⟩ := h.walk.anchored i node hnode hlinks
  exact ⟨l, Multiset.mem_of_le hle hl⟩

theorem wp_namei {R : Option (Fin NINODE) → Fs → Prop} (h : Idle sb f nodes own ops k c)
    (hnul : 0 ∉ path)
    (found : ∀ i l f', Resolves nodes (startAt c path) (elems path) i → i < sb.ninodes →
      f'.Sees sb (.rest nodes ((l, i) ::ₘ own) ops) → R (some l) f')
    (fails : ∀ f', (∀ i, ¬ Resolves nodes (startAt c path) (elems path) i) →
      f'.Sees sb (.rest nodes own ops) → R none f')
    (free : ¬ Grounded nodes c → E .ilockNoType)
    (stop : ∀ e : Panic, e.Limit → E e) : wp (namei sb k path) R E f :=
  Fs.wp_namei h.sees h.walk.passable rfl h.cwd h.cwd_lt h.root_lt (h.walk.anchored ROOTINO) hnul found
    fails
    (fun hdangles => free fun hground => hground.not_dangles path hdangles)
    fun _ => stop _ Panic.limit_iget

theorem wp_nameiparent {Q : Option (Fin NINODE) × (Nat → UInt8) → Fs → Prop}
    (h : Idle sb f nodes own ops k c) (hnul : 0 ∉ path)
    (found : ∀ d l buf f',
      ParentOf nodes (startAt c path) (elems path) d (CString.text buf DIRSIZ 0) →
      d < sb.ninodes → f'.Sees sb (.rest nodes ((l, d) ::ₘ own) ops) → Q (some l, buf) f')
    (fails : ∀ buf f',
      (∀ d last, ¬ ParentOf nodes (startAt c path) (elems path) d last) →
      f'.Sees sb (.rest nodes own ops) → Q (none, buf) f')
    (free : ¬ Grounded nodes c → E .ilockNoType)
    (stop : ∀ e : Panic, e.Limit → E e) : wp (nameiparent sb k path) Q E f :=
  Fs.wp_nameiparent h.sees h.walk.passable rfl h.cwd h.cwd_lt h.root_lt (h.walk.anchored ROOTINO)
    hnul found
    fails
    (fun hdangles => free fun hground => hground.not_dangles path hdangles)
    fun _ => stop _ Panic.limit_iget

end Idle

theorem Sees.wp_lock (h : f.Sees sb (.rest nodes own ops)) (hk : (k, i) ∈ own) (hi : i < sb.ninodes)
    (post : ∀ f' node, nodes i = some node → f'.Sees sb (.locked nodes own i ops) → Q () f')
    (free : nodes i = none → E .ilockNoType) : wp (ilock sb k) Q E f :=
  h.wp_ilock hk hi (Set.notMem_empty i) post free

end Fs

def nameField (name : List UInt8) : List UInt8 := name ++ List.replicate (DIRSIZ - name.length) 0

def dotEntries (i d : Nat) : List UInt8 :=
  Dir.setEntry (Dir.setEntry [] 0 i (nameField [46])) 1 d (nameField [46, 46])

def madeNode (type major minor : BitVec 16) (i d : Nat) : Node :=
  ⟨type, major, minor, 1, if type = T_DIR then dotEntries i d else []⟩

def Node.gain (dnode : Node) (type : BitVec 16) (s i : Nat) (name : List UInt8) : Node :=
  { dnode with
    nlink := if type = T_DIR then dnode.nlink + 1 else dnode.nlink
    contents := Dir.setEntry dnode.contents s i (nameField name) }

def Node.lose (dnode : Node) (type : BitVec 16) (m : Nat) : Node :=
  { dnode with
    nlink := if type = T_DIR then dnode.nlink - 1 else dnode.nlink
    contents := Dir.setEntry dnode.contents m 0 (List.replicate DIRSIZ 0) }

end Xv6
