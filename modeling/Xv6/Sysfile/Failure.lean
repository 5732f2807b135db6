import Xv6.Fs.SmallDisk
import Xv6.Sysfile.LinkSpec
import Xv6.Sysfile.OpenSpec

/-! Failing calls. A call that returns -1 leaves names, inodes and references as they were. -/
namespace Xv6

open Lib Lib.Exec

variable {sb : Superblock} {img : Image} {nodes : Nat → Option Node} {c d i : Nat}

/-- Entries lead to allocated inodes, are counted unless "." or "..", and these two come first. -/
structure Orderly (nodes : Nat → Option Node) (c : Nat) : Prop extends Grounded nodes c where
  dots : ∀ d node, nodes d = some node → node.type = T_DIR →
    (Dir.entry node.contents 0).2 = [46] ∧ (Dir.entry node.contents 1).2 = [46, 46]
  linked : ∀ d name i node, name ≠ [46] → name ≠ [46, 46] → Names nodes d name i →
    nodes i = some node → 1 ≤ node.nlink.toInt
  noSelf : ∀ d name, name ≠ [46] → name ≠ [46, 46] → ¬ Names nodes d name d

theorem Resolves.unique {names : List (List UInt8)} {j : Nat} (h : Resolves nodes d names i)
    (h' : Resolves nodes d names j) : i = j := by
  induction h with
  | nil i =>
    cases h'
    rfl
  | cons hfirst _ ih => exact ih ((resolves_cons_iff hfirst).mp h')

/-- Paths that end in "." or "..", and directories with other entries. -/
def Unremovable (nodes : Nat → Option Node) (c : Nat) (path : List UInt8) : Prop :=
  (∃ init, elems path = init ++ [[46]] ∨ elems path = init ++ [[46, 46]]) ∨
    ∃ i name j, Resolves nodes (startAt c path) (elems path) i ∧ name ≠ [46] ∧ name ≠ [46, 46] ∧
      Names nodes i name j

theorem Unremovable.not_removes {path last : List UInt8} {dnode node : Node} {m : Nat}
    (h : Unremovable nodes c path) (orderly : Orderly nodes c) :
    ¬ Fs.Removes nodes c path d dnode last m i node := by
  intro removes
  obtain ⟨init, _, hsplit, -, -, -⟩ := id removes.parent
  rcases h with ⟨init', hdot | hdotdot⟩ | ⟨j, name, t, hresolves, hdot, hdotdot, hnames⟩
  · rw [hdot] at hsplit
    exact removes.name.1 (List.cons.inj (List.append_inj' hsplit rfl).2).1.symm
  · rw [hdotdot] at hsplit
    exact removes.name.2 (List.cons.inj (List.append_inj' hsplit rfl).2).1.symm
  · have hlast : Names nodes d last i :=
      ⟨dnode, m, removes.dir, removes.isDir, removes.finds, removes.inum⟩
    obtain rfl := hresolves.unique (removes.parent.resolves hlast)
    obtain ⟨node', m', hnode', hdir, ⟨-, hlt, ⟨hused, hname⟩, -⟩, -⟩ := hnames
    cases removes.node_eq.symm.trans hnode'
    obtain ⟨hfirst, hsecond⟩ := orderly.dots j node hnode' hdir
    have hge : 2 ≤ m' := by
      rcases m' with _ | _ | m'
      · exact absurd (hname.symm.trans hfirst) hdot
      · exact absurd (hname.symm.trans hsecond) hdotdot
      · omega
    exact hused (removes.empty hdir m' hge hlt)

namespace Fs.Sees

variable {f : Fs} {a : FsView}

theorem nodes_eq (h : f.Sees sb a) : (f.store.volume sb).nodes = a.nodes := by
  obtain ⟨valid, -, rep⟩ := h
  exact rep.nodes_eq

theorem ref_eq (h : f.Sees sb a) (k : Fin NINODE) :
    (f.itable k).ref = (a.own.countP fun p => p.1 = k : Nat) := by
  obtain ⟨valid, -, rep⟩ := h
  exact rep.table.count k

end Fs.Sees

/-- For want of blocks, inodes, table entries or log space. -/
def Stop.Limit (e : Stop) : Prop := ∃ e', e = .fs e' ∧ e'.Limit

namespace Kernel

/-- Inode numbers to types, link counts and contents. -/
def tree (sb : Superblock) (k : Kernel) : Nat → Option Node := (k.fs.store.volume sb).nodes

variable {k k' : Kernel} {p : Fin NPROC} {cwd : Fin NINODE}

/-- Process `p` makes a system call in a consistent state. -/
structure Consistent (sb : Superblock) (k : Kernel) (p : Fin NPROC) (cwd : Fin NINODE) : Prop where
  inodes : InodesReady sb k.fs
  walk : Walkable sb (k.tree sb) k.fs.references
  orderly : Orderly (k.tree sb) (k.fs.itable cwd).inum
  cwd_eq : (k.proc p).cwd = some cwd
  cwd_ref : 0 < (k.fs.itable cwd).ref
  root_lt : ROOTINO < sb.ninodes
  files : ∀ f, (k.ftable f).ref = 0 → (k.ftable f).type = .none

structure Same (sb : Superblock) (k k' : Kernel) : Prop where
  tree : k'.tree sb = k.tree sb
  proc : k'.proc = k.proc
  ftable : k'.ftable = k.ftable
  ref : ∀ j, (k'.fs.itable j).ref = (k.fs.itable j).ref

namespace Consistent

theorem mem_references (h : k.Consistent sb p cwd) : (cwd, (k.fs.itable cwd).inum) ∈ k.fs.references :=
  Fs.mem_references.mpr ⟨h.cwd_ref, rfl⟩

theorem idle (h : k.Consistent sb p cwd) : Fs.Idle sb k.fs (k.tree sb) k.fs.references
    k.fs.store.log.outstanding cwd (k.fs.itable cwd).inum where
  sees := h.inodes.rep.sees.valid_mono (Set.empty_subset _)
  walk := h.walk
  cwd := h.mem_references
  cwd_lt := h.inodes.table.inum_lt _ h.cwd_ref
  root_lt := h.root_lt

theorem ref_eq (h : k.Consistent sb p cwd) {f : Fs} {nodes : Nat → Option Node} {ops : Int}
    (sees : f.Sees sb (.rest nodes k.fs.references ops)) (j : Fin NINODE) :
    (f.itable j).ref = (k.fs.itable j).ref := by
  rw [sees.ref_eq j, h.inodes.rep.table.count j]
  rfl

theorem same (h : k.Consistent sb p cwd) {f : Fs} {ops : Int}
    (sees : f.Sees sb (.rest (k.tree sb) k.fs.references ops)) : k.Same sb (k.setFs f) where
  tree := sees.nodes_eq
  proc := rfl
  ftable := rfl
  ref := h.ref_eq sees

end Consistent

inductive NamingCall where
  | link (old new : Option CStr)
  | unlink (path : Option CStr)
  | mkdir (path : Option CStr)
  | mknod (path : Option CStr) (major minor : BitVec 32)
  | chdir (path : Option CStr)

def NamingCall.run (sb : Superblock) (p : Fin NPROC) : NamingCall → Exec Kernel Stop Int
  | .link old new => sysLink sb p old new
  | .unlink path => sysUnlink sb p path
  | .mkdir path => sysMkdir sb p path
  | .mknod path major minor => sysMknod sb p path major minor
  | .chdir path => sysChdir sb p path

theorem NamingCall.wp_run (h : k.Consistent sb p cwd) (call : NamingCall) :
    wp (call.run sb p) (fun r k' => r = -1 → k.Same sb k') (fun _ => True) k := by
  have idle := h.idle
  have fails : ∀ f', f'.Sees sb (.rest (k.tree sb) k.fs.references k.fs.store.log.outstanding) →
      (-1 : Int) = -1 → k.Same sb (k.setFs f') := fun f' sees _ => h.same sees
  have hzero : ∀ {q : Prop}, (0 : Int) = -1 → q := fun heq => absurd heq (by decide)
  cases call with
  | link old new =>
    unfold NamingCall.run sysLink
    rw [wp_bind]
    refine wp_cwdOf h.cwd_eq ((wp_onFs ..).mpr ?_)
    exact Fs.wp_sysLink idle fails (fun _ _ _ _ _ _ _ _ _ _ _ _ _ => hzero) trivial
      (fun _ => trivial) (fun _ _ => trivial)
  | unlink path =>
    unfold NamingCall.run sysUnlink
    rw [wp_bind]
    refine wp_cwdOf h.cwd_eq ((wp_onFs ..).mpr ?_)
    exact Fs.wp_sysUnlink idle fails (fun _ _ _ _ _ _ _ _ _ _ _ => hzero)
      (fun _ _ _ _ _ => trivial) (fun _ _ _ _ _ _ _ _ _ => trivial) (fun _ => trivial)
      (fun _ _ => trivial)
  | mkdir path =>
    unfold NamingCall.run sysMkdir
    rw [wp_bind]
    refine wp_cwdOf h.cwd_eq ((wp_onFs ..).mpr ?_)
    exact Fs.wp_sysMkdir idle fails (fun _ _ _ _ _ _ _ _ _ _ => hzero) trivial
      (fun _ => trivial) (fun _ _ => trivial)
  | mknod path major minor =>
    unfold NamingCall.run sysMknod
    rw [wp_bind]
    refine wp_cwdOf h.cwd_eq ((wp_onFs ..).mpr ?_)
    exact Fs.wp_sysMknod idle fails (fun _ _ _ _ _ _ _ _ _ _ => hzero) trivial
      (fun _ => trivial) (fun _ _ => trivial)
  | chdir path =>
    obtain ⟨rest, hrest⟩ := Multiset.exists_cons_of_mem h.mem_references
    exact wp_sysChdir idle h.cwd_eq hrest fails (fun _ _ _ _ _ _ _ _ _ _ _ _ => hzero)
      (fun _ => trivial) (fun _ _ => trivial)

theorem wp_sysUnlink_unremovable (h : k.Consistent sb p cwd) {path : CStr}
    (hpath : Unremovable (k.tree sb) (k.fs.itable cwd).inum path.bytes) :
    wp (sysUnlink sb p (some path)) (fun r _ => r = -1) Stop.Limit k := by
  unfold sysUnlink
  rw [wp_bind]
  refine wp_cwdOf h.cwd_eq ((wp_onFs ..).mpr ?_)
  refine Fs.wp_sysUnlink h.idle (fun _ _ => rfl) ?_ ?_ ?_ ?_ (fun e he => ⟨e, rfl, he⟩)
  · rintro _ _ _ _ _ _ _ _ ⟨⟩ removes
    exact absurd removes (hpath.not_removes h.orderly)
  · exact fun d name hdot hdotdot hself => absurd hself (h.orderly.noSelf d name hdot hdotdot)
  · intro d name i node hdot hdotdot hnames hnode hlinks
    have hlinked := h.orderly.linked d name i node hdot hdotdot hnames hnode
    omega
  · exact fun hnot => absurd h.orderly.toGrounded hnot

/-- A naming call that fails changes nothing; `sys_unlink` refuses ".", ".." and directories
with other entries. -/
theorem failed_naming_call (h : k.Consistent sb p cwd) :
    (∀ (call : NamingCall) k', call.run sb p k = .ok (-1, k') → k.Same sb k') ∧
      ∀ path : CStr, Unremovable (k.tree sb) (k.fs.itable cwd).inum path.bytes →
        (∀ r k', sysUnlink sb p (some path) k = .ok (r, k') → r = -1) ∧
          ∀ e, stopOf (sysUnlink sb p (some path)) k = some e → e.Limit := by
  refine ⟨fun call k' hrun => post_of_wp (call.wp_run h) hrun rfl, ?_⟩
  intro path hpath
  have hwp := wp_sysUnlink_unremovable h hpath
  refine ⟨fun r k' hrun => post_of_wp (Q := fun r _ => r = -1) hwp hrun, ?_⟩
  intro e hstop
  unfold stopOf at hstop
  split at hstop
  · cases hstop
  · rename_i e' hrun
    cases hstop
    exact stop_of_wp hwp hrun

/-- `k` with the file that `O_CREATE` made before there was no descriptor for it. -/
def LeftFile (sb : Superblock) (k : Kernel) (p : Fin NPROC) (cwd : Fin NINODE) (path : Option CStr)
    (omode : BitVec 32) (k' : Kernel) : Prop :=
  omode &&& O_CREATE ≠ 0 ∧
    ((∀ f, (k.ftable f).ref ≠ 0) ∨ ∀ fd, (k.proc p).ofile fd ≠ none) ∧
    ∃ arg d dnode last s i, path = some arg ∧
      Fs.Creates sb (k.tree sb) (k.fs.itable cwd).inum arg.bytes d dnode last s i ∧
      k'.tree sb = Fs.created (k.tree sb) T_FILE 0 0 d dnode last s i

/-- `sys_open` that fails changes nothing but for a file it created. -/
theorem failed_open {path : Option CStr} {omode : BitVec 32} (h : k.Consistent sb p cwd)
    (hrun : sysOpen sb img p path omode k = .ok (-1, k')) :
    k'.proc = k.proc ∧ k'.ftable = k.ftable ∧
      (∀ j, (k'.fs.itable j).ref = (k.fs.itable j).ref) ∧
      (k'.tree sb = k.tree sb ∨ k.LeftFile sb p cwd path omode k') := by
  refine post_of_wp (Q := fun r k' => r = -1 → k'.proc = k.proc ∧ k'.ftable = k.ftable ∧
    (∀ j, (k'.fs.itable j).ref = (k.fs.itable j).ref) ∧
    (k'.tree sb = k.tree sb ∨ k.LeftFile sb p cwd path omode k')) (E := fun _ => True) ?_ hrun rfl
  refine wp_sysOpen h.idle h.cwd_eq h.files ?_ ?_ ?_ trivial (fun _ => trivial) (fun _ _ => trivial)
  · intro f' sees _
    exact ⟨rfl, rfl, h.ref_eq sees, .inl sees.nodes_eq⟩
  · intro arg d dnode last s i f' harg hmode creates hfull sees _
    exact ⟨rfl, rfl, h.ref_eq sees,
      .inr ⟨hmode, hfull, arg, d, dnode, last, s, i, harg, creates, sees.nodes_eq⟩⟩
  · intro _ _ _ _ _ _ fd _ _ _ _ _ _ _ hneg
    omega

/-! A root directory with a directory `d` that has a file `f`, and a process with all its
descriptors in use. -/

def smallTree : Nat → Option Node
  | 1 => some ⟨T_DIR, 0, 0, 1, Dir.setEntry (dotEntries 1 1) 2 2 (nameField [100])⟩
  | 2 => some ⟨T_DIR, 0, 0, 1, Dir.setEntry (dotEntries 2 1) 2 3 (nameField [102])⟩
  | 3 => some ⟨T_FILE, 0, 0, 1, []⟩
  | _ => none

def noPages : Image where
  kend := PHYSTOP
  trampoline := KERNBASE
  kend_ge := by decide
  kend_le := le_rfl
  trampoline_lt := by decide
  trampoline_aligned := KERNBASE_aligned

def fullKernel : Kernel where
  fs := plainFs smallTree [1]
  vm := { page := fun _ _ => 0, freelist := [] }
  pipes _ := ⟨true, true⟩
  ftable f := if f = 0 then ⟨.pipe, 16, true, false, 0, 0, 0, 0⟩
    else ⟨.none, 0, false, false, 0, 0, 0, 0⟩
  proc p := if p = 0 then { ofile := fun _ => some 0, cwd := some 0 }
    else { ofile := fun _ => none, cwd := none }

theorem mem_of_smallTree {node : Node} (h : smallTree i = some node) : i ∈ [1, 2, 3] := by
  unfold smallTree at h
  split at h
  case h_4 => cases h
  all_goals decide

theorem smallTree_node {node : Node} (h : smallTree i = some node) :
    node.type ≠ 0 ∧ node.contents.length ≤ BSIZE ∧ direntSize ∣ node.contents.length ∧
      1 ≤ node.nlink.toInt ∧ (node.type = T_DIR →
        (Dir.entry node.contents 0).2 = [46] ∧ (Dir.entry node.contents 1).2 = [46, 46]) := by
  have hall : ∀ i ∈ [1, 2, 3], ∀ node ∈ smallTree i,
      node.type ≠ 0 ∧ node.contents.length ≤ BSIZE ∧ direntSize ∣ node.contents.length ∧
        1 ≤ node.nlink.toInt ∧ (node.type = T_DIR →
          (Dir.entry node.contents 0).2 = [46] ∧ (Dir.entry node.contents 1).2 = [46, 46]) := by
    decide +kernel
  exact hall i (mem_of_smallTree h) node h

theorem smallTree_plain : PlainFiles smallTree := by
  have hrange : ∀ i ∈ [1, 2, 3], 1 ≤ i ∧ i < 8 := by decide
  exact ⟨fun i _ h => hrange i (mem_of_smallTree h), fun _ _ h => (smallTree_node h).1,
    fun _ _ h => (smallTree_node h).2.1⟩

theorem fullKernel_tree : fullKernel.tree plainSb = smallTree := plainStore_nodes smallTree_plain

def smallNames : List (Nat × List UInt8 × Nat) :=
  [(1, [46], 1), (1, [46, 46], 1), (1, [100], 2), (2, [46], 2), (2, [46, 46], 1), (2, [102], 3)]

theorem names_smallTree {name : List UInt8} (h : Names smallTree d name i) :
    (d, name, i) ∈ smallNames := by
  obtain ⟨node, m, hnode, -, ⟨-, hlt, hnamed, -⟩, rfl⟩ := h
  have hall : ∀ d ∈ [1, 2, 3], ∀ node ∈ smallTree d, ∀ m < Dir.slots node.contents,
      (d, (Dir.entry node.contents m).2, (Dir.entry node.contents m).1) ∈ smallNames := by
    decide +kernel
  have hmem := hall d (mem_of_smallTree hnode) node hnode m hlt
  rwa [hnamed.2] at hmem

theorem fullKernel_consistent : fullKernel.Consistent plainSb 0 0 := by
  have hnames : ∀ x ∈ smallNames, x.2.2 < plainSb.ninodes ∧ smallTree x.2.2 ≠ none ∧
      (x.2.1 ≠ [46] → x.2.1 ≠ [46, 46] → x.1 ≠ x.2.2) := by
    decide +kernel
  refine ⟨plainFs_ready smallTree_plain (List.nodup_singleton 1) ?_, ?_, ?_, rfl, by decide,
    by decide, ?_⟩
  · intro i hi
    rw [List.mem_singleton.mp hi]
    exact Option.some_ne_none _
  · rw [fullKernel_tree]
    refine ⟨fun d node hnode _ => (smallTree_node hnode).2.2.1,
      fun d name i h => (hnames _ (names_smallTree h)).1, fun i node hnode hlinks => ?_⟩
    have hlinked := (smallTree_node hnode).2.2.2.1
    rw [hlinks] at hlinked
    exact absurd hlinked (by decide)
  · rw [fullKernel_tree]
    exact ⟨⟨fun d name i h => (hnames _ (names_smallTree h)).2.1, Option.some_ne_none _,
      Option.some_ne_none _⟩, fun d node hnode => (smallTree_node hnode).2.2.2.2,
      fun d name i node _ _ _ hnode => (smallTree_node hnode).2.2.2.1,
      fun d name hdot hdotdot h => (hnames _ (names_smallTree h)).2.2 hdot hdotdot rfl⟩
  · intro f href
    unfold fullKernel at href ⊢
    dsimp only at href ⊢
    split at href
    · exact absurd href (by decide)
    · rename_i hf
      rw [if_neg hf]

def slashA : CStr := ⟨[47, 97], by decide⟩

def slashDot : CStr := ⟨[47, 46], by decide⟩

def slashDF : CStr := ⟨[47, 100, 47, 102], by decide⟩

def createdType : Option (Int × BitVec 16) :=
  match sysOpen plainSb noPages 0 (some slashA) (O_CREATE ||| O_WRONLY) fullKernel with
  | .ok (r, k') => some (r, (k'.fs.store.dinode plainSb 4).type)
  | .error _ => none

/-- Without a descriptor `open` with `O_CREATE` fails and leaves the file. -/
theorem open_leaves_file : fullKernel.Consistent plainSb 0 0 ∧
    ∃ k', sysOpen plainSb noPages 0 (some slashA) (O_CREATE ||| O_WRONLY) fullKernel = .ok (-1, k') ∧
      k'.tree plainSb ≠ fullKernel.tree plainSb := by
  have heval : createdType = some (-1, T_FILE) := by decide +kernel
  unfold createdType at heval
  split at heval
  · rename_i r k' hrun
    obtain ⟨rfl, htype⟩ := Prod.mk.inj (Option.some.inj heval)
    refine ⟨fullKernel_consistent, k', hrun, ?_⟩
    intro hsame
    have hfree : k'.tree plainSb 4 = none := by
      rw [hsame, fullKernel_tree]
      rfl
    unfold tree at hfree
    rw [Volume.nodes_eq_none_iff] at hfree
    apply hfree
    unfold Volume.allocated
    rw [Store.volume_inode (by decide), htype]
    decide
  · cases heval

/-- `link` has counted another name of `f` when it finds that name taken. -/
theorem failed_naming_call_link :
    (∃ k', (NamingCall.unlink (some slashDot)).run plainSb 0 fullKernel = .ok (-1, k') ∧
      fullKernel.Same plainSb k') ∧
    ∃ k', (NamingCall.link (some slashDF) (some slashDF)).run plainSb 0 fullKernel = .ok (-1, k') ∧
      fullKernel.Same plainSb k' := by
  have hsame : ∀ call : NamingCall, resultOf (call.run plainSb 0) fullKernel = some (-1) →
      ∃ k', call.run plainSb 0 fullKernel = .ok (-1, k') ∧ fullKernel.Same plainSb k' := by
    intro call heval
    obtain ⟨k', hrun⟩ := exists_of_resultOf heval
    exact ⟨k', hrun, (failed_naming_call fullKernel_consistent).1 _ k' hrun⟩
  exact ⟨hsame _ (by decide +kernel), hsame _ (by decide +kernel)⟩

theorem failed_open_dot : ∃ k', sysOpen plainSb noPages 0 (some slashDot) O_WRONLY fullKernel =
    .ok (-1, k') ∧ k'.proc = fullKernel.proc := by
  have heval : resultOf (sysOpen plainSb noPages 0 (some slashDot) O_WRONLY) fullKernel =
      some (-1) := by
    decide +kernel
  obtain ⟨k', hrun⟩ := exists_of_resultOf heval
  exact ⟨k', hrun, (failed_open fullKernel_consistent hrun).1⟩

end Kernel

end Xv6
