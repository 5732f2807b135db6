import Xv6.Sysfile.CreateSpec
import Xv6.Sysfile.Kernel

/-! What `sys_open` and `sys_chdir` do. -/
namespace Xv6

open Lib Lib.Exec

variable {sb : Superblock} {img : Image} {nodes nodes' : Nat → Option Node}
variable {own : Multiset (Fin NINODE × Nat)} {c d i : Nat} {ops : Int} {last path : List UInt8}

theorem Resolves.snoc {names : List (List UInt8)} {name : List UInt8} {j : Nat}
    (h : Resolves nodes d names i) (hnames : Names nodes i name j) :
    Resolves nodes d (names ++ [name]) j := by
  induction h with
  | nil i => exact .cons hnames (.nil j)
  | cons hfirst _ ih => exact .cons hfirst (ih hnames)

theorem ParentOf.resolves {names : List (List UInt8)} {j : Nat} (h : ParentOf nodes j names d last)
    (hnames : Names nodes d last i) : Resolves nodes j names i := by
  obtain ⟨init, node, rfl, hresolves, -, -⟩ := h
  exact hresolves.snoc hnames

namespace Fs

variable {k l : Fin NINODE} {f : Fs} {E : Panic → Prop} {node dnode : Node} {omode : BitVec 32}

/-- Inode `i` as `sys_open` finds or makes it. -/
inductive Opened (sb : Superblock) (nodes : Nat → Option Node) (c : Nat) (path : List UInt8)
    (omode : BitVec 32) : (Nat → Option Node) → Nat → Node → Prop where
  | found {i : Nat} {node : Node} (resolves : Resolves nodes (startAt c path) (elems path) i)
      (node_eq : nodes i = some node) (mode : node.type = T_DIR → omode = O_RDONLY) :
      Opened sb nodes c path omode nodes i node
  | made {d : Nat} {dnode : Node} {last : List UInt8} {s i : Nat} (mode : omode &&& O_CREATE ≠ 0)
      (creates : Creates sb nodes c path d dnode last s i) :
      Opened sb nodes c path omode (created nodes T_FILE 0 0 d dnode last s i) i
        (madeNode T_FILE 0 0 i d)

/-- Making a file frees nothing. -/
theorem Idle.reclaim_created {s : Nat} (h : Idle sb f nodes own ops k c)
    (hdnode : nodes d = some dnode) :
    reclaim (created nodes T_FILE 0 0 d dnode last s i) own d =
      created nodes T_FILE 0 0 d dnode last s i := by
  apply reclaim_of_keep
  intro dnode' hdnode' hlinks
  unfold created at hdnode'
  rw [Function.update_self] at hdnode'
  cases hdnode'
  exact h.anchored le_rfl hdnode hlinks

theorem wp_openInode {Q : Option (Fin NINODE) → Fs → Prop} (h : Idle sb f nodes own ops k c)
    (hnul : 0 ∉ path) (fails : ∀ f', f'.Sees sb (.rest nodes own ops) → Q none f')
    (opens : ∀ l nodes' i node f', Opened sb nodes c path omode nodes' i node →
      nodes' i = some node → (node.nlink = 0 → i ∈ FsView.referenced own) →
      f'.Sees sb (.locked nodes' ((l, i) ::ₘ own) i ops) → Q (some l) f')
    (full : E .dirlink) (free : ¬ Grounded nodes c → E .ilockNoType)
    (stop : ∀ e : Panic, e.Limit → E e) : wp (openInode sb k path omode) Q E f := by
  unfold openInode
  rw [wp_ite]
  split
  · rename_i hmode
    refine wp_create h hnul (by decide) fails ?_ ?_ full free stop
    · intro l d last i node f' _ hparent hnames hnode htype _ h'
      refine opens l nodes i node f' (.found (hparent.resolves hnames) hnode ?_) hnode
        (fun hlinks => h.anchored le_rfl hnode hlinks) h'
      intro hdir
      rw [hdir] at htype
      exact absurd htype (by decide)
    · intro l d dnode last s i f' hcreates h'
      rw [h.reclaim_created hcreates.dir] at h'
      refine opens l _ i _ f' (.made hmode hcreates) ?_ ?_ h'
      · exact (Function.update_of_ne hcreates.ne ..).trans (Function.update_self ..)
      · exact fun hlinks => absurd hlinks (show (1 : BitVec 16) ≠ 0 by decide)
  · rw [wp_bind]
    refine h.wp_namei hnul ?_ (fun f' _ h' => fails f' h') free stop
    intro i l f₁ hresolves hi h₁
    simp only [wp_bind]
    refine h₁.wp_lock (Multiset.mem_cons_self _ _) hi ?_ fun hnone => free fun hground =>
      hground.allocated (hground.start _) hresolves hnone
    intro f₂ node hnode h₂
    simp only [wp_get]
    rw [wp_ite, (h₂.inode (Multiset.mem_cons_self _ _) (Set.mem_insert _ _) hnode).1]
    split
    · simp only [wp_bind, wp_pure]
      exact h₂.wp_release rfl (fun _ hnode => h.anchored le_rfl hnode) fails
    · rename_i hmode
      rw [wp_pure]
      refine opens l nodes i node f₂ (.found hresolves hnode ?_) hnode
        (fun hlinks => h.anchored le_rfl hnode hlinks) h₂
      intro hdir
      by_contra hne
      exact hmode ⟨hdir, hne⟩

def truncated (nodes : Nat → Option Node) (omode : BitVec 32) (i : Nat) (node : Node) :
    Nat → Option Node :=
  if omode &&& O_TRUNC ≠ 0 ∧ node.type = T_FILE
  then Function.update nodes i (some { node with contents := [] }) else nodes

theorem wp_openTrunc {Q : Unit → Fs → Prop} (h : f.Sees sb (.locked nodes own i ops))
    (hk : (k, i) ∈ own) (hnode : nodes i = some node)
    (post : ∀ f', f'.Sees sb (.locked (truncated nodes omode i node) own i ops) → Q () f')
    (stop : ∀ e : Panic, e.Limit → E e) : wp (openTrunc sb k omode) Q E f := by
  unfold openTrunc
  simp only [wp_bind, wp_get]
  rw [wp_ite, (h.inode hk (Set.mem_insert _ _) hnode).1]
  unfold truncated at post
  split
  · rename_i htrunc
    rw [if_pos htrunc] at post
    exact h.wp_itrunc hk (Set.mem_insert _ _) hnode post stop
  · rename_i htrunc
    rw [if_neg htrunc] at post
    exact post f h

end Fs

namespace Kernel

variable {k : Kernel} {p : Fin NPROC} {E : Stop → Prop} {l : Fin NINODE} {node : Node}
variable {omode : BitVec 32}

@[simp] theorem wp_onFs {α : Type} (m : Exec Fs Panic α) (Q : α → Kernel → Prop) :
    wp (onFs m) Q E k ↔ wp m (fun a f => Q a (k.setFs f)) (fun e => E (.fs e)) k.fs :=
  wp_embed ..

@[simp] theorem setFs_fs (k : Kernel) (f : Fs) : (k.setFs f).fs = f := rfl

@[simp] theorem setFs_setFs (k : Kernel) (f f' : Fs) : (k.setFs f).setFs f' = k.setFs f' := rfl

@[simp] theorem setFs_proc (k : Kernel) (f : Fs) : (k.setFs f).proc = k.proc := rfl

@[simp] theorem setFile_fs (k : Kernel) (f : Fin NFILE) (file : File) :
    (k.setFile f file).fs = k.fs := rfl

@[simp] theorem setProc_fs (k : Kernel) (p : Fin NPROC) (proc : Process) :
    (k.setProc p proc).fs = k.fs := rfl

@[simp] theorem setFile_ftable (k : Kernel) (f : Fin NFILE) (file : File) :
    (k.setFile f file).ftable f = file := Function.update_self ..

@[simp] theorem setProc_ftable (k : Kernel) (p : Fin NPROC) (proc : Process) :
    (k.setProc p proc).ftable = k.ftable := rfl

@[simp] theorem setFile_proc (k : Kernel) (f : Fin NFILE) (file : File) :
    (k.setFile f file).proc = k.proc := rfl

@[simp] theorem setFile_setFile (k : Kernel) (f : Fin NFILE) (file file' : File) :
    (k.setFile f file).setFile f file' = k.setFile f file' := by
  unfold setFile
  rw [Function.update_idem]

@[simp] theorem setProc_setFile (k : Kernel) (p : Fin NPROC) (proc : Process) (f : Fin NFILE)
    (file : File) : (k.setProc p proc).setFile f file = (k.setFile f file).setProc p proc := rfl

theorem setFile_self (k : Kernel) (f : Fin NFILE) : k.setFile f (k.ftable f) = k := by
  unfold setFile
  rw [Function.update_eq_self]

theorem wp_cwdOf {Q : Fin NINODE → Kernel → Prop} {cwd : Fin NINODE} (h : (k.proc p).cwd = some cwd)
    (post : Q cwd k) : wp (cwdOf p) Q E k := by
  unfold cwdOf
  simp only [wp_bind, wp_get, h, wp_pure]
  exact post

theorem find_finRange_none {n : Nat} {q : Fin n → Bool} (h : (List.finRange n).find? q = none)
    (x : Fin n) : q x = false := by
  have hall := List.find?_eq_none.mp h x (List.mem_finRange x)
  simpa using hall

theorem wp_filealloc {Q : Option (Fin NFILE) → Kernel → Prop}
    (none : (∀ f, (k.ftable f).ref ≠ 0) → Q none k)
    (got : ∀ f, (k.ftable f).ref = 0 → Q (some f) (k.setFile f ((k.ftable f).setRef 1))) :
    wp filealloc Q E k := by
  unfold filealloc
  simp only [wp_bind, wp_get]
  split
  · rename_i hnone
    exact none fun f => by simpa using find_finRange_none hnone f
  · rename_i f hf
    exact got f (by simpa using List.find?_some hf)

theorem wp_fdalloc {Q : Option (Fin NOFILE) → Kernel → Prop} {f : Fin NFILE}
    (none : (∀ fd, (k.proc p).ofile fd ≠ none) → Q none k)
    (got : ∀ fd, (k.proc p).ofile fd = Option.none →
      Q (some fd) (k.setProc p ((k.proc p).setFd fd (some f)))) :
    wp (fdalloc p f) Q E k := by
  unfold fdalloc
  simp only [wp_bind, wp_get]
  split
  · rename_i hnone
    exact none fun fd => by simpa using find_finRange_none hnone fd
  · rename_i fd hfd
    exact got fd (by simpa using List.find?_some hfd)

/-- A new file structure goes back without a trace. -/
theorem wp_fileclose_new {Q : Unit → Kernel → Prop} {f : Fin NFILE} (href : (k.ftable f).ref = 0)
    (htype : (k.ftable f).type = .none) (post : Q () k) :
    wp (fileclose sb img f) Q E (k.setFile f ((k.ftable f).setRef 1)) := by
  have hself := setFile_self k f
  revert href htype hself
  generalize k.ftable f = file
  intro href htype hself
  have hback : (file.setRef 1).free = file := by
    unfold File.free File.setRef
    rw [← href, ← htype]
  have hone : (file.setRef 1).ref = 1 := rfl
  have hnone : (file.setRef 1).type = .none := htype
  unfold fileclose
  simp only [wp_bind, wp_get, setFile_ftable]
  rw [wp_ite, hone, if_neg (by decide), wp_else (by decide), wp_bind, wp_set, setFile_setFile,
    hback, hself, hnone]
  exact post

variable {Q : Int → Kernel → Prop}

theorem wp_openFail (h : k.fs.Sees sb (.locked nodes ((l, i) ::ₘ own) i (ops + 1)))
    (hkeep : ∀ node, nodes i = some node → node.nlink = 0 → i ∈ FsView.referenced own)
    (post : ∀ f', f'.Sees sb (.rest nodes own ops) → Q (-1) (k.setFs f')) :
    wp (openFail sb l) Q E k := by
  unfold openFail
  simp only [wp_bind, wp_pure, wp_onFs, setFs_fs, setFs_setFs]
  refine h.wp_release rfl hkeep ?_
  exact fun f₁ h₁ => h₁.wp_endOp rfl post

theorem wp_openFile (h : k.fs.Sees sb (.locked nodes ((l, i) ::ₘ own) i (ops + 1)))
    (hnode : nodes i = some node) (hkeep : node.nlink = 0 → i ∈ FsView.referenced own)
    (hfree : ∀ f, (k.ftable f).ref = 0 → (k.ftable f).type = .none)
    (device : node.type = T_DEVICE → (node.major.toInt < 0 ∨ node.major.toInt ≥ NDEV) →
      ∀ f', f'.Sees sb (.rest nodes own ops) → Q (-1) (k.setFs f'))
    (full : ((∀ f, (k.ftable f).ref ≠ 0) ∨ ∀ fd, (k.proc p).ofile fd ≠ none) →
      ∀ f', f'.Sees sb (.rest nodes own ops) → Q (-1) (k.setFs f'))
    (opens : ∀ f fd f', (k.ftable f).ref = 0 → (k.proc p).ofile fd = none →
      f'.Sees sb (.rest (Fs.truncated nodes omode i node) ((l, i) ::ₘ own) ops) →
      Q fd.val (((k.setFile f (((k.ftable f).setRef 1).opened l node.type node.major omode)).setProc p
        ((k.proc p).setFd fd (some f))).setFs f')) (stop : ∀ e : Panic, e.Limit → E (.fs e)) :
    wp (openFile sb img p l omode) Q E k := by
  have hl : (l, i) ∈ (l, i) ::ₘ own := Multiset.mem_cons_self _ _
  obtain ⟨htype, hmajor, -, -, -⟩ := h.inode hl (Set.mem_insert _ _) hnode
  have hkeep' : ∀ node, nodes i = some node → node.nlink = 0 → i ∈ FsView.referenced own := by
    intro node' hnode'
    cases hnode.symm.trans hnode'
    exact hkeep
  unfold openFile
  simp only [wp_bind, wp_get]
  rw [wp_ite, htype, hmajor]
  split
  · rename_i hdev
    exact wp_openFail h hkeep' (device hdev.1 hdev.2)
  rw [wp_bind]
  refine wp_filealloc (fun hnone => wp_openFail h hkeep' (full (.inl hnone))) ?_
  intro f href
  dsimp only
  rw [wp_bind]
  refine wp_fdalloc ?_ ?_
  · intro hnone
    dsimp only
    rw [wp_bind]
    exact wp_fileclose_new href (hfree f href) (wp_openFail h hkeep' (full (.inr hnone)))
  · intro fd hfd
    simp only [wp_bind, wp_onFs, wp_pure, wp_modify, setFile_proc, setProc_ftable, setFile_ftable,
      setProc_fs, setFile_fs, setProc_setFile, setFile_setFile, setFs_fs, setFs_setFs, htype, hmajor]
    refine Fs.wp_openTrunc h hl hnode ?_ stop
    intro f₁ h₁
    refine h₁.wp_unlock hl ?_
    intro f₂ h₂
    refine (h₂.valid_mono (Set.empty_subset _)).wp_endOp rfl ?_
    exact fun f₃ => opens f fd f₃ href hfd

section Calls

variable {cwd : Fin NINODE} {arg : Option CStr} (h : Fs.Idle sb k.fs nodes own ops cwd c)
variable (hcwd : (k.proc p).cwd = some cwd)

include h hcwd

/-- A created file stays without file structure or descriptor. -/
theorem wp_sysOpen (hfree : ∀ f, (k.ftable f).ref = 0 → (k.ftable f).type = .none)
    (fails : ∀ f', f'.Sees sb (.rest nodes own ops) → Q (-1) (k.setFs f'))
    (leaves : ∀ path d dnode last s i f', arg = some path → omode &&& O_CREATE ≠ 0 →
      Fs.Creates sb nodes c path.bytes d dnode last s i →
      ((∀ f, (k.ftable f).ref ≠ 0) ∨ ∀ fd, (k.proc p).ofile fd ≠ none) →
      f'.Sees sb (.rest (Fs.created nodes T_FILE 0 0 d dnode last s i) own ops) →
      Q (-1) (k.setFs f')) (opens : ∀ path l nodes' i node f fd f', arg = some path →
      Fs.Opened sb nodes c path.bytes omode nodes' i node → nodes' i = some node →
      (k.ftable f).ref = 0 → (k.proc p).ofile fd = none →
      f'.Sees sb (.rest (Fs.truncated nodes' omode i node) ((l, i) ::ₘ own) ops) →
      Q fd.val (((k.setFile f (((k.ftable f).setRef 1).opened l node.type node.major omode)).setProc p
        ((k.proc p).setFd fd (some f))).setFs f')) (full : E (.fs .dirlink))
    (free : ¬ Grounded nodes c → E (.fs .ilockNoType)) (stop : ∀ e : Panic, e.Limit → E (.fs e)) :
    wp (sysOpen sb img p arg omode) Q E k := by
  unfold sysOpen
  cases arg with
  | none => exact fails k.fs h.sees
  | some path =>
  simp only [wp_bind]
  refine wp_cwdOf hcwd ?_
  simp only [wp_onFs]
  refine h.sees.wp_beginOp ?_ stop
  intro f₁ h₁
  simp only [setFs_fs]
  refine Fs.wp_openInode (h.of_sees h₁) path.nul ?_ ?_ full free stop
  · intro f₂ h₂
    simp only [wp_bind, wp_onFs, wp_pure, setFs_fs, setFs_setFs]
    exact h₂.wp_endOp rfl fails
  · intro l nodes' i node f₂ hopened hnode hkeep h₂
    refine wp_openFile h₂ hnode hkeep hfree ?_ ?_ ?_ stop
    · intro hdev _ f₃ h₃
      cases hopened with
      | found => exact fails f₃ h₃
      | made => exact absurd hdev (show T_FILE ≠ T_DEVICE by decide)
    · intro hfull f₃ h₃
      cases hopened with
      | found => exact fails f₃ h₃
      | made hmode hcreates => exact leaves path _ _ _ _ _ f₃ rfl hmode hcreates hfull h₃
    · exact fun f fd f₃ href hfd => opens path l nodes' i node f fd f₃ rfl hopened hnode href hfd

theorem wp_sysChdir {rest : Multiset (Fin NINODE × Nat)} (hown : own = (cwd, c) ::ₘ rest)
    (fails : ∀ f', f'.Sees sb (.rest nodes own ops) → Q (-1) (k.setFs f'))
    (moves : ∀ path l i node nodes' f', arg = some path →
      Resolves nodes (startAt c path.bytes) (elems path.bytes) i → nodes i = some node →
      node.type = T_DIR → nodes' = nodes ∨ nodes' = reclaim nodes ((l, i) ::ₘ rest) c →
      f'.Sees sb (.rest nodes' ((l, i) ::ₘ rest) ops) →
      Q 0 ((k.setFs f').setProc p { k.proc p with cwd := some l }))
    (free : ¬ Grounded nodes c → E (.fs .ilockNoType)) (stop : ∀ e : Panic, e.Limit → E (.fs e)) :
    wp (sysChdir sb p arg) Q E k := by
  unfold sysChdir
  simp only [wp_bind]
  refine wp_cwdOf hcwd ?_
  simp only [wp_onFs]
  refine h.sees.wp_beginOp ?_ stop
  intro f₁ h₁
  cases arg with
  | none =>
    simp only [wp_bind, wp_onFs, wp_pure, setFs_fs, setFs_setFs]
    exact h₁.wp_endOp rfl fails
  | some path =>
  simp only [wp_bind, wp_onFs, setFs_fs]
  refine (h.of_sees h₁).wp_namei path.nul ?_ ?_ free stop
  · intro i l f₂ hresolves hi h₂
    have hl : (l, i) ∈ (l, i) ::ₘ own := Multiset.mem_cons_self _ _
    simp only [wp_bind, wp_onFs, wp_get]
    refine h₂.wp_lock hl hi ?_ fun hnone => free fun hground =>
      hground.allocated (hground.start _) hresolves hnone
    intro f₃ node hnode h₃
    have htype := (h₃.inode hl (Set.mem_insert _ _) hnode).1
    rw [wp_ite]
    split
    · simp only [wp_bind, wp_onFs, wp_pure, setFs_fs, setFs_setFs]
      refine h₃.wp_release rfl (fun _ hnode => h.anchored le_rfl hnode) ?_
      exact fun f₄ h₄ => h₄.wp_endOp rfl fails
    · rename_i hdir
      simp only [wp_bind, wp_onFs, wp_pure, wp_modify, setFs_fs, setFs_setFs, setFs_proc]
      refine h₃.wp_unlock hl ?_
      intro f₄ h₄
      subst hown
      refine h₄.wp_iput_any (Multiset.cons_swap _ _ _) (Set.notMem_empty c) ?_ stop
      intro f₅ nodes' hnodes' h₅
      refine (h₅.valid_mono (Set.empty_subset _)).wp_endOp rfl ?_
      exact fun f₆ => moves path l i node nodes' f₆ rfl hresolves hnode
        (htype.symm.trans (not_not.mp hdir)) hnodes'
  · intro f₂ _ h₂
    simp only [wp_bind, wp_onFs, wp_pure, setFs_fs, setFs_setFs]
    exact h₂.wp_endOp rfl fails

end Calls

end Kernel

end Xv6
