import Xv6.Sysfile.Failure

/-! Path resolution by `skipelem`, `namei` and `nameiparent`. -/
namespace Xv6

open Lib Lib.Exec

variable {sb : Superblock} {nodes : Nat → Option Node} {c d i j : Nat} {names : List (List UInt8)}
variable {path : List UInt8}

/-- Repeated `skipelem` leaves the names in the buffer. -/
inductive Skips : List UInt8 → (Nat → UInt8) → List (List UInt8) → Prop where
  | done {path : List UInt8} {buf : Nat → UInt8} (h : skipelem path buf = none) : Skips path buf []
  | next {path rest : List UInt8} {buf buf' : Nat → UInt8} {names : List (List UInt8)}
      (h : skipelem path buf = some (rest, buf')) (more : Skips rest buf' names) :
      Skips path buf (CString.text buf' DIRSIZ 0 :: names)

theorem skips_elems (hnul : 0 ∉ path) (buf : Nat → UInt8) : Skips path buf (elems path) := by
  generalize hlength : path.length = n
  induction n using Nat.strong_induction_on generalizing path buf with
  | h n ih =>
    cases hskip : skipelem path buf with
    | none =>
      rw [skipelem_eq_none_iff.mp hskip]
      exact Skips.done hskip
    | some p =>
      obtain ⟨rest, buf'⟩ := p
      obtain ⟨helems, hshorter, hnul', -⟩ := skipelem_some hnul hskip
      rw [helems]
      exact Skips.next hskip (ih rest.length (by omega) hnul' buf' rfl)

theorem Skips.unique {names' : List (List UInt8)} {buf : Nat → UInt8} (h : Skips path buf names)
    (h' : Skips path buf names') : names = names' := by
  induction h generalizing names' with
  | done hskip =>
    cases h' with
    | done => rfl
    | next hskip' _ =>
      rw [hskip] at hskip'
      cases hskip'
  | next hskip _ ih =>
    cases h' with
    | done hskip' =>
      rw [hskip] at hskip'
      cases hskip'
    | next hskip' more =>
      rw [hskip] at hskip'
      cases hskip'
      rw [ih more]

theorem skips_iff (hnul : 0 ∉ path) {buf : Nat → UInt8} :
    Skips path buf names ↔ names = elems path := by
  constructor
  · exact fun h => h.unique (skips_elems hnul buf)
  · rintro rfl
    exact skips_elems hnul buf

/-- On the way an inode is no directory, or lacks the next name. -/
def Blocked (nodes : Nat → Option Node) (i : Nat) (names : List (List UInt8)) : Prop :=
  ∃ init name rest d node, names = init ++ name :: rest ∧ Resolves nodes i init d ∧
    nodes d = some node ∧ (node.type ≠ T_DIR ∨ ∀ j, ¬ Names nodes d name j)

theorem Blocked.not_resolves (h : Blocked nodes i names) : ¬ Resolves nodes i names j := by
  obtain ⟨init, name, rest, d, node, rfl, hinit, hnode, hblocked⟩ := h
  have hnot : ∀ j, ¬ Names nodes d name j := by
    rcases hblocked with hfile | hmissing
    · rintro j ⟨node', -, hnode', hdir, -⟩
      rw [hnode] at hnode'
      cases hnode'
      exact hfile hdir
    · exact hmissing
  induction hinit with
  | nil d =>
    rintro (_ | ⟨hfirst, -⟩)
    exact hnot _ hfirst
  | cons hfirst _ ih =>
    intro hresolves
    rw [List.cons_append, resolves_cons_iff hfirst] at hresolves
    exact ih hnode hblocked hnot hresolves

/-- If entries lead to allocated inodes, walks end or are blocked. -/
theorem resolves_or_blocked (hentries : ∀ d name i, Names nodes d name i → nodes i ≠ none)
    (hi : nodes i ≠ none) (names : List (List UInt8)) :
    (∃ j, Resolves nodes i names j) ∨ Blocked nodes i names := by
  induction names generalizing i with
  | nil => exact .inl ⟨i, Resolves.nil i⟩
  | cons name names ih =>
    obtain ⟨node, hnode⟩ := Option.ne_none_iff_exists'.mp hi
    by_cases hnext : ∃ j, Names nodes i name j
    · obtain ⟨j, hj⟩ := hnext
      rcases ih (hentries _ _ _ hj) with ⟨l, hl⟩ | ⟨init, next, rest, d, node', hsplit, hinit, hrest⟩
      · exact .inl ⟨l, Resolves.cons hj hl⟩
      · refine .inr ⟨name :: init, next, rest, d, node', ?_, Resolves.cons hj hinit, hrest⟩
        rw [hsplit, List.cons_append]
    · exact .inr ⟨[], name, names, i, node, rfl, Resolves.nil i, hnode, .inr (not_exists.mp hnext)⟩

theorem not_resolves_iff_blocked (h : Grounded nodes c) (path : List UInt8) :
    (∀ j, ¬ Resolves nodes (startAt c path) (elems path) j) ↔
      Blocked nodes (startAt c path) (elems path) := by
  constructor
  · intro hnot
    rcases resolves_or_blocked h.entries (h.start path) (elems path) with ⟨j, hj⟩ | hblocked
    · exact absurd hj (hnot j)
    · exact hblocked
  · exact fun hblocked j => hblocked.not_resolves

namespace Fs

def Reached (sb : Superblock) (a : FsView) (i : Nat) (names : List (List UInt8)) :
    Option (Fin NINODE) → Fs → Prop
  | some l, f => ∃ j, Resolves a.nodes i names j ∧ f.Sees sb { a with own := (l, j) ::ₘ a.own }
  | none, f => Blocked a.nodes i names ∧ f.Sees sb a

/-- Where `nameiparent` gets, and the name it leaves. -/
def ReachedParent (sb : Superblock) (a : FsView) (i : Nat) (names : List (List UInt8)) :
    Option (Fin NINODE) × (Nat → UInt8) → Fs → Prop
  | (some l, buf), f => ∃ d, ParentOf a.nodes i names d (CString.text buf DIRSIZ 0) ∧
      f.Sees sb { a with own := (l, d) ::ₘ a.own }
  | (none, _), f => (∀ d last, ¬ ParentOf a.nodes i names d last) ∧ f.Sees sb a

/-- `namei` and `nameiparent` return what the elements of a path lead to, and 0 exactly if the
walk is blocked, unless the inode table is full. -/
theorem path_resolution (path : CStr) :
    (∀ buf names, Skips path.bytes buf names ↔ names = elems path.bytes) ∧
    ∀ {sb : Superblock} {f : Fs} {a : FsView} {k : Fin NINODE} {c : Nat}, f.Sees sb a →
      a.locks = ∅ → Passable sb a.nodes a.own → Grounded a.nodes c → (k, c) ∈ a.own →
      (∀ node, a.nodes ROOTINO = some node → node.nlink = 0 → ROOTINO ∈ FsView.referenced a.own) →
      wp (namei sb k path.bytes) (Reached sb a (startAt c path.bytes) (elems path.bytes))
        (fun e => e = .igetNoInodes ∧ TableTight a.own) f ∧
      wp (nameiparent sb k path.bytes) (ReachedParent sb a (startAt c path.bytes) (elems path.bytes))
        (fun e => e = .igetNoInodes ∧ TableTight a.own) f := by
  refine ⟨fun buf names => skips_iff path.nul, ?_⟩
  intro sb f a k c h hlocks walk ground hcwd hlinked
  have hlt : ∀ {i : Nat}, a.nodes i ≠ none → i < sb.ninodes := by
    intro i hi
    obtain ⟨node, hnode⟩ := Option.ne_none_iff_exists'.mp hi
    exact h.lt_of_node hnode
  have hfree : ¬ Dangles a.nodes (startAt c path.bytes) (elems path.bytes) :=
    ground.not_dangles path.bytes
  constructor
  · refine wp_namei h walk hlocks hcwd (hlt ground.cwd) (hlt ground.root) hlinked path.nul ?_ ?_
      (fun hdangles => absurd hdangles hfree) (fun htight => ⟨rfl, htight⟩)
    · exact fun j l f' hresolves _ h' => ⟨j, hresolves, h'⟩
    · exact fun f' hnot h' => ⟨(not_resolves_iff_blocked ground path.bytes).mp hnot, h'⟩
  · refine wp_nameiparent h walk hlocks hcwd (hlt ground.cwd) (hlt ground.root) hlinked path.nul ?_ ?_
      (fun hdangles => absurd hdangles hfree) (fun htight => ⟨rfl, htight⟩)
    · exact fun d l buf f' hparent _ h' => ⟨d, hparent, h'⟩
    · exact fun buf f' hnot h' => ⟨hnot, h'⟩

/-- The inode that `namei` returns. -/
def found (path : CStr) (f : Fs) : Option Nat :=
  match namei plainSb 0 path.bytes f with
  | .ok (some l, f') => some (f'.itable l).inum
  | _ => none

/-- "/d/..//d/f". -/
def upAndDown : CStr := ⟨[47, 100, 47, 46, 46, 47, 47, 100, 47, 102], by decide⟩

theorem path_resolution_upAndDown :
    ∃ l f', namei plainSb 0 upAndDown.bytes Kernel.fullKernel.fs = .ok (some l, f') ∧
      (f'.itable l).inum = 3 ∧
      Resolves (Kernel.fullKernel.tree plainSb) ROOTINO [[100], [46, 46], [100], [102]] 3 := by
  have h := Kernel.fullKernel_consistent
  have hfound : found upAndDown Kernel.fullKernel.fs = some 3 := by decide +kernel
  -- nothing below looks into the state
  generalize Kernel.fullKernel = k at h hfound ⊢
  unfold found at hfound
  split at hfound
  · rename_i l f' hrun
    have hinum := Option.some.inj hfound
    have hspec := ((path_resolution upAndDown).2 h.idle.sees rfl h.walk.passable
      h.orderly.toGrounded h.mem_references (h.walk.anchored ROOTINO)).1
    obtain ⟨j, hj, V, hV, rep⟩ := post_of_wp hspec hrun
    have hmem : (l, j) ∈ (l, j) ::ₘ k.fs.references := Multiset.mem_cons_self _ _
    have hentry : (f'.itable l).inum = j := (rep.table.entry _ hmem).inum
    rw [← hentry, hinum] at hj
    exact ⟨l, f', hrun, hinum, hj⟩
  · cases hfound

end Fs

end Xv6
