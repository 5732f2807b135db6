import Xv6.Fs.Path

/-! Path lookup. `namex` changes nothing but the references if unlinked inodes are in use. -/
namespace Xv6

open Lib Lib.Exec

variable {sb : Superblock} {nodes : Nat → Option Node} {d i j : Nat} {name last : List UInt8}
variable {names : List (List UInt8)} {parent : Bool}

def Names (nodes : Nat → Option Node) (d : Nat) (name : List UInt8) (i : Nat) : Prop :=
  ∃ node m, nodes d = some node ∧ node.type = T_DIR ∧ Dir.Finds node.contents name m ∧
    (Dir.entry node.contents m).1 = i

inductive Resolves (nodes : Nat → Option Node) : Nat → List (List UInt8) → Nat → Prop where
  | nil (i : Nat) : Resolves nodes i [] i
  | cons {d i j : Nat} {name : List UInt8} {names : List (List UInt8)} (first : Names nodes d name i)
      (rest : Resolves nodes i names j) : Resolves nodes d (name :: names) j

def ParentOf (nodes : Nat → Option Node) (i : Nat) (names : List (List UInt8)) (d : Nat)
    (last : List UInt8) : Prop :=
  ∃ init node, names = init ++ [last] ∧ Resolves nodes i init d ∧ nodes d = some node ∧
    node.type = T_DIR

def Leads (nodes : Nat → Option Node) (parent : Bool) (i : Nat) (names : List (List UInt8)) (j : Nat)
    (last : List UInt8) : Prop :=
  if parent then ParentOf nodes i names j last else Resolves nodes i names j

def Dangles (nodes : Nat → Option Node) (i : Nat) (names : List (List UInt8)) : Prop :=
  ∃ init rest j, names = init ++ rest ∧ rest ≠ [] ∧ Resolves nodes i init j ∧ nodes j = none

structure Walkable (sb : Superblock) (nodes : Nat → Option Node)
    (own : Multiset (Fin NINODE × Nat)) : Prop where
  aligned : ∀ d node, nodes d = some node → node.type = T_DIR → direntSize ∣ node.contents.length
  inum_lt : ∀ d name i, Names nodes d name i → i < sb.ninodes
  anchored : ∀ i node, nodes i = some node → node.nlink = 0 → i ∈ FsView.referenced own

/-- Directories hold whole entries, which lead to inodes that are linked or in use. -/
structure Passable (sb : Superblock) (nodes : Nat → Option Node)
    (own : Multiset (Fin NINODE × Nat)) : Prop where
  aligned : ∀ d node, nodes d = some node → node.type = T_DIR → direntSize ∣ node.contents.length
  inum_lt : ∀ d name i, Names nodes d name i → i < sb.ninodes
  anchored : ∀ d name i node, Names nodes d name i → nodes i = some node → node.nlink = 0 →
    i ∈ FsView.referenced own

variable {own : Multiset (Fin NINODE × Nat)}

theorem Walkable.passable (h : Walkable sb nodes own) : Passable sb nodes own :=
  ⟨h.aligned, h.inum_lt, fun _ _ i node _ => h.anchored i node⟩

theorem Dir.Finds.unique {c : List UInt8} {m m' : Nat} (h : Dir.Finds c name m)
    (h' : Dir.Finds c name m') : m = m' := by
  obtain ⟨-, -, hnamed, hfirst⟩ := h
  obtain ⟨-, -, hnamed', hfirst'⟩ := h'
  rcases Nat.lt_trichotomy m m' with hlt | heq | hgt
  · exact absurd hnamed (hfirst' m (Nat.zero_le m) hlt)
  · exact heq
  · exact absurd hnamed' (hfirst m' (Nat.zero_le m') hgt)

theorem Names.unique (h : Names nodes d name i) (h' : Names nodes d name j) : i = j := by
  obtain ⟨node, m, hnode, -, hfinds, rfl⟩ := h
  obtain ⟨node', m', hnode', -, hfinds', rfl⟩ := h'
  rw [hnode] at hnode'
  cases hnode'
  rw [hfinds.unique hfinds']

theorem resolves_cons_iff (h : Names nodes d name i) :
    Resolves nodes d (name :: names) j ↔ Resolves nodes i names j := by
  constructor
  · rintro (_ | ⟨hfirst, hrest⟩)
    rwa [h.unique hfirst]
  · exact Resolves.cons h

theorem parentOf_cons_iff (h : Names nodes d name i) (hne : names ≠ []) :
    ParentOf nodes d (name :: names) j last ↔ ParentOf nodes i names j last := by
  constructor
  · rintro ⟨init, node, hsplit, hresolves, hnode, hdir⟩
    cases init with
    | nil =>
      rw [List.nil_append, List.cons.injEq] at hsplit
      exact absurd hsplit.2 hne
    | cons first init =>
      rw [List.cons_append, List.cons.injEq] at hsplit
      obtain ⟨rfl, rfl⟩ := hsplit
      exact ⟨init, node, rfl, (resolves_cons_iff h).mp hresolves, hnode, hdir⟩
  · rintro ⟨init, node, rfl, hresolves, hnode, hdir⟩
    exact ⟨name :: init, node, rfl, Resolves.cons h hresolves, hnode, hdir⟩

theorem leads_cons_iff (h : Names nodes d name i) (hne : parent = true → names ≠ []) :
    Leads nodes parent d (name :: names) j last ↔ Leads nodes parent i names j last := by
  unfold Leads
  split
  · rename_i hparent
    exact parentOf_cons_iff h (hne hparent)
  · exact resolves_cons_iff h

theorem dangles_cons (h : Names nodes d name i) (hdangles : Dangles nodes i names) :
    Dangles nodes d (name :: names) := by
  obtain ⟨init, rest, j, rfl, hne, hresolves, hfree⟩ := hdangles
  exact ⟨name :: init, rest, j, rfl, hne, Resolves.cons h hresolves, hfree⟩

theorem not_leads_of_not_dir {node : Node} (hnode : nodes d = some node) (hdir : node.type ≠ T_DIR) :
    ¬ Leads nodes parent d (name :: names) j last := by
  have hnot : ∀ name i, ¬ Names nodes d name i := by
    rintro name i ⟨node', m, hnode', hdir', -⟩
    rw [hnode] at hnode'
    cases hnode'
    exact hdir hdir'
  unfold Leads
  split
  · rintro ⟨init, node', -, hresolves, hnode', hdir'⟩
    cases hresolves with
    | nil =>
      rw [hnode] at hnode'
      cases hnode'
      exact hdir hdir'
    | cons hfirst _ => exact hnot _ _ hfirst
  · rintro (_ | ⟨hfirst, _⟩)
    exact hnot _ _ hfirst

theorem not_leads_cons (h : ∀ i, ¬ Names nodes d name i) (hne : parent = true → names ≠ []) :
    ¬ Leads nodes parent d (name :: names) j last := by
  unfold Leads
  split
  · rename_i hparent
    rintro ⟨init, node, hsplit, hresolves, -, -⟩
    cases init with
    | nil =>
      rw [List.nil_append, List.cons.injEq] at hsplit
      exact hne hparent hsplit.2
    | cons first init =>
      rw [List.cons_append, List.cons.injEq] at hsplit
      obtain ⟨rfl, rfl⟩ := hsplit
      cases hresolves with
      | cons hfirst _ => exact h _ hfirst
  · rintro (_ | ⟨hfirst, _⟩)
    exact h _ hfirst

def startAt (c : Nat) (path : List UInt8) : Nat := if path.head? = some slash then ROOTINO else c

namespace Fs

def TableTight (own : Multiset (Fin NINODE × Nat)) : Prop := ∃ p, TableFull (p ::ₘ own)

theorem TableTight.of_full (h : TableFull own) : TableTight own := by
  refine ⟨(0, 0), fun k => ?_⟩
  obtain ⟨i, hi⟩ := h k
  exact ⟨i, Multiset.mem_cons_of_mem hi⟩

variable {a : FsView} {k : Fin NINODE} {f : Fs} {E : Panic → Prop}
variable {Q : Option (Fin NINODE) × (Nat → UInt8) → Fs → Prop} {path : List UInt8}

theorem wp_namexLoop {fuel : Nat} {buf : Nat → UInt8}
    (h : f.Sees sb { a with own := (k, i) ::ₘ a.own }) (walk : Passable sb a.nodes a.own)
    (hvalid : a.valid ⊆ FsView.referenced a.own) (hlocks : a.locks = ∅) (hi : i < sb.ninodes)
    (hanchored : ∀ node, a.nodes i = some node → node.nlink = 0 → i ∈ FsView.referenced a.own)
    (hnul : 0 ∉ path) (hfuel : path.length < fuel)
    (found : ∀ j l buf' f', Leads a.nodes parent i (elems path) j (CString.text buf' DIRSIZ 0) →
      j < sb.ninodes → f'.Sees sb { a with own := (l, j) ::ₘ a.own } → Q (some l, buf') f')
    (fails : ∀ buf' f', (∀ j last, ¬ Leads a.nodes parent i (elems path) j last) →
      f'.Sees sb a → Q (none, buf') f') (free : Dangles a.nodes i (elems path) → E .ilockNoType)
    (full : TableTight a.own → E .igetNoInodes) :
    wp (namexLoop sb parent fuel k path buf) Q E f := by
  induction fuel generalizing k i path buf f with
  | zero => exact absurd hfuel (Nat.not_lt_zero _)
  | succ fuel ih =>
    have hnotlocked : i ∉ a.locks := by simp [hlocks]
    have hkeep : ∀ own, a.own ≤ own → ∀ node, a.nodes i = some node → node.nlink = 0 →
        i ∈ FsView.referenced own := by
      intro own hle node hnode hlinks
      obtain ⟨l, hl⟩ := hanchored node hnode hlinks
      exact ⟨l, Multiset.mem_of_le hle hl⟩
    -- what is left once the reference to `i` is dropped
    have hdrop : ∀ {own : Multiset (Fin NINODE × Nat)} {f' : Fs}, a.own ≤ own → f'.Sees sb
        { ({ a with own := (k, i) ::ₘ own, locks := insert i a.locks, valid := insert i a.valid }
          : FsView).keep own with locks := a.locks } → f'.Sees sb { a with own := own } := by
      intro own f' hle h'
      refine h'.valid_mono ?_
      intro j hj
      obtain ⟨l, hl⟩ := hvalid hj
      exact ⟨Set.mem_insert_of_mem i hj, l, Multiset.mem_of_le hle hl⟩
    unfold namexLoop
    cases hskip : skipelem path buf with
    | none =>
      have helems := skipelem_eq_none_iff.mp hskip
      rw [helems] at found fails
      dsimp only
      rw [wp_ite]
      split
      · rename_i hparent
        simp only [wp_bind, wp_pure]
        refine h.wp_iput_keep rfl (fun hi => absurd hi hnotlocked) (hkeep _ le_rfl) ?_
        intro f' h'
        refine fails buf f' ?_ (h'.valid_mono fun j hj => ⟨hj, hvalid hj⟩)
        intro j last
        unfold Leads
        rw [if_pos hparent]
        rintro ⟨init, node, hsplit, -⟩
        exact List.append_ne_nil_of_right_ne_nil _ (List.cons_ne_nil _ _) hsplit.symm
      · rename_i hparent
        rw [wp_pure]
        refine found i k buf f ?_ hi h
        unfold Leads
        rw [if_neg hparent]
        exact Resolves.nil i
    | some p =>
      obtain ⟨rest, buf'⟩ := p
      obtain ⟨helems, hlength, hnul', hend⟩ := skipelem_some hnul hskip
      rw [helems] at found fails free
      simp only [wp_bind]
      refine h.wp_ilock (Multiset.mem_cons_self _ _) hi hnotlocked ?_ ?_
      · intro f₁ node hnode h₁
        have htype := (h₁.inode (Multiset.mem_cons_self _ _) (Set.mem_insert _ _) hnode).1
        simp only [wp_get]
        rw [wp_ite, htype]
        by_cases hdir : node.type = T_DIR
        · rw [if_neg (fun hne => hne hdir), wp_ite]
          split
          · rename_i hlast
            -- the parent is found
            have hnil : elems rest = [] := hend.mp hlast.2
            simp only [wp_bind, wp_pure]
            refine h₁.wp_iunlock (Multiset.mem_cons_self _ _) (Set.mem_insert _ _) ?_
            rw [Set.insert_sdiff_self_of_notMem hnotlocked]
            intro f₂ h₂
            refine found i k buf' f₂ ?_ hi (h₂.valid_mono (Set.subset_insert _ _))
            unfold Leads
            rw [if_pos hlast.1, hnil]
            exact ⟨[], node, rfl, Resolves.nil i, hnode, hdir⟩
          · rename_i hmore
            have hne : parent = true → elems rest ≠ [] :=
              fun hparent hnil => hmore ⟨hparent, hend.mpr hnil⟩
            simp only [wp_bind]
            refine h₁.wp_dirlookup (Multiset.mem_cons_self _ _) (Set.mem_insert _ _) hnode hdir ?_ ?_
              (walk.aligned i node hnode hdir) fun hfull => full ⟨_, hfull⟩
            · intro m hfinds l f₂ h₂
              have hnames : Names a.nodes i (CString.text buf' DIRSIZ 0)
                  (Dir.entry node.contents m).1 := ⟨node, m, hnode, hdir, hfinds, rfl⟩
              simp only [wp_bind]
              refine h₂.wp_iunlockput_keep (Multiset.cons_swap _ _ _) rfl hnotlocked
                (hkeep _ (Multiset.le_cons_self _ _)) ?_
              intro f₃ h₃
              refine ih (hdrop (Multiset.le_cons_self _ _) h₃) (walk.inum_lt _ _ _ hnames)
                (fun node' => walk.anchored _ _ _ node' hnames) hnul' (by omega) ?_ ?_ ?_
              · intro j l' buf'' f' hleads
                exact found j l' buf'' f' ((leads_cons_iff hnames hne).mpr hleads)
              · intro buf'' f' hnone
                exact fails buf'' f' fun j last hleads =>
                  hnone j last ((leads_cons_iff hnames hne).mp hleads)
              · exact fun hdangles => free (dangles_cons hnames hdangles)
            · intro hmisses
              simp only [wp_bind, wp_pure]
              refine h₁.wp_iunlockput_keep rfl rfl hnotlocked (hkeep _ le_rfl) ?_
              intro f₂ h₂
              refine fails buf' f₂ (fun j last => not_leads_cons ?_ hne) (hdrop le_rfl h₂)
              rintro i' ⟨node', m, hnode', -, hfinds, -⟩
              rw [hnode] at hnode'
              cases hnode'
              exact hmisses m hfinds.2.1 hfinds.2.2.1
        · rw [if_pos hdir]
          simp only [wp_bind, wp_pure]
          refine h₁.wp_iunlockput_keep rfl rfl hnotlocked (hkeep _ le_rfl) ?_
          intro f₂ h₂
          exact fails buf' f₂ (fun j last => not_leads_of_not_dir hnode hdir) (hdrop le_rfl h₂)
      · intro hfree
        exact free ⟨[], _, i, rfl, List.cons_ne_nil _ _, Resolves.nil i, hfree⟩

theorem wp_namex {buf : Nat → UInt8} {c : Nat} (h : f.Sees sb a) (walk : Passable sb a.nodes a.own)
    (hlocks : a.locks = ∅) (hcwd : (k, c) ∈ a.own) (hc : c < sb.ninodes)
    (hroot : ROOTINO < sb.ninodes) (hlinked : ∀ node, a.nodes ROOTINO = some node → node.nlink = 0 →
      ROOTINO ∈ FsView.referenced a.own) (hnul : 0 ∉ path) (found : ∀ j l buf' f',
      Leads a.nodes parent (startAt c path) (elems path) j (CString.text buf' DIRSIZ 0) →
      j < sb.ninodes → f'.Sees sb { a with own := (l, j) ::ₘ a.own } → Q (some l, buf') f')
    (fails : ∀ buf' f', (∀ j last, ¬ Leads a.nodes parent (startAt c path) (elems path) j last) →
      f'.Sees sb a → Q (none, buf') f')
    (free : Dangles a.nodes (startAt c path) (elems path) → E .ilockNoType)
    (full : TableTight a.own → E .igetNoInodes) : wp (namex sb k path parent buf) Q E f := by
  have hvalid : a.valid ⊆ FsView.referenced a.own := fun i hi => h.referenced hi
  unfold namex
  dsimp only
  rw [wp_ite]
  unfold startAt at found fails free
  split
  · rename_i hslash
    rw [if_pos hslash] at found fails free
    rw [wp_bind]
    exact h.wp_iget (fun l f' h' => wp_namexLoop h' walk hvalid hlocks hroot hlinked hnul
      (Nat.lt_succ_self _) found fails free full) fun hfull => full (TableTight.of_full hfull)
  · rename_i hslash
    rw [if_neg hslash] at found fails free
    rw [wp_bind]
    exact h.wp_idup hcwd fun f' h' => wp_namexLoop h' walk hvalid hlocks hc
      (fun _ _ _ => ⟨k, hcwd⟩) hnul
      (Nat.lt_succ_self _) found fails free full

theorem wp_namei {R : Option (Fin NINODE) → Fs → Prop} {c : Nat} (h : f.Sees sb a)
    (walk : Passable sb a.nodes a.own) (hlocks : a.locks = ∅) (hcwd : (k, c) ∈ a.own)
    (hc : c < sb.ninodes) (hroot : ROOTINO < sb.ninodes)
    (hlinked : ∀ node, a.nodes ROOTINO = some node → node.nlink = 0 →
      ROOTINO ∈ FsView.referenced a.own) (hnul : 0 ∉ path)
    (found : ∀ j l f', Resolves a.nodes (startAt c path) (elems path) j → j < sb.ninodes →
      f'.Sees sb { a with own := (l, j) ::ₘ a.own } → R (some l) f')
    (fails : ∀ f', (∀ j, ¬ Resolves a.nodes (startAt c path) (elems path) j) → f'.Sees sb a →
      R none f') (free : Dangles a.nodes (startAt c path) (elems path) → E .ilockNoType)
    (full : TableTight a.own → E .igetNoInodes) : wp (namei sb k path) R E f := by
  unfold namei
  simp only [wp_bind, wp_pure]
  exact wp_namex h walk hlocks hcwd hc hroot hlinked hnul
    (fun j l _ f' hleads hj h' => found j l f' hleads hj h')
    (fun _ f' hnone h' => fails f' (fun j => hnone j []) h') free full

theorem wp_nameiparent {c : Nat} (h : f.Sees sb a) (walk : Passable sb a.nodes a.own)
    (hlocks : a.locks = ∅) (hcwd : (k, c) ∈ a.own) (hc : c < sb.ninodes)
    (hroot : ROOTINO < sb.ninodes) (hlinked : ∀ node, a.nodes ROOTINO = some node → node.nlink = 0 →
      ROOTINO ∈ FsView.referenced a.own) (hnul : 0 ∉ path) (found : ∀ j l buf' f',
      ParentOf a.nodes (startAt c path) (elems path) j (CString.text buf' DIRSIZ 0) →
      j < sb.ninodes → f'.Sees sb { a with own := (l, j) ::ₘ a.own } → Q (some l, buf') f')
    (fails : ∀ buf' f', (∀ j last, ¬ ParentOf a.nodes (startAt c path) (elems path) j last) →
      f'.Sees sb a → Q (none, buf') f')
    (free : Dangles a.nodes (startAt c path) (elems path) → E .ilockNoType)
    (full : TableTight a.own → E .igetNoInodes) : wp (nameiparent sb k path) Q E f :=
  wp_namex h walk hlocks hcwd hc hroot hlinked hnul found fails free full

end Fs

end Xv6
