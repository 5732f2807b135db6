import Xv6.Vm.PageTree

/-! Page tables as partial maps from virtual pages to physical pages and flags. -/
namespace Xv6

open Lib Lib.Exec Lib.Radix Multiset

namespace Vm

variable {img : Image} {rest : Multiset Nat} {s s' : Vm} {pt q level va : Nat} {E : VmPanic → Prop}

theorem Grows.refl {n : Nat} {t : PageTree n} (st : s.Stores t)
    (acc : s'.Accounts img (t.labels + rest)) (same : s'.page = s.page) :
    Grows img rest s t s' t where
  stores := st.keeps fun q _ => by rw [same]
  label := rfl
  accounts := acc
  keeps := fun q _ => by rw [same]
  lookup := fun _ => rfl

theorem codes_of_label {n pte : Nat} {t t' : PageTree (n + 1)} (h : t'.label? = t.label?)
    (hcodes : pteCoding.Codes pte t) : pteCoding.Codes pte t' := by
  cases t <;> cases t' <;> cases h <;> exact hcodes

theorem Grows.onWay {b : Nat} {child : Fin 512 → PageTree (level + 1)} {t' : PageTree (level + 1)}
    (st : s.Stores (.table b child : PageTree (level + 2)))
    (h : Grows img (Tree.around b child (digit 512 (level + 1) (va / PGSIZE)) + rest) s
      (child (digit 512 (level + 1) (va / PGSIZE))) s' t') :
    ∃ t'' : PageTree (level + 2), Grows img rest s (.table b child : PageTree (level + 2)) s' t'' ∧
      t''.bottom (va / PGSIZE) = t'.bottom (va / PGSIZE) := by
  refine ⟨_, h.inTable st (fun _ => codes_of_label h.label), ?_⟩
  rw [Tree.bottom_table, Function.update_self]

/-- The tree grows on the way and maps the same. -/
theorem wp_walkFrom_alloc {Q : Option Nat → Vm → Prop} {t : PageTree (level + 1)}
    (st : s.Stores t) (label : t.label? = some pt) (acc : s.Accounts img (t.labels + rest))
    (got : ∀ q s' t', Grows img rest s t s' t' → t'.bottom (va / PGSIZE) = some q → Q (some q) s')
    (none : ∀ s' t', Grows img rest s t s' t' → Q none s') :
    wp (walkFrom va true level pt) Q E s := by
  induction level generalizing pt s rest with
  | zero =>
    cases t with
    | empty => cases label
    | table b child =>
      cases label
      exact got _ _ _ (Grows.refl st acc rfl) rfl
  | succ level ih =>
    cases t with
    | empty => cases label
    | table b child =>
      cases label
      set d := digit 512 (level + 1) (va / PGSIZE) with hd
      have hword : pteCoding.Codes (s.entry pt d.val) (child d) := (st d).1
      unfold walkFrom
      simp only [wp_bind, wp_get, PX_eq, ← hd]
      cases hchild : child d with
      | empty =>
        rw [hchild, codes_empty] at hword
        rw [wp_else (not_not_intro hword), wp_else (by decide)]
        simp only [wp_bind]
        refine wp_kalloc acc ?_ ?_
        · intro pa s' hpages hfresh hacc hsame
          have hpos := Image.pos_of_mem hpages
          have hgrows := Grows.link st hchild hfresh acc.nodup hacc hsame
          rw [wp_else (by omega)]
          simp only [wp_bind, wp_modify]
          have hst := hgrows.stores
          have hacc' := hgrows.accounts
          rw [Tree.labels_table _ _ d, add_assoc] at hacc'
          refine ih (hst d).2 (by rw [Function.update_self]; rfl) hacc' ?_ ?_
          · intro q s'' t'' hgrows' hbottom
            obtain ⟨t', hgrows', hsame'⟩ := Grows.onWay hst hgrows'
            exact got q s'' t' (hgrows.trans hgrows') (hsame'.trans hbottom)
          · intro s'' t'' hgrows'
            obtain ⟨t', hgrows', -⟩ := Grows.onWay hst hgrows'
            exact none s'' t' (hgrows.trans hgrows')
        · intro s' hacc hsame
          rw [wp_then rfl]
          exact none s' _ (Grows.refl st hacc hsame)
      | table c below =>
        have hframe : Frame c := by
          refine acc.frame (mem_add.mpr (.inl (Tree.mem_labels_child (i := d) ?_)))
          rw [hchild]
          exact Tree.label_mem c below
        rw [hchild, codes_table] at hword
        rw [hword, link_valid, hframe.PTE2PA_link, wp_then (by decide)]
        rw [Tree.labels_table _ _ d, add_assoc] at acc
        refine ih (st d).2 (by rw [hchild]; rfl) acc ?_ ?_
        · intro q s' t' hgrows hbottom
          obtain ⟨t'', hgrows', hsame⟩ := Grows.onWay st hgrows
          exact got q s' t'' hgrows' (hsame.trans hbottom)
        · intro s' t' hgrows
          obtain ⟨t'', hgrows', -⟩ := Grows.onWay st hgrows
          exact none s' t'' hgrows'

/-- A page table as a tree of three levels, with distinct table pages apart from `rest`. -/
structure Holds (img : Image) (s : Vm) (pagetable : Nat) (t : PageTree 3) (rest : Multiset Nat) :
    Prop where
  stores : s.Stores t
  label : t.label? = some pagetable
  accounts : s.Accounts img (t.labels + rest)

/-- Physical page and flags. -/
def binding (t : PageTree 3) (v : Nat) : Option (Nat × Nat) :=
  (t.lookup v).map fun x => (x.pa, x.flags)

variable {pagetable : Nat} {t : PageTree 3}

theorem binding_eq_none {v : Nat} : binding t v = none ↔ t.lookup v = none := by
  unfold binding
  rw [Option.map_eq_none_iff]

theorem Grows.holds {t' : PageTree 3} (h : Grows img rest s t s' t')
    (label : t.label? = some pagetable) : s'.Holds img pagetable t' rest :=
  ⟨h.stores, h.label.trans label, h.accounts⟩

theorem Grows.binding {t' : PageTree 3} (h : Grows img rest s t s' t') (v : Nat) :
    binding t' v = binding t v := by
  unfold Vm.binding
  rw [h.lookup]

namespace Holds

variable (h : s.Holds img pagetable t rest)

include h

theorem nodup : t.labels.Nodup := (nodup_add.mp h.accounts.nodup).1

theorem wp_walk_find {Q : Option (Nat × Nat) → Vm → Prop} (lt : va < MAXVA)
    (found : ∀ q, t.bottom (va / PGSIZE) = some q →
      Reads (s.entry q (PX 0 va)) (t.lookup (va / PGSIZE)) → Q (some (q, PX 0 va)) s)
    (none : t.lookup (va / PGSIZE) = none → Q none s) : wp (walk pagetable va false) Q E s := by
  unfold walk
  rw [wp_else (Nat.not_le.mpr lt), wp_bind]
  refine wp_walkFrom_find h.stores h.label
    (fun q hq => h.accounts.frame (mem_add.mpr (.inl hq))) ?_
  cases hbottom : t.bottom (va / PGSIZE) with
  | none => exact none (Tree.lookup_eq_none_of_bottom hbottom)
  | some q => exact found q hbottom (h.stores.entry_bottom hbottom)

theorem wp_walk_alloc {Q : Option (Nat × Nat) → Vm → Prop} (lt : va < MAXVA)
    (got : ∀ q s' t', Grows img rest s t s' t' → t'.bottom (va / PGSIZE) = some q →
      Q (some (q, PX 0 va)) s')
    (none : ∀ s' t', Grows img rest s t s' t' → Q none s') : wp (walk pagetable va true) Q E s := by
  unfold walk
  rw [wp_else (Nat.not_le.mpr lt), wp_bind]
  exact wp_walkFrom_alloc h.stores h.label h.accounts got none

theorem setLeaf {q : Nat} (hbottom : t.bottom (va / PGSIZE) = some q) (a : Option Leaf) :
    (s.setEntry q (PX 0 va) (pteOf a)).Holds img pagetable (t.set (va / PGSIZE) a) rest := by
  refine ⟨h.stores.setLeaf h.nodup hbottom a, ?_, ?_⟩
  · rw [Tree.label?_set]
    exact h.label
  · rw [Tree.labels_set]
    exact h.accounts

theorem keeps_setEntry {q i value : Nat} (hbottom : t.bottom (va / PGSIZE) = some q) :
    Keeps rest s (s.setEntry q i value) := by
  intro r hr
  apply setEntry_page_of_ne
  rintro rfl
  exact h.accounts.not_mem_of_mem (Tree.bottom_mem hbottom) hr

end Holds

def NPAGES : Nat := 512 ^ 3

theorem lt_NPAGES {v : Nat} (h : v < MAXVA / PGSIZE) : v < NPAGES :=
  h.trans_le (by decide)

theorem lookup_set_page {v w : Nat} {a : Option Leaf} (hbottom : t.bottom v ≠ none)
    (hv : v < NPAGES) (hw : w < NPAGES) :
    (t.set v a).lookup w = if w = v then a else t.lookup w := by
  unfold NPAGES at hv hw
  rw [Tree.lookup_set hbottom, Nat.mod_eq_of_lt hv, Nat.mod_eq_of_lt hw]

/-- What `walkaddr` returns. -/
def userPage (t : PageTree 3) (v : Nat) : Nat :=
  match binding t v with
  | some (pa, flags) => if flags &&& PTE_U = 0 then 0 else pa
  | none => 0

theorem Holds.wp_walkaddr {Q : Nat → Vm → Prop} (h : s.Holds img pagetable t rest)
    (post : Q (if va < MAXVA then userPage t (va / PGSIZE) else 0) s) :
    wp (walkaddr pagetable va) Q E s := by
  unfold walkaddr
  rw [wp_ite]
  split
  · rename_i hge
    rw [if_neg (Nat.not_lt.mpr hge)] at post
    exact post
  · rename_i hlt
    rw [if_pos (Nat.lt_of_not_le hlt)] at post
    unfold userPage binding at post
    rw [wp_bind]
    refine h.wp_walk_find (Nat.lt_of_not_le hlt) ?_ ?_
    · intro q hbottom hentry
      simp only [wp_bind, wp_get]
      cases hlookup : t.lookup (va / PGSIZE) with
      | none =>
        rw [hlookup] at post hentry
        rw [wp_then (hentry.and_valid.mpr rfl)]
        exact post
      | some x =>
        rw [hlookup] at post hentry
        have hpte : s.entry q (PX 0 va) = x.pte := hentry
        rw [hpte, wp_else x.pte_valid, wp_ite, x.pte_and (by decide), x.PTE2PA_pte]
        dsimp only [Option.map_some] at post
        by_cases huser : x.flags &&& PTE_U = 0
        · rw [if_pos huser] at post ⊢
          exact post
        · rw [if_neg huser] at post ⊢
          exact post
    · intro hnone
      rw [hnone] at post
      exact post

end Vm

def Leaf.mapped (pa perm : Nat) (aligned : pa % PGSIZE = 0) (pa_lt : pa < 2 ^ 64)
    (perm_lt : perm < 1024) (access : perm &&& (PTE_R ||| PTE_W ||| PTE_X) ≠ 0) : Leaf where
  pa := pa
  flags := perm ||| PTE_V
  aligned := aligned
  pa_lt := pa_lt
  flags_lt := Nat.or_lt_two_pow (n := 10) perm_lt (by decide)
  valid := by
    rw [Nat.and_or_distrib_right]
    intro h
    exact absurd (Nat.or_eq_zero_iff.mp h).2 (by decide)
  access := by
    rw [Nat.and_or_distrib_right]
    intro h
    exact access (Nat.or_eq_zero_iff.mp h).1

namespace Vm

variable {img : Image} {rest : Multiset Nat} {s s' : Vm} {pagetable va : Nat} {t t' : PageTree 3}
  {E : VmPanic → Prop}

/-- The `n` pages from `v` on are bound from `pa` on, others as in `t`. -/
def Extends (t t' : PageTree 3) (v n pa flags : Nat) : Prop :=
  ∀ w, w < MAXVA / PGSIZE → binding t' w =
    if v ≤ w ∧ w < v + n then some ((pa + (w - v) * PGSIZE) % 2 ^ 64, flags) else binding t w

theorem Extends.zero {v pa flags : Nat} (h : ∀ w, binding t' w = binding t w) :
    Extends t t' v 0 pa flags := by
  intro w _
  rw [if_neg (by omega), h]

theorem Extends.cons {t'' : PageTree 3} {v n pa flags : Nat} (hpa : pa < 2 ^ 64)
    (head : ∀ w, w < MAXVA / PGSIZE → binding t' w = if w = v then some (pa, flags) else binding t w)
    (tail : Extends t' t'' (v + 1) n ((pa + PGSIZE) % 2 ^ 64) flags) :
    Extends t t'' v (n + 1) pa flags := by
  intro w hw
  rw [tail w hw, head w hw]
  by_cases hwv : w = v
  · rw [if_neg (by omega), if_pos hwv, if_pos (by omega), hwv, Nat.sub_self, Nat.zero_mul,
      Nat.add_zero, Nat.mod_eq_of_lt hpa]
  · by_cases hin : v + 1 ≤ w ∧ w < v + 1 + n
    · have hstep : pa + PGSIZE + (w - (v + 1)) * PGSIZE = pa + (w - v) * PGSIZE := by
        have hsub : w - v = w - (v + 1) + 1 := by omega
        rw [hsub, Nat.add_mul]
        omega
      rw [if_pos hin, if_pos (by omega), Nat.mod_add_mod, hstep]
    · rw [if_neg hin, if_neg hwv, if_neg (by omega)]

variable {Q : Int → Vm → Prop}

/-- It binds all pages, or the first `j` for want of a table page. -/
theorem Holds.wp_mappagesLoop {k fuel a pa perm last : Nat} (h : s.Holds img pagetable t rest)
    (hfuel : k < fuel) (ha : a % PGSIZE = 0) (hlast : last = a + k * PGSIZE) (hlt : last < MAXVA)
    (aligned : pa % PGSIZE = 0) (pa_lt : pa < 2 ^ 64) (perm_lt : perm < 1024)
    (access : perm &&& (PTE_R ||| PTE_W ||| PTE_X) ≠ 0)
    (unmapped : ∀ v, a / PGSIZE ≤ v → v ≤ a / PGSIZE + k → t.lookup v = none)
    (done : ∀ s' t', s'.Holds img pagetable t' rest → Keeps rest s s' →
      Extends t t' (a / PGSIZE) (k + 1) pa (perm ||| PTE_V) → Q 0 s')
    (failed : ∀ s' t' j, j ≤ k → s'.Holds img pagetable t' rest → Keeps rest s s' →
      Extends t t' (a / PGSIZE) j pa (perm ||| PTE_V) → Q (-1) s') :
    wp (mappagesLoop pagetable last perm fuel a pa) Q E s := by
  induction fuel generalizing s t a pa k with
  | zero => omega
  | succ fuel ih =>
    have hpage : MAXVA / PGSIZE * PGSIZE = MAXVA := by decide
    have hv : a / PGSIZE < MAXVA / PGSIZE := by
      simp only [PGSIZE] at *
      omega
    unfold mappagesLoop
    rw [wp_bind]
    refine h.wp_walk_alloc (by omega) ?_ ?_
    · intro q s' t' hgrows hbottom
      have hold := hgrows.holds h.label
      have hentry : s'.entry q (PX 0 a) &&& PTE_V = 0 := by
        rw [(hgrows.stores.entry_bottom hbottom).and_valid, hgrows.lookup]
        exact unmapped _ (Nat.le_refl _) (by omega)
      simp only [wp_bind, wp_get]
      rw [wp_else (not_not_intro hentry)]
      simp only [wp_bind, wp_modify]
      set x := Leaf.mapped pa perm aligned pa_lt perm_lt access
      have hpte : PA2PTE pa ||| perm ||| PTE_V = pteOf (some x) := Nat.or_assoc ..
      have hset := hold.setLeaf hbottom (some x)
      have hkeeps : Keeps rest s (s'.setEntry q (PX 0 a) (pteOf (some x))) :=
        hgrows.keeps.trans (hold.keeps_setEntry hbottom)
      have hbinding : ∀ w, w < MAXVA / PGSIZE → binding (t'.set (a / PGSIZE) (some x)) w =
          if w = a / PGSIZE then some (pa, perm ||| PTE_V) else binding t w := by
        intro w hw
        rw [← hgrows.binding w]
        unfold binding
        rw [lookup_set_page (by rw [hbottom]; simp) (lt_NPAGES hv) (lt_NPAGES hw)]
        split <;> rfl
      rw [hpte]
      split
      · rename_i hfirst
        have hk : k = 0 := by
          simp only [PGSIZE] at hlast
          omega
        subst hk
        refine done _ _ hset hkeeps (Extends.cons pa_lt hbinding (Extends.zero fun _ => rfl))
      · rename_i hmore
        obtain ⟨k, rfl⟩ : ∃ k', k = k' + 1 := by
          cases k with
          | zero => exact absurd (by omega) hmore
          | succ k => exact ⟨k, rfl⟩
        have hnext : (a + PGSIZE) / PGSIZE = a / PGSIZE + 1 := Nat.add_div_right _ (by decide)
        refine ih hset (show k < fuel by omega) ?_ ?_ ?_ ?_ ?_ ?_ ?_
        · rw [Nat.add_mod_right, ha]
        · rw [hlast, Nat.add_mul]
          omega
        · simp only [PGSIZE] at aligned ⊢
          omega
        · exact Nat.mod_lt _ (by decide)
        · intro v hge hle
          rw [hnext] at hge hle
          have hvlt : v < MAXVA / PGSIZE := by
            simp only [PGSIZE] at *
            omega
          rw [lookup_set_page (by rw [hbottom]; simp) (lt_NPAGES hv) (lt_NPAGES hvlt),
            if_neg (by omega), hgrows.lookup]
          exact unmapped v (by omega) (by omega)
        · intro s'' t'' hholds hkeeps' hextends
          rw [hnext] at hextends
          exact done s'' t'' hholds (hkeeps.trans hkeeps') (Extends.cons pa_lt hbinding hextends)
        · intro s'' t'' j hj hholds hkeeps' hextends
          rw [hnext] at hextends
          exact failed s'' t'' (j + 1) (by omega) hholds (hkeeps.trans hkeeps')
            (Extends.cons pa_lt hbinding hextends)
    · intro s' t' hgrows
      exact failed s' t' 0 (by omega) (hgrows.holds h.label) hgrows.keeps
        (Extends.zero hgrows.binding)

def pagesTouching (va size : Nat) : Nat := (va + size - 1) / PGSIZE - va / PGSIZE + 1

theorem Holds.wp_mappages {size pa perm : Nat} (h : s.Holds img pagetable t rest) (hsize : 0 < size)
    (hrange : va + size ≤ MAXVA) (aligned : pa % PGSIZE = 0) (pa_lt : pa < 2 ^ 64)
    (perm_lt : perm < 1024) (access : perm &&& (PTE_R ||| PTE_W ||| PTE_X) ≠ 0)
    (unmapped : ∀ v, va / PGSIZE ≤ v → v ≤ (va + size - 1) / PGSIZE → t.lookup v = none)
    (done : ∀ s' t', s'.Holds img pagetable t' rest → Keeps rest s s' →
      Extends t t' (va / PGSIZE) (pagesTouching va size) pa (perm ||| PTE_V) → Q 0 s')
    (failed : ∀ s' t' j, j < pagesTouching va size → s'.Holds img pagetable t' rest →
      Keeps rest s s' → Extends t t' (va / PGSIZE) j pa (perm ||| PTE_V) → Q (-1) s') :
    wp (mappages pagetable va size pa perm) Q E s := by
  have hmax : MAXVA = 2 ^ 38 := rfl
  have hmod : (va + size - 1) % 2 ^ 64 = va + size - 1 := Nat.mod_eq_of_lt (by omega)
  have hfirst : PGROUNDDOWN va / PGSIZE = va / PGSIZE := Nat.mul_div_cancel _ (by decide)
  have hle : va / PGSIZE ≤ (va + size - 1) / PGSIZE := Nat.div_le_div_right (by omega)
  have hlast : (va + size - 1) / PGSIZE ≤ MAXVA / PGSIZE := Nat.div_le_div_right (by omega)
  have hdown := Nat.div_mul_le_self (va + size - 1) PGSIZE
  unfold mappages
  rw [wp_else (by omega), hmod]
  refine h.wp_mappagesLoop (k := (va + size - 1) / PGSIZE - va / PGSIZE)
    (Nat.lt_succ_of_le ((Nat.sub_le _ _).trans hlast))
    (Nat.mul_mod_left _ _) ?_ ?_ aligned pa_lt perm_lt access ?_ ?_ ?_
  · unfold PGROUNDDOWN
    rw [← Nat.add_mul, Nat.add_sub_cancel' hle]
  · unfold PGROUNDDOWN
    omega
  · intro v hge hv
    rw [hfirst] at hge hv
    exact unmapped v hge (by omega)
  · intro s' t' hholds hkeeps hextends
    rw [hfirst] at hextends
    exact done s' t' hholds hkeeps hextends
  · intro s' t' j hj hholds hkeeps hextends
    rw [hfirst] at hextends
    exact failed s' t' j (Nat.lt_succ_of_le hj) hholds hkeeps hextends

theorem Holds.wp_mappages_page {pa perm : Nat} (x : Leaf) (h : s.Holds img pagetable t rest)
    (aligned : va % PGSIZE = 0) (lt : va < MAXVA) (hpa : x.pa = pa)
    (hflags : x.flags = perm ||| PTE_V) (unmapped : t.lookup (va / PGSIZE) = none)
    (done : ∀ s' t', s'.Holds img pagetable t' rest → Keeps rest s s' →
      (∀ w, w < NPAGES → t'.lookup w = if w = va / PGSIZE then some x else t.lookup w) → Q 0 s')
    (failed : ∀ s' t', s'.Holds img pagetable t' rest → Keeps rest s s' →
      (∀ w, t'.lookup w = t.lookup w) → Q (-1) s') :
    wp (mappages pagetable va PGSIZE pa perm) Q E s := by
  have hmax : MAXVA = 2 ^ 38 := rfl
  have hv : va / PGSIZE < NPAGES := lt_NPAGES (Nat.div_lt_div_of_lt_of_dvd (by decide) lt)
  have hfirst : PGROUNDDOWN va = va := Nat.div_mul_cancel (Nat.dvd_of_mod_eq_zero aligned)
  have hlast : PGROUNDDOWN ((va + PGSIZE - 1) % 2 ^ 64) = va := by
    unfold PGROUNDDOWN
    simp only [PGSIZE] at aligned ⊢
    omega
  unfold mappages
  rw [wp_else (by decide), hlast, hfirst]
  unfold mappagesLoop
  rw [wp_bind]
  refine h.wp_walk_alloc lt ?_ ?_
  · intro q s' t' hgrows hbottom
    have hold := hgrows.holds h.label
    have hentry : s'.entry q (PX 0 va) &&& PTE_V = 0 := by
      rw [(hgrows.stores.entry_bottom hbottom).and_valid, hgrows.lookup]
      exact unmapped
    have hpte : PA2PTE pa ||| perm ||| PTE_V = pteOf (some x) := by
      change _ = PA2PTE x.pa ||| x.flags
      rw [hpa, hflags, Nat.or_assoc]
    simp only [wp_bind, wp_get]
    rw [wp_else (not_not_intro hentry)]
    simp only [wp_bind, wp_modify, hpte, if_true]
    refine done _ _ (hold.setLeaf hbottom (some x))
      (hgrows.keeps.trans (hold.keeps_setEntry hbottom)) ?_
    intro w hw
    rw [lookup_set_page (by rw [hbottom]; simp) hv hw, hgrows.lookup]
  · intro s' t' hgrows
    exact failed s' t' (hgrows.holds h.label) hgrows.keeps hgrows.lookup

/-- Physical pages of the `n` from `v` on. -/
def frames (t : PageTree 3) (v : Nat) : Nat → Multiset Nat
  | 0 => 0
  | n + 1 => ((t.lookup v).elim 0 fun x => {x.pa}) + frames t (v + 1) n

theorem frames_succ (t : PageTree 3) (v n : Nat) :
    frames t v (n + 1) = ((t.lookup v).elim 0 fun x => {x.pa}) + frames t (v + 1) n := rfl

theorem frames_congr {v n : Nat}
    (same : ∀ w, v ≤ w → w < v + n → (t'.lookup w).map Leaf.pa = (t.lookup w).map Leaf.pa) :
    frames t' v n = frames t v n := by
  induction n generalizing v with
  | zero => rfl
  | succ n ih =>
    have hfirst := same v (Nat.le_refl _) (by omega)
    rw [frames_succ, frames_succ, ih fun w hge hlt => same w (by omega) (by omega)]
    have helim : ∀ o : Option Leaf, (o.elim (0 : Multiset Nat) fun x => {x.pa}) =
        (o.map Leaf.pa).elim 0 fun pa => {pa} := by
      rintro (_ | x) <;> rfl
    rw [helim, helim, hfirst]

/-- The `n` pages from `v` on are not bound, others are as in `t`. -/
def Removes (t t' : PageTree 3) (v n : Nat) : Prop :=
  ∀ w, w < NPAGES → t'.lookup w = if v ≤ w ∧ w < v + n then none else t.lookup w

theorem Holds.free {pa : Nat} {own : Multiset Nat} {s' : Vm}
    (h : s.Holds img pagetable t (pa ::ₘ own)) (acc : s'.Accounts img (t.labels + own))
    (same : ∀ q, q ≠ pa → s'.page q = s.page q) :
    s'.Holds img pagetable t own ∧ Keeps own s s' := by
  have hnot : pa ∉ t.labels ∧ pa ∉ own := by
    have hnodup := h.accounts.nodup
    rw [add_cons, nodup_cons, mem_add, not_or] at hnodup
    exact hnodup.1
  refine ⟨⟨h.stores.keeps fun q hq => same q ?_, h.label, acc⟩, fun q hq => same q ?_⟩
  · rintro rfl
    exact hnot.1 hq
  · rintro rfl
    exact hnot.2 hq

theorem Holds.wp_uvmunmapLoop {Q : Unit → Vm → Prop} {n a stop : Nat} {doFree : Bool}
    (h : s.Holds img pagetable t ((if doFree then frames t (a / PGSIZE) n else 0) + rest))
    (ha : a % PGSIZE = 0) (hstop : stop = a + n * PGSIZE) (hrange : stop ≤ MAXVA)
    (bound : ∀ v, a / PGSIZE ≤ v → v < a / PGSIZE + n → t.lookup v ≠ none)
    (post : ∀ s' t', s'.Holds img pagetable t' rest → Keeps rest s s' →
      Removes t t' (a / PGSIZE) n → Q () s') :
    wp (uvmunmapLoop img pagetable stop doFree n a) Q E s := by
  induction n generalizing s t a with
  | zero =>
    refine post s t ?_ (Keeps.refl _ _) ?_
    · have hnone : (if doFree then frames t (a / PGSIZE) 0 else 0) = 0 := by
        cases doFree <;> rfl
      rw [hnone, zero_add] at h
      exact h
    · intro w _
      rw [if_neg (by omega)]
  | succ n ih =>
    have hnext : (a + PGSIZE) / PGSIZE = a / PGSIZE + 1 := Nat.add_div_right _ (by decide)
    have hpage : MAXVA / PGSIZE * PGSIZE = MAXVA := by decide
    have halt : a < stop := by
      simp only [PGSIZE] at hstop
      omega
    have hv : a / PGSIZE < MAXVA / PGSIZE := by
      simp only [PGSIZE] at *
      omega
    have hrest : ∀ w, a / PGSIZE + 1 ≤ w → w < a / PGSIZE + 1 + n → w < MAXVA / PGSIZE := by
      intro w hge hlt
      simp only [PGSIZE] at *
      omega
    obtain ⟨x, hx⟩ := Option.ne_none_iff_exists'.mp (bound _ (Nat.le_refl _) (by omega))
    unfold uvmunmapLoop
    rw [wp_then halt, wp_bind]
    refine h.wp_walk_find (by omega) ?_ ?_
    · intro q hbottom hentry
      rw [hx] at hentry
      have hpte : s.entry q (PX 0 a) = x.pte := hentry
      simp only [wp_bind, wp_get, hpte]
      rw [wp_else x.pte_valid, wp_ite, x.PTE_FLAGS_pte, if_neg x.flags_ne, x.PTE2PA_pte]
      -- what is left once the page is freed, and its binding erased
      have hgo : ∀ s', s'.Holds img pagetable t
          ((if doFree then frames t (a / PGSIZE + 1) n else 0) + rest) → Keeps rest s s' →
          wp (uvmunmapLoop img pagetable stop doFree n (a + PGSIZE)) Q E
            (s'.setEntry q (PX 0 a) 0) := by
        intro s' hholds hkeeps
        have hset := hholds.setLeaf hbottom none
        have hsame : ∀ w, a / PGSIZE + 1 ≤ w → w < a / PGSIZE + 1 + n →
            (t.set (a / PGSIZE) none).lookup w = t.lookup w := by
          intro w hge hlt
          rw [lookup_set_page (by rw [hbottom]; exact nofun) (lt_NPAGES hv)
            (lt_NPAGES (hrest w hge hlt)), if_neg (by omega)]
        rw [← frames_congr fun w hge hlt => congrArg _ (hsame w hge hlt)] at hset
        refine ih (hnext ▸ hset) (by rw [Nat.add_mod_right, ha]) ?_ ?_ ?_
        · rw [hstop, Nat.add_mul]
          omega
        · intro v hge hlt
          rw [hnext] at hge hlt
          rw [hsame v hge hlt]
          exact bound v (by omega) (by omega)
        · intro s'' t'' hholds' hkeeps' hremoves
          rw [hnext] at hremoves
          refine post s'' t'' hholds' (hkeeps.trans (Keeps.trans ?_ hkeeps')) ?_
          · exact (hholds.keeps_setEntry hbottom).mono (le_add_left _ _)
          · intro w hw
            rw [hremoves w hw, lookup_set_page (by rw [hbottom]; exact nofun) (lt_NPAGES hv) hw]
            by_cases hwa : w = a / PGSIZE
            · rw [if_neg (by omega), if_pos hwa, if_pos (by omega)]
            · by_cases hin : a / PGSIZE + 1 ≤ w ∧ w < a / PGSIZE + 1 + n
              · rw [if_pos hin, if_pos (by omega)]
              · rw [if_neg hin, if_neg hwa, if_neg (by omega)]
      cases doFree with
      | false =>
        simp only [Bool.false_eq_true, if_false] at h hgo ⊢
        simp only [wp_bind, wp_modify]
        exact hgo s h (Keeps.refl _ _)
      | true =>
        simp only [if_true] at h hgo ⊢
        have hframes : frames t (a / PGSIZE) (n + 1) = {x.pa} + frames t (a / PGSIZE + 1) n := by
          rw [frames_succ, hx]
          rfl
        rw [hframes, add_assoc, singleton_add] at h
        have hacc := h.accounts
        rw [add_cons] at hacc
        simp only [wp_bind, wp_modify]
        refine wp_kfree hacc ?_
        intro s' hacc' hsame
        obtain ⟨hholds, hkeeps⟩ := h.free hacc' hsame
        exact hgo s' hholds (hkeeps.mono (le_add_left _ _))
    · intro hnone
      rw [hx] at hnone
      cases hnone

theorem Holds.wp_uvmunmap {Q : Unit → Vm → Prop} {npages : Nat} {doFree : Bool}
    (h : s.Holds img pagetable t ((if doFree then frames t (va / PGSIZE) npages else 0) + rest))
    (aligned : va % PGSIZE = 0) (hrange : va + npages * PGSIZE ≤ MAXVA)
    (bound : ∀ v, va / PGSIZE ≤ v → v < va / PGSIZE + npages → t.lookup v ≠ none)
    (post : ∀ s' t', s'.Holds img pagetable t' rest → Keeps rest s s' →
      Removes t t' (va / PGSIZE) npages → Q () s') :
    wp (uvmunmap img pagetable va npages doFree) Q E s := by
  have hmax : MAXVA = 2 ^ 38 := rfl
  unfold uvmunmap
  rw [wp_else (not_not_intro aligned), Nat.mod_eq_of_lt (by omega)]
  exact h.wp_uvmunmapLoop aligned rfl hrange bound post

/-- The entry is that of the binding, or not valid. -/
def Reports (pte : Nat) : Option (Nat × Nat) → Prop
  | none => pte &&& PTE_V = 0
  | some (pa, flags) => pte = PA2PTE pa ||| flags

theorem Reads.reports {pte v : Nat} (h : Reads pte (t.lookup v)) : Reports pte (binding t v) := by
  unfold binding
  cases hlookup : t.lookup v with
  | none =>
    rw [hlookup] at h
    exact h
  | some x =>
    rw [hlookup] at h
    exact h

/-- A page table is a partial map: `mappages` extends it, or fails and leaves a single page
alone; `uvmunmap` removes bindings; `walk` and `walkaddr` find them. All else stays, and
nothing panics. -/
theorem partial_map_of_holds (h : s.Holds img pagetable t rest) :
    (∀ va size pa perm, 0 < size → va + size ≤ MAXVA → pa % PGSIZE = 0 → pa < 2 ^ 64 →
      perm < 1024 → perm &&& (PTE_R ||| PTE_W ||| PTE_X) ≠ 0 →
      (∀ v, va / PGSIZE ≤ v → v ≤ (va + size - 1) / PGSIZE → binding t v = none) →
      ∃ r s' t', mappages pagetable va size pa perm s = .ok (r, s') ∧
        s'.Holds img pagetable t' rest ∧ Keeps rest s s' ∧
        (r = 0 ∧ Extends t t' (va / PGSIZE) (pagesTouching va size) pa (perm ||| PTE_V) ∨
          r = -1 ∧ (pagesTouching va size = 1 →
            ∀ w, w < MAXVA / PGSIZE → binding t' w = binding t w))) ∧
    (∀ va npages doFree rest', va % PGSIZE = 0 → va + npages * PGSIZE ≤ MAXVA →
      (∀ v, va / PGSIZE ≤ v → v < va / PGSIZE + npages → binding t v ≠ none) →
      rest = (if doFree then frames t (va / PGSIZE) npages else 0) + rest' →
      ∃ s' t', uvmunmap img pagetable va npages doFree s = .ok ((), s') ∧
        s'.Holds img pagetable t' rest' ∧ Keeps rest' s s' ∧
        ∀ w, w < MAXVA / PGSIZE → binding t' w =
          if va / PGSIZE ≤ w ∧ w < va / PGSIZE + npages then none else binding t w) ∧
    (∀ va, va < MAXVA → ∃ r, walk pagetable va false s = .ok (r, s) ∧
      match r with
      | none => binding t (va / PGSIZE) = none
      | some (q, i) => Reports (s.entry q i) (binding t (va / PGSIZE))) ∧
    (∀ va, walkaddr pagetable va s =
      .ok (if va < MAXVA then userPage t (va / PGSIZE) else 0, s)) := by
  refine ⟨?_, ?_, ?_, ?_⟩
  · intro va size pa perm hsize hrange aligned pa_lt perm_lt access unmapped
    have hwp : wp (mappages pagetable va size pa perm) (fun r s' => ∃ t',
        s'.Holds img pagetable t' rest ∧ Keeps rest s s' ∧
        (r = 0 ∧ Extends t t' (va / PGSIZE) (pagesTouching va size) pa (perm ||| PTE_V) ∨
          r = -1 ∧ (pagesTouching va size = 1 →
            ∀ w, w < MAXVA / PGSIZE → binding t' w = binding t w))) (fun _ => False) s := by
      refine h.wp_mappages hsize hrange aligned pa_lt perm_lt access
        (fun v hge hle => binding_eq_none.mp (unmapped v hge hle)) ?_ ?_
      · intro s' t' hholds hkeeps hextends
        exact ⟨t', hholds, hkeeps, .inl ⟨rfl, hextends⟩⟩
      · intro s' t' j hj hholds hkeeps hextends
        refine ⟨t', hholds, hkeeps, .inr ⟨rfl, fun hone w hw => ?_⟩⟩
        rw [hextends w hw, if_neg (by omega)]
    obtain ⟨r, s', hrun, t', hpost⟩ := returns_of_wp hwp fun _ => id
    exact ⟨r, s', t', hrun, hpost⟩
  · rintro va npages doFree rest' aligned hrange bound rfl
    have hwp : wp (uvmunmap img pagetable va npages doFree) (fun _ s' => ∃ t',
        s'.Holds img pagetable t' rest' ∧ Keeps rest' s s' ∧
        Removes t t' (va / PGSIZE) npages) (fun _ => False) s := by
      refine h.wp_uvmunmap aligned hrange ?_ ?_
      · intro v hge hlt hnone
        exact bound v hge hlt (binding_eq_none.mpr hnone)
      · intro s' t' hholds hkeeps hremoves
        exact ⟨t', hholds, hkeeps, hremoves⟩
    obtain ⟨⟨⟩, s', hrun, t', hholds, hkeeps, hremoves⟩ := returns_of_wp hwp fun _ => id
    refine ⟨s', t', hrun, hholds, hkeeps, fun w hw => ?_⟩
    unfold binding
    rw [hremoves w (lt_NPAGES hw)]
    split <;> rfl
  · intro va hva
    have hwp : wp (walk pagetable va false) (fun r s' => s' = s ∧
        match r with
        | none => binding t (va / PGSIZE) = none
        | some (q, i) => Reports (s.entry q i) (binding t (va / PGSIZE))) (fun _ => False) s := by
      refine h.wp_walk_find hva ?_ ?_
      · intro q _ hentry
        exact ⟨rfl, Reads.reports hentry⟩
      · intro hnone
        exact ⟨rfl, binding_eq_none.mpr hnone⟩
    obtain ⟨r, s', hrun, rfl, hpost⟩ := returns_of_wp hwp fun _ => id
    exact ⟨r, hrun, hpost⟩
  · intro va
    have hwp : wp (walkaddr pagetable va) (fun r s' => s' = s ∧
        r = if va < MAXVA then userPage t (va / PGSIZE) else 0) (fun _ => False) s :=
      h.wp_walkaddr ⟨rfl, rfl⟩
    obtain ⟨r, s', hrun, rfl, rfl⟩ := returns_of_wp hwp fun _ => id
    exact hrun

def threePages : Image where
  kend := PHYSTOP - 3 * PGSIZE
  trampoline := KERNBASE
  kend_ge := by decide
  kend_le := by decide
  trampoline_lt := by decide
  trampoline_aligned := KERNBASE_aligned

def emptyTable : Vm where
  page _ _ := 0
  freelist := [PHYSTOP - 2 * PGSIZE, PHYSTOP - PGSIZE]

theorem holds_emptyTable : emptyTable.Holds threePages (PHYSTOP - 3 * PGSIZE)
    (.table (PHYSTOP - 3 * PGSIZE) fun _ => .empty) 0 := by
  refine ⟨fun i => ⟨?_, trivial⟩, rfl, ?_⟩
  · change ByteField.getLE (fun _ => 0) _ _ &&& PTE_V = 0
    rw [ByteField.getLE_zero, Nat.zero_and]
  have hpages : threePages.pages =
      ⟨{PHYSTOP - 2 * PGSIZE, PHYSTOP - PGSIZE, PHYSTOP - 3 * PGSIZE}, by decide⟩ := by
    ext pa
    rw [Image.mem_pages]
    simp only [threePages, PHYSTOP_eq, PGSIZE, Finset.mem_mk, insert_eq_cons,
      mem_cons, mem_singleton]
    omega
  unfold Accounts
  rw [hpages, Tree.labels_table_empty]
  decide

/-- Two pages are bound, found, and one of them is removed. -/
theorem partial_map_of_holds_emptyTable : ∃ s₁ t₁ s₂ t₂,
    mappages (PHYSTOP - 3 * PGSIZE) 4095 2 KERNBASE (PTE_R ||| PTE_U) emptyTable = .ok (0, s₁) ∧
    s₁.Holds threePages (PHYSTOP - 3 * PGSIZE) t₁ 0 ∧
    Extends (.table (PHYSTOP - 3 * PGSIZE) fun _ => .empty) t₁ 0 2 KERNBASE
      (PTE_R ||| PTE_U ||| PTE_V) ∧
    walkaddr (PHYSTOP - 3 * PGSIZE) PGSIZE s₁ = .ok (KERNBASE + PGSIZE, s₁) ∧
    uvmunmap threePages (PHYSTOP - 3 * PGSIZE) PGSIZE 1 false s₁ = .ok ((), s₂) ∧
    s₂.Holds threePages (PHYSTOP - 3 * PGSIZE) t₂ 0 ∧
    walkaddr (PHYSTOP - 3 * PGSIZE) PGSIZE s₂ = .ok (0, s₂) ∧
    walkaddr (PHYSTOP - 3 * PGSIZE) 0 s₂ = .ok (KERNBASE, s₂) := by
  have heval : resultOf (mappages (PHYSTOP - 3 * PGSIZE) 4095 2 KERNBASE (PTE_R ||| PTE_U))
      emptyTable = some 0 := by decide +kernel
  obtain ⟨r, s₁, t₁, hrun, h₁, -, hcases⟩ := (partial_map_of_holds holds_emptyTable).1 4095 2
    KERNBASE (PTE_R ||| PTE_U) (by decide) (by decide) (by decide) (by decide) (by decide)
    (by decide) fun _ _ _ => rfl
  have hr : r = 0 := by
    unfold resultOf at heval
    rw [hrun] at heval
    exact Option.some.inj heval
  subst hr
  obtain ⟨-, hextends⟩ | ⟨habsurd, -⟩ := hcases
  · have hzero : binding t₁ 0 = some (KERNBASE, PTE_R ||| PTE_U ||| PTE_V) :=
      hextends 0 (by decide)
    have hone : binding t₁ 1 = some (KERNBASE + PGSIZE, PTE_R ||| PTE_U ||| PTE_V) :=
      hextends 1 (by decide)
    obtain ⟨-, hunmap, -, hwalkaddr⟩ := partial_map_of_holds h₁
    obtain ⟨s₂, t₂, hunmapped, h₂, -, hremoved⟩ := hunmap PGSIZE 1 false 0 (by decide) (by decide)
      (fun v hge hlt => by
        obtain rfl : v = 1 := Nat.le_antisymm (Nat.le_of_lt_succ hlt) hge
        rw [hone]
        exact Option.some_ne_none _) rfl
    have hwalkaddr₂ := (partial_map_of_holds h₂).2.2.2
    refine ⟨s₁, t₁, s₂, t₂, hrun, h₁, hextends, ?_, hunmapped, h₂, ?_, ?_⟩
    · rw [hwalkaddr, if_pos (by decide), Nat.div_self (by decide), userPage, hone]
      rfl
    · rw [hwalkaddr₂, if_pos (by decide), userPage, hremoved _ (by decide)]
      rfl
    · rw [hwalkaddr₂, if_pos (by decide), userPage, hremoved _ (by decide), if_neg (by decide),
        Nat.zero_div, hzero]
      rfl
  · cases habsurd

/-- No page of the allocator. -/
def UART0 : Nat := 0x10000000

/-- `uvmunmap` is told to free a page of a device. -/
def mapDevice : Bool :=
  match mappages (PHYSTOP - 3 * PGSIZE) 0 PGSIZE UART0 (PTE_R ||| PTE_W) emptyTable with
  | .ok (r, s) => r == 0 &&
    match uvmunmap threePages (PHYSTOP - 3 * PGSIZE) 0 1 true s with
    | .error panic => panic == .kfree
    | .ok _ => false
  | .error _ => false

theorem mapDevice_eq : mapDevice = true := by
  decide +kernel

/-- Such a page cannot be freed with its binding. -/
theorem uvmunmap_device_panics : ∃ s t,
    s.Holds threePages (PHYSTOP - 3 * PGSIZE) t 0 ∧
      binding t 0 = some (UART0, PTE_R ||| PTE_W ||| PTE_V) ∧
      uvmunmap threePages (PHYSTOP - 3 * PGSIZE) 0 1 true s = .error .kfree := by
  have hwp : wp (mappages (PHYSTOP - 3 * PGSIZE) 0 PGSIZE UART0 (PTE_R ||| PTE_W)) (fun r s =>
      ∃ t, s.Holds threePages (PHYSTOP - 3 * PGSIZE) t 0 ∧
        (r = 0 → binding t 0 = some (UART0, PTE_R ||| PTE_W ||| PTE_V))) (fun _ => False)
      emptyTable := by
    refine holds_emptyTable.wp_mappages (by decide) (by decide) (by decide) (by decide) (by decide)
      (by decide) (fun _ _ _ => rfl) ?_ ?_
    · intro s t hholds _ hextends
      exact ⟨t, hholds, fun _ => hextends 0 (by decide)⟩
    · intro s t j _ hholds _ _
      exact ⟨t, hholds, nofun⟩
  obtain ⟨r, s, hrun, t, hholds, hbinding⟩ := returns_of_wp hwp fun _ => id
  have heval := mapDevice_eq
  unfold mapDevice at heval
  rw [hrun] at heval
  dsimp only at heval
  rw [Bool.and_eq_true, beq_iff_eq] at heval
  obtain ⟨hzero, hpanic⟩ := heval
  refine ⟨s, t, hholds, hbinding hzero, ?_⟩
  split at hpanic
  · rename_i panic herror
    rw [herror, beq_iff_eq.mp hpanic]
  · cases hpanic

end Vm

end Xv6
