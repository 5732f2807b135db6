import Mathlib.Tactic.Abel
import Xv6.Vm.UserMemory

/-! User address spaces, and how `vm.c` makes, grows, shrinks and frees one. -/
namespace Xv6

open Function Multiset
open Lib Lib.Exec Lib.Radix

namespace Vm

variable {img : Image} {rest rest' : Multiset Nat} {s s' s'' : Vm} {pagetable va v n m : Nat}
variable {t t' t'' : PageTree 3} {top : Nat → Option (Nat × Nat)} {E : VmPanic → Prop}

theorem frames_add (t : PageTree 3) (v m n : Nat) :
    frames t v (m + n) = frames t v m + frames t (v + m) n := by
  induction m generalizing v with
  | zero =>
    rw [Nat.zero_add]
    exact (zero_add _).symm
  | succ m ih =>
    rw [Nat.succ_add, frames_succ, frames_succ, ih, Multiset.add_assoc, Nat.add_right_comm v 1 m,
      Nat.add_assoc v m 1]

variable {x : Leaf}

theorem frames_one (h : t.lookup v = some x) : frames t v 1 = {x.pa} := by
  rw [frames_succ, h]
  rfl

theorem card_frames (bound : ∀ w, v ≤ w → w < v + n → t.lookup w ≠ none) :
    (frames t v n).card = n := by
  induction n generalizing v with
  | zero => rfl
  | succ n ih =>
    obtain ⟨x, hx⟩ := Option.ne_none_iff_exists'.mp (bound v (Nat.le_refl _) (by omega))
    rw [frames_succ, hx, card_add, ih fun w hge hlt => bound w (by omega) (by omega)]
    change 1 + n = n + 1
    omega

theorem pa_mem_frames (hx : t.lookup v = some x) (hv : v < n) : x.pa ∈ frames t 0 n := by
  obtain ⟨k, rfl⟩ : ∃ k, n = v + (1 + k) := ⟨n - v - 1, by omega⟩
  rw [frames_add, frames_add, Nat.zero_add, frames_one hx]
  simp

def npages (sz : Nat) : Nat := (sz + (PGSIZE - 1)) / PGSIZE

theorem le_npages (sz : Nat) : sz ≤ npages sz * PGSIZE := by
  unfold npages
  simp only [PGSIZE]
  omega

theorem npages_lt (sz : Nat) : npages sz * PGSIZE < sz + PGSIZE := by
  unfold npages
  simp only [PGSIZE]
  omega

theorem npages_eq {sz : Nat} (hge : sz ≤ n * PGSIZE) (hlt : n * PGSIZE < sz + PGSIZE) :
    npages sz = n := by
  unfold npages
  simp only [PGSIZE] at *
  omega

@[simp] theorem npages_mul (n : Nat) : npages (n * PGSIZE) = n :=
  npages_eq (Nat.le_refl _) (Nat.lt_add_of_pos_right (by decide))

def NPHYS : Nat := (PHYSTOP - KERNBASE) / PGSIZE

theorem NPHYS_eq : NPHYS = 32768 := rfl

theorem PGROUNDUP_eq {sz : Nat} (h : npages sz ≤ NPHYS) : PGROUNDUP sz = npages sz * PGSIZE := by
  unfold PGROUNDUP
  rw [NPHYS_eq] at h
  unfold npages at *
  simp only [PGSIZE] at *
  omega

/-- A page table with `n` pages of user memory that belong to it; above, pages are bound as
`top` says. -/
structure Space (img : Image) (s : Vm) (pagetable n : Nat) (top : Nat → Option (Nat × Nat))
    (t : PageTree 3) (rest : Multiset Nat) : Prop where
  holds : s.Holds img pagetable t (frames t 0 n + rest)
  bound : ∀ v, v < n → t.lookup v ≠ none
  above : ∀ v, n ≤ v → v < NPAGES → binding t v = top v

namespace Space

section

variable (h : s.Space img pagetable n top t rest)

include h

theorem le : n ≤ NPHYS := by
  have hcard := h.holds.accounts.card_le
  rw [card_add, card_add, card_frames fun w _ hlt => h.bound w (by omega)] at hcard
  exact (by omega : n ≤ t.labels.card + (n + rest.card)).trans hcard

theorem lt_NPAGES (hv : v < n) : v < NPAGES :=
  (hv.trans_le h.le).trans_le (by decide)

theorem above_none (hv : n ≤ v) (hlt : v < NPAGES) (hnone : top v = none) : t.lookup v = none :=
  binding_eq_none.mp ((h.above v hv hlt).trans hnone)

theorem transfer (keep : Keeps t.labels s s')
    (acc : s'.Accounts img (t.labels + (frames t 0 n + rest'))) :
    s'.Space img pagetable n top t rest' :=
  ⟨⟨h.holds.stores.keeps keep, h.holds.label, acc⟩, h.bound, h.above⟩

theorem congr {top' : Nat → Option (Nat × Nat)}
    (holds : s'.Holds img pagetable t' (frames t 0 n + rest))
    (user : ∀ v, v < n → (t'.lookup v).map Leaf.pa = (t.lookup v).map Leaf.pa)
    (above : ∀ v, n ≤ v → v < NPAGES → binding t' v = top' v) :
    s'.Space img pagetable n top' t' rest := by
  refine ⟨?_, ?_, above⟩
  · rw [frames_congr fun w _ hlt => user w (by omega)]
    exact holds
  · intro v hv hnone
    have hsame := user v hv
    rw [hnone, Option.map_none, eq_comm, Option.map_eq_none_iff] at hsame
    exact h.bound v hv hsame

end

end Space

theorem wp_uvmcreate {Q : Nat → Vm → Prop} (acc : s.Accounts img rest)
    (got : ∀ pagetable s' t', 0 < pagetable → s'.Space img pagetable 0 (fun _ => none) t' rest →
      Keeps rest s s' → Q pagetable s')
    (none : ∀ s', s'.Accounts img rest → Keeps rest s s' → Q 0 s') : wp uvmcreate Q E s := by
  unfold uvmcreate
  rw [wp_bind]
  refine wp_kalloc acc ?_ ?_
  · intro pa s' hpages hfresh hacc hsame
    have hpos := Image.pos_of_mem hpages
    rw [wp_else (by omega), wp_bind, wp_modify, wp_pure]
    refine got pa _ (.table pa fun _ => .empty) hpos ⟨⟨?_, rfl, ?_⟩, nofun, fun _ _ _ => rfl⟩ ?_
    · intro i
      refine ⟨?_, trivial⟩
      change Vm.entry _ pa i.val &&& PTE_V = 0
      rw [entry_zero, Nat.zero_and]
    · rw [Tree.labels_table_empty, singleton_add]
      have hnone : frames (.table pa fun _ => .empty) 0 0 + rest = rest := zero_add _
      rw [hnone]
      exact hacc
    · intro q hq
      have hne : q ≠ pa := by
        rintro rfl
        exact hfresh hq
      rw [fill_of_ne _ hne, hsame q hne]
  · intro s' hacc hsame
    rw [wp_then rfl]
    exact none s' hacc fun q _ => by rw [hsame]

namespace Space

theorem wp_mappages {Q : Int → Vm → Prop} {pa perm : Nat} (h : s.Space img pagetable n top t rest)
    (aligned : va % PGSIZE = 0) (lt : va < MAXVA) (hpa : Frame pa) (perm_lt : perm < 1024)
    (access : perm &&& (PTE_R ||| PTE_W ||| PTE_X) ≠ 0) (hn : n ≤ va / PGSIZE)
    (free : top (va / PGSIZE) = none)
    (done : ∀ s' t', s'.Holds img pagetable t' (frames t 0 n + rest) →
      Keeps (frames t 0 n + rest) s s' →
      (∀ w, w < NPAGES → t'.lookup w = if w = va / PGSIZE then
        some (Leaf.mapped pa perm hpa.1 hpa.2 perm_lt access) else t.lookup w) → Q 0 s')
    (failed : ∀ s' t', s'.Space img pagetable n top t' rest → Keeps (frames t 0 n + rest) s s' →
      (∀ w, t'.lookup w = t.lookup w) → Q (-1) s') :
    wp (mappages pagetable va PGSIZE pa perm) Q E s := by
  have hv : va / PGSIZE < NPAGES := Vm.lt_NPAGES (Nat.div_lt_div_of_lt_of_dvd (by decide) lt)
  refine h.holds.wp_mappages_page (Leaf.mapped pa perm hpa.1 hpa.2 perm_lt access) aligned lt rfl rfl
    (h.above_none hn hv free) done ?_
  intro s' t' hholds hkeeps hsame
  refine failed s' t' (h.congr hholds (fun v _ => by rw [hsame]) ?_) hkeeps hsame
  intro v hge hlt
  rw [← h.above v hge hlt]
  unfold binding
  rw [hsame]

/-- Binding a page above the user memory. -/
theorem wp_mappages_top {Q : Int → Vm → Prop} {pa perm : Nat}
    (h : s.Space img pagetable n top t rest) (aligned : va % PGSIZE = 0) (lt : va < MAXVA)
    (hpa : Frame pa) (perm_lt : perm < 1024)
    (access : perm &&& (PTE_R ||| PTE_W ||| PTE_X) ≠ 0) (hn : n ≤ va / PGSIZE)
    (free : top (va / PGSIZE) = none)
    (done : ∀ s' t', s'.Space img pagetable n
      (update top (va / PGSIZE) (some (pa, perm ||| PTE_V))) t' rest →
      Keeps rest s s' → Q 0 s')
    (failed : ∀ s' t', s'.Space img pagetable n top t' rest → Keeps rest s s' → Q (-1) s') :
    wp (mappages pagetable va PGSIZE pa perm) Q E s := by
  have hle : rest ≤ frames t 0 n + rest := le_add_left _ _
  refine h.wp_mappages aligned lt hpa perm_lt access hn free ?_
    fun s' t' hspace hkeeps _ => failed s' t' hspace (hkeeps.mono hle)
  intro s' t' hholds hkeeps hlookup
  refine done s' t' (h.congr hholds ?_ ?_) (hkeeps.mono hle)
  · intro v hv
    rw [hlookup v (h.lt_NPAGES hv), if_neg (by omega)]
  · intro v hge hlt
    unfold binding
    rw [hlookup v hlt]
    by_cases hva : v = va / PGSIZE
    · rw [if_pos hva, hva, update_self]
      rfl
    · rw [if_neg hva, update_of_ne hva, ← h.above v hge hlt]
      rfl

theorem wp_uvmunmap_top {Q : Unit → Vm → Prop} (h : s.Space img pagetable n top t rest)
    (aligned : va % PGSIZE = 0) (lt : va < MAXVA) (hn : n ≤ va / PGSIZE)
    (used : top (va / PGSIZE) ≠ none)
    (post : ∀ s' t', s'.Space img pagetable n (update top (va / PGSIZE) none) t' rest →
      Keeps rest s s' → Q () s') : wp (uvmunmap img pagetable va 1 false) Q E s := by
  have hmax : MAXVA % PGSIZE = 0 := by decide
  have hv : va / PGSIZE < NPAGES := Vm.lt_NPAGES (Nat.div_lt_div_of_lt_of_dvd (by decide) lt)
  have hheld : s.Holds img pagetable t
      ((if false = true then frames t (va / PGSIZE) 1 else 0) + (frames t 0 n + rest)) := by
    rw [if_neg Bool.false_ne_true, zero_add]
    exact h.holds
  refine hheld.wp_uvmunmap aligned ?_ ?_ ?_
  · simp only [PGSIZE] at *
    omega
  · intro v hge hlt hnone
    have hva : v = va / PGSIZE := by omega
    subst hva
    exact used ((h.above _ hn hv).symm.trans (binding_eq_none.mpr hnone))
  · intro s' t' hholds hkeeps hremoves
    refine post s' t' (h.congr hholds ?_ ?_) (hkeeps.mono (le_add_left _ _))
    · intro v hvn
      rw [hremoves v (h.lt_NPAGES hvn), if_neg (by omega)]
    · intro v hge hlt
      unfold binding
      rw [hremoves v hlt]
      by_cases hva : v = va / PGSIZE
      · rw [if_pos (by omega), hva, update_self]
        rfl
      · rw [if_neg (by omega), update_of_ne hva, ← h.above v hge hlt]
        rfl

theorem wp_uvmunmap {Q : Unit → Vm → Prop} (h : s.Space img pagetable m top t rest) (hle : n ≤ m)
    (low : ∀ v, v < m → top v = none)
    (post : ∀ s' t', s'.Space img pagetable n top t' rest → Keeps (frames t 0 n + rest) s s' →
      (∀ v, v < n → t'.lookup v = t.lookup v) → Q () s') :
    wp (uvmunmap img pagetable (n * PGSIZE) (m - n) true) Q E s := by
  have hpages := h.le
  have hfirst : n * PGSIZE / PGSIZE = n := Nat.mul_div_cancel _ (by decide)
  obtain ⟨k, rfl⟩ : ∃ k, m = n + k := ⟨m - n, by omega⟩
  rw [Nat.add_sub_cancel_left]
  have hheld : s.Holds img pagetable t
      ((if true = true then frames t (n * PGSIZE / PGSIZE) k else 0) + (frames t 0 n + rest)) := by
    have hholds := h.holds
    rw [frames_add, Nat.zero_add] at hholds
    rw [if_pos rfl, hfirst, ← add_assoc, add_comm (frames t n k)]
    exact hholds
  refine hheld.wp_uvmunmap (Nat.mul_mod_left _ _) ?_ ?_ ?_
  · rw [← Nat.add_mul]
    refine (Nat.mul_le_mul_right _ hpages).trans (by decide)
  · rw [hfirst]
    exact fun v _ hlt => h.bound v hlt
  · intro s' t' hholds hkeeps hremoves
    rw [hfirst] at hremoves
    have huser : ∀ v, v < n → t'.lookup v = t.lookup v := by
      intro v hv
      rw [hremoves v (h.lt_NPAGES (by omega)), if_neg (by omega)]
    refine post s' t' ⟨?_, ?_, ?_⟩ hkeeps huser
    · rw [frames_congr fun w _ hlt => congrArg _ (huser w (by omega))]
      exact hholds
    · intro v hv
      rw [huser v hv]
      exact h.bound v (by omega)
    · intro v hge hlt
      unfold binding
      rw [hremoves v hlt]
      by_cases hin : n ≤ v ∧ v < n + k
      · rw [if_pos hin, low v hin.2]
        rfl
      · rw [if_neg hin, ← h.above v (by omega) hlt]
        rfl

theorem wp_uvmunmap_all {Q : Unit → Vm → Prop} (h : s.Space img pagetable m top t rest)
    (low : ∀ v, v < m → top v = none)
    (post : ∀ s' t', s'.Space img pagetable 0 top t' rest → Keeps rest s s' → Q () s') :
    wp (uvmunmap img pagetable 0 m true) Q E s := by
  have hstart := h.wp_uvmunmap (n := 0) (Q := Q) (E := E) (Nat.zero_le _) low
    fun s' t' h' hkeeps _ => post s' t' h' (hkeeps.mono (le_add_left _ _))
  rw [Nat.zero_mul, Nat.sub_zero] at hstart
  exact hstart

theorem wp_uvmdealloc_size {Q : Nat → Vm → Prop} {oldsz newsz : Nat}
    (h : s.Space img pagetable (npages oldsz) top t rest)
    (low : ∀ v, v < npages oldsz → top v = none)
    (post : ∀ s' t', s'.Space img pagetable (npages (min oldsz newsz)) top t' rest →
      Keeps (frames t 0 (npages (min oldsz newsz)) + rest) s s' →
      (∀ v, v < npages (min oldsz newsz) → t'.lookup v = t.lookup v) → Q (min oldsz newsz) s') :
    wp (uvmdealloc img pagetable oldsz newsz) Q E s := by
  have hpages := h.le
  unfold uvmdealloc
  rw [wp_ite]
  split
  · rename_i hge
    rw [Nat.min_eq_left hge] at post
    exact post s t h (Keeps.refl _ _) fun _ _ => rfl
  · rename_i hlt
    have hle : newsz ≤ oldsz := Nat.le_of_not_le hlt
    have hnpages : npages newsz ≤ npages oldsz := Nat.div_le_div_right (by omega)
    rw [Nat.min_eq_right hle] at post
    have hold := PGROUNDUP_eq hpages
    have hnew := PGROUNDUP_eq (hnpages.trans hpages)
    simp only [hold, hnew]
    rw [wp_ite]
    split
    · have hsub : (npages oldsz * PGSIZE - npages newsz * PGSIZE) / PGSIZE =
          npages oldsz - npages newsz := by
        rw [← Nat.sub_mul]
        exact Nat.mul_div_cancel _ (by decide)
      have hint : throughInt (npages oldsz - npages newsz) = npages oldsz - npages newsz := by
        rw [NPHYS_eq] at hpages
        unfold throughInt
        rw [BitVec.signExtend_eq_setWidth_of_msb_false, BitVec.toNat_setWidth, BitVec.toNat_ofNat]
        · omega
        · rw [BitVec.msb_eq_false_iff_two_mul_lt, BitVec.toNat_ofNat]
          omega
      rw [hsub, hint, wp_bind]
      exact h.wp_uvmunmap hnpages low post
    · rename_i hsame
      have heq : npages newsz = npages oldsz :=
        Nat.le_antisymm hnpages (Nat.le_of_mul_le_mul_right (Nat.not_lt.mp hsame) (by decide))
      rw [heq] at post
      exact post s t h (Keeps.refl _ _) fun _ _ => rfl

theorem wp_uvmdealloc {Q : Nat → Vm → Prop} (h : s.Space img pagetable m top t rest) (hle : n ≤ m)
    (low : ∀ v, v < m → top v = none)
    (post : ∀ r s' t', s'.Space img pagetable n top t' rest → Keeps (frames t 0 n + rest) s s' →
      (∀ v, v < n → t'.lookup v = t.lookup v) → Q r s') :
    wp (uvmdealloc img pagetable (m * PGSIZE) (n * PGSIZE)) Q E s := by
  rw [← npages_mul m] at h low
  refine h.wp_uvmdealloc_size low ?_
  rw [Nat.min_eq_right (Nat.mul_le_mul_right _ hle), npages_mul]
  exact post _

end Space

def PTE_USER : Nat := PTE_W ||| PTE_X ||| PTE_R ||| PTE_U ||| PTE_V

/-- From `n` to `m` pages; the new ones are open to the user and zero. -/
structure Grown (s : Vm) (t : PageTree 3) (n : Nat) (s' : Vm) (t' : PageTree 3) (m : Nat)
    (rest : Multiset Nat) : Prop where
  keeps : Keeps (frames t 0 n + rest) s s'
  lookup : ∀ v, v < n → t'.lookup v = t.lookup v
  fresh : ∀ v, n ≤ v → v < m → ∃ x, t'.lookup v = some x ∧ x.flags = PTE_USER ∧
    s'.page x.pa = fun _ => 0

namespace Grown

theorem refl (s : Vm) (t : PageTree 3) (n : Nat) (rest : Multiset Nat) :
    Grown s t n s t n rest :=
  ⟨Keeps.refl _ _, fun _ _ => rfl, fun _ hge hlt => absurd hge (Nat.not_le.mpr hlt)⟩

theorem frames_le (h : Grown s t n s' t' m rest) (hle : n ≤ m) : frames t 0 n ≤ frames t' 0 m := by
  obtain ⟨k, rfl⟩ : ∃ k, m = n + k := ⟨m - n, by omega⟩
  rw [frames_add, frames_congr fun w _ hlt => congrArg (Option.map Leaf.pa) (h.lookup w (by omega))]
  exact le_add_right _ _

theorem next (h : Grown s t n s' t' m rest) (hle : n ≤ m) (keeps : Keeps (frames t' 0 m + rest) s' s'')
    (lookup : ∀ v, v < m → t''.lookup v = t'.lookup v) : Grown s t n s'' t'' m rest where
  keeps := h.keeps.trans (keeps.mono (add_le_add_left (h.frames_le hle) rest))
  lookup := fun v hv => (lookup v (by omega)).trans (h.lookup v hv)
  fresh := by
    intro v hge hlt
    obtain ⟨x, hx, hflags, hzero⟩ := h.fresh v hge hlt
    refine ⟨x, (lookup v hlt).trans hx, hflags, ?_⟩
    rw [keeps x.pa (mem_add.mpr (.inl (pa_mem_frames hx hlt))), hzero]

theorem succ (h : Grown s t n s' t' m rest) (hx : t'.lookup m = some x)
    (hflags : x.flags = PTE_USER) (hzero : s'.page x.pa = fun _ => 0) :
    Grown s t n s' t' (m + 1) rest where
  keeps := h.keeps
  lookup := h.lookup
  fresh := by
    intro v hge hlt
    obtain rfl | hv := eq_or_ne v m
    · exact ⟨x, hx, hflags, hzero⟩
    · exact h.fresh v hge (by omega)

end Grown

namespace Space

theorem withPage {pa : Nat} (h : s.Space img pagetable m top t rest)
    (hfresh : pa ∉ t.labels + (frames t 0 m + rest))
    (hacc : s'.Accounts img (pa ::ₘ (t.labels + (frames t 0 m + rest))))
    (hsame : ∀ q, q ≠ pa → s'.page q = s.page q) (bytes : Nat → UInt8) :
    (s'.fill pa bytes).Space img pagetable m top t (pa ::ₘ rest) ∧
      Keeps (frames t 0 m + rest) s (s'.fill pa bytes) := by
  have hkeep : ∀ q ∈ t.labels + (frames t 0 m + rest), (s'.fill pa bytes).page q = s.page q := by
    intro q hq
    have hne : q ≠ pa := by
      rintro rfl
      exact hfresh hq
    rw [fill_of_ne _ hne, hsame q hne]
  refine ⟨h.transfer (fun q hq => hkeep q (mem_add.mpr (.inl hq))) ?_,
    fun q hq => hkeep q (mem_add.mpr (.inr hq))⟩
  rw [add_cons, add_cons]
  exact hacc

theorem grow (h : s.Space img pagetable m top t (x.pa ::ₘ rest))
    (holds : s'.Holds img pagetable t' (frames t 0 m + x.pa ::ₘ rest))
    (lookup : ∀ w, w < NPAGES → t'.lookup w = if w = m then some x else t.lookup w)
    (hm : m < NPAGES) : s'.Space img pagetable (m + 1) top t' rest := by
  have huser : ∀ v, v < m → t'.lookup v = t.lookup v := by
    intro v hv
    rw [lookup v (h.lt_NPAGES hv), if_neg (by omega)]
  have hnew : t'.lookup m = some x := by
    rw [lookup m hm, if_pos rfl]
  refine ⟨?_, ?_, ?_⟩
  · rw [frames_add, Nat.zero_add, frames_one hnew,
      frames_congr fun w _ hlt => congrArg _ (huser w (by omega)), add_assoc,
      singleton_add]
    exact holds
  · intro v hv
    by_cases hvm : v = m
    · rw [hvm, hnew]
      exact nofun
    · rw [huser v (by omega)]
      exact h.bound v (by omega)
  · intro v hge hlt
    rw [← h.above v (by omega) hlt]
    unfold binding
    rw [lookup v hlt, if_neg (by omega)]

theorem withoutPage {pa : Nat} (h : s.Space img pagetable m top t (pa ::ₘ rest))
    (acc : s'.Accounts img (t.labels + (frames t 0 m + rest)))
    (hsame : ∀ q, q ≠ pa → s'.page q = s.page q) :
    s'.Space img pagetable m top t rest ∧ Keeps (frames t 0 m + rest) s s' := by
  have hnodup := h.holds.accounts.nodup
  rw [add_cons, add_cons, nodup_cons] at hnodup
  have hkeep : ∀ q ∈ t.labels + (frames t 0 m + rest), s'.page q = s.page q := by
    intro q hq
    apply hsame
    rintro rfl
    exact hnodup.1 hq
  exact ⟨h.transfer (fun q hq => hkeep q (mem_add.mpr (.inl hq))) acc,
    fun q hq => hkeep q (mem_add.mpr (.inr hq))⟩

section Alloc

variable {s₀ : Vm} {t₀ : PageTree 3} {newsz : Nat} {Q : Nat → Vm → Prop}

theorem wp_uvmalloc_fail (h : s.Space img pagetable m top t rest)
    (hgrown : Grown s₀ t₀ n s t m rest) (hle : n ≤ m) (low : ∀ v, v < m → top v = none)
    (fails : ∀ s' t', s'.Space img pagetable n top t' rest → Grown s₀ t₀ n s' t' n rest → Q 0 s') :
    wp (do
      let _ ← uvmdealloc img pagetable (m * PGSIZE) (n * PGSIZE)
      return 0) Q E s := by
  rw [wp_bind]
  refine h.wp_uvmdealloc hle low ?_
  intro _ s' t' hspace hkeeps huser
  have hframes : frames t 0 n = frames t₀ 0 n :=
    frames_congr fun w _ hlt => congrArg _ (hgrown.lookup w (by omega))
  rw [hframes] at hkeeps
  exact fails s' t' hspace ⟨hgrown.keeps.trans hkeeps,
    fun v hv => (huser v hv).trans (hgrown.lookup v hv),
    fun v hge hlt => absurd hge (Nat.not_le.mpr hlt)⟩

/-- By induction on the pages to come: it gets to `newsz` bytes, or back to `n` pages. -/
theorem wp_uvmallocLoop {fuel : Nat} (h : s.Space img pagetable m top t rest)
    (hgrown : Grown s₀ t₀ n s t m rest) (hle : n ≤ m) (hlt : m * PGSIZE < newsz + PGSIZE)
    (hfuel : newsz ≤ m * PGSIZE + fuel * PGSIZE) (low : ∀ v, v ≤ NPHYS → top v = none)
    (done : ∀ s' t', s'.Space img pagetable (npages newsz) top t' rest →
      Grown s₀ t₀ n s' t' (npages newsz) rest → Q newsz s')
    (fails : ∀ s' t', s'.Space img pagetable n top t' rest → Grown s₀ t₀ n s' t' n rest → Q 0 s') :
    wp (uvmallocLoop img pagetable (n * PGSIZE) newsz fuel (m * PGSIZE)) Q E s := by
  induction fuel generalizing s t m with
  | zero =>
    have hm : npages newsz = m := npages_eq (by omega) hlt
    subst hm
    exact done s t h hgrown
  | succ fuel ih =>
    have hpages := h.le
    have hlow : ∀ v, v < m → top v = none := fun v hv => low v (by omega)
    unfold uvmallocLoop
    rw [wp_ite]
    split
    · rename_i hmore
      have hmlt : m < NPAGES := hpages.trans_lt (by decide)
      rw [wp_bind]
      refine wp_kalloc h.holds.accounts ?_ ?_
      · intro pa s₁ hpa hfresh hacc hsame
        have hpos := Image.pos_of_mem hpa
        obtain ⟨h₁, hkeeps₁⟩ := h.withPage hfresh hacc hsame fun _ => 0
        have hframe : Frame pa := hacc.frame (mem_cons_self _ _)
        have hdiv : m * PGSIZE / PGSIZE = m := Nat.mul_div_cancel _ (by decide)
        rw [wp_else (by omega)]
        simp only [wp_bind, wp_modify]
        refine h₁.wp_mappages (Nat.mul_mod_left _ _) ?_ hframe (by decide) (by decide) (by omega)
          (by rw [hdiv]; exact low m hpages) ?_ ?_
        · exact (Nat.mul_le_mul_right _ hpages).trans_lt (by decide)
        · intro s₂ t₂ hholds hkeeps₂ hlookup
          rw [hdiv] at hlookup
          have hnew : t₂.lookup m = some _ := (hlookup m hmlt).trans (if_pos rfl)
          have hzero : s₂.page pa = fun _ => 0 := by
            rw [hkeeps₂ pa (mem_add.mpr (.inr (mem_cons_self _ _))), fill_self]
          have hstep : Grown s₀ t₀ n s₂ t₂ m rest := by
            refine hgrown.next hle (hkeeps₁.trans (hkeeps₂.mono ?_)) ?_
            · exact add_le_add_right (le_cons_self _ _) _
            · intro v hv
              rw [hlookup v (h.lt_NPAGES hv), if_neg (by omega)]
          have hsucc : m * PGSIZE + PGSIZE = (m + 1) * PGSIZE := (Nat.succ_mul m PGSIZE).symm
          rw [wp_else (by decide), hsucc]
          refine ih (h₁.grow hholds hlookup hmlt) (hstep.succ hnew rfl hzero) (by omega) ?_ ?_
          · omega
          · rw [Nat.succ_mul] at hfuel ⊢
            omega
        · intro s₂ t₂ h₂ hkeeps₂ hlookup
          have hacc₂ := h₂.holds.accounts
          rw [add_cons, add_cons] at hacc₂
          rw [wp_then (by decide), wp_bind]
          refine wp_kfree hacc₂ ?_
          intro s₃ hacc₃ hsame₃
          obtain ⟨h₃, hkeeps₃⟩ := h₂.withoutPage hacc₃ hsame₃
          have hframes : frames t₂ 0 m = frames t 0 m := frames_congr fun w _ _ => by rw [hlookup]
          refine h₃.wp_uvmalloc_fail (hgrown.next hle ?_ fun v _ => hlookup v) hle hlow fails
          rw [hframes] at hkeeps₃
          refine hkeeps₁.trans ((hkeeps₂.mono ?_).trans hkeeps₃)
          exact add_le_add_right (le_cons_self _ _) _
      · intro s₁ hacc hsame
        have h₁ := h.transfer (fun q _ => by rw [hsame]) hacc
        rw [wp_then rfl]
        refine h₁.wp_uvmalloc_fail (hgrown.next hle ?_ fun _ _ => rfl) hle hlow fails
        exact fun q _ => by rw [hsame]
    · rename_i hend
      have hm : npages newsz = m := npages_eq (by omega) hlt
      subst hm
      exact done s t h hgrown

/-- `uvmalloc` grows to the larger size, or fails and leaves the memory as it was. -/
theorem wp_uvmalloc {oldsz : Nat} (h : s.Space img pagetable (npages oldsz) top t rest)
    (low : ∀ v, v ≤ NPHYS → top v = none)
    (done : ∀ s' t', s'.Space img pagetable (npages (max oldsz newsz)) top t' rest →
      Grown s t (npages oldsz) s' t' (npages (max oldsz newsz)) rest → Q (max oldsz newsz) s')
    (fails : ∀ s' t', s'.Space img pagetable (npages oldsz) top t' rest →
      Grown s t (npages oldsz) s' t' (npages oldsz) rest → Q 0 s') :
    wp (uvmalloc img pagetable oldsz newsz) Q E s := by
  have hround := PGROUNDUP_eq h.le
  unfold uvmalloc
  rw [wp_ite]
  split
  · rename_i hlt
    rw [Nat.max_eq_left (Nat.le_of_lt hlt)] at done
    exact done s t h (Grown.refl _ _ _ _)
  · rename_i hge
    rw [Nat.max_eq_right (Nat.not_lt.mp hge)] at done
    rw [hround]
    refine h.wp_uvmallocLoop (Grown.refl _ _ _ _) (Nat.le_refl _) ?_ ?_ low done fails
    · have hlt := npages_lt oldsz
      omega
    · have hle := le_npages oldsz
      simp only [PGSIZE] at *
      omega

end Alloc

end Space

theorem labels_of_empty {n : Nat} {label : Nat} {child : Fin 512 → PageTree n}
    (h : ∀ i, child i = .empty) : (Tree.table label child : PageTree (n + 1)).labels = {label} := by
  have hchild : child = fun _ => .empty := funext h
  rw [hchild, Tree.labels_table_empty]

theorem link_access (pa : Nat) :
    (PA2PTE pa ||| PTE_V) &&& (PTE_R ||| PTE_W ||| PTE_X) = 0 := by
  rw [PA2PTE_or_and pa (by decide)]
  decide

theorem Stores.clear {depth label : Nat} {child : Fin 512 → PageTree depth} {d : Fin 512}
    (st : s.Stores (.table label child : PageTree (depth + 1)))
    (hnodup : (Tree.table label child : PageTree (depth + 1)).labels.Nodup)
    (keep : Keeps (Tree.around label child d) s s') :
    (s'.setEntry label d.val 0).Stores
      (.table label (update child d .empty) : PageTree (depth + 1)) := by
  have hroot : s'.page label = s.page label := keep label (Tree.mem_around_self _ _ _)
  refine Coding.Stored.update st ?_ ?_ ?_ trivial
  · intro j hj
    rw [setEntry_entry_of_ne (.inr fun heq => hj (Fin.ext heq))]
    exact entry_congr hroot
  · intro j hj b hb
    have hne : b ≠ label := by
      rintro rfl
      exact Tree.label_not_mem_child hnodup j hb
    funext i
    exact entry_congr ((setEntry_page_of_ne hne).trans (keep b (Tree.mem_around_of_ne hj hb)))
  · change Vm.entry _ label d.val &&& PTE_V = 0
    rw [setEntry_entry_self (by decide), Nat.zero_and]

/-- The children before `i` are gone, and no child has leaves. -/
structure Freeing (img : Image) (rest : Multiset Nat) (s : Vm) (label : Nat) {depth : Nat} (i : Nat)
    (child : Fin 512 → PageTree depth) (s' : Vm) : Prop where
  stores : s'.Stores (.table label child : PageTree (depth + 1))
  accounts : s'.Accounts img ((Tree.table label child : PageTree (depth + 1)).labels + rest)
  keeps : Keeps rest s s'
  gone : ∀ d : Fin 512, d.val < i → child d = .empty
  noLeaf : ∀ d v, (child d).lookup v = none

theorem Freeing.goneSucc {depth label : Nat} {child : Fin 512 → PageTree depth} {d : Fin 512}
    (h : Freeing img rest s label d.val child s') (hempty : child d = .empty) :
    ∀ e : Fin 512, e.val < d.val + 1 → child e = .empty := by
  intro e he
  by_cases heq : e = d
  · rw [heq, hempty]
  · have hne : e.val ≠ d.val := fun hval => heq (Fin.ext hval)
    exact h.gone e (by omega)

theorem Freeing.clear {depth label : Nat} {child : Fin 512 → PageTree depth} {d : Fin 512}
    (h : Freeing img rest s label d.val child s')
    (acc : s''.Accounts img (Tree.around label child d + rest))
    (keep : Keeps (Tree.around label child d + rest) s' s'') :
    Freeing img rest s label (d.val + 1) (update child d .empty)
      (s''.setEntry label d.val 0) where
  stores := h.stores.clear (nodup_add.mp h.accounts.nodup).1
    (keep.mono (le_add_right _ _))
  accounts := by
    rw [Tree.labels_update, Tree.labels_empty, zero_add]
    exact acc
  keeps := by
    refine h.keeps.trans fun q hq => ?_
    have hne : q ≠ label := by
      rintro rfl
      exact h.accounts.not_mem_of_mem (Tree.label_mem _ _) hq
    rw [setEntry_page_of_ne hne, keep q (mem_add.mpr (.inr hq))]
  gone := by
    intro e he
    by_cases heq : e = d
    · rw [heq, update_self]
    · rw [update_of_ne heq]
      have hne : e.val ≠ d.val := fun hval => heq (Fin.ext hval)
      exact h.gone e (by omega)
  noLeaf := by
    intro e v
    by_cases heq : e = d
    · rw [heq, update_self]
      cases depth <;> rfl
    · rw [update_of_ne heq]
      exact h.noLeaf e v

theorem wp_freewalk {Q : Unit → Vm → Prop} {depth label : Nat} {t : PageTree depth}
    (st : s.Stores t) (hlabel : t.label? = some label) (acc : s.Accounts img (t.labels + rest))
    (hempty : ∀ v, t.lookup v = none)
    (post : ∀ s', s'.Accounts img rest → Keeps rest s s' → Q () s') :
    wp (freewalk img depth label) Q E s := by
  induction depth generalizing s label rest Q with
  | zero => cases t <;> cases hlabel
  | succ depth ih =>
    cases t with
    | empty => cases hlabel
    | table b child =>
    cases hlabel
    unfold freewalk
    rw [wp_bind]
    generalize hcount : 512 = count
    refine wp_forUpTo (fun i _ s' => ∃ child' : Fin 512 → PageTree depth,
      Freeing img rest s label i child' s') ?_ ?_ ?_
    · refine ⟨child, st, acc, Keeps.refl _ _, fun _ hd => absurd hd (Nat.not_lt_zero _), ?_⟩
      intro d v
      obtain ⟨w, hw⟩ := Tree.exists_lookup_child label child d v
      rw [← hw]
      exact hempty w
    · rintro i hi _ s' ⟨child', h⟩
      obtain ⟨d, rfl⟩ : ∃ d : Fin 512, d.val = i := ⟨⟨i, by omega⟩, rfl⟩
      have hword : pteCoding.Codes (s'.entry label d.val) (child' d) := (h.stores d).1
      simp only [wp_bind, wp_get]
      cases hchild : child' d with
      | leaf x =>
        have hnone := h.noLeaf d 0
        rw [hchild] at hnone
        cases hnone
      | empty =>
        rw [hchild, codes_empty] at hword
        rw [hword, wp_else (by simp), wp_else (by simp)]
        exact ⟨child', h.stores, h.accounts, h.keeps, h.goneSucc hchild, h.noLeaf⟩
      | table c below =>
        have hst := (h.stores d).2
        have hnone := h.noLeaf d
        have hacc := h.accounts
        rw [Tree.labels_table _ _ d, add_assoc] at hacc
        rw [hchild] at hst hnone hacc
        rw [hchild, codes_table] at hword
        have hframe : Frame c := hacc.frame (mem_add.mpr (.inl (Tree.label_mem c below)))
        rw [hword, wp_then ⟨by rw [link_valid]; decide, link_access c⟩, hframe.PTE2PA_link]
        simp only [wp_bind, wp_modify]
        refine ih hst rfl hacc hnone ?_
        intro s'' hacc'' hkeeps''
        exact ⟨_, h.clear hacc'' hkeeps''⟩
    · rintro _ s' ⟨child', h⟩
      have acc' := h.accounts
      rw [labels_of_empty fun d => h.gone d (by omega), singleton_add] at acc'
      refine wp_kfree acc' ?_
      intro s'' acc'' hsame
      refine post s'' acc'' (h.keeps.trans fun q hq => hsame q ?_)
      rintro rfl
      exact (nodup_cons.mp acc'.nodup).1 hq

namespace Space

theorem wp_uvmfree {Q : Unit → Vm → Prop} {sz : Nat}
    (h : s.Space img pagetable (npages sz) (fun _ => none) t rest)
    (post : ∀ s', s'.Accounts img rest → Keeps rest s s' → Q () s') :
    wp (uvmfree img pagetable sz) Q E s := by
  have hfree : ∀ s₁ t₁, s₁.Space img pagetable 0 (fun _ => none) t₁ rest → Keeps rest s s₁ →
      wp (freewalk img 3 pagetable) Q E s₁ := by
    intro s₁ t₁ h₁ hkeeps
    have hacc := h₁.holds.accounts
    have hzero : frames t₁ 0 0 + rest = rest := zero_add _
    rw [hzero] at hacc
    refine wp_freewalk h₁.holds.stores h₁.holds.label hacc ?_
      fun s' hacc' hkeeps' => post s' hacc' (hkeeps.trans hkeeps')
    intro v
    have hmod : v % 512 ^ 3 % 512 ^ 3 = v % 512 ^ 3 := Nat.mod_mod _ _
    rw [← Tree.lookup_congr t₁ hmod]
    exact h₁.above_none (Nat.zero_le _) (Nat.mod_lt _ (by decide)) rfl
  unfold uvmfree
  rw [PGROUNDUP_eq h.le, Nat.mul_div_cancel _ (by decide)]
  split
  · rw [wp_bind]
    exact h.wp_uvmunmap_all (fun _ _ => rfl) hfree
  · rename_i hsz
    have hsz : sz = 0 := by omega
    subst hsz
    exact hfree s t h (Keeps.refl _ _)

end Space

end Vm

end Xv6
