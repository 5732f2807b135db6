import Xv6.Lib.Radix
import Xv6.Vm.PageTable

/-! Page tables as radix trees in memory. -/
namespace Xv6

open Function Multiset
open Lib Lib.Exec Lib.Radix

theorem PA2PTE_or {flags : Nat} (pa : Nat) (hflags : flags < 1024) :
    PA2PTE pa ||| flags = pa / 4096 * 1024 + flags := by
  unfold PA2PTE
  rw [← Nat.shiftLeft_add_eq_or_of_lt (by omega), Nat.shiftRight_eq_div_pow, Nat.shiftLeft_eq]

theorem PTE2PA_or {pa flags : Nat} (haligned : pa % PGSIZE = 0) (hlt : pa < 2 ^ 64)
    (hflags : flags < 1024) : PTE2PA (PA2PTE pa ||| flags) = pa := by
  rw [PA2PTE_or pa hflags]
  unfold PTE2PA
  rw [Nat.shiftRight_eq_div_pow, Nat.shiftLeft_eq]
  simp only [PGSIZE] at haligned
  omega

/-- Flag bits do not depend on the address. -/
theorem PA2PTE_or_and {flags mask : Nat} (pa : Nat) (hmask : mask < 1024) :
    (PA2PTE pa ||| flags) &&& mask = flags &&& mask := by
  rw [Nat.and_or_distrib_right]
  have hzero : PA2PTE pa &&& mask = 0 := by
    apply Nat.eq_of_testBit_eq
    intro i
    unfold PA2PTE
    rw [Nat.testBit_and, Nat.testBit_shiftLeft, Nat.zero_testBit]
    by_cases hi : 10 ≤ i
    · have hpow : 2 ^ 10 ≤ 2 ^ i := Nat.pow_le_pow_right (by omega) hi
      rw [Nat.testBit_lt_two_pow (x := mask) (by omega), Bool.and_false]
    · simp [hi]
  rw [hzero, Nat.zero_or]

theorem PX_eq (level va : Nat) : PX level va = (digit 512 level (va / PGSIZE)).val := by
  unfold PX
  rw [digit_val, Nat.shiftRight_eq_div_pow, Nat.pow_add, Nat.pow_mul, ← Nat.div_div_eq_div_mul]
  exact Nat.and_two_pow_sub_one_eq_mod _ 9

/-- A valid entry with some permission. -/
structure Leaf where
  pa : Nat
  flags : Nat
  aligned : pa % PGSIZE = 0
  pa_lt : pa < 2 ^ 64
  flags_lt : flags < 1024
  valid : flags &&& PTE_V ≠ 0
  access : flags &&& (PTE_R ||| PTE_W ||| PTE_X) ≠ 0
  deriving DecidableEq

namespace Leaf

variable (x : Leaf)

def pte : Nat := PA2PTE x.pa ||| x.flags

theorem PTE2PA_pte : PTE2PA x.pte = x.pa := PTE2PA_or x.aligned x.pa_lt x.flags_lt

theorem pte_and {mask : Nat} (hmask : mask < 1024) : x.pte &&& mask = x.flags &&& mask :=
  PA2PTE_or_and x.pa hmask

theorem PTE_FLAGS_pte : PTE_FLAGS x.pte = x.flags := by
  unfold PTE_FLAGS
  rw [x.pte_and (by omega)]
  have hmod := Nat.and_two_pow_sub_one_eq_mod x.flags 10
  rw [Nat.mod_eq_of_lt (by simpa using x.flags_lt)] at hmod
  exact hmod

theorem pte_lt : x.pte < 2 ^ 64 := by
  have hpa := x.pa_lt
  have hflags := x.flags_lt
  unfold pte
  rw [PA2PTE_or _ hflags]
  omega

theorem pte_valid : x.pte &&& PTE_V ≠ 0 := by
  rw [x.pte_and (by decide)]
  exact x.valid

theorem flags_ne : x.flags ≠ PTE_V := fun h => x.access (by rw [h]; decide)

end Leaf

/-- Without a child the entry is not valid. -/
def pteCoding : Coding Nat Leaf Nat :=
  ⟨fun pte => pte &&& PTE_V = 0, Leaf.pte, fun q => PA2PTE q ||| PTE_V⟩

instance neZero_entries : NeZero 512 := ⟨by decide⟩

abbrev PageTree (n : Nat) := Tree 512 Nat Leaf n

theorem codes_empty {n pte : Nat} :
    pteCoding.Codes pte (Tree.empty : PageTree n) ↔ pte &&& PTE_V = 0 := Iff.rfl

theorem codes_table {n pte : Nat} (q : Nat) (child : Fin 512 → PageTree n) :
    pteCoding.Codes pte (Tree.table q child : PageTree (n + 1)) ↔ pte = PA2PTE q ||| PTE_V := Iff.rfl

def pteOf : Option Leaf → Nat
  | none => 0
  | some x => x.pte

def Reads (pte : Nat) : Option Leaf → Prop
  | none => pte &&& PTE_V = 0
  | some x => pte = x.pte

theorem reads_pteOf (a : Option Leaf) : Reads (pteOf a) a := by
  cases a <;> rfl

theorem codes_ofOption {pte : Nat} (a : Option Leaf) :
    pteCoding.Codes pte (Tree.ofOption a : PageTree 0) ↔ Reads pte a := by
  cases a <;> exact Iff.rfl

theorem Reads.and_valid {pte : Nat} {a : Option Leaf} (h : Reads pte a) :
    pte &&& PTE_V = 0 ↔ a = none := by
  cases a with
  | none => exact iff_of_true h rfl
  | some x =>
    cases h
    exact iff_of_false x.pte_valid nofun

theorem pteOf_lt (a : Option Leaf) : pteOf a < 2 ^ 64 := by
  cases a with
  | none => exact Nat.pow_pos (by omega)
  | some x => exact x.pte_lt

def Frame (pa : Nat) : Prop := pa % PGSIZE = 0 ∧ pa < 2 ^ 64

theorem Frame.PTE2PA_link {pa : Nat} (h : Frame pa) : PTE2PA (PA2PTE pa ||| PTE_V) = pa :=
  PTE2PA_or h.1 h.2 (by decide)

theorem link_valid (pa : Nat) : (PA2PTE pa ||| PTE_V) &&& PTE_V = 1 := by
  rw [PA2PTE_or_and pa (by decide)]
  decide

theorem Frame.link_lt {pa : Nat} (h : Frame pa) : PA2PTE pa ||| PTE_V < 2 ^ 64 := by
  have hlt := h.2
  rw [PA2PTE_or pa (by decide)]
  unfold PTE_V
  omega

namespace Vm

variable {s s' : Vm} {pt q i j value : Nat}

theorem entry_congr (h : s'.page pt = s.page pt) : s'.entry pt i = s.entry pt i := by
  unfold entry
  rw [h]

theorem fill_self (s : Vm) (pa : Nat) (bytes : Nat → UInt8) : (s.fill pa bytes).page pa = bytes :=
  update_self ..

theorem fill_of_ne (bytes : Nat → UInt8) (h : q ≠ pt) : (s.fill pt bytes).page q = s.page q :=
  update_of_ne h ..

theorem setEntry_page_of_ne (h : q ≠ pt) : (s.setEntry pt i value).page q = s.page q :=
  fill_of_ne _ h

theorem setEntry_entry_self (hvalue : value < 2 ^ 64) :
    (s.setEntry pt i value).entry pt i = value := by
  unfold entry setEntry
  rw [fill_self]
  exact ByteField.getLE_setLE_of_lt hvalue

theorem setEntry_entry_of_ne (h : q ≠ pt ∨ j ≠ i) :
    (s.setEntry pt i value).entry q j = s.entry q j := by
  obtain rfl | hq := eq_or_ne q pt
  · have hj : j ≠ i := h.resolve_left (fun hne => hne rfl)
    unfold entry setEntry
    rw [fill_self]
    exact ByteField.getLE_setLE_disjoint (by omega)
  · exact entry_congr (setEntry_page_of_ne hq)

def Stores (s : Vm) {n : Nat} (t : PageTree n) : Prop :=
  pteCoding.Stored (fun pt (i : Fin 512) => s.entry pt i.val) t

theorem Stores.keeps {n : Nat} {t : PageTree n} (h : s.Stores t) (keep : Keeps t.labels s s') :
    s'.Stores t :=
  Coding.Stored.congr h fun b hb => by
    funext i
    exact entry_congr (keep b hb)

theorem Stores.entry_bottom {n : Nat} {t : PageTree (n + 1)} {va : Nat} (h : s.Stores t)
    (hb : t.bottom (va / PGSIZE) = some q) :
    Reads (s.entry q (PX 0 va)) (t.lookup (va / PGSIZE)) := by
  have hread := Coding.Stored.read_bottom h hb
  rw [codes_ofOption] at hread
  rw [PX_eq]
  exact hread

theorem Stores.setLeaf {n : Nat} {t : PageTree (n + 1)} {va : Nat} (h : s.Stores t)
    (hnodup : t.labels.Nodup) (hb : t.bottom (va / PGSIZE) = some q) (a : Option Leaf) :
    (s.setEntry q (PX 0 va) (pteOf a)).Stores (t.set (va / PGSIZE) a) := by
  rw [PX_eq]
  refine Coding.Stored.set h hnodup hb ?_ ?_
  · intro c i hne
    exact setEntry_entry_of_ne (hne.imp_right fun hi heq => hi (Fin.ext heq))
  · rw [setEntry_entry_self (pteOf_lt a)]
    exact (codes_ofOption a).mpr (reads_pteOf a)

variable {img : Image} {rest : Multiset Nat} {level va : Nat} {E : VmPanic → Prop}

theorem Accounts.frame {own : Multiset Nat} (h : s.Accounts img own) (hq : q ∈ own) : Frame q :=
  ⟨(Image.mem_pages.mp (h.mem_pages hq)).2.1, (Image.lt_of_mem (h.mem_pages hq)).trans (by decide)⟩

theorem wp_walkFrom_find {Q : Option Nat → Vm → Prop} {t : PageTree (level + 1)} (st : s.Stores t)
    (label : t.label? = some pt) (frame : ∀ q ∈ t.labels, Frame q)
    (post : Q (t.bottom (va / PGSIZE)) s) : wp (walkFrom va false level pt) Q E s := by
  induction level generalizing pt with
  | zero =>
    cases t with
    | empty => cases label
    | table b child =>
      cases label
      exact post
  | succ level ih =>
    cases t with
    | empty => cases label
    | table b child =>
      cases label
      rw [Tree.bottom_table] at post
      have hword : pteCoding.Codes (s.entry pt (digit 512 (level + 1) (va / PGSIZE)).val)
          (child (digit 512 (level + 1) (va / PGSIZE))) := (st _).1
      have hst := (st (digit 512 (level + 1) (va / PGSIZE))).2
      have hmem : ∀ q ∈ (child (digit 512 (level + 1) (va / PGSIZE))).labels, Frame q :=
        fun q hq => frame q (Tree.mem_labels_child hq)
      unfold walkFrom
      simp only [wp_bind, wp_get, PX_eq]
      cases hchild : child (digit 512 (level + 1) (va / PGSIZE)) with
      | empty =>
        rw [hchild, codes_empty] at hword
        rw [hchild, Tree.bottom_empty] at post
        rw [wp_else (not_not_intro hword), wp_then (by decide)]
        exact post
      | table c below =>
        rw [hchild] at post hst hmem
        rw [hchild, codes_table] at hword
        have hlink := (hmem c (Tree.label_mem c below)).PTE2PA_link
        rw [hword, link_valid, hlink, wp_then (by decide)]
        exact ih hst rfl hmem post

/-- `t` has grown to `t'`, which maps the same from the same root. -/
structure Grows (img : Image) (rest : Multiset Nat) {n : Nat} (s : Vm) (t : PageTree n)
    (s' : Vm) (t' : PageTree n) : Prop where
  stores : s'.Stores t'
  label : t'.label? = t.label?
  accounts : s'.Accounts img (t'.labels + rest)
  keeps : Keeps rest s s'
  lookup : ∀ v, t'.lookup v = t.lookup v

namespace Grows

variable {n : Nat} {t t' t'' : PageTree n} {s'' : Vm}

theorem trans (h : Grows img rest s t s' t') (h' : Grows img rest s' t' s'' t'') :
    Grows img rest s t s'' t'' where
  stores := h'.stores
  label := h'.label.trans h.label
  accounts := h'.accounts
  keeps := h.keeps.trans h'.keeps
  lookup := fun v => (h'.lookup v).trans (h.lookup v)

theorem inTable {child : Fin 512 → PageTree n} {d : Fin 512}
    (st : s.Stores (.table pt child : PageTree (n + 1)))
    (h : Grows img (Tree.around pt child d + rest) s (child d) s' t')
    (hcode : ∀ pte, pteCoding.Codes pte (child d) → pteCoding.Codes pte t') :
    Grows img rest s (.table pt child : PageTree (n + 1)) s'
      (.table pt (update child d t')) where
  stores := by
    have hroot : s'.page pt = s.page pt :=
      h.keeps pt (mem_add.mpr (.inl (Tree.mem_around_self _ _ _)))
    refine Coding.Stored.update st ?_ ?_ ?_ h.stores
    · intro j _
      exact entry_congr hroot
    · intro j hj b hb
      funext i
      exact entry_congr (h.keeps b (mem_add.mpr (.inl (Tree.mem_around_of_ne hj hb))))
    · apply hcode
      rw [entry_congr hroot]
      exact (st d).1
  label := rfl
  accounts := by
    rw [Tree.labels_update, add_assoc]
    exact h.accounts
  keeps := h.keeps.mono (le_add_left _ _)
  lookup := by
    intro v
    rw [Tree.lookup_table, Tree.lookup_table]
    by_cases hd : digit 512 n v = d
    · rw [hd, update_self, h.lookup]
    · rw [update_of_ne hd]

end Grows

theorem entry_zero (s : Vm) (pa i : Nat) : (s.fill pa fun _ => 0).entry pa i = 0 := by
  unfold entry
  rw [fill_self, ByteField.getLE_zero]

/-- A fresh page becomes an empty table. -/
theorem Grows.link {n pa : Nat} {child : Fin 512 → PageTree (n + 1)} {d : Fin 512}
    (st : s.Stores (.table pt child : PageTree (n + 2))) (hempty : child d = .empty)
    (hfresh : pa ∉ (Tree.table pt child : PageTree (n + 2)).labels + rest)
    (hnodup : ((Tree.table pt child : PageTree (n + 2)).labels + rest).Nodup)
    (acc : s'.Accounts img (pa ::ₘ ((Tree.table pt child : PageTree (n + 2)).labels + rest)))
    (same : ∀ q, q ≠ pa → s'.page q = s.page q) :
    Grows img rest s (.table pt child : PageTree (n + 2))
      ((s'.fill pa fun _ => 0).setEntry pt d.val (PA2PTE pa ||| PTE_V))
      (.table pt (update child d (.table pa fun _ => .empty))) where
  stores := by
    have hne : ∀ b ∈ (Tree.table pt child : PageTree (n + 2)).labels, b ≠ pa := by
      rintro b hb rfl
      exact hfresh (mem_add.mpr (.inl hb))
    have hpt : pt ∈ (Tree.table pt child : PageTree (n + 2)).labels := Tree.label_mem _ _
    refine Coding.Stored.update st ?_ ?_ ?_ ?_
    · intro j hj
      rw [setEntry_entry_of_ne (.inr fun h => hj (Fin.ext h))]
      exact entry_congr ((fill_of_ne _ (hne pt hpt)).trans (same pt (hne pt hpt)))
    · intro j hj b hb
      have hmem : b ∈ (Tree.table pt child : PageTree (n + 2)).labels := Tree.mem_labels_child hb
      have hbpt : b ≠ pt := by
        rintro rfl
        exact Tree.label_not_mem_child (nodup_add.mp hnodup).1 j hb
      funext i
      exact entry_congr ((setEntry_page_of_ne hbpt).trans
        ((fill_of_ne _ (hne b hmem)).trans (same b (hne b hmem))))
    · exact setEntry_entry_self (acc.frame (mem_cons_self _ _)).link_lt
    · intro i
      refine ⟨?_, trivial⟩
      change Vm.entry _ pa i.val &&& PTE_V = 0
      rw [setEntry_entry_of_ne (.inl (hne pt hpt).symm), entry_zero, Nat.zero_and]
  label := rfl
  accounts := by
    have hlabels : (Tree.table pt (update child d
        (.table pa fun _ => .empty)) : PageTree (n + 2)).labels =
        pa ::ₘ (Tree.table pt child : PageTree (n + 2)).labels := by
      rw [Tree.labels_update, Tree.labels_table pt child d, hempty, Tree.labels_table_empty,
        Tree.labels_empty, zero_add, singleton_add]
    rw [hlabels, cons_add]
    exact acc
  keeps := by
    intro q hq
    have hpa : q ≠ pa := by
      rintro rfl
      exact hfresh (mem_add.mpr (.inr hq))
    have hpt : q ≠ pt := by
      rintro rfl
      exact disjoint_left.mp (nodup_add.mp hnodup).2.2 (Tree.label_mem _ _) hq
    rw [setEntry_page_of_ne hpt, fill_of_ne _ hpa, same q hpa]
  lookup := by
    intro v
    rw [Tree.lookup_table, Tree.lookup_table]
    by_cases hd : digit 512 (n + 1) v = d
    · rw [hd, update_self, hempty]
      rfl
    · rw [update_of_ne hd]

end Vm

end Xv6
