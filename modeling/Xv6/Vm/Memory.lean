import Mathlib.Algebra.Order.Group.Multiset
import Mathlib.Data.Finset.Card
import Mathlib.Data.Finset.Range
import Xv6.Lib.ByteField
import Xv6.Lib.Exec

/-! Physical memory and its allocator. The free pages and the owned ones are all pages, each
once. -/
namespace Xv6

open Lib Lib.Exec Multiset

def PGSIZE : Nat := 4096
def KERNBASE : Nat := 0x80000000
def PHYSTOP : Nat := KERNBASE + 128 * 1024 * 1024
theorem KERNBASE_eq : KERNBASE = 2147483648 := rfl
theorem PHYSTOP_eq : PHYSTOP = 2281701376 := rfl
theorem KERNBASE_aligned : KERNBASE % PGSIZE = 0 := rfl

def MAXVA : Nat := 2 ^ 38
def TRAMPOLINE : Nat := MAXVA - PGSIZE
def TRAPFRAME : Nat := TRAMPOLINE - PGSIZE

def PGROUNDUP (sz : Nat) : Nat := (sz + PGSIZE - 1) % 2 ^ 64 / PGSIZE * PGSIZE
def PGROUNDDOWN (a : Nat) : Nat := a / PGSIZE * PGSIZE

/-- The panics, and an access to an unmapped address. -/
inductive VmPanic where
  | kfree
  | walk
  | mappagesSize
  | mappagesRemap
  | uvmunmapNotAligned
  | uvmunmapWalk
  | uvmunmapNotMapped
  | uvmunmapNotLeaf
  | freewalkLeaf
  | uvmcopyPte
  | uvmcopyPage
  | loadseg
  | argraw
  | kerneltrap
  deriving DecidableEq, Repr

/-- The symbols `end` and `trampoline`. -/
structure Image where
  kend : Nat
  trampoline : Nat
  kend_ge : KERNBASE ≤ kend
  kend_le : kend ≤ PHYSTOP
  trampoline_lt : trampoline < kend
  trampoline_aligned : trampoline % PGSIZE = 0

namespace Image

def pages (img : Image) : Finset Nat :=
  (Finset.range PHYSTOP).filter fun pa => pa % PGSIZE = 0 ∧ img.kend ≤ pa

variable {img : Image} {pa : Nat}

theorem mem_pages : pa ∈ img.pages ↔ pa < PHYSTOP ∧ pa % PGSIZE = 0 ∧ img.kend ≤ pa := by
  unfold pages
  rw [Finset.mem_filter, Finset.mem_range]

theorem pos_of_mem (h : pa ∈ img.pages) : 0 < pa := by
  have hge := (mem_pages.mp h).2.2
  have hbase := img.kend_ge
  rw [KERNBASE_eq] at hbase
  omega

theorem lt_of_mem (h : pa ∈ img.pages) : pa < 2 ^ 56 := by
  have hlt := (mem_pages.mp h).1
  rw [PHYSTOP_eq] at hlt
  omega

theorem card_pages_le (img : Image) : img.pages.card ≤ (PHYSTOP - KERNBASE) / PGSIZE := by
  have hsub : img.pages ⊆ (Finset.range ((PHYSTOP - KERNBASE) / PGSIZE)).image
      fun k => KERNBASE + k * PGSIZE := by
    intro pa hpa
    obtain ⟨hlt, haligned, hge⟩ := mem_pages.mp hpa
    have hbase := img.kend_ge
    rw [PHYSTOP_eq] at hlt
    rw [KERNBASE_eq] at hbase
    rw [Finset.mem_image, PHYSTOP_eq, KERNBASE_eq]
    simp only [PGSIZE] at haligned ⊢
    refine ⟨(pa - 2147483648) / 4096, Finset.mem_range.mpr ?_, ?_⟩
    · omega
    · omega
  have hcard := Finset.card_le_card hsub
  have himage := Finset.card_image_le (s := Finset.range ((PHYSTOP - KERNBASE) / PGSIZE))
    (f := fun k => KERNBASE + k * PGSIZE)
  rw [Finset.card_range] at himage
  exact hcard.trans himage

end Image

structure Vm where
  page : Nat → Nat → UInt8
  freelist : List Nat
  /-- Whether coming calls of `kalloc` return 0 no matter what is free. -/
  deny : List Bool := []

namespace Vm

/-- Set the bytes of a page. -/
def fill (s : Vm) (pa : Nat) (bytes : Nat → UInt8) : Vm :=
  { s with page := Function.update s.page pa bytes }

def kalloc : Exec Vm VmPanic Nat := do
  let s ← get
  let s' := { s with deny := s.deny.tail }
  if s.deny.head? = some true then do
    set s'
    return 0
  else
    match s'.freelist with
    | [] => do
      set s'
      return 0
    | r :: next => do
      set ({ s' with freelist := next }.fill r fun _ => 5) -- fill with junk
      return r

def kfree (img : Image) (pa : Nat) : Exec Vm VmPanic Unit := do
  if pa % PGSIZE ≠ 0 ∨ pa < img.kend ∨ pa ≥ PHYSTOP then throw .kfree
  else modify fun s => { s.fill pa fun _ => 1 with freelist := pa :: s.freelist }

/-- The pages outside the free list are `own`. -/
def Accounts (img : Image) (s : Vm) (own : Multiset Nat) : Prop :=
  (s.freelist : Multiset Nat) + own = img.pages.val

def Keeps (rest : Multiset Nat) (s s' : Vm) : Prop := ∀ q ∈ rest, s'.page q = s.page q

namespace Keeps

variable {rest rest' : Multiset Nat} {s s' s'' : Vm}

theorem refl (rest : Multiset Nat) (s : Vm) : Keeps rest s s := fun _ _ => rfl

theorem trans (h : Keeps rest s s') (h' : Keeps rest s' s'') : Keeps rest s s'' :=
  fun q hq => (h' q hq).trans (h q hq)

theorem mono (h : Keeps rest s s') (hle : rest' ≤ rest) : Keeps rest' s s' :=
  fun q hq => h q (mem_of_le hle hq)

end Keeps

namespace Accounts

variable {img : Image} {s s' : Vm} {own own' rest : Multiset Nat} {pa : Nat}

theorem nodup (h : s.Accounts img own) : own.Nodup := by
  have hall := img.pages.nodup
  rw [← h] at hall
  exact (nodup_add.mp hall).2.1

theorem mem_pages (h : s.Accounts img own) (hpa : pa ∈ own) : pa ∈ img.pages := by
  rw [← Finset.mem_val, ← h]
  exact mem_add.mpr (.inr hpa)

theorem free_not_mem (h : s.Accounts img own) (hpa : pa ∈ s.freelist) : pa ∉ own := by
  have hall := img.pages.nodup
  rw [← h] at hall
  exact fun hmem => disjoint_left.mp (nodup_add.mp hall).2.2
    (mem_coe.mpr hpa) hmem

theorem perm (h : s.Accounts img own) (heq : own = own') : s.Accounts img own' := heq ▸ h

theorem not_mem_of_mem (h : s.Accounts img (own + rest)) (hpa : pa ∈ own) : pa ∉ rest :=
  fun hrest => (disjoint_left.mp (nodup_add.mp h.nodup).2.2) hpa hrest

theorem fill (h : s.Accounts img own) (pa : Nat) (bytes : Nat → UInt8) :
    (s.fill pa bytes).Accounts img own := h

theorem card_le (h : s.Accounts img own) : own.card ≤ (PHYSTOP - KERNBASE) / PGSIZE := by
  have hcard : s.freelist.length + own.card = img.pages.card := by
    rw [← Finset.card_val, ← h, card_add, coe_card]
  have hle := img.card_pages_le
  omega

end Accounts

variable {img : Image} {s : Vm} {own : Multiset Nat} {E : VmPanic → Prop}

theorem wp_kalloc {Q : Nat → Vm → Prop} (acc : s.Accounts img own)
    (got : ∀ pa s', pa ∈ img.pages → pa ∉ own → s'.Accounts img (pa ::ₘ own) →
      (∀ q, q ≠ pa → s'.page q = s.page q) → Q pa s')
    (none : ∀ s', s'.Accounts img own → s'.page = s.page → Q 0 s') : wp kalloc Q E s := by
  unfold kalloc
  simp only [wp_bind, wp_get]
  rw [wp_ite]
  split
  · exact none _ acc rfl
  · split
    · exact none _ acc rfl
    · rename_i r next hlist
      have hfree : s.freelist = r :: next := hlist
      have hmem : r ∈ s.freelist := by
        rw [hfree]
        exact List.mem_cons_self ..
      simp only [wp_bind, wp_set, wp_pure]
      apply got
      · rw [← Finset.mem_val, ← acc]
        exact mem_add.mpr (.inl (mem_coe.mpr hmem))
      · exact acc.free_not_mem hmem
      · unfold Accounts at acc ⊢
        rw [hfree, ← cons_coe, cons_add] at acc
        rw [← acc, add_cons]
        rfl
      · intro q hq
        exact Function.update_of_ne hq ..

theorem wp_kfree {Q : Unit → Vm → Prop} {pa : Nat} (acc : s.Accounts img (pa ::ₘ own))
    (post : ∀ s', s'.Accounts img own → (∀ q, q ≠ pa → s'.page q = s.page q) → Q () s') :
    wp (kfree img pa) Q E s := by
  have hpa := Image.mem_pages.mp (acc.mem_pages (mem_cons_self _ _))
  unfold kfree
  rw [wp_else (by omega), wp_modify]
  apply post
  · unfold Accounts at acc ⊢
    rw [← acc, add_cons, ← cons_coe, cons_add]
  · intro q hq
    exact Function.update_of_ne hq ..

end Vm

end Xv6
