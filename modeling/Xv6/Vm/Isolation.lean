import Mathlib.Algebra.BigOperators.Group.Finset.Basic
import Xv6.Vm.UserMemory

/-! Memory isolation: what the copies for one process can read and change. -/
namespace Xv6

open Lib Lib.Exec Lib.Radix Multiset

namespace Vm

variable {s s' : Vm} {t : PageTree 3} {va n q : Nat}

def UserMapped (t : PageTree 3) (q : Nat) : Prop :=
  ∃ v flags, v < MAXVA / PGSIZE ∧ binding t v = some (q, flags) ∧ flags &&& PTE_U ≠ 0

/-- Pages mapped for the user, once for each mapping. -/
def userFrames (t : PageTree 3) : Multiset Nat :=
  (Multiset.range (MAXVA / PGSIZE)).filterMap fun v =>
    (binding t v).bind fun b => if b.2 &&& PTE_U = 0 then none else some b.1

theorem mem_userFrames : q ∈ userFrames t ↔ UserMapped t q := by
  unfold userFrames UserMapped
  rw [mem_filterMap]
  constructor
  · rintro ⟨v, hv, hbind⟩
    obtain ⟨⟨pa, flags⟩, hbinding, hif⟩ := Option.bind_eq_some_iff.mp hbind
    dsimp only at hif
    split at hif
    · cases hif
    · cases hif
      exact ⟨v, flags, mem_range.mp hv, hbinding, by assumption⟩
  · rintro ⟨v, flags, hv, hbinding, huser⟩
    refine ⟨v, mem_range.mpr hv, ?_⟩
    rw [hbinding]
    exact if_neg huser

theorem userMapped_pageAt (h : pageAt t va ≠ 0) : UserMapped t (pageAt t va) := by
  unfold pageAt at h ⊢
  split at h
  · rename_i hlt
    rw [if_pos hlt]
    unfold userPage at h ⊢
    cases hbinding : binding t (va / PGSIZE) with
    | none =>
      rw [hbinding] at h
      exact absurd rfl h
    | some b =>
      rw [hbinding] at h
      dsimp only at h ⊢
      split at h
      · exact absurd rfl h
      · rename_i huser
        rw [if_neg huser]
        refine ⟨va / PGSIZE, b.2, ?_, hbinding, huser⟩
        simp only [MAXVA, PGSIZE] at hlt ⊢
        omega
  · exact absurd rfl h

/-- The same where mapped for the user. -/
def Agree (t : PageTree 3) (s s' : Vm) : Prop := ∀ q, UserMapped t q → s'.page q = s.page q

theorem Agree.fetch (h : Agree t s s') (va n : Nat) : fetch s' t va n = fetch s t va n := by
  induction n generalizing va with
  | zero => rfl
  | succ n ih =>
    unfold Vm.fetch
    split
    · rfl
    · rename_i hpage
      rw [h _ (userMapped_pageAt hpage), ih]

theorem Agree.deliver (h : Agree t s s') (va : Nat) (source : List UInt8) :
    Agree t (deliver t s va source) (deliver t s' va source) := by
  induction source generalizing va s s' with
  | nil => exact h
  | cons b source ih =>
    unfold Vm.deliver
    split
    · exact h
    · rename_i hpage
      apply ih
      intro q hq
      by_cases heq : q = pageAt t va
      · rw [heq, fill_self, fill_self, h _ (userMapped_pageAt hpage)]
      · rw [fill_of_ne _ heq, fill_of_ne _ heq, h q hq]

theorem deliver_page_of_not_mapped (hq : ¬ UserMapped t q) (va : Nat) (source : List UInt8) :
    (deliver t s va source).page q = s.page q := by
  induction source generalizing va s with
  | nil => rfl
  | cons b source ih =>
    unfold deliver
    split
    · rfl
    · rename_i hpage
      have hne : q ≠ pageAt t va := by
        rintro rfl
        exact hq (userMapped_pageAt hpage)
      rw [ih, fill_of_ne _ hne]

theorem freelist_deliver (t : PageTree 3) (s : Vm) (va : Nat) (source : List UInt8) :
    (deliver t s va source).freelist = s.freelist := by
  induction source generalizing va s with
  | nil => rfl
  | cons b source ih =>
    unfold deliver
    split
    · rfl
    · rw [ih]
      rfl

end Vm

open Vm

/-- Any number of address spaces; every page has one owner: the free list, tables, user memory,
or the rest of the kernel. -/
structure Spaces (img : Image) (ι : Type) [Fintype ι] where
  vm : Vm
  pagetable : ι → Nat
  tree : ι → PageTree 3
  /-- Kernel stacks, trapframes, pipes, and pages not mapped for the user. -/
  other : Multiset Nat
  stores : ∀ i, vm.Stores (tree i)
  label : ∀ i, (tree i).label? = some (pagetable i)
  accounts : vm.Accounts img (∑ i, ((tree i).labels + userFrames (tree i)) + other)

namespace Spaces

variable {img : Image} {ι : Type} [Fintype ι] (m : Spaces img ι) (p : ι)

theorem exists_holds : ∃ rest, m.vm.Holds img (m.pagetable p) (m.tree p)
    (userFrames (m.tree p) + rest) ∧
    ∀ j, j ≠ p → ∀ q, q ∈ (m.tree j).labels + userFrames (m.tree j) → q ∈ rest := by
  classical
  refine ⟨∑ j ∈ Finset.univ.erase p, ((m.tree j).labels + userFrames (m.tree j)) + m.other,
    ⟨m.stores p, m.label p, ?_⟩, ?_⟩
  · refine m.accounts.perm ?_
    rw [← Finset.add_sum_erase Finset.univ _ (Finset.mem_univ p), add_assoc,
      add_assoc]
  · intro j hj q hq
    rw [mem_add, mem_sum]
    exact .inl ⟨j, Finset.mem_erase.mpr ⟨hj, Finset.mem_univ j⟩, hq⟩

/-- Such a page is no table, and no other user's. -/
theorem apart {q : Nat} (hq : UserMapped (m.tree p) q) :
    (∀ j, q ∉ (m.tree j).labels) ∧ ∀ j, j ≠ p → ¬ UserMapped (m.tree j) q := by
  obtain ⟨rest, hholds, hrest⟩ := m.exists_holds p
  have hnodup := hholds.accounts.nodup
  have hmem : q ∈ userFrames (m.tree p) := mem_userFrames.mpr hq
  obtain ⟨-, hright, hdisjoint⟩ := nodup_add.mp hnodup
  obtain ⟨-, -, hothers⟩ := nodup_add.mp hright
  have hnot : q ∉ rest := fun hin => disjoint_left.mp hothers hmem hin
  refine ⟨fun j hj => ?_, fun j hj hmapped => ?_⟩
  · by_cases heq : j = p
    · rw [heq] at hj
      exact disjoint_left.mp hdisjoint hj (mem_add.mpr (.inl hmem))
    · exact hnot (hrest j heq q (mem_add.mpr (.inl hj)))
  · exact hnot (hrest j hj q (mem_add.mpr (.inr (mem_userFrames.mpr hmapped))))

def deliver (va : Nat) (source : List UInt8) : Spaces img ι :=
  { m with
    vm := Vm.deliver (m.tree p) m.vm va source
    stores := fun j => (m.stores j).keeps fun _ hq =>
      deliver_page_of_not_mapped (fun hmapped => (m.apart p hmapped).1 j hq) va source
    accounts := by
      have hacc := m.accounts
      unfold Accounts at hacc ⊢
      rw [freelist_deliver]
      exact hacc }

end Spaces

/-- A copy between kernel and process. -/
inductive Access where
  | copyout (dstva : BitVec 64) (src : List UInt8)
  | copyin (srcva : BitVec 64) (len : Nat)
  | copyinstr (srcva : BitVec 64) (max : Nat)
  | fetchaddr (sz addr : BitVec 64)
  | fetchstr (addr : BitVec 64) (max : Nat)

namespace Access

def perform (pagetable : Nat) : Access → Exec Vm VmPanic (List UInt8 × Int)
  | copyout dstva src => do
    let r ← Vm.copyout pagetable dstva.toNat src
    return ([], r)
  | copyin srcva len => do
    let (bytes, ok) ← Vm.copyin pagetable srcva.toNat len
    return (bytes, if ok then 0 else -1)
  | copyinstr srcva max => do
    let (bytes, ok) ← Vm.copyinstr pagetable srcva.toNat max
    return (bytes, if ok then 0 else -1)
  | fetchaddr sz addr => Vm.fetchaddr pagetable sz.toNat addr.toNat
  | fetchstr addr max => Vm.fetchstr pagetable addr.toNat max

def performAll (pagetable : Nat) : List Access → Exec Vm VmPanic (List (List UInt8 × Int))
  | [] => return []
  | a :: rest => do
    let r ← perform pagetable a
    let rs ← performAll pagetable rest
    return r :: rs

/-- In terms of the memory shown. -/
def outcome (s : Vm) (t : PageTree 3) : Access → List UInt8 × Int
  | copyout dstva src =>
    ([], if reach t dstva.toNat src.length = src.length then 0 else -1)
  | copyin srcva len =>
    (fetch s t srcva.toNat len, if reach t srcva.toNat len = len then 0 else -1)
  | copyinstr srcva max =>
    ((stringOf (fetch s t srcva.toNat max)).1,
      if (stringOf (fetch s t srcva.toNat max)).2 then 0 else -1)
  | fetchaddr sz addr =>
    if addr.toNat ≥ sz.toNat ∨ (addr.toNat + 8) % 2 ^ 64 > sz.toNat then ([], -1)
    else (fetch s t addr.toNat 8, if reach t addr.toNat 8 = 8 then 0 else -1)
  | fetchstr addr max =>
    ((stringOf (fetch s t addr.toNat max)).1,
      if (stringOf (fetch s t addr.toNat max)).2
      then (((stringOf (fetch s t addr.toNat max)).1.length - 1 : Nat) : Int) else -1)

theorem outcome_congr {s s' : Vm} {t : PageTree 3} (h : Agree t s s') (a : Access) :
    a.outcome s' t = a.outcome s t := by
  cases a <;> simp only [outcome, h.fetch]

end Access

namespace Spaces

variable {img : Image} {ι : Type} [Fintype ι] (m : Spaces img ι) (p : ι)

def access : Access → Spaces img ι
  | .copyout dstva src => m.deliver p dstva.toNat src
  | _ => m

theorem perform_eq (a : Access) : a.perform (m.pagetable p) m.vm =
    .ok (a.outcome m.vm (m.tree p), (m.access p a).vm) := by
  obtain ⟨rest, hholds, -⟩ := m.exists_holds p
  apply run_of_wp
  cases a with
  | copyout dstva src =>
    have hapart : ∀ va, pageAt (m.tree p) va ≠ 0 → pageAt (m.tree p) va ∉ (m.tree p).labels :=
      fun va hva => (m.apart p (userMapped_pageAt hva)).1 p
    exact (wp_bind ..).mpr (wp_of_run (hholds.copyout_eq hapart dstva.isLt) ⟨rfl, rfl⟩)
  | copyin srcva len =>
    refine (wp_bind ..).mpr (wp_of_run (hholds.copyin_eq srcva.isLt len) ⟨?_, rfl⟩)
    simp only [decide_eq_true_eq]
    rfl
  | copyinstr srcva max =>
    exact (wp_bind ..).mpr (wp_of_run (hholds.copyinstr_eq srcva.isLt max) ⟨rfl, rfl⟩)
  | fetchaddr sz addr =>
    unfold Access.perform Vm.fetchaddr Access.outcome
    rw [wp_ite]
    by_cases hout : addr.toNat ≥ sz.toNat ∨ (addr.toNat + 8) % 2 ^ 64 > sz.toNat
    · rw [if_pos hout]
      exact ⟨(if_pos hout).symm, rfl⟩
    · rw [if_neg hout]
      refine (wp_bind ..).mpr (wp_of_run (hholds.copyin_eq addr.isLt 8) ⟨?_, rfl⟩)
      simp only [decide_eq_true_eq, if_neg hout]
  | fetchstr addr max =>
    exact (wp_bind ..).mpr (wp_of_run (hholds.copyinstr_eq addr.isLt max) ⟨rfl, rfl⟩)

theorem pagetable_access (a : Access) : (m.access p a).pagetable = m.pagetable := by
  cases a <;> rfl

theorem tree_access (a : Access) : (m.access p a).tree = m.tree := by
  cases a <;> rfl

theorem access_page {q : Nat} (hq : ¬ UserMapped (m.tree p) q) (a : Access) :
    (m.access p a).vm.page q = m.vm.page q := by
  cases a with
  | copyout dstva src => exact deliver_page_of_not_mapped hq _ _
  | _ => rfl

variable {m p} in
theorem agree_access {n : Spaces img ι} (htree : n.tree p = m.tree p)
    (h : Agree (m.tree p) m.vm n.vm) (a : Access) :
    Agree (m.tree p) (m.access p a).vm (n.access p a).vm := by
  cases a with
  | copyout dstva src =>
    change Agree (m.tree p) (Vm.deliver (m.tree p) _ _ _) (Vm.deliver (n.tree p) _ _ _)
    rw [htree]
    exact h.deliver _ _
  | _ => exact h

def accesses (calls : List Access) : Spaces img ι := calls.foldl (fun m a => m.access p a) m

theorem accesses_keep (calls : List Access) : (m.accesses p calls).pagetable = m.pagetable ∧
    (m.accesses p calls).tree = m.tree ∧
    ∀ q, ¬ UserMapped (m.tree p) q → (m.accesses p calls).vm.page q = m.vm.page q := by
  induction calls generalizing m with
  | nil => exact ⟨rfl, rfl, fun _ _ => rfl⟩
  | cons a calls ih =>
    obtain ⟨hpagetable, htree, hpage⟩ := ih (m.access p a)
    refine ⟨hpagetable.trans (m.pagetable_access p a), htree.trans (m.tree_access p a), ?_⟩
    intro q hq
    exact (hpage q (by rwa [tree_access])).trans (m.access_page p hq a)

/-- Results depend on tables and user pages. -/
theorem performAll_eq (calls : List Access) : ∃ rs, ∀ n : Spaces img ι,
    n.pagetable p = m.pagetable p → n.tree p = m.tree p → Agree (m.tree p) m.vm n.vm →
    Access.performAll (m.pagetable p) calls n.vm = .ok (rs, (n.accesses p calls).vm) := by
  induction calls generalizing m with
  | nil => exact ⟨[], fun _ _ _ _ => rfl⟩
  | cons a calls ih =>
    obtain ⟨rs, hrs⟩ := ih (m.access p a)
    refine ⟨a.outcome m.vm (m.tree p) :: rs, ?_⟩
    intro n hpagetable htree hagree
    have hfirst := n.perform_eq p a
    have hrest := hrs (n.access p a) (by rw [pagetable_access, pagetable_access, hpagetable])
      (by rw [tree_access, tree_access, htree])
      (by rw [tree_access]; exact agree_access htree hagree a)
    rw [hpagetable, htree, Access.outcome_congr hagree] at hfirst
    rw [pagetable_access] at hrest
    apply run_of_wp
    unfold Access.performAll
    rw [wp_bind]
    refine wp_of_run hfirst ?_
    rw [wp_bind]
    exact wp_of_run hrest ⟨rfl, rfl⟩

/-- Copies for a process do not panic, and touch and see its own user memory only. -/
theorem copies_isolated (calls : List Access) : ∃ (rs : List (List UInt8 × Int))
    (m' : Spaces img ι),
    Access.performAll (m.pagetable p) calls m.vm = .ok (rs, m'.vm) ∧
    m'.pagetable = m.pagetable ∧ m'.tree = m.tree ∧
    (∀ q, ¬ UserMapped (m.tree p) q → m'.vm.page q = m.vm.page q) ∧
    (∀ j, j ≠ p → ∀ va len, fetch m'.vm (m.tree j) va len = fetch m.vm (m.tree j) va len) ∧
    (∀ j, ∀ q ∈ (m.tree j).labels, m'.vm.page q = m.vm.page q) ∧
    ∀ n : Spaces img ι, n.pagetable p = m.pagetable p → n.tree p = m.tree p →
      (∀ q, UserMapped (m.tree p) q → n.vm.page q = m.vm.page q) →
      ∃ n' : Spaces img ι, Access.performAll (m.pagetable p) calls n.vm = .ok (rs, n'.vm) := by
  obtain ⟨rs, hrs⟩ := m.performAll_eq p calls
  obtain ⟨hpagetable, htree, hpage⟩ := m.accesses_keep p calls
  refine ⟨rs, m.accesses p calls, hrs m rfl rfl fun _ _ => rfl, hpagetable, htree, hpage, ?_, ?_, ?_⟩
  · intro j hj va len
    have hagree : Agree (m.tree j) m.vm (m.accesses p calls).vm :=
      fun q hq => hpage q fun hmapped => (m.apart p hmapped).2 j hj hq
    exact hagree.fetch va len
  · intro j q hq
    exact hpage q fun hmapped => (m.apart p hmapped).1 j hq
  · intro n hsame hsame' hagree
    exact ⟨n.accesses p calls, hrs n hsame hsame' hagree⟩

end Spaces

end Xv6
