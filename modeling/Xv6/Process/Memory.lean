import Mathlib.Algebra.BigOperators.Fin
import Xv6.Vm.CopySpec
import Xv6.Vm.FreePages
import Xv6.Sysfile.Failure

/-! User page tables, `growproc` and `sys_sbrk`. -/
namespace Xv6

open Function
open Lib Lib.Exec

theorem Image.frame_trampoline (img : Image) : Frame img.trampoline := by
  have hlt := img.trampoline_lt
  have hle := img.kend_le
  rw [PHYSTOP_eq] at hle
  exact ⟨img.trampoline_aligned, by omega⟩

namespace Vm

variable (img : Image)

def procPagetable (trapframe : Nat) : Exec Vm VmPanic Nat := do
  let pagetable ← uvmcreate
  if pagetable = 0 then return 0
  else if (← mappages pagetable TRAMPOLINE PGSIZE img.trampoline (PTE_R ||| PTE_X)) < 0 then do
    uvmfree img pagetable 0
    return 0
  else if (← mappages pagetable TRAPFRAME PGSIZE trapframe (PTE_R ||| PTE_W)) < 0 then do
    uvmunmap img pagetable TRAMPOLINE 1 false
    uvmfree img pagetable 0
    return 0
  else return pagetable

def procFreepagetable (pagetable sz : Nat) : Exec Vm VmPanic Unit := do
  uvmunmap img pagetable TRAMPOLINE 1 false
  uvmunmap img pagetable TRAPFRAME 1 false
  uvmfree img pagetable sz

/-- Above the user memory: the trampoline and the trapframe. -/
def procTop (trapframe : Nat) : Nat → Option (Nat × Nat) :=
  update (update (fun _ => none) (TRAMPOLINE / PGSIZE)
    (some (img.trampoline, PTE_R ||| PTE_X ||| PTE_V)))
    (TRAPFRAME / PGSIZE) (some (trapframe, PTE_R ||| PTE_W ||| PTE_V))

variable {img} {rest : Multiset Nat} {s s' : Vm} {pagetable trapframe sz : Nat} {t : PageTree 3}
  {E : VmPanic → Prop}

/-- Physical memory is too small for user memory to reach the trapframe. -/
theorem procTop_low {v : Nat} (hv : v ≤ NPHYS) : procTop img trapframe v = none := by
  have hlow : NPHYS < TRAPFRAME / PGSIZE := by decide
  have hlow' : NPHYS < TRAMPOLINE / PGSIZE := by decide
  unfold procTop
  rw [update_of_ne (by omega), update_of_ne (by omega)]

theorem wp_procPagetable {Q : Nat → Vm → Prop} (acc : s.Accounts img rest) (hframe : Frame trapframe)
    (got : ∀ pagetable s' t', 0 < pagetable →
      s'.Space img pagetable 0 (procTop img trapframe) t' rest → Keeps rest s s' → Q pagetable s')
    (none : ∀ s', s'.Accounts img rest → Keeps rest s s' → Q 0 s') :
    wp (procPagetable img trapframe) Q E s := by
  unfold procPagetable
  rw [wp_bind]
  refine wp_uvmcreate acc ?_ ?_
  · intro pagetable s₁ t₁ hpos h₁ keep₁
    rw [wp_else (by omega), wp_bind]
    refine h₁.wp_mappages_top (by decide) (by decide) img.frame_trampoline (by decide) (by decide)
      (Nat.zero_le _) rfl ?_ ?_
    · intro s₂ t₂ h₂ keep₂
      rw [wp_else (by decide), wp_bind]
      refine h₂.wp_mappages_top (by decide) (by decide) hframe (by decide) (by decide)
        (Nat.zero_le _) (update_of_ne (by decide) ..) ?_ ?_
      · intro s₃ t₃ h₃ keep₃
        rw [wp_else (by decide), wp_pure]
        exact got pagetable s₃ t₃ hpos h₃ (keep₁.trans (keep₂.trans keep₃))
      · intro s₃ t₃ h₃ keep₃
        rw [wp_then (by decide), wp_bind]
        refine h₃.wp_uvmunmap_top (by decide) (by decide) (Nat.zero_le _) ?_ ?_
        · rw [update_self]
          exact Option.some_ne_none _
        · intro s₄ t₄ h₄ keep₄
          rw [update_idem, update_eq_self_iff.mpr rfl] at h₄
          rw [wp_bind]
          refine Space.wp_uvmfree h₄ fun s₅ acc₅ keep₅ => ?_
          exact none s₅ acc₅ (keep₁.trans (keep₂.trans (keep₃.trans (keep₄.trans keep₅))))
    · intro s₂ t₂ h₂ keep₂
      rw [wp_then (by decide), wp_bind]
      refine Space.wp_uvmfree h₂ fun s₃ acc₃ keep₃ => ?_
      exact none s₃ acc₃ (keep₁.trans (keep₂.trans keep₃))
  · intro s₁ acc₁ keep₁
    rw [wp_then rfl]
    exact none s₁ acc₁ keep₁

theorem Space.fill {n pa : Nat} {top : Nat → Option (Nat × Nat)}
    (h : s.Space img pagetable n top t rest) (hpa : pa ∈ rest) (bytes : Nat → UInt8) :
    (s.fill pa bytes).Space img pagetable n top t rest := by
  refine h.transfer (fun q hq => fill_of_ne _ ?_) (h.holds.accounts.fill pa bytes)
  rintro rfl
  exact h.holds.accounts.not_mem_of_mem hq (Multiset.mem_add.mpr (.inr hpa))

theorem Ample.wp_procPagetable {n : Nat} (h : s.Ample (n + 5)) : wp (procPagetable img trapframe)
    (fun pagetable s' => pagetable ≠ 0 ∧ s'.Ample n) (fun _ => True) s := by
  unfold procPagetable
  rw [wp_bind]
  refine wp_post (wp_uvmcreate (n := n + 4) h) ?_
  rintro pagetable s₁ ⟨hne, h₁⟩
  rw [wp_else hne, wp_bind]
  refine wp_post (wp_mappages (n := n + 2) h₁ (by decide)) ?_
  rintro _ s₂ ⟨rfl, h₂⟩
  rw [wp_else (by decide), wp_bind]
  refine wp_post (h₂.wp_mappages (by decide)) ?_
  rintro _ s₃ ⟨rfl, h₃⟩
  rw [wp_else (by decide)]
  exact ⟨hne, h₃⟩

theorem procTop_closed {v pa flags : Nat} (h : procTop img trapframe v = some (pa, flags)) :
    flags &&& PTE_U = 0 := by
  unfold procTop at h
  by_cases hframe : v = TRAPFRAME / PGSIZE
  · rw [hframe, update_self] at h
    cases h
    decide
  · rw [update_of_ne hframe] at h
    by_cases htramp : v = TRAMPOLINE / PGSIZE
    · rw [htramp, update_self] at h
      cases h
      decide
    · rw [update_of_ne htramp] at h
      cases h

/-- A kernel that leaves the last 32 pages of memory to the allocator. -/
def smallMemory : Image where
  kend := PHYSTOP - 32 * PGSIZE
  trampoline := KERNBASE
  kend_ge := by decide
  kend_le := by decide
  trampoline_lt := by decide
  trampoline_aligned := KERNBASE_aligned

def allFree : Vm where
  page _ _ := 0
  freelist := (List.range 32).map fun i => PHYSTOP - 32 * PGSIZE + i * PGSIZE

theorem allFree_accounts : allFree.Accounts smallMemory 0 := by
  have hpages : smallMemory.pages =
      ⟨(List.range 32).map fun i => PHYSTOP - 32 * PGSIZE + i * PGSIZE, by decide⟩ := by
    ext pa
    rw [Image.mem_pages, Finset.mem_mk, Multiset.mem_coe, List.mem_map]
    simp only [smallMemory, PHYSTOP_eq, PGSIZE, List.mem_range]
    constructor
    · intro h
      exact ⟨(pa - 2281570304) / 4096, by omega, by omega⟩
    · rintro ⟨i, hi, rfl⟩
      omega
  unfold Accounts
  rw [hpages]
  rfl

def makeProcess (sz : Nat) : Exec Vm VmPanic (Nat × Nat) := do
  let trapframe ← kalloc
  if trapframe = 0 then return (0, 0)
  else do
    let pagetable ← procPagetable smallMemory trapframe
    if pagetable = 0 then return (0, 0)
    else do
      let sz ← uvmalloc smallMemory pagetable 0 sz
      return (if sz = 0 then 0 else pagetable, trapframe)

/-- A process of `n` pages with zeros in them, beside the pages in `own`. -/
structure Made (s : Vm) (pagetable trapframe n : Nat) (t : PageTree 3) (own : Multiset Nat) :
    Prop where
  space : s.Space smallMemory pagetable n (procTop smallMemory trapframe) t (trapframe ::ₘ own)
  zero : ∀ v, v < n → ∃ x, t.lookup v = some x ∧ x.flags = PTE_USER ∧ s.page x.pa = fun _ => 0

theorem wp_makeProcess (acc : s.Accounts smallMemory rest) : wp (makeProcess sz) (fun r s' =>
    r.1 ≠ 0 → Keeps rest s s' ∧ ∃ t, s'.Made r.1 r.2 (npages sz) t rest) (fun _ => False) s := by
  unfold makeProcess
  rw [wp_bind]
  refine wp_kalloc acc ?_ ?_
  · intro trapframe s₁ hpages hfresh acc₁ hsame
    have hpos := Image.pos_of_mem hpages
    have keep₁ : Keeps rest s s₁ := by
      intro q hq
      apply hsame
      rintro rfl
      exact hfresh hq
    rw [wp_else (by omega), wp_bind]
    refine wp_procPagetable acc₁ (acc₁.frame (Multiset.mem_cons_self _ _)) ?_ ?_
    · intro pagetable s₂ t₂ hpos₂ h₂ keep₂
      have h₂ : s₂.Space smallMemory pagetable (npages 0) (procTop smallMemory trapframe) t₂
        (trapframe ::ₘ rest) := h₂
      rw [wp_else (by omega), wp_bind]
      refine h₂.wp_uvmalloc (fun v hv => procTop_low hv) ?_ ?_
      · intro s₃ t₃ h₃ grown
        rw [Nat.zero_max] at h₃ grown ⊢
        have keep₃ := grown.keeps.mono (Multiset.le_add_left _ _)
        by_cases hsz : sz = 0
        · rw [if_pos hsz]
          exact fun hne => absurd rfl hne
        · rw [if_neg hsz]
          exact fun _ => ⟨keep₁.trans ((keep₂.trans keep₃).mono (Multiset.le_cons_self _ _)),
            t₃, h₃, fun v hv => grown.fresh v (Nat.zero_le v) hv⟩
      · exact fun _ _ _ _ hne => absurd rfl hne
    · intro s₂ _ _
      rw [wp_then rfl]
      exact fun hne => absurd rfl hne
  · intro s₁ _ _
    rw [wp_then rfl]
    exact fun hne => absurd rfl hne

theorem makeProcess_made {s : Vm} (acc : s.Accounts smallMemory rest)
    (h : (resultOf (makeProcess sz) s).map (fun r => decide (r.1 ≠ 0)) = some true) :
    Keeps rest s (after (makeProcess sz) s) ∧ ∃ pagetable trapframe t,
      (after (makeProcess sz) s).Made pagetable trapframe (npages sz) t rest := by
  obtain ⟨⟨pagetable, trapframe⟩, hresult, hne⟩ := Option.map_eq_some_iff.mp h
  obtain ⟨s', hrun⟩ := exists_of_resultOf hresult
  have hafter : after (makeProcess sz) s = s' := by
    unfold after
    rw [hrun]
  obtain ⟨hkeep, t, hmade⟩ := post_of_wp (wp_makeProcess acc) hrun (of_decide_eq_true hne)
  rw [hafter]
  exact ⟨hkeep, pagetable, trapframe, t, hmade⟩

theorem makeProcess_twice :
    let s := after (makeProcess (2 * PGSIZE)) allFree
    (resultOf (makeProcess (2 * PGSIZE)) allFree).map (fun r => decide (r.1 ≠ 0)) = some true ∧
    (resultOf (makeProcess PGSIZE) s).map (fun r => decide (r.1 ≠ 0)) = some true ∧
    (after (makeProcess PGSIZE) s).deny = [] ∧
    9 ≤ (after (makeProcess PGSIZE) s).freelist.length := by
  decide +kernel

/-- Processes of one and two pages, with free pages left to copy the first. -/
theorem exists_twoProcesses : ∃ (s : Vm) (pagetable pagetable' trapframe trapframe' : Nat)
    (t t' : PageTree 3), s.Ample 9 ∧
      s.Made pagetable trapframe 1 t (t'.labels + (frames t' 0 2 + {trapframe'})) ∧
      s.Made pagetable' trapframe' 2 t' (t.labels + (frames t 0 1 + {trapframe})) := by
  obtain ⟨hfirst, hsecond, hdeny, hlength⟩ := makeProcess_twice
  obtain ⟨-, pagetable', trapframe', t', made'⟩ := makeProcess_made allFree_accounts hfirst
  rw [show npages (2 * PGSIZE) = 2 by decide] at made'
  generalize after (makeProcess (2 * PGSIZE)) allFree = s₁ at hsecond hdeny hlength made'
  obtain ⟨keep, pagetable, trapframe, t, made⟩ :=
    makeProcess_made made'.space.holds.accounts hsecond
  rw [show npages PGSIZE = 1 by decide] at made
  generalize after (makeProcess PGSIZE) s₁ = s at hdeny hlength keep made
  refine ⟨s, pagetable, pagetable', trapframe, trapframe', t, t',
    made.space.holds.accounts.ample (by simp [hdeny]) hlength, made, ?_, fun v hv => ?_⟩
  · refine made'.space.transfer (keep.mono (Multiset.le_add_right _ _))
      (made.space.holds.accounts.perm ?_)
    simp only [← Multiset.singleton_add]
    abel
  · obtain ⟨x, hx, hflags, hzero⟩ := made'.zero v hv
    refine ⟨x, hx, hflags, (keep x.pa ?_).trans hzero⟩
    exact Multiset.mem_add.mpr (.inr (Multiset.mem_add.mpr (.inl (pa_mem_frames hx hv))))

theorem Made.opened {n a : Nat} {own : Multiset Nat} (h : s.Made pagetable trapframe n t own)
    (ha : a < n * PGSIZE) : Open t (a / PGSIZE) ∧ userByte s t a = 0 := by
  have hv : a / PGSIZE < n := Nat.div_lt_of_lt_mul (by rwa [Nat.mul_comm])
  obtain ⟨x, hx, hflags, hzero⟩ := h.zero _ hv
  obtain ⟨hopen, hbytes⟩ := h.space.open_of_fresh hv hx hflags hzero
  exact ⟨hopen, hbytes a rfl⟩

end Vm

namespace Spaces

open Vm

/-- The processes as address spaces. -/
theorem exists_processes : ∃ m : Spaces smallMemory (Fin 2), ¬ Open (m.tree 0) 1 ∧
    (∀ a, a < PGSIZE → Open (m.tree 0) (a / PGSIZE)) ∧
    ∀ a, a < 2 * PGSIZE → Open (m.tree 1) (a / PGSIZE) ∧ userByte m.vm (m.tree 1) a = 0 := by
  obtain ⟨s, pagetable, pagetable', trapframe, trapframe', t, t', -, made, made'⟩ :=
    exists_twoProcesses
  obtain ⟨more, hmore⟩ := Multiset.le_iff_exists_add.mp
    (made.space.userFrames_le fun _ _ _ => procTop_closed)
  obtain ⟨more', hmore'⟩ := Multiset.le_iff_exists_add.mp
    (made'.space.userFrames_le fun _ _ _ => procTop_closed)
  refine ⟨{
    vm := s
    pagetable := fun i => if i = 0 then pagetable else pagetable'
    tree := fun i => if i = 0 then t else t'
    other := more + more' + {trapframe} + {trapframe'}
    stores := Fin.forall_fin_two.mpr ⟨made.space.holds.stores, made'.space.holds.stores⟩
    label := Fin.forall_fin_two.mpr ⟨made.space.holds.label, made'.space.holds.label⟩
    accounts := ?_ }, ?_, fun a ha => ?_, fun a ha => made'.opened ha⟩
  · refine made.space.holds.accounts.perm ?_
    rw [Fin.sum_univ_two, if_pos rfl, if_neg (by decide), hmore, hmore',
      ← Multiset.singleton_add]
    abel
  · rintro ⟨-, pa, flags, hbinding, -⟩
    have hnone := made.space.above 1 (Nat.le_refl 1) (lt_NPAGES (by decide))
    rw [procTop_low (by decide)] at hnone
    cases hnone.symm.trans hbinding
  · exact (made.opened (ha.trans_eq (Nat.one_mul _).symm)).1

/-- Process 0 stores three bytes and reads them back; process 1 still reads zeros. -/
theorem copies_isolated_processes : ∃ m m' : Spaces smallMemory (Fin 2),
    Access.performAll (m.pagetable 0) [.copyout 0 [1, 2, 3], .copyin 0 3] m.vm =
      .ok ([([], 0), ([1, 2, 3], 0)], m'.vm) ∧ fetch m'.vm (m.tree 1) 0 3 = [0, 0, 0] := by
  obtain ⟨m, -, hfirst, hsecond⟩ := exists_processes
  have hreach : ∀ i, reach (m.tree i) 0 3 = 3 := by
    have hrange := openRange_of_lt hfirst
    have hrange' := openRange_of_lt fun a ha => (hsecond a ha).1
    exact Fin.forall_fin_two.mpr
      ⟨(extent_reach _ 0 3).eq_iff.mpr (hrange.mono (Nat.le_refl 0) (by decide)),
        (extent_reach _ 0 3).eq_iff.mpr (hrange'.mono (Nat.le_refl 0) (by decide))⟩
  have hfetch : ∀ s i, fetch s (m.tree i) 0 3 = ByteField.getBytes (userByte s (m.tree i)) 0 3 := by
    intro s i
    rw [fetch_eq, hreach]
  obtain ⟨rest, hholds, -⟩ := m.exists_holds 0
  have hnodup := (Multiset.nodup_add.mp (Multiset.nodup_add.mp hholds.accounts.nodup).2.1).1
  have hread : fetch (Vm.deliver (m.tree 0) m.vm 0 [1, 2, 3]) (m.tree 0) 0 3 = [1, 2, 3] := by
    rw [hfetch]
    exact ByteField.getBytes_eq_of_getD rfl fun j hj =>
      deliver_inside hnodup (hj.trans_eq (hreach 0).symm)
  have hzero : fetch m.vm (m.tree 1) 0 3 = [0, 0, 0] := by
    have hzeros : ∀ j < 3, (0 : UInt8) = [0, 0, 0].getD j 0 := by decide
    rw [hfetch]
    refine ByteField.getBytes_eq_of_getD rfl fun j hj => ?_
    rw [(hsecond (0 + j) (by simp only [PGSIZE]; omega)).2]
    exact hzeros j hj
  -- the results of the two calls, one after the other
  have hall : Access.performAll (m.pagetable 0) [.copyout 0 [1, 2, 3], .copyin 0 3] m.vm =
      .ok ([([], 0), ([1, 2, 3], 0)], (m.access 0 (.copyout 0 [1, 2, 3])).vm) := by
    have hfirst := m.perform_eq 0 (.copyout 0 [1, 2, 3])
    have hsecond := (m.access 0 (.copyout 0 [1, 2, 3])).perform_eq 0 (.copyin 0 3)
    have hout : Access.outcome m.vm (m.tree 0) (.copyout 0 [1, 2, 3]) = ([], 0) :=
      congrArg (Prod.mk []) (if_pos (hreach 0))
    have hin : Access.outcome (m.access 0 (.copyout 0 [1, 2, 3])).vm (m.tree 0) (.copyin 0 3) =
        ([1, 2, 3], 0) := congrArg₂ Prod.mk hread (if_pos (hreach 0))
    rw [hout] at hfirst
    rw [tree_access, hin, pagetable_access] at hsecond
    apply run_of_wp
    unfold Access.performAll
    rw [wp_bind]
    refine wp_of_run hfirst ?_
    unfold Access.performAll
    rw [wp_bind, wp_bind]
    exact wp_of_run hsecond ⟨rfl, rfl⟩
  obtain ⟨rs, m', hrun, -, -, -, hothers, -⟩ := m.copies_isolated 0
    [.copyout 0 [1, 2, 3], .copyin 0 3]
  have hsame := hall.symm.trans hrun
  rw [Except.ok.injEq, Prod.mk.injEq] at hsame
  rw [← hsame.1] at hrun
  exact ⟨m, m', hrun, (hothers 1 (by decide) 0 3).trans hzero⟩

theorem copies_exact_onePage : ∃ s pagetable,
    (∃ bytes, copyin pagetable 0 PGSIZE s = .ok ((bytes, true), s)) ∧
      ∃ s', copyout pagetable 0 [1, 2, 3] s = .ok (0, s') := by
  obtain ⟨m, -, -, hm⟩ := exists_processes
  obtain ⟨rest, hholds, -⟩ := m.exists_holds 1
  have hopen := openRange_of_lt fun a ha => (hm a ha).1
  obtain ⟨hin, hout, -⟩ := copies_exact hholds (show 0 < 2 ^ 64 by decide)
  obtain ⟨n, -, hn, hcopyin⟩ := hin PGSIZE
  obtain ⟨l, s', -, hl, hcopyout, -⟩ := hout [1, 2, 3]
  rw [decide_eq_true (hn.mpr (hopen.mono (Nat.le_refl 0) (by decide)))] at hcopyin
  rw [if_pos (hl.mpr (hopen.mono (Nat.le_refl 0) (by decide)))] at hcopyout
  exact ⟨m.vm, m.pagetable 1, ⟨_, hcopyin⟩, s', hcopyout⟩

/-- A string of four bytes that crosses into the second page. -/
theorem copyinstr_exact_crossing : ∃ s pagetable,
    copyinstr pagetable 4094 16 s = .ok (([97, 98, 99, 100, 0], true), s) := by
  obtain ⟨m, -, -, hm⟩ := exists_processes
  obtain ⟨rest, h₀, -⟩ := m.exists_holds 1
  have hopen := openRange_of_lt fun a ha => (hm a ha).1
  generalize m.tree 1 = t at h₀ hopen
  have hrange : OpenRange t 4094 5 := hopen.mono (Nat.zero_le _) (by decide)
  have hnodup := (Multiset.nodup_add.mp (Multiset.nodup_add.mp h₀.accounts.nodup).2.1).1
  have hreach : reach t 4094 5 = 5 := (extent_reach t 4094 5).eq_iff.mpr hrange
  have hbytes : ∀ j, j < 5 → userByte (Vm.deliver t m.vm 4094 [97, 98, 99, 100, 0]) t (4094 + j) =
      [97, 98, 99, 100, 0].getD j 0 := fun j hj => deliver_inside hnodup (hj.trans_eq hreach.symm)
  have h := h₀.deliver 4094 [97, 98, 99, 100, 0]
  generalize Vm.deliver t m.vm 4094 [97, 98, 99, 100, 0] = s at h hbytes
  have hstring : StringAt s t 4094 4 := by
    refine ⟨fun j hj => hrange _ ⟨4094 + j, by omega, by omega, rfl⟩, fun j hj => ?_,
      hbytes 4 (by decide)⟩
    have htext : ∀ j < 4, ([97, 98, 99, 100, 0] : List UInt8).getD j 0 ≠ 0 := by decide
    rw [hbytes j (by omega)]
    exact htext j hj
  have hrun := (copyinstr_exact h (by decide) 16).1 4 (by decide) hstring
  have htext : ByteField.getBytes (userByte s t) 4094 4 = [97, 98, 99, 100] := by
    have hinit : ∀ j < 4, [97, 98, 99, 100, 0].getD j 0 =
        ([97, 98, 99, 100] : List UInt8).getD j 0 := by decide
    exact ByteField.getBytes_eq_of_getD rfl fun j hj => (hbytes j (by omega)).trans (hinit j hj)
  rw [htext] at hrun
  exact ⟨s, _, hrun⟩

end Spaces

namespace Kernel

variable (img : Image)

def argint (p : Fin NPROC) (n : Nat) : Exec Kernel Stop (BitVec 32) := do
  let word ← onVm (Vm.argraw ((← get).proc p).trapframe n)
  return BitVec.ofNat 32 word

def setSz (p : Fin NPROC) (sz : BitVec 32) : Exec Kernel Stop Int := do
  modify fun k => k.setProc p { k.proc p with sz := sz.toNat }
  return 0

@[irreducible] def growproc (p : Fin NPROC) (n : BitVec 32) : Exec Kernel Stop Int := do
  let proc := (← get).proc p
  let sz := BitVec.ofNat 32 proc.sz
  if n.toInt > 0 then do
    let grown ← onVm (Vm.uvmalloc img proc.pagetable sz.toNat (sz + n).toNat)
    let sz := BitVec.ofNat 32 grown
    if sz = 0 then return -1
    else setSz p sz
  else if n.toInt < 0 then do
    let shrunk ← onVm (Vm.uvmdealloc img proc.pagetable sz.toNat (sz + n).toNat)
    setSz p (BitVec.ofNat 32 shrunk)
  else setSz p sz

/-- `addr` is an `int`. -/
def sbrk (p : Fin NPROC) (n : BitVec 32) : Exec Kernel Stop (BitVec 64) := do
  let addr := BitVec.ofNat 32 ((← get).proc p).sz
  if (← growproc img p n) < 0 then return -1
  else return addr.signExtend 64

def sysSbrk (p : Fin NPROC) : Exec Kernel Stop (BitVec 64) := do
  let n ← argint p 0
  sbrk img p n

@[simp] theorem wp_onVm {α : Type} {k : Kernel} {E : Stop → Prop} (m : Exec Vm VmPanic α)
    (Q : α → Kernel → Prop) :
    wp (onVm m) Q E k ↔ wp m (fun a v => Q a (k.setVm v)) (fun e => E (.vm e)) k.vm :=
  wp_embed ..

@[simp] theorem setVm_vm (k : Kernel) (v : Vm) : (k.setVm v).vm = v := rfl

@[simp] theorem setProc_vm (k : Kernel) (p : Fin NPROC) (proc : Process) :
    (k.setProc p proc).vm = k.vm := rfl

@[simp] theorem setProc_proc (k : Kernel) (p : Fin NPROC) (proc : Process) :
    (k.setProc p proc).proc p = proc := update_self ..

/-- Page table and user memory of `p`, with trampoline and trapframe above; other pages in use
are `rest`. -/
def UserSpace (k : Kernel) (p : Fin NPROC) (t : PageTree 3) (rest : Multiset Nat) : Prop :=
  k.vm.Space img (k.proc p).pagetable (Vm.npages (k.proc p).sz)
    (Vm.procTop img (k.proc p).trapframe) t rest

/-- The process has a pipe open twice. -/
def oneProcess (vm : Vm) (pagetable trapframe : Nat) : Kernel :=
  { fullKernel with
    vm := vm
    nextpid := 2
    ftable := fun f => if f = 0 then ⟨.pipe, 2, true, false, 0, 0, 0, 0⟩
      else ⟨.none, 0, false, false, 0, 0, 0, 0⟩
    proc := fun p =>
      if p = 0 then
        { ofile := fun fd => if fd < 2 then some 0 else none, cwd := some 0, state := .running,
          pid := 1, sz := PGSIZE, pagetable := pagetable, trapframe := trapframe }
      else { ofile := fun _ => none, cwd := none } }

theorem oneProcess_userSpace {vm : Vm} {pagetable trapframe : Nat} {t : PageTree 3}
    {rest : Multiset Nat}
    (h : vm.Space img pagetable 1 (Vm.procTop img trapframe) t rest) :
    (oneProcess vm pagetable trapframe).UserSpace img 0 t rest := by
  have hpages : Vm.npages PGSIZE = 1 := by decide
  unfold UserSpace oneProcess
  dsimp only
  rw [if_pos rfl]
  dsimp only
  rw [hpages]
  exact h

theorem exists_oneProcess {word : Nat} (hword : word < 2 ^ 64) : ∃ vm pagetable trapframe t rest,
    (oneProcess vm pagetable trapframe).UserSpace Vm.smallMemory 0 t (trapframe ::ₘ rest) ∧
      vm.entry trapframe 14 = word ∧ vm.Ample 9 := by
  obtain ⟨s, pagetable, _, trapframe, trapframe', t, t', hample, hmade, -⟩ :=
    Vm.exists_twoProcesses
  exact ⟨s.setEntry trapframe 14 word, pagetable, trapframe, t, _,
    oneProcess_userSpace _ (hmade.space.fill (Multiset.mem_cons_self _ _) _),
    Vm.setEntry_entry_self hword, hample.fill ..⟩

end Kernel

end Xv6
