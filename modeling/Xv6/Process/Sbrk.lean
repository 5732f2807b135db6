import Xv6.Process.Memory

/-! What `sbrk` does. Taking away more than there is looks to `uvmdealloc` like growing. -/
namespace Xv6

open Lib Lib.Exec Vm

def resized (sz : Nat) (n : Int) : Nat := if 0 ≤ sz + n then (sz + n).toNat else sz

variable {img : Image} {sz : Nat} {n : BitVec 32}

theorem resized_of_nonneg {n : Int} (h : 0 ≤ sz + n) : (resized sz n : Int) = sz + n := by
  unfold resized
  rw [if_pos h, Int.toNat_of_nonneg h]

theorem resized_of_neg {n : Int} (h : sz + n < 0) : resized sz n = sz :=
  if_neg (Int.not_le.mpr h)

theorem sz_le (h : npages sz ≤ NPHYS) : sz ≤ 2 ^ 27 := by
  have hle := le_npages sz
  rw [NPHYS_eq] at h
  simp only [PGSIZE] at hle
  omega

/-- Growing cannot wrap. -/
theorem toNat_grown (hsz : sz ≤ 2 ^ 27) (hpos : 0 < n.toInt) :
    (BitVec.ofNat 32 sz + n).toNat = resized sz n.toInt ∧ sz < resized sz n.toInt ∧
      resized sz n.toInt < 2 ^ 32 := by
  have hint := BitVec.toInt_eq_toNat_cond n
  have hres : (resized sz n.toInt : Int) = sz + n.toInt := resized_of_nonneg (by omega)
  rw [BitVec.toNat_add, BitVec.toNat_ofNat]
  split at hint <;> omega

/-- Shrinking wraps below zero. -/
theorem min_shrunk (hsz : sz ≤ 2 ^ 27) (hneg : n.toInt < 0) :
    min sz (BitVec.ofNat 32 sz + n).toNat = resized sz n.toInt := by
  have hlt := n.isLt
  have hint := BitVec.toInt_eq_toNat_cond n
  rw [BitVec.toNat_add, BitVec.toNat_ofNat]
  by_cases henough : 0 ≤ sz + n.toInt
  · have hres := resized_of_nonneg henough
    split at hint <;> omega
  · rw [resized_of_neg (by omega)]
    split at hint <;> omega

namespace Kernel

variable {k k' : Kernel} {p : Fin NPROC} {t t' : PageTree 3} {rest : Multiset Nat}
  {E : Stop → Prop}

def sbrkArg (k : Kernel) (p : Fin NPROC) : BitVec 32 :=
  BitVec.ofNat 32 (k.vm.entry (k.proc p).trapframe 14)

def resize (k : Kernel) (p : Fin NPROC) (sz : Nat) : Kernel :=
  k.setProc p { k.proc p with sz := sz }

theorem wp_growproc {Q : Int → Kernel → Prop} (h : k.UserSpace img p t rest)
    (grows : ∀ v' t', 0 < n.toInt →
      v'.Space img (k.proc p).pagetable (npages (resized (k.proc p).sz n.toInt))
        (procTop img (k.proc p).trapframe) t' rest →
      Grown k.vm t (npages (k.proc p).sz) v' t' (npages (resized (k.proc p).sz n.toInt)) rest →
      Q 0 ((k.setVm v').resize p (resized (k.proc p).sz n.toInt)))
    (fails : ∀ v' t', 0 < n.toInt → v'.Space img (k.proc p).pagetable (npages (k.proc p).sz)
        (procTop img (k.proc p).trapframe) t' rest →
      Grown k.vm t (npages (k.proc p).sz) v' t' (npages (k.proc p).sz) rest →
      Q (-1) (k.setVm v'))
    (shrinks : ∀ v' t', n.toInt ≤ 0 →
      v'.Space img (k.proc p).pagetable (npages (resized (k.proc p).sz n.toInt))
        (procTop img (k.proc p).trapframe) t' rest →
      Keeps (frames t 0 (npages (resized (k.proc p).sz n.toInt)) + rest) k.vm v' →
      (∀ v, v < npages (resized (k.proc p).sz n.toInt) → t'.lookup v = t.lookup v) →
      Q 0 ((k.setVm v').resize p (resized (k.proc p).sz n.toInt))) :
    wp (growproc img p n) Q E k := by
  have hsz := sz_le h.le
  have hold : (BitVec.ofNat 32 (k.proc p).sz).toNat = (k.proc p).sz := by
    rw [BitVec.toNat_ofNat]
    omega
  unfold growproc
  simp only [wp_bind, wp_get]
  rw [wp_ite, wp_ite]
  split
  · rename_i hpos
    obtain ⟨hnew, hlt, hbound⟩ := toNat_grown hsz hpos
    rw [wp_bind, wp_onVm, hold, hnew]
    refine Space.wp_uvmalloc h (fun v hv => procTop_low hv) ?_ ?_
    · rw [Nat.max_eq_right hlt.le]
      intro v' t' hspace hgrown
      have hback : (BitVec.ofNat 32 (resized (k.proc p).sz n.toInt)).toNat =
          resized (k.proc p).sz n.toInt := by
        rw [BitVec.toNat_ofNat, Nat.mod_eq_of_lt hbound]
      have hne : BitVec.ofNat 32 (resized (k.proc p).sz n.toInt) ≠ 0 := by
        intro hzero
        rw [hzero] at hback
        simp at hback
        omega
      rw [wp_else hne]
      unfold setSz
      rw [wp_bind, wp_modify, wp_pure, hback]
      exact grows v' t' hpos hspace hgrown
    · intro v' t' hspace hgrown
      rw [wp_then (by decide)]
      exact fails v' t' hpos hspace hgrown
  · rename_i hnpos
    split
    · rename_i hneg
      have hmin := min_shrunk hsz hneg
      rw [wp_bind, wp_onVm, hold]
      refine Space.wp_uvmdealloc_size h (fun v hv => procTop_low (hv.le.trans h.le)) ?_
      rw [hmin]
      intro v' t' hspace hkeeps hlookup
      have hle : resized (k.proc p).sz n.toInt ≤ (k.proc p).sz := by
        rw [← hmin]
        exact Nat.min_le_left ..
      unfold setSz
      rw [wp_bind, wp_modify, wp_pure, BitVec.toNat_ofNat, Nat.mod_eq_of_lt (by omega)]
      exact shrinks v' t' hneg.le hspace hkeeps hlookup
    · have hzero : n.toInt = 0 := by omega
      have hsame : resized (k.proc p).sz n.toInt = (k.proc p).sz := by
        have hres : (resized (k.proc p).sz n.toInt : Int) = (k.proc p).sz + n.toInt :=
          resized_of_nonneg (by omega)
        omega
      rw [hsame] at shrinks
      unfold setSz
      rw [wp_bind, wp_modify, wp_pure, hold]
      exact shrinks k.vm t hzero.le h (Keeps.refl _ _) fun _ _ => rfl

def SamePage (k : Kernel) (t : PageTree 3) (k' : Kernel) (t' : PageTree 3) (v : Nat) : Prop :=
  ∃ x, t.lookup v = some x ∧ t'.lookup v = some x ∧ k'.vm.page x.pa = k.vm.page x.pa

/-- `sbrk(n)` did what its result `r` says. -/
structure SbrkDoes (k : Kernel) (p : Fin NPROC) (t : PageTree 3) (n : Int) (r : BitVec 64)
    (k' : Kernel) (t' : PageTree 3) : Prop where
  moves : r ≠ -1 → r = BitVec.ofNat 64 (k.proc p).sz ∧ ((k'.proc p).sz : Int) = (k.proc p).sz + n ∧
    (∀ v, v < npages (min (k.proc p).sz (k'.proc p).sz) → SamePage k t k' t' v) ∧
    ∀ v, npages (k.proc p).sz ≤ v → v < npages (k'.proc p).sz →
      ∃ x, t'.lookup v = some x ∧ x.flags = PTE_USER ∧ k'.vm.page x.pa = fun _ => 0
  fails : r = -1 → (k'.proc p).sz = (k.proc p).sz ∧
    (∀ v, v < npages (k.proc p).sz → SamePage k t k' t' v) ∧
    (∀ v, npages (k.proc p).sz ≤ v → v < NPAGES → binding t' v = binding t v) ∧
    ∀ pa, pa ∈ k.vm.freelist → pa ∉ k'.vm.freelist → pa ∈ t'.labels

theorem userSpace_resize {v' : Vm} {sz' : Nat}
    (h : v'.Space img (k.proc p).pagetable (npages sz') (procTop img (k.proc p).trapframe) t' rest) :
    ((k.setVm v').resize p sz').UserSpace img p t' rest := by
  unfold UserSpace resize
  rw [setProc_proc]
  exact h

theorem samePage {v : Nat} {own : Multiset Nat} (hbound : t.lookup v ≠ none)
    (hlookup : t'.lookup v = t.lookup v) (hframes : frames t v 1 ≤ own)
    (hkeeps : Keeps own k.vm k'.vm) : SamePage k t k' t' v := by
  obtain ⟨x, hx⟩ := Option.ne_none_iff_exists'.mp hbound
  refine ⟨x, hx, hlookup.trans hx, hkeeps x.pa (Multiset.mem_of_le hframes ?_)⟩
  rw [frames_one hx]
  exact Multiset.mem_singleton_self _

theorem frames_one_le {v m : Nat} (hv : v < m) : frames t v 1 ≤ frames t 0 m + rest := by
  obtain ⟨d, rfl⟩ : ∃ d, m = v + (1 + d) := ⟨m - v - 1, by omega⟩
  rw [frames_add, frames_add, Nat.zero_add]
  exact (Multiset.le_add_right _ _).trans
    ((Multiset.le_add_left _ _).trans (Multiset.le_add_right _ _))

/-- A page taken while the rest is as before holds a table. -/
theorem mem_labels_of_taken {m : Nat} {top : Nat → Option (Nat × Nat)} {v v' : Vm} {pagetable pa : Nat}
    (h : v.Space img pagetable m top t rest) (h' : v'.Space img pagetable m top t' rest)
    (hframes : frames t' 0 m = frames t 0 m) (hfree : pa ∈ v.freelist) (htaken : pa ∉ v'.freelist) :
    pa ∈ t'.labels := by
  have hpage : pa ∈ img.pages.val := by
    rw [← h.holds.accounts]
    exact Multiset.mem_add.mpr (.inl hfree)
  have hown := h.holds.accounts.free_not_mem hfree
  rw [← h'.holds.accounts, hframes] at hpage
  rcases Multiset.mem_add.mp hpage with hfree' | hused
  · exact absurd hfree' htaken
  rcases Multiset.mem_add.mp hused with hlabel | hother
  · exact hlabel
  · exact absurd (Multiset.mem_add.mpr (.inr hother)) hown

theorem wp_argint {Q : BitVec 32 → Kernel → Prop} (post : Q (k.sbrkArg p) k) :
    wp (argint p 0) Q E k := by
  have hself : k.setVm k.vm = k := rfl
  unfold argint argraw
  simp only [wp_bind, wp_get, wp_onVm, wp_pure, wp_ite, hself]
  exact post

section Outcomes

variable {v' : Vm}

theorem sbrkDoes_grown (h : k.UserSpace img p t rest) (hpos : 0 < n.toInt)
    (hgrown : Grown k.vm t (npages (k.proc p).sz) v' t' (npages (resized (k.proc p).sz n.toInt)) rest)
    (hne : BitVec.ofNat 64 (k.proc p).sz ≠ -1) :
    k.SbrkDoes p t n.toInt (BitVec.ofNat 64 (k.proc p).sz)
      ((k.setVm v').resize p (resized (k.proc p).sz n.toInt)) t' := by
  have hres : (resized (k.proc p).sz n.toInt : Int) = (k.proc p).sz + n.toInt :=
    resized_of_nonneg (by omega)
  refine ⟨fun _ => ⟨rfl, ?_⟩, fun heq => absurd heq hne⟩
  unfold resize
  rw [setProc_proc, setProc_vm, setVm_vm]
  dsimp only
  refine ⟨hres, ?_, hgrown.fresh⟩
  rw [Nat.min_eq_left (by omega)]
  exact fun v hv => samePage (h.bound v hv) (hgrown.lookup v hv) (frames_one_le hv) hgrown.keeps

theorem sbrkDoes_failed (h : k.UserSpace img p t rest)
    (hspace : v'.Space img (k.proc p).pagetable (npages (k.proc p).sz)
      (procTop img (k.proc p).trapframe) t' rest)
    (hgrown : Grown k.vm t (npages (k.proc p).sz) v' t' (npages (k.proc p).sz) rest) :
    k.SbrkDoes p t n.toInt (-1) (k.setVm v') t' := by
  refine ⟨fun hne => absurd rfl hne, fun _ => ⟨rfl, ?_, ?_, ?_⟩⟩
  · exact fun v hv => samePage (h.bound v hv) (hgrown.lookup v hv) (frames_one_le hv) hgrown.keeps
  · intro v hge hlt
    rw [hspace.above v hge hlt, h.above v hge hlt]
  · intro pa hfree htaken
    refine mem_labels_of_taken h hspace ?_ hfree htaken
    exact frames_congr fun w _ hlt => congrArg _ (hgrown.lookup w (by omega))

theorem sbrkDoes_shrunk_iff (h : k.UserSpace img p t rest) (hneg : n.toInt ≤ 0)
    (hkeeps : Keeps (frames t 0 (npages (resized (k.proc p).sz n.toInt)) + rest) k.vm v')
    (hlookup : ∀ v, v < npages (resized (k.proc p).sz n.toInt) → t'.lookup v = t.lookup v)
    (hne : BitVec.ofNat 64 (k.proc p).sz ≠ -1) :
    k.SbrkDoes p t n.toInt (BitVec.ofNat 64 (k.proc p).sz)
      ((k.setVm v').resize p (resized (k.proc p).sz n.toInt)) t' ↔
        0 ≤ (k.proc p).sz + n.toInt := by
  have hproc : ((k.setVm v').resize p (resized (k.proc p).sz n.toInt)).proc p =
      { k.proc p with sz := resized (k.proc p).sz n.toInt } := setProc_proc ..
  constructor
  · intro hdoes
    have hsize := (hdoes.moves hne).2.1
    rw [hproc] at hsize
    dsimp only at hsize
    by_contra hless
    rw [resized_of_neg (by omega)] at hsize
    omega
  · intro henough
    have hres := resized_of_nonneg henough
    refine ⟨fun _ => ⟨rfl, ?_⟩, fun heq => absurd heq hne⟩
    rw [hproc]
    dsimp only
    rw [Nat.min_eq_right (by omega)]
    refine ⟨hres, fun v hv => ?_, fun v hge hlt => ?_⟩
    · have hv' : v < npages (k.proc p).sz :=
        hv.trans_le (Nat.div_le_div_right (by omega))
      exact samePage (h.bound v hv') (hlookup v hv) (frames_one_le hv) hkeeps
    · have hle : npages (resized (k.proc p).sz n.toInt) ≤ npages (k.proc p).sz :=
        Nat.div_le_div_right (by omega)
      omega

end Outcomes

theorem signExtend_sz (hsz : sz ≤ 2 ^ 27) :
    (BitVec.ofNat 32 sz).signExtend 64 = BitVec.ofNat 64 sz ∧ BitVec.ofNat 64 sz ≠ -1 := by
  have hones : (-1 : BitVec 64).toNat = 2 ^ 64 - 1 := by decide
  constructor
  · apply BitVec.eq_of_toNat_eq
    rw [BitVec.signExtend_eq_setWidth_of_msb_false, BitVec.toNat_setWidth, BitVec.toNat_ofNat,
      BitVec.toNat_ofNat]
    · omega
    · rw [BitVec.msb_eq_false_iff_two_mul_lt, BitVec.toNat_ofNat]
      omega
  · intro heq
    have htoNat := congrArg BitVec.toNat heq
    rw [BitVec.toNat_ofNat, hones] at htoNat
    omega

theorem wp_sbrk (h : k.UserSpace img p t rest) :
    wp (sbrk img p n) (fun r k' => ∃ t', k'.UserSpace img p t' rest ∧
      (k.SbrkDoes p t n.toInt r k' t' ↔ 0 ≤ (k.proc p).sz + n.toInt)) (fun _ => False) k := by
  obtain ⟨haddr, hne⟩ := signExtend_sz (sz_le h.le)
  unfold sbrk
  simp only [wp_bind, wp_get]
  refine wp_growproc h ?_ ?_ ?_
  · intro v' t' hpos hspace hgrown
    rw [wp_else (by decide), haddr]
    exact ⟨t', userSpace_resize hspace,
      iff_of_true (sbrkDoes_grown h hpos hgrown hne) (by omega)⟩
  · intro v' t' hpos hspace hgrown
    rw [wp_then (by decide)]
    exact ⟨t', hspace, iff_of_true (sbrkDoes_failed h hspace hgrown) (by omega)⟩
  · intro v' t' hneg hspace hkeeps hlookup
    rw [wp_else (by decide), haddr]
    exact ⟨t', userSpace_resize hspace, sbrkDoes_shrunk_iff h hneg hkeeps hlookup hne⟩

/-- Taking away more than there is changes nothing, but returns as if it had. -/
theorem wp_sbrk_excess (h : k.UserSpace img p t rest) (hexcess : (k.proc p).sz + n.toInt < 0) :
    wp (sbrk img p n) (fun r k' => r = BitVec.ofNat 64 (k.proc p).sz ∧
      (k'.proc p).sz = (k.proc p).sz) (fun _ => False) k := by
  obtain ⟨haddr, -⟩ := signExtend_sz (sz_le h.le)
  unfold sbrk
  simp only [wp_bind, wp_get]
  refine wp_growproc h ?_ ?_ ?_
  · intro _ _ hpos
    omega
  · intro _ _ hpos
    omega
  · intro v' t' _ _ _ _
    rw [wp_else (by decide), haddr, resized_of_neg hexcess]
    refine ⟨rfl, ?_⟩
    unfold resize
    rw [setProc_proc]

/-- `sbrk(-8192)` of a one-page process returns 4096 and changes nothing. -/
theorem sbrk_below_zero : ∃ k t rest, UserSpace smallMemory k 0 t rest ∧ (k.proc 0).sz = 4096 ∧
    (k.sbrkArg 0).toInt = -8192 ∧
    ∃ r k', sysSbrk smallMemory 0 k = .ok (r, k') ∧ r = 4096 ∧ (k'.proc 0).sz = 4096 := by
  obtain ⟨vm, pagetable, trapframe, t, rest, hspace, hword, -⟩ :=
    exists_oneProcess (show 2 ^ 32 - 8192 < 2 ^ 64 by decide)
  have harg : ((oneProcess vm pagetable trapframe).sbrkArg 0).toInt = -8192 := by
    have hentry : (oneProcess vm pagetable trapframe).sbrkArg 0 =
      BitVec.ofNat 32 (vm.entry trapframe 14) := rfl
    rw [hentry, hword]
    decide
  have hsz : ((oneProcess vm pagetable trapframe).proc 0).sz = 4096 := rfl
  generalize oneProcess vm pagetable trapframe = k at hspace harg hsz
  refine ⟨k, t, _, hspace, hsz, harg, ?_⟩
  have hwp : wp (argint 0 0 >>= sbrk smallMemory 0) (fun r k' =>
      r = BitVec.ofNat 64 (k.proc 0).sz ∧ (k'.proc 0).sz = (k.proc 0).sz) (fun _ => False) k := by
    rw [wp_bind]
    refine wp_argint ?_
    exact wp_sbrk_excess hspace (by omega)
  rw [hsz] at hwp
  exact returns_of_wp hwp fun _ => id

/-- `sbrk` does what it returns unless more is taken away than there is. -/
theorem sbrk_does_iff (h : k.UserSpace img p t rest) :
    ∃ r k', sysSbrk img p k = .ok (r, k') ∧ ∃ t', k'.UserSpace img p t' rest ∧
      (k.SbrkDoes p t (k.sbrkArg p).toInt r k' t' ↔ 0 ≤ (k.proc p).sz + (k.sbrkArg p).toInt) := by
  have hwp : wp (argint p 0 >>= sbrk img p) (fun r k' => ∃ t', k'.UserSpace img p t' rest ∧
      (k.SbrkDoes p t (k.sbrkArg p).toInt r k' t' ↔
        0 ≤ (k.proc p).sz + (k.sbrkArg p).toInt)) (fun _ => False) k := by
    rw [wp_bind]
    refine wp_argint ?_
    exact wp_sbrk h
  exact returns_of_wp hwp fun _ => id

theorem sbrk_does_iff_grow : ∃ k t rest, UserSpace smallMemory k 0 t rest ∧
    ∃ r k', sysSbrk smallMemory 0 k = .ok (r, k') ∧ ∃ t', k'.UserSpace smallMemory 0 t' rest ∧
      k.SbrkDoes 0 t 100 r k' t' := by
  obtain ⟨vm, pagetable, trapframe, t, rest, hspace, hword, -⟩ :=
    exists_oneProcess (show 100 < 2 ^ 64 by decide)
  have harg : ((oneProcess vm pagetable trapframe).sbrkArg 0).toInt = 100 := by
    have hentry : (oneProcess vm pagetable trapframe).sbrkArg 0 =
      BitVec.ofNat 32 (vm.entry trapframe 14) := rfl
    rw [hentry, hword]
    decide
  generalize oneProcess vm pagetable trapframe = k at hspace harg
  obtain ⟨r, k', hrun, t', hspace', hiff⟩ := sbrk_does_iff hspace
  rw [harg] at hiff
  exact ⟨k, t, _, hspace, r, k', hrun, t', hspace', hiff.mpr (by omega)⟩

end Kernel

end Xv6
