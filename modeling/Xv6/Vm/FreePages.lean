import Xv6.Vm.AddressSpace

/-! How many free pages are enough for the functions of `vm.c` that call `kalloc`. -/
namespace Xv6.Vm

open Lib Lib.Exec

/-- The next `n` calls of `kalloc` return a page. -/
structure Ample (s : Vm) (n : Nat) : Prop where
  granted : true ∉ s.deny
  pos : 0 ∉ s.freelist
  length : n ≤ s.freelist.length

theorem Accounts.ample {img : Image} {s : Vm} {own : Multiset Nat} {n : Nat}
    (h : s.Accounts img own) (granted : true ∉ s.deny) (length : n ≤ s.freelist.length) :
    s.Ample n := by
  refine ⟨granted, fun hzero => ?_, length⟩
  have hpages : 0 ∈ img.pages := by
    rw [← Finset.mem_val, ← h]
    exact Multiset.mem_add.mpr (.inl hzero)
  exact Nat.lt_irrefl 0 (Image.pos_of_mem hpages)

namespace Ample

variable {s : Vm} {n m pagetable va pa : Nat}

theorem mono (h : s.Ample n) (hle : m ≤ n) : s.Ample m := ⟨h.granted, h.pos, hle.trans h.length⟩

theorem fill (h : s.Ample n) (pa : Nat) (bytes : Nat → UInt8) : (s.fill pa bytes).Ample n :=
  ⟨h.granted, h.pos, h.length⟩

theorem wp_kalloc (h : s.Ample (n + 1)) :
    wp kalloc (fun pa s' => pa ≠ 0 ∧ s'.Ample n) (fun _ => True) s := by
  obtain ⟨granted, pos, length⟩ := h
  unfold kalloc
  simp only [wp_bind, wp_get]
  rw [wp_else fun hdeny => granted (List.mem_of_head? hdeny)]
  cases hlist : s.freelist with
  | nil =>
    rw [hlist] at length
    cases length
  | cons r next =>
    rw [hlist] at pos length
    refine ⟨?_, fun hmem => granted (List.mem_of_mem_tail hmem),
      fun hmem => pos (List.mem_cons_of_mem _ hmem), Nat.le_of_succ_le_succ length⟩
    rintro rfl
    exact pos List.mem_cons_self

theorem wp_uvmcreate (h : s.Ample (n + 1)) :
    wp uvmcreate (fun pagetable s' => pagetable ≠ 0 ∧ s'.Ample n) (fun _ => True) s := by
  unfold uvmcreate
  rw [wp_bind]
  refine wp_post h.wp_kalloc ?_
  rintro pagetable s₁ ⟨hne, h₁⟩
  rw [wp_else hne]
  exact ⟨hne, h₁.fill ..⟩

/-- Every level below the root may lack its table. -/
theorem wp_walkFrom {level : Nat} (h : s.Ample (n + level)) :
    wp (walkFrom va true level pagetable) (fun r s' => r ≠ none ∧ s'.Ample n) (fun _ => True) s := by
  induction level generalizing s pagetable with
  | zero => exact ⟨Option.some_ne_none _, h⟩
  | succ level ih =>
    unfold walkFrom
    rw [wp_bind, wp_get, wp_ite]
    split
    · exact ih (h.mono (by omega))
    · rw [wp_else (by simp), wp_bind]
      refine wp_post (wp_kalloc h) ?_
      rintro table s₁ ⟨hne, h₁⟩
      rw [wp_else hne]
      simp only [wp_bind, wp_modify]
      exact ih ((h₁.fill ..).fill ..)

theorem wp_walk (h : s.Ample (n + 2)) : wp (walk pagetable va true)
    (fun r s' => r ≠ none ∧ s'.Ample n ∧ va < MAXVA) (fun _ => True) s := by
  unfold walk
  rw [wp_ite]
  split
  · trivial
  · rename_i hlt
    rw [wp_bind]
    refine wp_post h.wp_walkFrom ?_
    rintro r s₁ ⟨hr, h₁⟩
    obtain ⟨pt, rfl⟩ := Option.ne_none_iff_exists'.mp hr
    exact ⟨Option.some_ne_none _, h₁, Nat.not_le.mp hlt⟩

theorem wp_mappages {perm : Nat} (h : s.Ample (n + 2)) (aligned : va % PGSIZE = 0) :
    wp (mappages pagetable va PGSIZE pa perm) (fun r s' => r = 0 ∧ s'.Ample n)
      (fun _ => True) s := by
  have hdown : PGROUNDDOWN va = va := Nat.div_mul_cancel (Nat.dvd_of_mod_eq_zero aligned)
  unfold mappages
  rw [wp_else (by decide), hdown]
  generalize MAXVA / PGSIZE = fuel
  unfold mappagesLoop
  rw [wp_bind]
  refine wp_post h.wp_walk ?_
  rintro r s₁ ⟨hr, h₁, hlt⟩
  obtain ⟨⟨pt, i⟩, rfl⟩ := Option.ne_none_iff_exists'.mp hr
  have hlast : va = PGROUNDDOWN ((va + PGSIZE - 1) % 2 ^ 64) := by
    unfold PGROUNDDOWN
    simp only [PGSIZE, MAXVA] at *
    omega
  simp only [wp_bind, wp_get]
  rw [wp_ite]
  split
  · trivial
  · simp only [wp_bind, wp_modify]
    exact ⟨rfl, h₁.fill ..⟩

end Ample

variable {s : Vm} {va n : Nat}

end Xv6.Vm
