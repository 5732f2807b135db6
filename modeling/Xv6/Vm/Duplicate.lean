import Xv6.Vm.AddressSpace

/-! `uvmcopy` copies user memory page by page, or not at all. -/
namespace Xv6

open Lib Lib.Exec Lib.Radix Multiset

namespace Vm

variable {img : Image} {own : Multiset Nat} {s₀ s s' s'' : Vm} {old new m n sz : Nat}
variable {t t' t'' : PageTree 3} {top : Nat → Option (Nat × Nat)} {E : VmPanic → Prop}

/-- The first `m` pages of `t` in `s₀` have copies in `t'` with the same flags. -/
def Copied (s₀ : Vm) (t : PageTree 3) (s : Vm) (t' : PageTree 3) (m : Nat) : Prop :=
  ∀ v, v < m → ∃ x x', t.lookup v = some x ∧ t'.lookup v = some x' ∧ x'.flags = x.flags ∧
    s.page x'.pa = s₀.page x.pa

namespace Copied

theorem next (h : Copied s₀ t s t' m) (keeps : Keeps (frames t' 0 m) s s')
    (lookup : ∀ v, v < m → t''.lookup v = t'.lookup v) : Copied s₀ t s' t'' m := by
  intro v hv
  obtain ⟨x, x', hx, hx', hflags, hbytes⟩ := h v hv
  refine ⟨x, x', hx, (lookup v hv).trans hx', hflags, ?_⟩
  rw [keeps x'.pa (pa_mem_frames hx' hv), hbytes]

theorem succ {x x' : Leaf} (h : Copied s₀ t s t' m) (hx : t.lookup m = some x)
    (hx' : t'.lookup m = some x') (hflags : x'.flags = x.flags)
    (hbytes : s.page x'.pa = s₀.page x.pa) : Copied s₀ t s t' (m + 1) := by
  intro v hv
  obtain rfl | hvm := eq_or_ne v m
  · exact ⟨x, x', hx, hx', hflags, hbytes⟩
  · exact h v (by omega)

end Copied

/-- A page table beside a space that is being made. -/
theorem Space.other (h : s.Space img new m top t' (t.labels + own)) (st : s₀.Stores t)
    (hlabel : t.label? = some old) (keep : Keeps (t.labels + own) s₀ s) :
    s.Holds img old t (t'.labels + (frames t' 0 m + own)) := by
  refine ⟨st.keeps (keep.mono (le_add_right _ _)), hlabel, h.holds.accounts.perm ?_⟩
  rw [add_left_comm (frames t' 0 m), add_left_comm t'.labels]

namespace Space

section Copy

variable {Q : Int → Vm → Prop}

end Copy

end Space

end Vm

end Xv6
