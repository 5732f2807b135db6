import Xv6.Proc.PipeFifo
import Xv6.Process.Memory

/-! `piperead` into memory of which any part may be unmapped. -/
namespace Xv6

open Lib Lib.Exec Vm

namespace Pipe

variable {pi : Pipe} {addr i todo : Nat} {dst : Nat → Bool}

def pipereadCopy (pagetable addr : Nat) : Nat → Nat → Pipe → Exec Vm VmPanic (Pipe × Nat)
  | 0, i, pi => return (pi, i)
  | todo + 1, i, pi => do
    if pi.nread = pi.nwrite then return (pi, i)
    else do
      let ch := pi.data (slot pi.nread)
      let pi := { pi with nread := pi.nread + 1 }
      if (← copyout pagetable ((addr + i) % 2 ^ 64) [ch]) = -1 then return (pi, i)
      else pipereadCopy pagetable addr todo (i + 1) pi

def piperead (pagetable addr : Nat) (n : Int) (killed : Bool) (pi : Pipe) :
    Exec Vm VmPanic (Option (Pipe × Int)) := do
  if pi.nread = pi.nwrite ∧ pi.writeopen then
    if killed then return some (pi, -1)
    else return none
  else do
    let (pi, i) ← pipereadCopy pagetable addr n.toNat 0 pi
    return some (pi, (i : Int))

/-- The byte that cannot be copied out is gone. -/
theorem pipereadLoop_cases (dst : Nat → Bool) (todo i : Nat) (pi : Pipe) :
    ∃ k, k ≤ todo ∧ (∀ j, j < k → dst (i + j) = true) ∧
      (pipereadLoop dst todo i pi).2.1 = pi.contents.take k ∧
      (pipereadLoop dst todo i pi).2.2 = i + k ∧ k ≤ pi.contents.length ∧
      (((k = todo ∨ k = pi.contents.length) ∧
          (pipereadLoop dst todo i pi).1.contents = pi.contents.drop k) ∨
        (k < todo ∧ k < pi.contents.length ∧ dst (i + k) = false ∧
          (pipereadLoop dst todo i pi).1.contents = pi.contents.drop (k + 1))) := by
  induction todo generalizing i pi with
  | zero => exact ⟨0, le_rfl, by omega, rfl, rfl, Nat.zero_le _, .inl ⟨.inl rfl, rfl⟩⟩
  | succ todo ih =>
    by_cases hempty : pi.nread = pi.nwrite
    · rw [pipereadLoop_of_empty _ hempty]
      have hnil := contents_eq_nil hempty
      refine ⟨0, Nat.zero_le _, by omega, rfl, rfl, Nat.zero_le _, .inl ⟨.inr ?_, rfl⟩⟩
      rw [hnil, List.length_nil]
    · have hpop := contents_pop hempty
      unfold pipereadLoop
      rw [if_neg hempty]
      dsimp only
      by_cases hdst : dst i = true
      · obtain ⟨k, hk, hcopied, hbytes, hcount, hle, hends⟩ := ih (i + 1) pi.pop
        rw [if_pos hdst]
        refine ⟨k + 1, by omega, ?_, ?_, ?_, ?_, ?_⟩
        · intro j hj
          cases j with
          | zero => exact hdst
          | succ j =>
            rw [Nat.add_comm j 1, ← Nat.add_assoc]
            exact hcopied j (by omega)
        · rw [hpop, List.take_succ_cons]
          exact congrArg _ hbytes
        · change (pipereadLoop dst todo (i + 1) pi.pop).2.2 = _
          omega
        · rw [hpop, List.length_cons]
          omega
        · rw [hpop, List.length_cons, List.drop_succ_cons]
          rcases hends with ⟨hend, hleft⟩ | ⟨hlt, hlt', hfails, hleft⟩
          · exact .inl ⟨by omega, hleft⟩
          · refine .inr ⟨by omega, by omega, ?_, hleft⟩
            rwa [Nat.add_comm k 1, ← Nat.add_assoc]
      · rw [if_neg hdst]
        refine ⟨0, Nat.zero_le _, by omega, rfl, rfl, Nat.zero_le _, .inr ⟨by omega, ?_, ?_, ?_⟩⟩
        · rw [hpop, List.length_cons]
          omega
        · simpa using hdst
        · rw [hpop]
          rfl

end Pipe

namespace Spaces

variable {img : Image} {ι : Type} [Fintype ι] (m : Spaces img ι) (p : ι)

/-- `copyout` can store byte `j`. -/
def canStore (addr j : Nat) : Bool := pageAt (m.tree p) ((addr + j) % 2 ^ 64) ≠ 0

theorem copyout_byte (va : Nat) (hva : va < 2 ^ 64) (ch : UInt8) :
    copyout (m.pagetable p) va [ch] m.vm =
      .ok (if pageAt (m.tree p) va = 0 then -1 else 0, (m.deliver p va [ch]).vm) := by
  obtain ⟨rest, hholds, -⟩ := m.exists_holds p
  have hapart : ∀ va, pageAt (m.tree p) va ≠ 0 → pageAt (m.tree p) va ∉ (m.tree p).labels :=
    fun va hva => (m.apart p (userMapped_pageAt hva)).1 p
  rw [hholds.copyout_eq hapart hva]
  unfold reach
  by_cases hpage : pageAt (m.tree p) va = 0
  · simp only [hpage, if_true, List.length_singleton]
    rfl
  · simp only [hpage, if_false, List.length_singleton, reach]
    rfl

theorem pipereadCopy_eq (addr todo i : Nat) (pi : Pipe) :
    Pipe.pipereadCopy (m.pagetable p) addr todo i pi m.vm =
      .ok (((Pipe.pipereadLoop (m.canStore p addr) todo i pi).1,
          (Pipe.pipereadLoop (m.canStore p addr) todo i pi).2.2),
        Vm.deliver (m.tree p) m.vm ((addr + i) % 2 ^ 64)
          (Pipe.pipereadLoop (m.canStore p addr) todo i pi).2.1) := by
  apply run_of_wp
  induction todo generalizing i pi m with
  | zero => exact ⟨rfl, rfl⟩
  | succ todo ih =>
    unfold Pipe.pipereadCopy Pipe.pipereadLoop
    rw [wp_ite]
    by_cases hempty : pi.nread = pi.nwrite
    · simp only [if_pos hempty]
      exact ⟨rfl, rfl⟩
    · simp only [if_neg hempty, wp_bind]
      have hva : (addr + i) % 2 ^ 64 < 2 ^ 64 := Nat.mod_lt _ (by decide)
      refine wp_of_run (m.copyout_byte p _ hva _) ?_
      rw [wp_ite]
      by_cases hpage : pageAt (m.tree p) ((addr + i) % 2 ^ 64) = 0
      · have hcannot : ¬ m.canStore p addr i = true := by
          unfold canStore
          rw [decide_eq_true_eq]
          exact fun h => h hpage
        rw [if_pos hpage, if_pos rfl, if_neg hcannot]
        exact ⟨rfl, deliver_of_unmapped hpage⟩
      · have hcan : m.canStore p addr i = true := decide_eq_true hpage
        rw [if_neg hpage, if_neg (by decide), if_pos hcan]
        have hrest := ih (m.deliver p ((addr + i) % 2 ^ 64) [pi.data (Pipe.slot pi.nread)]) (i + 1)
          pi.pop
        have hnext : ((addr + i) % 2 ^ 64 + 1) % 2 ^ 64 = (addr + (i + 1)) % 2 ^ 64 := by
          rw [Nat.mod_add_mod, Nat.add_assoc]
        refine wp_post hrest ?_
        rintro _ _ ⟨rfl, rfl⟩
        rw [deliver_cons hpage, hnext]
        exact ⟨rfl, rfl⟩

/-- The first `i` unread bytes are stored from `addr` on and gone from the pipe. -/
structure ReadExactly (addr : Nat) (pi : Pipe) (i : Nat) (pi' : Pipe) (vm' : Vm) : Prop where
  mapped : reach (m.tree p) addr i = i
  stored : vm' = (m.deliver p addr (pi.contents.take i)).vm
  taken : i ≤ pi.contents.length
  left : pi'.contents = pi.contents.drop i

theorem reach_eq_of_canStore {addr i : Nat} (haddr : addr < 2 ^ 64)
    (h : ∀ j, j < i → m.canStore p addr j = true) : reach (m.tree p) addr i = i := by
  induction i generalizing addr with
  | zero => rfl
  | succ i ih =>
    have hfirst := of_decide_eq_true (h 0 (Nat.succ_pos i))
    rw [Nat.add_zero, Nat.mod_eq_of_lt haddr] at hfirst
    unfold reach
    rw [if_neg hfirst, ih (Nat.mod_lt _ (by decide))]
    intro j hj
    have hstore := h (j + 1) (by omega)
    unfold canStore at hstore ⊢
    rwa [Nat.mod_add_mod, Nat.add_assoc, Nat.add_comm 1 j]

theorem piperead_of_ready (addr : Nat) (n : Int) (killed : Bool) {pi : Pipe}
    (hready : ¬ (pi.nread = pi.nwrite ∧ pi.writeopen = true)) :
    Pipe.piperead (m.pagetable p) addr n killed pi m.vm =
      .ok (some ((Pipe.pipereadLoop (m.canStore p addr) n.toNat 0 pi).1,
          ((Pipe.pipereadLoop (m.canStore p addr) n.toNat 0 pi).2.2 : Int)),
        Vm.deliver (m.tree p) m.vm ((addr + 0) % 2 ^ 64)
          (Pipe.pipereadLoop (m.canStore p addr) n.toNat 0 pi).2.1) := by
  apply run_of_wp
  unfold Pipe.piperead
  rw [if_neg hready, wp_bind]
  exact wp_of_run (m.pipereadCopy_eq p addr n.toNat 0 pi) ⟨rfl, rfl⟩

/-- The count that `piperead` returns is exact if and only if every byte it reaches could be
stored. -/
theorem piperead_exact_iff (addr : BitVec 64) (n : Int) (killed : Bool) (pi : Pipe) :
    ∃ out vm', Pipe.piperead (m.pagetable p) addr.toNat n killed pi m.vm = .ok (out, vm') ∧
      ∀ (i : Nat) pi', out = some (pi', (i : Int)) →
        (m.ReadExactly p addr.toNat pi i pi' vm' ↔
          ∀ j, j < n.toNat → j < pi.contents.length → m.canStore p addr.toNat j = true) := by
  by_cases hwait : pi.nread = pi.nwrite ∧ pi.writeopen = true
  · have hrun : Pipe.piperead (m.pagetable p) addr.toNat n killed pi m.vm =
        .ok (if killed then some (pi, -1) else none, m.vm) := by
      unfold Pipe.piperead
      rw [if_pos hwait]
      cases killed <;> rfl
    refine ⟨_, _, hrun, ?_⟩
    intro i pi' hout
    cases killed with
    | false => cases hout
    | true =>
      simp only [if_true, Option.some.injEq, Prod.mk.injEq] at hout
      omega
  · refine ⟨_, _, m.piperead_of_ready p addr.toNat n killed hwait, ?_⟩
    intro i pi' hout
    obtain ⟨k, hk, hcopied, hbytes, hcount, hle, hends⟩ :=
      Pipe.pipereadLoop_cases (m.canStore p addr.toNat) n.toNat 0 pi
    simp only [Option.some.injEq, Prod.mk.injEq, Int.natCast_inj] at hout
    obtain ⟨rfl, hi⟩ := hout
    have hik : i = k := by omega
    subst hik
    rw [hbytes, Nat.add_zero, Nat.mod_eq_of_lt addr.isLt]
    simp only [Nat.zero_add] at hcopied hends
    rcases hends with ⟨hend, hleft⟩ | ⟨hlt, hlt', hfails, hleft⟩
    · refine ⟨fun _ j hj hj' => hcopied j (by omega), fun _ => ⟨?_, rfl, hle, hleft⟩⟩
      exact m.reach_eq_of_canStore p addr.isLt hcopied
    · constructor
      · intro h
        have hlength := congrArg List.length (hleft.symm.trans h.left)
        rw [List.length_drop, List.length_drop] at hlength
        omega
      · intro h
        rw [h i hlt hlt'] at hfails
        cases hfails

def onePending : Pipe where
  data _ := 97
  nwrite := 1

/-- A process of one page reads one byte to the address behind it, is told 0, and the byte is
gone. -/
theorem piperead_loses_byte : onePending.contents = [97] ∧ onePending.pop.contents = [] ∧
    ∃ m : Spaces smallMemory (Fin 2), Open (m.tree 0) 0 ∧
      Pipe.piperead (m.pagetable 0) PGSIZE 1 false onePending m.vm =
        .ok (some (onePending.pop, 0), m.vm) ∧
      ¬ m.ReadExactly 0 PGSIZE onePending 0 onePending.pop m.vm := by
  have hfull : onePending.contents = [97] := by decide
  have hempty : onePending.pop.contents = [] := by decide
  obtain ⟨m, hclosed, hopen, -⟩ := exists_processes
  have hpage : m.canStore 0 PGSIZE 0 = false :=
    decide_eq_false fun hne => hclosed (pageAt_ne_zero_iff.mp hne)
  refine ⟨hfull, hempty, m, hopen 0 (by decide), ?_, ?_⟩
  · have hloop : Pipe.pipereadLoop (m.canStore 0 PGSIZE) 1 0 onePending =
        (onePending.pop, [], 0) := by
      unfold Pipe.pipereadLoop
      rw [if_neg (by decide), hpage]
      rfl
    rw [m.piperead_of_ready 0 PGSIZE 1 false (by decide), Int.toNat_one, hloop]
    rfl
  · intro h
    have hleft := h.left
    rw [hfull, hempty] at hleft
    cases hleft

end Spaces

end Xv6
