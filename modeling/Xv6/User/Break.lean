import Xv6.Process.Sbrk
import Xv6.User.Malloc

/-! The `sbrk` that `malloc` calls is the system call. -/
namespace Xv6.User

open Lib Lib.Exec Kernel

variable {img : Image} {k : Kernel} {p : Fin NPROC} {t : PageTree 3} {rest : Multiset Nat}

theorem sbrk_granted {m : Machine} {s : Heap} {n : Nat} (hn : n < 2 ^ 31)
    (hanswer : m.answer s.calls = some 0) (hlimit : (s.obtained.map Prod.snd).sum + n ≤ m.limit) :
    ∃ s', sbrk m n s = .ok (some s.top, s') ∧ s'.top = s.top + n := by
  have hwp : wp (sbrk m n) (fun r s' => r = some s.top ∧ s'.top = s.top + n) (fun _ => False) s := by
    unfold sbrk
    rw [wp_else (Nat.not_le.mpr hn)]
    simp only [wp_bind, wp_get, wp_set, hanswer]
    rw [wp_else (Nat.not_lt.mpr hlimit)]
    exact ⟨rfl, rfl⟩
  obtain ⟨r, s', hrun, rfl, htop⟩ := returns_of_wp hwp fun _ => id
  exact ⟨s', hrun, htop⟩

theorem sbrk_refused {m : Machine} {s : Heap} {n : Nat} (hn : n < 2 ^ 31)
    (hanswer : m.answer s.calls = none) : ∃ s', sbrk m n s = .ok (none, s') ∧ s'.top = s.top := by
  have hwp : wp (sbrk m n) (fun r s' => r = none ∧ s'.top = s.top) (fun _ => False) s := by
    unfold sbrk
    rw [wp_else (Nat.not_le.mpr hn)]
    simp only [wp_bind, wp_get, wp_set, hanswer]
    exact ⟨rfl, rfl⟩
  obtain ⟨r, s', hrun, rfl, htop⟩ := returns_of_wp hwp fun _ => id
  exact ⟨s', hrun, htop⟩

/-- With the break at the size of the process, `sbrk(n)` moves it as `sys_sbrk` does. It stops
with `shrink` where the int is negative and `sys_sbrk` lowers the break or leaves it. -/
theorem sbrk_eq_sysSbrk {n : Nat} (h : k.UserSpace img p t rest) (hn : n < 2 ^ 32)
    (harg : k.sbrkArg p = BitVec.ofNat 32 n) : ∃ r k' t', sysSbrk img p k = .ok (r, k') ∧
      k'.UserSpace img p t' rest ∧ ∀ (m : Machine) (s : Heap), s.top = (k.proc p).sz →
        (n < 2 ^ 31 → m.answer s.calls = (if r = -1 then none else some 0) →
          (s.obtained.map Prod.snd).sum + n ≤ m.limit →
          ∃ s', sbrk m n s = .ok (if r = -1 then none else some r.toNat, s') ∧
            s'.top = (k'.proc p).sz) ∧
        (2 ^ 31 ≤ n → sbrk m n s = .error .shrink ∧ (k'.proc p).sz ≤ (k.proc p).sz) := by
  have hint := BitVec.toInt_eq_toNat_cond (k.sbrkArg p)
  rw [harg, BitVec.toNat_ofNat, Nat.mod_eq_of_lt hn] at hint
  have hsz := sz_le h.le
  have hwp : wp (argint p 0 >>= Kernel.sbrk img p) (fun r k' => ∃ t', k'.UserSpace img p t' rest ∧
      (k.SbrkDoes p t (k.sbrkArg p).toInt r k' t' ↔ 0 ≤ (k.proc p).sz + (k.sbrkArg p).toInt))
      (fun _ => False) k := by
    rw [wp_bind]
    exact wp_argint (wp_sbrk h)
  obtain ⟨r, k', hrun, t', hspace, hiff⟩ := returns_of_wp hwp fun _ => id
  rw [harg] at hiff
  refine ⟨r, k', t', hrun, hspace, fun m s htop => ⟨fun hsmall hanswer hlimit => ?_, fun hlarge => ?_⟩⟩
  · have hdoes := hiff.mpr (by omega)
    by_cases hr : r = -1
    · rw [if_pos hr] at hanswer ⊢
      rw [(hdoes.fails hr).1, ← htop]
      exact sbrk_refused hsmall hanswer
    · rw [if_neg hr] at hanswer ⊢
      obtain ⟨haddr, hmoved, -⟩ := hdoes.moves hr
      have hnat : r.toNat = s.top := by
        rw [haddr, BitVec.toNat_ofNat, htop]
        omega
      obtain ⟨s', hrun', htop'⟩ := sbrk_granted hsmall hanswer hlimit
      refine ⟨s', by rw [hnat]; exact hrun', ?_⟩
      omega
  · refine ⟨?_, ?_⟩
    · unfold sbrk
      rw [if_pos hlarge]
      rfl
    · by_cases hexcess : (k.proc p).sz + (BitVec.ofNat 32 n).toInt < 0
      · have hwp' : wp (argint p 0 >>= Kernel.sbrk img p) (fun _ k' =>
            (k'.proc p).sz = (k.proc p).sz) (fun _ => False) k := by
          rw [wp_bind]
          exact wp_argint (wp_post (wp_sbrk_excess h (by rwa [harg])) fun _ _ h => h.2)
        have hsame := post_of_wp hwp' hrun
        exact Nat.le_of_eq hsame
      · have hdoes := hiff.mpr (Int.not_lt.mp hexcess)
        by_cases hr : r = -1
        · exact Nat.le_of_eq (hdoes.fails hr).1
        · have hmoved := (hdoes.moves hr).2.1
          omega

end Xv6.User
