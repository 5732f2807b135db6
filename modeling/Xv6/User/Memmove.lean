import Xv6.Lib.Move

/-! `memmove` of `string.c` and of `ulib.c`, whose lengths are a uint and an int. -/
namespace Xv6

open Lib.Move

abbrev Memory := BitVec 64 → UInt8

def KernelString.memmove (mem : Memory) (dst src : BitVec 64) (n : BitVec 32) : Memory :=
  if n = 0 then mem
  else if src < dst ∧ dst < src + n.zeroExtend 64 then
    downward mem (dst + n.zeroExtend 64) (src + n.zeroExtend 64) n.toNat
  else upward mem dst src n.toNat

/-- The loops end at once if the length is negative. -/
def Ulib.memmove (mem : Memory) (dst src : BitVec 64) (n : BitVec 32) : Memory :=
  if dst < src then upward mem dst src n.toInt.toNat
  else downward mem (dst + n.signExtend 64) (src + n.signExtend 64) n.toInt.toNat

variable {mem : Memory} {dst src : BitVec 64} {n : Nat}

theorem toNat_add_ofNat {a : BitVec 64} {i : Nat} (h : a.toNat + n ≤ 2 ^ 64) (hi : i < n) :
    (a + BitVec.ofNat 64 i).toNat = a.toNat + i := by
  simp only [BitVec.toNat_add, BitVec.toNat_ofNat, Nat.add_mod_mod]
  exact Nat.mod_eq_of_lt (by omega)

/-- Safe unless the destination starts inside the source. -/
theorem moved_up (hsrc : src.toNat + n ≤ 2 ^ 64) (hdst : dst.toNat + n ≤ 2 ^ 64)
    (h : dst.toNat ≤ src.toNat ∨ src.toNat + n ≤ dst.toNat) :
    Moved mem (upward mem dst src n) dst src n := by
  apply moved_upward (by omega)
  intro i j hij hj heq
  have hnat := congrArg BitVec.toNat heq
  rw [toNat_add_ofNat hdst (by omega), toNat_add_ofNat hsrc hj] at hnat
  omega

/-- Safe unless the source starts inside the destination. -/
theorem moved_down (hsrc : src.toNat + n ≤ 2 ^ 64) (hdst : dst.toNat + n ≤ 2 ^ 64)
    (h : src.toNat ≤ dst.toNat) :
    Moved mem (downward mem (dst + BitVec.ofNat 64 n) (src + BitVec.ofNat 64 n) n) dst src n := by
  apply moved_downward (by omega)
  intro i j hji hi heq
  have hnat := congrArg BitVec.toNat heq
  rw [toNat_add_ofNat hdst hi, toNat_add_ofNat hsrc (by omega)] at hnat
  omega

theorem KernelString.moved (mem : Memory) {n : BitVec 32} (hsrc : src.toNat + n.toNat ≤ 2 ^ 64)
    (hdst : dst.toNat + n.toNat ≤ 2 ^ 64) :
    Moved mem (memmove mem dst src n) dst src n.toNat := by
  have hlen : n.zeroExtend 64 = BitVec.ofNat 64 n.toNat := by simp
  unfold memmove
  split
  · next hzero =>
    rw [hzero]
    exact ⟨nofun, fun _ _ => rfl⟩
  · rw [hlen]
    split
    · next hover => exact moved_down hsrc hdst (Nat.le_of_lt hover.1)
    · next hover =>
      apply moved_up hsrc hdst
      by_contra hinside
      push Not at hinside
      -- the destination starts inside the source, which then ends below the top
      refine hover ⟨hinside.1, ?_⟩
      rw [BitVec.lt_def, BitVec.toNat_add, BitVec.toNat_ofNat, Nat.add_mod_mod,
        Nat.mod_eq_of_lt (by omega)]
      exact hinside.2

theorem Ulib.moved (mem : Memory) {n : BitVec 32} (hsrc : src.toNat + n.toInt.toNat ≤ 2 ^ 64)
    (hdst : dst.toNat + n.toInt.toNat ≤ 2 ^ 64) :
    Moved mem (memmove mem dst src n) dst src n.toInt.toNat := by
  unfold memmove
  split
  · next hup => exact moved_up hsrc hdst (.inl (Nat.le_of_lt hup))
  · next hdown =>
    by_cases hneg : n.toInt < 0
    · rw [Int.toNat_of_nonpos (Int.le_of_lt hneg)]
      exact ⟨nofun, fun _ _ => rfl⟩
    · have hlen : n.signExtend 64 = BitVec.ofNat 64 n.toInt.toNat := by
        rw [BitVec.signExtend, ← BitVec.ofInt_natCast, Int.toNat_of_nonneg (by omega)]
      rw [hlen]
      exact moved_down hsrc hdst (Nat.le_of_not_lt hdown)

/-- Whatever the overlap, both move the bytes as they were and no others. -/
theorem memmove_exact (mem : Memory) (dst src : BitVec 64) (n : BitVec 32)
    (hsrc : src.toNat + n.toNat ≤ 2 ^ 64) (hdst : dst.toNat + n.toNat ≤ 2 ^ 64) :
    Moved mem (KernelString.memmove mem dst src n) dst src n.toNat ∧
      Moved mem (Ulib.memmove mem dst src n) dst src n.toInt.toNat ∧
      (0 ≤ n.toInt → KernelString.memmove mem dst src n = Ulib.memmove mem dst src n) := by
  have hle : n.toInt.toNat ≤ n.toNat := by
    rw [BitVec.toInt_eq_toNat_cond]
    split <;> omega
  have huser := Ulib.moved mem (Nat.le_trans (Nat.add_le_add_left hle _) hsrc)
    (Nat.le_trans (Nat.add_le_add_left hle _) hdst)
  refine ⟨KernelString.moved mem hsrc hdst, huser, fun hnonneg => ?_⟩
  have hsame : n.toInt.toNat = n.toNat := by
    rw [BitVec.toInt_eq_toNat_cond] at hnonneg ⊢
    split at hnonneg <;> omega
  rw [hsame] at huser
  exact (KernelString.moved mem hsrc hdst).unique huser

theorem memmove_exact_overlap :
    Moved (fun a => a.toNat.toUInt8) (KernelString.memmove (fun a => a.toNat.toUInt8) 10 8 4) 10 8 4 :=
  (memmove_exact _ 10 8 4 (by decide) (by decide)).1

end Xv6
