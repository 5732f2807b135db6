import Mathlib.Data.List.Basic
import Mathlib.Algebra.Order.Ring.Nat

/-! Strings in fields of bounded length, which end at the first NUL or with the field. -/
namespace Xv6.Lib.CString

open Function

def text (field : Nat → UInt8) : Nat → Nat → List UInt8
  | 0, _ => []
  | n + 1, start => if field start = 0 then [] else field start :: text field n (start + 1)

def strncmp (p q : Nat → UInt8) : Nat → Nat → Int
  | 0, _ => 0
  | n + 1, start =>
    if p start ≠ 0 ∧ p start = q start then strncmp p q n (start + 1)
    else (p start).toNat - (q start).toNat

def strncpy (src : Nat → UInt8) : Nat → Nat → List UInt8
  | 0, _ => []
  | n + 1, start =>
    if src start = 0 then List.replicate (n + 1) 0 else src start :: strncpy src n (start + 1)

/-- The loop with room for `n` more characters. A NUL that is copied is followed by another. -/
def safestrcpyLoop (src : Nat → UInt8) : Nat → Nat → (Nat → UInt8) → Nat → UInt8
  | 0, i, dst => update dst i 0
  | n + 1, i, dst =>
    if src i = 0 then update (update dst i 0) (i + 1) 0
    else safestrcpyLoop src n (i + 1) (update dst i (src i))

def safestrcpy (dst src : Nat → UInt8) (n : Nat) : Nat → UInt8 :=
  if n = 0 then dst else safestrcpyLoop src (n - 1) 0 dst

def ofList (bytes : List UInt8) (i : Nat) : UInt8 := bytes.getD i 0

variable {p q : Nat → UInt8} {n start : Nat}

theorem text_congr {m : Nat} (h : ∀ i, i < n → p (start + i) = q (m + i)) :
    text p n start = text q n m := by
  induction n generalizing start m with
  | zero => rfl
  | succ n ih =>
    have hhead : p start = q m := h 0 (Nat.zero_lt_succ n)
    have htail : text p n (start + 1) = text q n (m + 1) := by
      apply ih
      intro i hi
      have hnext := h (i + 1) (by omega)
      rwa [← Nat.add_assoc, ← Nat.add_assoc, Nat.add_right_comm, Nat.add_right_comm m] at hnext
    unfold text
    rw [hhead, htail]

theorem strncmp_eq_zero_iff : strncmp p q n start = 0 ↔ text p n start = text q n start := by
  induction n generalizing start with
  | zero => simp [strncmp, text]
  | succ n ih =>
    unfold strncmp text
    by_cases hsame : p start = q start
    · by_cases hend : q start = 0
      · simp [hsame, hend]
      · simp [hsame, hend, ih]
    · have hdiff : ((p start).toNat : Int) - (q start).toNat ≠ 0 := by
        intro hzero
        apply hsame
        apply UInt8.toNat.inj
        omega
      rw [if_neg (fun h => hsame h.2)]
      by_cases hp : p start = 0
      · have hq : ¬ q start = 0 := fun hq => hsame (hp.trans hq.symm)
        simp [hp, hq] at hdiff ⊢
        exact hdiff
      · by_cases hq : q start = 0
        · simp [hp, hq] at hdiff ⊢
          exact hdiff
        · simp [hp, hq, hsame, hdiff]

@[simp] theorem strncpy_length : (strncpy p n start).length = n := by
  induction n generalizing start with
  | zero => rfl
  | succ n ih =>
    unfold strncpy
    split
    · exact List.length_replicate
    · rw [List.length_cons, ih]

theorem text_ofList_tail (byte : UInt8) (bytes : List UInt8) (n : Nat) :
    text (ofList (byte :: bytes)) n 1 = text (ofList bytes) n 0 := by
  apply text_congr
  intro i _
  rw [Nat.add_comm 1, Nat.zero_add]
  exact List.getD_cons_succ ..

theorem text_strncpy : text (ofList (strncpy p n start)) n 0 = text p n start := by
  induction n generalizing start with
  | zero => rfl
  | succ n ih =>
    unfold strncpy
    by_cases hend : p start = 0
    · rw [if_pos hend]
      unfold text
      rw [if_pos hend, if_pos (by simp [ofList, List.replicate_succ])]
    · rw [if_neg hend]
      have hhead : ofList (p start :: strncpy p n (start + 1)) 0 = p start := rfl
      unfold text
      rw [hhead, if_neg hend, if_neg hend, text_ofList_tail, ih]

theorem strncpy_eq :
    strncpy p n start = text p n start ++ List.replicate (n - (text p n start).length) 0 := by
  induction n generalizing start with
  | zero => rfl
  | succ n ih =>
    unfold strncpy text
    split
    · rfl
    · rw [ih, List.length_cons, Nat.add_sub_add_right, List.cons_append]

theorem text_eq {s : List UInt8} (hnul : 0 ∉ s)
    (hbytes : ∀ i, i < s.length → p (start + i) = s.getD i 0)
    (hend : s.length = n ∨ s.length < n ∧ p (start + s.length) = 0) : text p n start = s := by
  induction s generalizing n start with
  | nil =>
    cases n with
    | zero => rfl
    | succ n =>
      have hzero : p start = 0 := by
        rcases hend with hlen | ⟨-, hzero⟩
        · cases hlen
        · exact hzero
      unfold text
      rw [if_pos hzero]
  | cons byte s ih =>
    cases n with
    | zero =>
      rcases hend with hlen | ⟨hlt, -⟩
      · cases hlen
      · exact absurd hlt (Nat.not_lt_zero _)
    | succ n =>
      rw [List.mem_cons, not_or] at hnul
      have hhead : p start = byte := hbytes 0 (Nat.zero_lt_succ _)
      have hshift : ∀ i, start + 1 + i = start + (i + 1) := by
        intro i
        omega
      have htail : text p n (start + 1) = s := by
        apply ih hnul.2
        · intro i hi
          rw [hshift, hbytes (i + 1) (Nat.succ_lt_succ hi), List.getD_cons_succ]
        · rw [hshift]
          rcases hend with hlen | ⟨hlt, hzero⟩
          · exact .inl (Nat.succ.inj hlen)
          · exact .inr ⟨Nat.lt_of_succ_lt_succ hlt, hzero⟩
      unfold text
      rw [hhead, if_neg (Ne.symm hnul.1), htail]

end Xv6.Lib.CString
