import Xv6.Vm.Mapping

/-! User memory as a page table shows it, and the copy functions of `vm.c`. Addresses wrap at
2^64. -/
namespace Xv6

open Function List
open Lib Lib.Exec Lib.Radix

theorem Lib.ByteField.putBytes_nil (bytes : Nat → UInt8) (off : Nat) :
    ByteField.putBytes bytes off [] = bytes := by
  funext i
  exact ByteField.putBytes_outside (Nat.lt_or_ge i off)

theorem Lib.ByteField.putBytes_cons (bytes : Nat → UInt8) (off : Nat) (b : UInt8)
    (source : List UInt8) : ByteField.putBytes bytes off (b :: source) =
      ByteField.putBytes (update bytes off b) (off + 1) source := by
  funext i
  obtain rfl | hi := eq_or_ne i off
  · rw [ByteField.putBytes_inside (Nat.le_refl _) (by rw [length_cons]; omega),
      ByteField.putBytes_outside (.inl (Nat.lt_succ_self _)), update_self, Nat.sub_self]
    rfl
  · have hlen : (b :: source).length = source.length + 1 := rfl
    by_cases hin : off ≤ i ∧ i < off + (b :: source).length
    · rw [ByteField.putBytes_inside hin.1 hin.2, ByteField.putBytes_inside (by omega) (by omega),
        show i - off = i - (off + 1) + 1 by omega]
      rfl
    · rw [ByteField.putBytes_outside (by omega), ByteField.putBytes_outside (by omega),
        update_of_ne hi]

namespace Vm

variable {img : Image} {rest : Multiset Nat} {s : Vm} {pagetable va n m : Nat} {t : PageTree 3}

def pageAt (t : PageTree 3) (va : Nat) : Nat := if va < MAXVA then userPage t (va / PGSIZE) else 0

/-- How many of the `n` bytes are mapped, up to the first that is not. -/
def reach (t : PageTree 3) : Nat → Nat → Nat
  | _, 0 => 0
  | va, n + 1 => if pageAt t va = 0 then 0 else reach t ((va + 1) % 2 ^ 64) n + 1

/-- Up to `n` bytes, to the first that is not mapped. -/
def fetch (s : Vm) (t : PageTree 3) : Nat → Nat → List UInt8
  | _, 0 => []
  | va, n + 1 =>
    if pageAt t va = 0 then []
    else s.page (pageAt t va) (va % PGSIZE) :: fetch s t ((va + 1) % 2 ^ 64) n

/-- Memory after a write up to the first byte that is not mapped. -/
def deliver (t : PageTree 3) : Vm → Nat → List UInt8 → Vm
  | s, _, [] => s
  | s, va, b :: source =>
    if pageAt t va = 0 then s
    else
      deliver t (s.fill (pageAt t va) (update (s.page (pageAt t va)) (va % PGSIZE) b))
        ((va + 1) % 2 ^ 64) source

theorem reach_le (t : PageTree 3) (va n : Nat) : reach t va n ≤ n := by
  induction n generalizing va with
  | zero => exact Nat.le_refl 0
  | succ n ih =>
    unfold reach
    split
    · exact Nat.zero_le _
    · exact Nat.succ_le_succ (ih _)

theorem reach_of_unmapped (h : pageAt t va = 0) (hn : 0 < n) : reach t va n = 0 := by
  obtain ⟨n, rfl⟩ := Nat.exists_eq_succ_of_ne_zero (Nat.pos_iff_ne_zero.mp hn)
  exact if_pos h

theorem fetch_of_unmapped (h : pageAt t va = 0) : fetch s t va n = [] := by
  cases n with
  | zero => rfl
  | succ n => exact if_pos h

variable {source : List UInt8}

theorem deliver_of_unmapped (h : pageAt t va = 0) : deliver t s va source = s := by
  cases source with
  | nil => rfl
  | cons b source => exact if_pos h

theorem deliver_cons {b : UInt8} (h : pageAt t va ≠ 0) :
    deliver t s va (b :: source) = deliver t (deliver t s va [b]) ((va + 1) % 2 ^ 64) source := by
  have hone : deliver t s va [b] =
      s.fill (pageAt t va) (update (s.page (pageAt t va)) (va % PGSIZE) b) := if_neg h
  rw [hone]
  exact if_neg h

theorem pageAt_add {k : Nat} (h : va % PGSIZE + k < PGSIZE) : pageAt t (va + k) = pageAt t va := by
  have hdiv : (va + k) / PGSIZE = va / PGSIZE := by
    simp only [PGSIZE] at h ⊢
    omega
  have hlt : va + k < MAXVA ↔ va < MAXVA := by
    simp only [PGSIZE, MAXVA] at h ⊢
    omega
  unfold pageAt
  rw [hdiv]
  simp only [hlt]

theorem pageAt_round (t : PageTree 3) (va : Nat) : pageAt t (PGROUNDDOWN va) = pageAt t va := by
  have hsplit : PGROUNDDOWN va + va % PGSIZE = va := Nat.div_add_mod' va PGSIZE
  have hzero : PGROUNDDOWN va % PGSIZE = 0 := Nat.mul_mod_left _ _
  have hmod : va % PGSIZE < PGSIZE := Nat.mod_lt _ (by decide)
  have hsame := pageAt_add (t := t) (k := va % PGSIZE) (by rw [hzero, Nat.zero_add]; exact hmod)
  rw [hsplit] at hsame
  exact hsame.symm

theorem sub_round (va : Nat) : va - PGROUNDDOWN va = va % PGSIZE := by
  unfold PGROUNDDOWN
  simp only [PGSIZE]
  omega

section Page

variable (hpage : pageAt t va ≠ 0) (hva : va < 2 ^ 64)

include hpage hva

theorem reach_page (hn : va % PGSIZE + n ≤ PGSIZE) : reach t va n = n := by
  induction n generalizing va with
  | zero => rfl
  | succ n ih =>
    unfold reach
    rw [if_neg hpage]
    cases n with
    | zero => rfl
    | succ n =>
      have hnext : va + 1 < 2 ^ 64 ∧ (va + 1) % PGSIZE = va % PGSIZE + 1 := by
        simp only [PGSIZE] at hn ⊢
        omega
      rw [Nat.mod_eq_of_lt hnext.1,
        ih (by rw [pageAt_add (by omega)]; exact hpage) hnext.1 (by rw [hnext.2]; omega)]

theorem fetch_page (hn : va % PGSIZE + n ≤ PGSIZE) :
    fetch s t va n = ByteField.getBytes (s.page (pageAt t va)) (va % PGSIZE) n := by
  induction n generalizing va with
  | zero => rfl
  | succ n ih =>
    unfold fetch
    rw [if_neg hpage, Nat.add_comm n 1, ByteField.getBytes_add]
    cases n with
    | zero => rfl
    | succ n =>
      have hnext : va + 1 < 2 ^ 64 ∧ (va + 1) % PGSIZE = va % PGSIZE + 1 := by
        simp only [PGSIZE] at hn ⊢
        omega
      have hsame : pageAt t (va + 1) = pageAt t va := pageAt_add (by omega)
      rw [Nat.mod_eq_of_lt hnext.1, ih (by rw [hsame]; exact hpage) hnext.1 (by rw [hnext.2]; omega),
        hsame, hnext.2]
      rfl

theorem deliver_page (hn : va % PGSIZE + source.length ≤ PGSIZE) :
    deliver t s va source =
      s.fill (pageAt t va) (ByteField.putBytes (s.page (pageAt t va)) (va % PGSIZE) source) := by
  induction source generalizing va s with
  | nil =>
    rw [ByteField.putBytes_nil]
    unfold fill
    rw [update_eq_self]
    rfl
  | cons b source ih =>
    unfold deliver
    rw [if_neg hpage, ByteField.putBytes_cons]
    rw [length_cons] at hn
    cases source with
    | nil =>
      rw [ByteField.putBytes_nil]
      rfl
    | cons c source =>
      have hnext : va + 1 < 2 ^ 64 ∧ (va + 1) % PGSIZE = va % PGSIZE + 1 := by
        rw [length_cons] at hn
        simp only [PGSIZE] at hn ⊢
        omega
      have hsame : pageAt t (va + 1) = pageAt t va := pageAt_add (by
        rw [length_cons] at hn
        omega)
      rw [Nat.mod_eq_of_lt hnext.1, ih (by rw [hsame]; exact hpage) hnext.1 (by rw [hnext.2]; omega),
        hsame, hnext.2, fill_self]
      unfold fill
      rw [update_idem]

end Page

section Append

variable (hva : va < 2 ^ 64)

include hva

theorem reach_append (hn : reach t va n = n) :
    reach t va (n + m) = n + reach t ((va + n) % 2 ^ 64) m := by
  induction n generalizing va with
  | zero => rw [Nat.zero_add, Nat.zero_add, Nat.add_zero, Nat.mod_eq_of_lt hva]
  | succ n ih =>
    unfold reach at hn
    split at hn
    · cases hn
    · rename_i hpage
      rw [Nat.succ_add]
      conv_lhs => unfold reach
      rw [if_neg hpage, ih (Nat.mod_lt _ (by decide)) (Nat.succ.inj hn), Nat.mod_add_mod,
        Nat.add_assoc va, Nat.add_comm 1]
      omega

theorem fetch_append (hn : reach t va n = n) :
    fetch s t va (n + m) = fetch s t va n ++ fetch s t ((va + n) % 2 ^ 64) m := by
  induction n generalizing va with
  | zero =>
    rw [Nat.zero_add, Nat.add_zero, Nat.mod_eq_of_lt hva]
    rfl
  | succ n ih =>
    unfold reach at hn
    split at hn
    · cases hn
    · rename_i hpage
      rw [Nat.succ_add]
      conv_lhs => unfold fetch
      conv_rhs => enter [1]; unfold fetch
      rw [if_neg hpage, if_neg hpage, ih (Nat.mod_lt _ (by decide)) (Nat.succ.inj hn),
        Nat.mod_add_mod, Nat.add_assoc va, Nat.add_comm 1]
      rfl

theorem deliver_append {left right : List UInt8} (hn : reach t va left.length = left.length) :
    deliver t s va (left ++ right) =
      deliver t (deliver t s va left) ((va + left.length) % 2 ^ 64) right := by
  induction left generalizing va s with
  | nil =>
    rw [length_nil, Nat.add_zero, Nat.mod_eq_of_lt hva]
    rfl
  | cons b left ih =>
    rw [length_cons] at hn ⊢
    unfold reach at hn
    split at hn
    · cases hn
    · rename_i hpage
      rw [cons_append]
      conv_lhs => unfold deliver
      conv_rhs => enter [2]; unfold deliver
      rw [if_neg hpage, if_neg hpage, ih (Nat.mod_lt _ (by decide)) (Nat.succ.inj hn),
        Nat.mod_add_mod, Nat.add_assoc va, Nat.add_comm 1]

end Append

theorem Holds.wp_pageAt {Q : Nat → Vm → Prop} {E : VmPanic → Prop}
    (h : s.Holds img pagetable t rest) (post : Q (pageAt t va) s) :
    wp (walkaddr pagetable (PGROUNDDOWN va)) Q E s := by
  refine h.wp_walkaddr ?_
  rw [← pageAt_round] at post
  exact post

theorem chunk_le (va len : Nat) : va % PGSIZE + min (PGSIZE - va % PGSIZE) len ≤ PGSIZE := by
  have hmod : va % PGSIZE < PGSIZE := Nat.mod_lt _ (by decide)
  omega

theorem chunk_pos (va : Nat) {len : Nat} (hlen : len ≠ 0) : 0 < min (PGSIZE - va % PGSIZE) len := by
  have hmod : va % PGSIZE < PGSIZE := Nat.mod_lt _ (by decide)
  omega

/-- The loops go on at the next page, or are done. -/
theorem next_page {α : Type} (va len : Nat) (f : Nat → Nat → α) (hdone : ∀ a b, f a 0 = f b 0) :
    f ((PGROUNDDOWN va + PGSIZE) % 2 ^ 64) (len - min (PGSIZE - va % PGSIZE) len) =
      f ((va + min (PGSIZE - va % PGSIZE) len) % 2 ^ 64)
        (len - min (PGSIZE - va % PGSIZE) len) := by
  have hsplit : PGROUNDDOWN va + va % PGSIZE = va := Nat.div_add_mod' va PGSIZE
  have hmod : va % PGSIZE < PGSIZE := Nat.mod_lt _ (by decide)
  by_cases hmore : len - min (PGSIZE - va % PGSIZE) len = 0
  · rw [hmore]
    exact hdone _ _
  · have hnext : PGROUNDDOWN va + PGSIZE = va + min (PGSIZE - va % PGSIZE) len := by omega
    rw [hnext]

section

variable (h : s.Holds img pagetable t rest)

include h

theorem Holds.copyinLoop_eq {fuel len : Nat} (hva : va < 2 ^ 64) (hfuel : len < fuel) :
    copyinLoop pagetable fuel va len s =
      .ok ((fetch s t va len, decide (reach t va len = len)), s) := by
  apply run_of_wp
  induction fuel generalizing va len with
  | zero => omega
  | succ fuel ih =>
    unfold copyinLoop
    rw [wp_ite]
    obtain rfl | hlen := eq_or_ne len 0
    · rw [if_pos rfl]
      exact ⟨rfl, rfl⟩
    rw [if_neg hlen]
    simp only [wp_bind]
    refine h.wp_pageAt ?_
    rw [wp_ite]
    by_cases hpage : pageAt t va = 0
    · rw [if_pos hpage, fetch_of_unmapped hpage,
        reach_of_unmapped hpage (Nat.pos_of_ne_zero hlen), decide_eq_false (Ne.symm hlen)]
      exact ⟨rfl, rfl⟩
    rw [if_neg hpage]
    simp only [wp_bind, wp_get, sub_round]
    have hle := chunk_le va len
    have hpos := chunk_pos va hlen
    have hmin := Nat.min_le_right (PGSIZE - va % PGSIZE) len
    have hfetch := next_page va len (fetch s t) fun _ _ => rfl
    have hcount := next_page va len (reach t) fun _ _ => rfl
    generalize min (PGSIZE - va % PGSIZE) len = n at *
    have hreach := reach_page hpage hva hle
    have hsplit : n + (len - n) = len := by omega
    refine wp_of_run (run_of_wp (ih (Nat.mod_lt _ (by decide)) (by omega))) ⟨?_, rfl⟩
    have hall := fetch_append (s := s) (m := len - n) hva hreach
    have hsum := reach_append (m := len - n) hva hreach
    rw [hsplit] at hall hsum
    rw [hall, hsum, hfetch, hcount, fetch_page hpage hva hle]
    congr 1
    rw [decide_eq_decide]
    omega

theorem Holds.copyin_eq (hva : va < 2 ^ 64) (len : Nat) :
    copyin pagetable va len s = .ok ((fetch s t va len, decide (reach t va len = len)), s) :=
  h.copyinLoop_eq hva (Nat.lt_succ_self len)

omit h in
/-- What `copyinstr` stores, and whether there is a NUL. -/
def stringOf (bytes : List UInt8) : List UInt8 × Bool :=
  if (bytes.takeWhile (· ≠ 0)).length < bytes.length then (bytes.takeWhile (· ≠ 0) ++ [0], true)
  else (bytes, false)

omit h in
theorem takeWhile_of_length {bytes : List UInt8}
    (h : ¬ (bytes.takeWhile (· ≠ 0)).length < bytes.length) : bytes.takeWhile (· ≠ 0) = bytes :=
  (takeWhile_sublist _).eq_of_length_le (Nat.not_lt.mp h)

omit h in
theorem stringOf_append (left right : List UInt8) : stringOf (left ++ right) =
    if (left.takeWhile (· ≠ 0)).length < left.length then (left.takeWhile (· ≠ 0) ++ [0], true)
    else (left ++ (stringOf right).1, (stringOf right).2) := by
  unfold stringOf
  by_cases hleft : (left.takeWhile (· ≠ 0)).length < left.length
  · have hwhile : (left ++ right).takeWhile (· ≠ 0) = left.takeWhile (· ≠ 0) := by
      rw [takeWhile_append, if_neg (Nat.ne_of_lt hleft)]
    rw [hwhile, if_pos hleft, if_pos (by rw [length_append]; omega)]
  · have hall := takeWhile_of_length hleft
    have hwhile : (left ++ right).takeWhile (· ≠ 0) = left ++ right.takeWhile (· ≠ 0) := by
      rw [takeWhile_append, hall, if_pos rfl]
    rw [hwhile, if_neg hleft, length_append, length_append]
    by_cases hright : (right.takeWhile (· ≠ 0)).length < right.length
    · rw [if_pos (by omega), if_pos hright, append_assoc]
    · rw [if_neg (by omega), if_neg hright]

theorem Holds.copyinstrLoop_eq {fuel max : Nat} (hva : va < 2 ^ 64) (hfuel : max < fuel) :
    copyinstrLoop pagetable fuel va max s = .ok (stringOf (fetch s t va max), s) := by
  apply run_of_wp
  induction fuel generalizing va max with
  | zero => omega
  | succ fuel ih =>
    unfold copyinstrLoop
    rw [wp_ite]
    obtain rfl | hmax := eq_or_ne max 0
    · rw [if_pos rfl]
      exact ⟨rfl, rfl⟩
    rw [if_neg hmax]
    simp only [wp_bind]
    refine h.wp_pageAt ?_
    rw [wp_ite]
    by_cases hpage : pageAt t va = 0
    · rw [if_pos hpage, fetch_of_unmapped hpage]
      exact ⟨rfl, rfl⟩
    rw [if_neg hpage]
    simp only [wp_bind, wp_get, sub_round]
    have hle := chunk_le va max
    have hpos := chunk_pos va hmax
    have hmin := Nat.min_le_right (PGSIZE - va % PGSIZE) max
    have hfetch := next_page va max (fetch s t) fun _ _ => rfl
    generalize min (PGSIZE - va % PGSIZE) max = n at *
    have hreach := reach_page hpage hva hle
    have hsplit : n + (max - n) = max := by omega
    have hall := fetch_append (s := s) (m := max - n) hva hreach
    rw [hsplit, fetch_page hpage hva hle] at hall
    rw [hall, stringOf_append, ByteField.getBytes_length, wp_ite]
    split
    · exact ⟨rfl, rfl⟩
    · rename_i hnonul
      rw [takeWhile_of_length (by rwa [ByteField.getBytes_length]), wp_bind]
      refine wp_of_run (run_of_wp (ih (Nat.mod_lt _ (by decide)) (by omega))) ⟨?_, rfl⟩
      rw [hfetch]

theorem Holds.copyinstr_eq (hva : va < 2 ^ 64) (max : Nat) :
    copyinstr pagetable va max s = .ok (stringOf (fetch s t va max), s) :=
  h.copyinstrLoop_eq hva (Nat.lt_succ_self max)

theorem Holds.fill {pa : Nat} (hpa : pa ∉ t.labels) (bytes : Nat → UInt8) :
    (s.fill pa bytes).Holds img pagetable t rest := by
  refine ⟨h.stores.keeps fun q hq => fill_of_ne _ ?_, h.label, h.accounts.fill pa bytes⟩
  rintro rfl
  exact hpa hq

theorem Holds.copyoutLoop_eq {fuel : Nat} {src : List UInt8}
    (apart : ∀ va, pageAt t va ≠ 0 → pageAt t va ∉ t.labels) (hva : va < 2 ^ 64)
    (hfuel : src.length < fuel) : copyoutLoop pagetable fuel va src s =
      .ok (if reach t va src.length = src.length then 0 else -1, deliver t s va src) := by
  apply run_of_wp
  induction fuel generalizing va src s with
  | zero => omega
  | succ fuel ih =>
    unfold copyoutLoop
    rw [wp_ite]
    obtain rfl | hsrc := eq_or_ne src []
    · rw [if_pos rfl]
      exact ⟨rfl, rfl⟩
    have hlen : src.length ≠ 0 := fun hzero => hsrc (length_eq_zero_iff.mp hzero)
    rw [if_neg hsrc]
    simp only [wp_bind]
    refine h.wp_pageAt ?_
    rw [wp_ite]
    by_cases hpage : pageAt t va = 0
    · rw [if_pos hpage, deliver_of_unmapped hpage,
        reach_of_unmapped hpage (Nat.pos_of_ne_zero hlen), if_neg (Ne.symm hlen)]
      exact ⟨rfl, rfl⟩
    rw [if_neg hpage]
    simp only [wp_bind, wp_modify, sub_round]
    have hle := chunk_le va src.length
    have hpos := chunk_pos va hlen
    have hmin := Nat.min_le_right (PGSIZE - va % PGSIZE) src.length
    have hcount := next_page va src.length (reach t) fun _ _ => rfl
    have hrest : ∀ s' : Vm, _ := fun s' =>
      next_page va src.length (fun a k => deliver t s' a (src.drop (src.length - k)))
        (fun a b => by rw [Nat.sub_zero, drop_length]; rfl)
    generalize min (PGSIZE - va % PGSIZE) src.length = n at *
    have htake : (src.take n).length = n := length_take_of_le hmin
    have hreach := reach_page hpage hva hle
    have hsplit : n + (src.length - n) = src.length := by omega
    have hsum := reach_append (m := src.length - n) hva hreach
    rw [hsplit] at hsum
    have hfirst : deliver t s va (src.take n) = s.fill (pageAt t va)
        (ByteField.putBytes (s.page (pageAt t va)) (va % PGSIZE) (src.take n)) :=
      deliver_page hpage hva (by rw [htake]; exact hle)
    have hall : deliver t s va (src.take n ++ src.drop n) =
        deliver t (deliver t s va (src.take n)) ((va + (src.take n).length) % 2 ^ 64)
          (src.drop n) := deliver_append hva (by rw [htake]; exact hreach)
    rw [take_append_drop, htake, hfirst] at hall
    rw [Nat.sub_sub_self hmin] at hrest
    refine wp_of_run (run_of_wp (ih (h.fill (apart va hpage) _) (Nat.mod_lt _ (by decide))
      (by rw [length_drop]; omega))) ⟨?_, ?_⟩
    · rw [length_drop, hcount, hsum]
      congr 1
      rw [eq_iff_iff]
      omega
    · rw [hall, hrest]

theorem Holds.copyout_eq {src : List UInt8} (apart : ∀ va, pageAt t va ≠ 0 → pageAt t va ∉ t.labels)
    (hva : va < 2 ^ 64) :
    copyout pagetable va src s =
      .ok (if reach t va src.length = src.length then 0 else -1, deliver t s va src) :=
  h.copyoutLoop_eq apart hva (Nat.lt_succ_self _)

end

end Vm

end Xv6
