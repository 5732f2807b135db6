import Xv6.Vm.AddressSpace
import Xv6.Vm.Isolation

/-! The copy functions of `vm.c` byte by byte. -/
namespace Xv6

open Lib Lib.Exec Lib.Radix Multiset

namespace Vm

variable {img : Image} {rest : Multiset Nat} {s : Vm} {pagetable va n len : Nat} {t : PageTree 3}

/-- Mapped for the user; address 0 is no page. -/
def Open (t : PageTree 3) (v : Nat) : Prop :=
  v < MAXVA / PGSIZE ∧ ∃ pa flags, binding t v = some (pa, flags) ∧ flags &&& PTE_U ≠ 0 ∧ pa ≠ 0

/-- All pages of the range are mapped for the user. -/
def OpenRange (t : PageTree 3) (va len : Nat) : Prop :=
  ∀ v, (∃ a, va ≤ a ∧ a < va + len ∧ a / PGSIZE = v) → Open t v

/-- `n` of the bytes come before the first page that is not mapped for the user. -/
structure Extent (t : PageTree 3) (va len n : Nat) : Prop where
  le : n ≤ len
  before : ∀ j, j < n → Open t ((va + j) / PGSIZE)
  stop : n < len → ¬ Open t ((va + n) / PGSIZE)

def userByte (s : Vm) (t : PageTree 3) (a : Nat) : UInt8 := s.page (pageAt t a) (a % PGSIZE)

theorem pageAt_ne_zero_iff : pageAt t va ≠ 0 ↔ Open t (va / PGSIZE) := by
  have hlt : va < MAXVA ↔ va / PGSIZE < MAXVA / PGSIZE := by
    simp only [MAXVA, PGSIZE]
    omega
  unfold pageAt Open
  by_cases hva : va < MAXVA
  · rw [if_pos hva]
    unfold userPage
    cases hbinding : binding t (va / PGSIZE) with
    | none => simp
    | some b =>
      dsimp only
      by_cases huser : b.2 &&& PTE_U = 0
      · rw [if_pos huser]
        refine iff_of_false (fun hne => hne rfl) ?_
        rintro ⟨-, pa, flags, hb, hflags, -⟩
        cases hb
        exact hflags huser
      · rw [if_neg huser]
        constructor
        · intro hpa
          exact ⟨hlt.mp hva, b.1, b.2, rfl, huser, hpa⟩
        · rintro ⟨-, pa, flags, hb, -, hpa⟩
          cases hb
          exact hpa
  · rw [if_neg hva]
    exact iff_of_false (fun hne => hne rfl) fun h => hva (hlt.mpr h.1)

theorem Open.lt (h : Open t (va / PGSIZE)) : va < MAXVA := by
  have hlt := h.1
  simp only [MAXVA, PGSIZE] at hlt ⊢
  omega

theorem Open.next (h : Open t (va / PGSIZE)) : (va + 1) % 2 ^ 64 = va + 1 := by
  have hlt := h.lt
  simp only [MAXVA] at hlt
  omega

theorem extent_reach (t : PageTree 3) (va len : Nat) : Extent t va len (reach t va len) := by
  induction len generalizing va with
  | zero => exact ⟨Nat.le_refl 0, by rintro _ ⟨⟩, by rintro ⟨⟩⟩
  | succ len ih =>
    unfold reach
    split
    · rename_i hpage
      exact ⟨Nat.zero_le _, (by simp), fun _ hopen => pageAt_ne_zero_iff.mpr hopen hpage⟩
    · rename_i hpage
      have hopen := pageAt_ne_zero_iff.mp hpage
      rw [hopen.next]
      obtain ⟨hle, hbefore, hstop⟩ := ih (va + 1)
      refine ⟨Nat.succ_le_succ hle, ?_, ?_⟩
      · intro j hj
        cases j with
        | zero => exact hopen
        | succ j =>
          have hnext := hbefore j (by omega)
          rwa [Nat.add_right_comm] at hnext
      · intro hlt
        have hnext := hstop (by omega)
        rwa [Nat.add_right_comm] at hnext

namespace Extent

theorem eq_iff (h : Extent t va len n) : n = len ↔ OpenRange t va len := by
  constructor
  · rintro rfl v ⟨a, hge, hlt, rfl⟩
    have hopen := h.before (a - va) (by omega)
    rwa [Nat.add_sub_cancel' hge] at hopen
  · intro hopen
    by_contra hne
    have hlt := Nat.lt_of_le_of_ne h.le hne
    exact h.stop hlt (hopen _ ⟨va + n, by omega, by omega, rfl⟩)

theorem pageAt_ne_zero (h : Extent t va len n) {j : Nat} (hj : j < n) : pageAt t (va + j) ≠ 0 :=
  pageAt_ne_zero_iff.mpr (h.before j hj)

/-- Memory ends before addresses wrap. -/
theorem ne_of_wrap (h : Extent t va len n) (hva : va < 2 ^ 64) (hwrap : 2 ^ 64 < va + len) :
    n ≠ len := by
  rintro rfl
  have hlt := (h.before (2 ^ 64 - va) (by omega)).lt
  rw [Nat.add_sub_cancel' (Nat.le_of_lt hva)] at hlt
  exact absurd hlt (by decide)

end Extent

theorem fetch_eq (s : Vm) (t : PageTree 3) (va len : Nat) :
    fetch s t va len = ByteField.getBytes (userByte s t) va (reach t va len) := by
  induction len generalizing va with
  | zero => rfl
  | succ len ih =>
    unfold fetch reach
    split
    · rfl
    · rename_i hpage
      rw [(pageAt_ne_zero_iff.mp hpage).next, ih, Nat.add_comm (reach _ _ _) 1,
        ByteField.getBytes_add]
      rfl

/-! What `deliver` leaves in memory, where user pages are distinct. -/

theorem deliver_eq (t : PageTree 3) (s : Vm) (va : Nat) (source : List UInt8) :
    deliver t s va source = { s with page := (deliver t s va source).page } := by
  induction source generalizing va s with
  | nil => rfl
  | cons b source ih =>
    unfold deliver
    split
    · rfl
    · rw [ih]
      rfl

theorem deliver_outside {q o : Nat} {source : List UInt8}
    (h : ∀ j, j < reach t va source.length → (pageAt t (va + j), (va + j) % PGSIZE) ≠ (q, o)) :
    (deliver t s va source).page q o = s.page q o := by
  induction source generalizing va s with
  | nil => rfl
  | cons b source ih =>
    rw [List.length_cons] at h
    unfold reach at h
    unfold deliver
    split
    · rfl
    · rename_i hpage
      rw [if_neg hpage, (pageAt_ne_zero_iff.mp hpage).next] at h
      have hfirst := h 0 (Nat.succ_pos _)
      rw [(pageAt_ne_zero_iff.mp hpage).next, ih]
      · obtain rfl | hq := eq_or_ne q (pageAt t va)
        · rw [fill_self, Function.update_of_ne]
          rintro rfl
          exact hfirst rfl
        · rw [fill_of_ne _ hq]
      · intro j hj
        have hnext := h (j + 1) (by omega)
        rwa [← Nat.add_assoc, Nat.add_right_comm] at hnext

/-- Pages mapped for the user are different. -/
theorem userPage_injective (hnodup : (userFrames t).Nodup) {v w pa : Nat} {flags flags' : Nat}
    (hv : v < MAXVA / PGSIZE) (hw : w < MAXVA / PGSIZE) (hbindv : binding t v = some (pa, flags))
    (huserv : flags &&& PTE_U ≠ 0) (hbindw : binding t w = some (pa, flags'))
    (huserw : flags' &&& PTE_U ≠ 0) : v = w := by
  have hlist : ((List.range (MAXVA / PGSIZE)).filterMap fun v =>
      (binding t v).bind fun b => if b.2 &&& PTE_U = 0 then none else some b.1).Nodup := hnodup
  unfold List.Nodup at hlist
  rw [List.pairwise_filterMap, List.pairwise_iff_getElem] at hlist
  have hfv : ((binding t v).bind fun b => if b.2 &&& PTE_U = 0 then none else some b.1) = some pa := by
    rw [hbindv]
    exact if_neg huserv
  have hfw : ((binding t w).bind fun b => if b.2 &&& PTE_U = 0 then none else some b.1) = some pa := by
    rw [hbindw]
    exact if_neg huserw
  rw [← List.length_range (n := MAXVA / PGSIZE)] at hv hw
  rcases Nat.lt_trichotomy v w with hlt | heq | hgt
  · have hdiff := hlist v w hv hw hlt
    rw [List.getElem_range, List.getElem_range] at hdiff
    exact absurd rfl (hdiff pa hfv pa hfw)
  · exact heq
  · have hdiff := hlist w v hw hv hgt
    rw [List.getElem_range, List.getElem_range] at hdiff
    exact absurd rfl (hdiff pa hfw pa hfv)

theorem pageAt_of_binding {pa flags : Nat} (hlt : va / PGSIZE < MAXVA / PGSIZE)
    (hbind : binding t (va / PGSIZE) = some (pa, flags)) (huser : flags &&& PTE_U ≠ 0) :
    pageAt t va = pa := by
  have hmax : va < MAXVA := by
    simp only [MAXVA, PGSIZE] at hlt ⊢
    omega
  unfold pageAt userPage
  rw [if_pos hmax, hbind]
  exact if_neg huser

theorem place_injective (hnodup : (userFrames t).Nodup) {a b : Nat} (ha : pageAt t a ≠ 0)
    (hb : pageAt t b ≠ 0) (hpage : pageAt t a = pageAt t b) (hoff : a % PGSIZE = b % PGSIZE) :
    a = b := by
  obtain ⟨hlta, pa, flags, hbinda, husera, -⟩ := pageAt_ne_zero_iff.mp ha
  obtain ⟨hltb, pb, flags', hbindb, huserb, -⟩ := pageAt_ne_zero_iff.mp hb
  rw [pageAt_of_binding hlta hbinda husera, pageAt_of_binding hltb hbindb huserb] at hpage
  subst hpage
  have hsame := userPage_injective hnodup hlta hltb hbinda husera hbindb huserb
  have hspa := Nat.div_add_mod a PGSIZE
  have hspb := Nat.div_add_mod b PGSIZE
  rw [← hspa, ← hspb, hsame, hoff]

theorem deliver_inside (hnodup : (userFrames t).Nodup) {j : Nat} {source : List UInt8}
    (hj : j < reach t va source.length) :
    userByte (deliver t s va source) t (va + j) = source.getD j 0 := by
  induction source generalizing va s j with
  | nil => exact absurd hj (Nat.not_lt_zero _)
  | cons b source ih =>
    have hextent := extent_reach t va (b :: source).length
    have hpage : pageAt t va ≠ 0 := hextent.pageAt_ne_zero (j := 0) (by omega)
    have hnext := (pageAt_ne_zero_iff.mp hpage).next
    have hreach : reach t va (b :: source).length = reach t (va + 1) source.length + 1 := by
      conv_lhs => unfold reach
      rw [List.length_cons]
      dsimp only
      rw [if_neg hpage, hnext]
    rw [hreach] at hj
    have hdeliver : deliver t s va (b :: source) = deliver t
        (s.fill (pageAt t va) (Function.update (s.page (pageAt t va)) (va % PGSIZE) b)) (va + 1)
        source := by
      conv_lhs => unfold deliver
      rw [if_neg hpage, hnext]
    rw [hdeliver]
    cases j with
    | zero =>
      unfold userByte
      rw [Nat.add_zero va, deliver_outside, fill_self, Function.update_self]
      · rfl
      · intro k hk heq
        have hk' : pageAt t (va + 1 + k) ≠ 0 := (extent_reach t (va + 1) _).pageAt_ne_zero hk
        have hva := place_injective hnodup hk' hpage (congrArg Prod.fst heq) (congrArg Prod.snd heq)
        omega
    | succ j =>
      rw [List.getD_cons_succ, Nat.add_comm j 1, ← Nat.add_assoc]
      exact ih (Nat.lt_of_succ_lt_succ hj)

/-- `copyin` and `copyout` transfer the bytes before the first unmapped page, and succeed
exactly if there is none. -/
theorem copies_exact (h : s.Holds img pagetable t (userFrames t + rest)) (hva : va < 2 ^ 64) :
    (∀ len, ∃ n, Extent t va len n ∧ (n = len ↔ OpenRange t va len) ∧
      copyin pagetable va len s =
        .ok ((ByteField.getBytes (userByte s t) va n, decide (n = len)), s)) ∧
    (∀ src : List UInt8, ∃ n s', Extent t va src.length n ∧
      (n = src.length ↔ OpenRange t va src.length) ∧
      copyout pagetable va src s = .ok (if n = src.length then 0 else -1, s') ∧
      (∀ j, j < n → userByte s' t (va + j) = src.getD j 0) ∧
      (∀ q o, (∀ j, j < n → (pageAt t (va + j), (va + j) % PGSIZE) ≠ (q, o)) →
        s'.page q o = s.page q o) ∧
      s' = { s with page := s'.page }) ∧
    ∀ len, 2 ^ 64 < va + len → ¬ OpenRange t va len := by
  have hnodup : (userFrames t).Nodup :=
    (nodup_add.mp (nodup_add.mp h.accounts.nodup).2.1).1
  have hapart : ∀ va, pageAt t va ≠ 0 → pageAt t va ∉ t.labels := by
    intro va hpage hmem
    exact h.accounts.not_mem_of_mem hmem
      (mem_add.mpr (.inl (mem_userFrames.mpr (userMapped_pageAt hpage))))
  refine ⟨?_, ?_, ?_⟩
  · intro len
    have hextent := extent_reach t va len
    refine ⟨_, hextent, hextent.eq_iff, ?_⟩
    rw [h.copyin_eq hva, fetch_eq]
  · intro src
    have hextent := extent_reach t va src.length
    refine ⟨_, deliver t s va src, hextent, hextent.eq_iff, h.copyout_eq hapart hva, ?_, ?_,
      deliver_eq t s va src⟩
    · exact fun j hj => deliver_inside hnodup hj
    · exact fun q o hne => deliver_outside hne
  · intro len hwrap hopen
    have hextent := extent_reach t va len
    exact hextent.ne_of_wrap hva hwrap (hextent.eq_iff.mpr hopen)

/-- A string of `k` bytes with its NUL, mapped for the user. -/
structure StringAt (s : Vm) (t : PageTree 3) (va k : Nat) : Prop where
  mapped : ∀ j, j ≤ k → Open t ((va + j) / PGSIZE)
  text : ∀ j, j < k → userByte s t (va + j) ≠ 0
  nul : userByte s t (va + k) = 0

variable {bytes : Nat → UInt8} {top : Nat → Option (Nat × Nat)}

theorem takeWhile_getBytes {off k : Nat} (rest : List UInt8)
    (htext : ∀ j, j < k → bytes (off + j) ≠ 0) :
    (ByteField.getBytes bytes off k ++ rest).takeWhile (· ≠ 0) =
      ByteField.getBytes bytes off k ++ rest.takeWhile (· ≠ 0) := by
  refine List.takeWhile_append_of_pos fun b hb => ?_
  obtain ⟨j, hj, rfl⟩ := List.mem_map.mp hb
  exact decide_eq_true (htext j (List.mem_range.mp hj))

theorem stringOf_of_nul {off count k : Nat} (hk : k < count)
    (htext : ∀ j, j < k → bytes (off + j) ≠ 0) (hnul : bytes (off + k) = 0) :
    stringOf (ByteField.getBytes bytes off count) = (ByteField.getBytes bytes off k ++ [0], true) := by
  obtain ⟨m, rfl⟩ : ∃ m, count = k + (1 + m) := ⟨count - k - 1, by omega⟩
  have hwhile : (ByteField.getBytes bytes off (k + (1 + m))).takeWhile (· ≠ 0) =
      ByteField.getBytes bytes off k := by
    rw [ByteField.getBytes_add, takeWhile_getBytes _ htext, ByteField.getBytes_add]
    change _ ++ (bytes (off + k) :: _).takeWhile _ = _
    rw [hnul, List.takeWhile_cons_of_neg (by simp), List.append_nil]
  unfold stringOf
  rw [hwhile, if_pos]
  rw [ByteField.getBytes_length, ByteField.getBytes_length]
  omega

theorem stringOf_of_text {off count : Nat} (htext : ∀ j, j < count → bytes (off + j) ≠ 0) :
    stringOf (ByteField.getBytes bytes off count) = (ByteField.getBytes bytes off count, false) := by
  have hwhile := takeWhile_getBytes [] htext
  rw [List.append_nil, List.takeWhile_nil, List.append_nil] at hwhile
  unfold stringOf
  rw [hwhile, if_neg (Nat.lt_irrefl _)]

section String

variable {max : Nat} (h : s.Holds img pagetable t rest) (hva : va < 2 ^ 64)

include h hva

theorem copyinstr_of_string {k : Nat} (hk : k < max) (hstring : StringAt s t va k) :
    copyinstr pagetable va max s =
      .ok ((ByteField.getBytes (userByte s t) va k ++ [0], true), s) := by
  have hextent := extent_reach t va max
  have hreach : k < reach t va max := by
    by_contra hge
    exact hextent.stop (by omega) (hstring.mapped _ (by omega))
  rw [h.copyinstr_eq hva, fetch_eq, stringOf_of_nul hreach hstring.text hstring.nul]

theorem copyinstr_of_none (hnone : ∀ k, k < max → ¬ StringAt s t va k) :
    copyinstr pagetable va max s =
      .ok ((ByteField.getBytes (userByte s t) va (reach t va max), false), s) := by
  have hextent := extent_reach t va max
  have htext : ∀ j, j < reach t va max → userByte s t (va + j) ≠ 0 := by
    intro j
    induction j using Nat.strong_induction_on with
    | _ j ih =>
    intro hj hnul
    -- the first NUL would end a string
    refine hnone j (hj.trans_le hextent.le) ⟨?_, ?_, hnul⟩
    · exact fun i hi => hextent.before i (by omega)
    · exact fun i hi => ih i hi (by omega)
  rw [h.copyinstr_eq hva, fetch_eq, stringOf_of_text htext]

/-- A good buffer holds a string. -/
theorem fetchstr_text {buf : List UInt8} {r : Int} {s' : Vm}
    (hrun : fetchstr pagetable va max s = .ok ((buf, r), s')) (hr : 0 ≤ r) :
    ∃ text, buf = text ++ [0] ∧ 0 ∉ text ∧ r = text.length ∧ text.length < max := by
  have hpost : wp (fetchstr pagetable va max) (fun p _ => 0 ≤ p.2 → ∃ text,
      p.1 = text ++ [0] ∧ 0 ∉ text ∧ p.2 = text.length ∧ text.length < max) (fun _ => False) s := by
    unfold fetchstr
    rw [wp_bind]
    by_cases hstring : ∃ k, k < max ∧ StringAt s t va k
    · obtain ⟨k, hk, hstring⟩ := hstring
      refine wp_of_run (copyinstr_of_string h hva hk hstring) ?_
      rw [wp_pure]
      refine fun _ => ⟨_, rfl, ?_, ?_, ?_⟩
      · intro hmem
        obtain ⟨j, hj, hzero⟩ := List.mem_map.mp hmem
        exact hstring.text j (List.mem_range.mp hj) hzero
      · rw [if_pos rfl, List.length_append]
        rfl
      · rw [ByteField.getBytes_length]
        exact hk
    · refine wp_of_run (copyinstr_of_none h hva fun k hk hat => hstring ⟨k, hk, hat⟩) ?_
      rw [wp_pure]
      exact fun hneg => absurd (show (0 : Int) ≤ -1 from hneg) (by decide)
  exact post_of_wp hpost hrun hr

end String

/-- `copyinstr` succeeds exactly if a string ends before the limit, and copies it whatever lies
behind; good buffers of `fetchstr` and `argstr` hold strings. -/
theorem copyinstr_exact (h : s.Holds img pagetable t rest) (hva : va < 2 ^ 64) (max : Nat) :
    (∀ k, k < max → StringAt s t va k → copyinstr pagetable va max s =
      .ok ((ByteField.getBytes (userByte s t) va k ++ [0], true), s)) ∧
    ((∀ k, k < max → ¬ StringAt s t va k) → ∃ buf, buf.length ≤ max ∧
      copyinstr pagetable va max s = .ok ((buf, false), s)) ∧
    (∀ k, k < max → StringAt s t va k → ∀ img' s' pagetable' t' rest',
      s'.Holds img' pagetable' t' rest' →
      (∀ j, j ≤ k → Open t' ((va + j) / PGSIZE) ∧ userByte s' t' (va + j) = userByte s t (va + j)) →
      ∃ r, copyinstr pagetable va max s = .ok (r, s) ∧
        copyinstr pagetable' va max s' = .ok (r, s')) ∧
    (∀ buf r s', fetchstr pagetable va max s = .ok ((buf, r), s') → 0 ≤ r →
      ∃ text, buf = text ++ [0] ∧ 0 ∉ text ∧ r = text.length ∧ text.length < max) ∧
    ∀ trapframe n buf r s', argstr trapframe pagetable n max s = .ok ((buf, r), s') → 0 ≤ r →
      ∃ text, buf = text ++ [0] ∧ 0 ∉ text ∧ r = text.length ∧ text.length < max := by
  refine ⟨fun k hk => copyinstr_of_string h hva hk, ?_, ?_, ?_, ?_⟩
  · intro hnone
    refine ⟨_, ?_, copyinstr_of_none h hva hnone⟩
    rw [ByteField.getBytes_length]
    exact reach_le t va max
  · intro k hk hstring img' s' pagetable' t' rest' h' hsame
    have hstring' : StringAt s' t' va k := by
      refine ⟨fun j hj => (hsame j hj).1, ?_, ?_⟩
      · intro j hj
        rw [(hsame j (Nat.le_of_lt hj)).2]
        exact hstring.text j hj
      · rw [(hsame k (Nat.le_refl k)).2]
        exact hstring.nul
    refine ⟨_, copyinstr_of_string h hva hk hstring, ?_⟩
    rw [copyinstr_of_string h' hva hk hstring']
    have hbytes : ByteField.getBytes (userByte s' t') va k = ByteField.getBytes (userByte s t) va k :=
      ByteField.getBytes_congr fun j hj => (hsame j (Nat.le_of_lt hj)).2
    rw [hbytes]
  · exact fun buf r s' hrun hr => fetchstr_text h hva hrun hr
  · intro trapframe n buf r s' hrun hr
    have hpost : wp (argstr trapframe pagetable n max) (fun p _ => 0 ≤ p.2 → ∃ text,
        p.1 = text ++ [0] ∧ 0 ∉ text ∧ p.2 = text.length ∧ text.length < max)
        (fun _ => True) s := by
      unfold argstr argraw
      rw [wp_bind, wp_ite]
      split
      · simp only [wp_bind, wp_get, wp_pure]
        have haddr : s.entry trapframe (14 + n) < 2 ^ 64 := ByteField.getLE_lt _ _ _
        unfold wp
        split
        · rename_i p s'' hfetch
          exact fun hp => fetchstr_text h haddr hfetch hp
        · trivial
      · exact trivial
    exact post_of_wp hpost hrun hr

/-! An address space with one page of user memory. -/

def userFrame (t : PageTree 3) (v : Nat) : Option Nat :=
  (binding t v).bind fun b => if b.2 &&& PTE_U = 0 then none else some b.1

theorem filterMap_userFrame_le (t : PageTree 3) (n : Nat) :
    (Multiset.range n).filterMap (userFrame t) ≤ frames t 0 n := by
  induction n with
  | zero => exact zero_le _
  | succ n ih =>
    have hsplit : frames t 0 (n + 1) = frames t n 1 + frames t 0 n := by
      rw [frames_add, Nat.zero_add, add_comm]
    rw [range_succ, hsplit]
    cases huser : userFrame t n with
    | none =>
      rw [filterMap_cons_none _ _ huser]
      exact ih.trans (le_add_left _ _)
    | some pa =>
      obtain ⟨b, hbinding, hif⟩ := Option.bind_eq_some_iff.mp huser
      obtain ⟨x, hx, rfl⟩ := Option.map_eq_some_iff.mp hbinding
      have hpa : x.pa = pa := by
        split at hif
        · cases hif
        · exact Option.some.inj hif
      rw [filterMap_cons_some _ _ _ huser, frames_one hx, hpa, singleton_add]
      exact cons_le_cons _ ih

theorem Space.userFrames_le (h : s.Space img pagetable n top t rest)
    (hclosed : ∀ v pa flags, top v = some (pa, flags) → flags &&& PTE_U = 0) :
    userFrames t ≤ frames t 0 n := by
  have hle : n ≤ MAXVA / PGSIZE := h.le.trans (by decide)
  have huser : userFrames t = (Multiset.range n).filterMap (userFrame t) := by
    obtain ⟨k, hk⟩ := Nat.exists_eq_add_of_le hle
    have hdef : userFrames t = (Multiset.range (MAXVA / PGSIZE)).filterMap (userFrame t) := rfl
    have habove : ((Multiset.range k).map (n + ·)).filterMap (userFrame t) = 0 := by
      refine eq_zero_of_forall_notMem fun q hq => ?_
      obtain ⟨v, hv, huser⟩ := (mem_filterMap _ _).mp hq
      obtain ⟨i, hi, rfl⟩ := mem_map.mp hv
      obtain ⟨b, hbinding, hif⟩ := Option.bind_eq_some_iff.mp huser
      have hlt : n + i < MAXVA / PGSIZE := by
        rw [hk]
        exact Nat.add_lt_add_left (mem_range.mp hi) n
      rw [h.above _ (Nat.le_add_right n i) (Vm.lt_NPAGES hlt)] at hbinding
      rw [if_pos (hclosed _ _ _ hbinding)] at hif
      cases hif
    rw [hdef, hk, range_add, filterMap_add, habove, add_zero]
  rw [huser]
  exact filterMap_userFrame_le t n

theorem Space.open_of_fresh {v : Nat} {x : Leaf} (h : s.Space img pagetable n top t rest)
    (hv : v < n) (hx : t.lookup v = some x) (hflags : x.flags = PTE_USER)
    (hzero : s.page x.pa = fun _ => 0) :
    Open t v ∧ ∀ a, a / PGSIZE = v → userByte s t a = 0 := by
  have hlt : v < MAXVA / PGSIZE := (hv.trans_le h.le).trans_le (by decide)
  have hpa : x.pa ≠ 0 := by
    have hmem : x.pa ∈ t.labels + (frames t 0 n + rest) :=
      mem_add.mpr (.inr (mem_add.mpr (.inl (pa_mem_frames hx hv))))
    exact Nat.pos_iff_ne_zero.mp (Image.pos_of_mem (h.holds.accounts.mem_pages hmem))
  have hbinding : binding t v = some (x.pa, PTE_USER) := by
    unfold binding
    rw [hx, Option.map_some, hflags]
  refine ⟨⟨hlt, x.pa, PTE_USER, hbinding, by decide, hpa⟩, ?_⟩
  rintro a rfl
  unfold userByte
  rw [pageAt_of_binding hlt hbinding (by decide), hzero]

theorem OpenRange.mono {len va' len' : Nat} (h : OpenRange t va len) (hge : va ≤ va')
    (hle : va' + len' ≤ va + len) : OpenRange t va' len' := by
  rintro v ⟨a, hlow, hhigh, rfl⟩
  exact h _ ⟨a, hge.trans hlow, hhigh.trans_le hle, rfl⟩

theorem openRange_of_lt {len : Nat} (h : ∀ a, a < len → Open t (a / PGSIZE)) : OpenRange t 0 len := by
  rintro v ⟨a, -, ha, rfl⟩
  exact h a (by omega)

theorem Holds.deliver (h : s.Holds img pagetable t (userFrames t + rest)) (va : Nat)
    (source : List UInt8) :
    (deliver t s va source).Holds img pagetable t (userFrames t + rest) := by
  refine ⟨h.stores.keeps fun q hq => deliver_page_of_not_mapped ?_ _ _, h.label, ?_⟩
  · intro hmapped
    exact h.accounts.not_mem_of_mem hq (mem_add.mpr (.inl (mem_userFrames.mpr hmapped)))
  · unfold Accounts
    rw [freelist_deliver]
    exact h.accounts

end Vm

end Xv6
