import Mathlib.Data.List.GetD
import Mathlib.Order.Nat
import Xv6.Sh.Grammar

/-! `gettoken` and `peek` in terms of the tokens that are left on the line. -/
namespace Xv6.Sh

open Lib Lib.Exec List

variable {α : Type}

namespace Token

def kind : Token α → Tok
  | word _ => .word
  | pipe => .pipe
  | amp => .amp
  | semi => .semi
  | lparen => .lparen
  | rparen => .rparen
  | lt => .lt
  | gt => .gt
  | append => .append

def symbol : Token α → Option UInt8
  | word _ => none
  | pipe => some 124
  | amp => some 38
  | semi => some 59
  | lparen => some 40
  | rparen => some 41
  | lt => some 60
  | gt => some 62
  | append => some 62

def At (q e : Nat) (t : Token (Nat × Nat)) : Prop := ∀ w, t = word w → w = (q, e)

end Token

def spans (buf : List UInt8) (s : Nat) : List (Token (Nat × Nat)) :=
  lex (fun q w => (q, q + w.length)) s (buf.drop s)

theorem symbol?_cases (c : UInt8) :
    symbol? c = none ∧ symbols.contains c = false ∨
      (c = 124 ∨ c = 40 ∨ c = 41 ∨ c = 59 ∨ c = 38 ∨ c = 60) ∨ c = 62 := by
  unfold symbol?
  split
  all_goals simp_all [symbols]

variable {c : UInt8} {rest : List UInt8}

theorem lex_space (mk : Nat → List UInt8 → α) {pos : Nat} (h : whitespace.contains c) :
    lex mk pos (c :: rest) = lex mk (pos + 1) rest := by
  rw [lex, if_pos h]

theorem lex_dropWhile (mk : Nat → List UInt8 → α) (pos : Nat) (l : List UInt8) :
    lex mk (pos + (l.takeWhile whitespace.contains).length) (l.dropWhile whitespace.contains) =
      lex mk pos l := by
  induction l generalizing pos with
  | nil => rfl
  | cons c rest ih =>
    by_cases h : whitespace.contains c
    · rw [takeWhile_cons_of_pos h, dropWhile_cons_of_pos h, lex_space mk h, ← ih,
        length_cons, Nat.add_right_comm, Nat.add_assoc pos]
    · rw [takeWhile_cons_of_neg h, dropWhile_cons_of_neg h]
      rfl

theorem drop_length_takeWhile (p : UInt8 → Bool) (l : List UInt8) :
    l.drop (l.takeWhile p).length = l.dropWhile p := by
  induction l with
  | nil => rfl
  | cons c rest ih =>
    by_cases h : p c
    · rw [takeWhile_cons_of_pos h, dropWhile_cons_of_pos h]
      exact ih
    · rw [takeWhile_cons_of_neg h, dropWhile_cons_of_neg h]
      rfl

section Cursor

variable (buf : List UInt8)

theorem drop_skipSpace (s : Nat) :
    buf.drop (skipSpace buf s) = (buf.drop s).dropWhile whitespace.contains := by
  rw [skipSpace, ← drop_drop, drop_length_takeWhile]

theorem spans_skipSpace (s : Nat) : spans buf (skipSpace buf s) = spans buf s := by
  rw [spans, drop_skipSpace]
  exact lex_dropWhile _ s _

theorem le_skipSpace (s : Nat) : s ≤ skipSpace buf s := Nat.le_add_right _ _

variable {buf} {s : Nat}

theorem skipSpace_le (hs : s ≤ buf.length) : skipSpace buf s ≤ buf.length := by
  have hlen := (takeWhile_sublist (l := buf.drop s) whitespace.contains).length_le
  rw [length_drop] at hlen
  unfold skipSpace
  omega

theorem skipSpace_cases (hs : s ≤ buf.length) :
    spans buf s = [] ∧ skipSpace buf s = buf.length ∨
      ∃ c rest, buf.drop (skipSpace buf s) = c :: rest ∧ whitespace.contains c = false := by
  rcases hdrop : buf.drop (skipSpace buf s) with _ | ⟨c, rest⟩
  · have hend := drop_eq_nil_iff.mp hdrop
    refine .inl ⟨?_, Nat.le_antisymm (skipSpace_le hs) hend⟩
    rw [← spans_skipSpace, spans, hdrop, lex]
  · refine .inr ⟨c, rest, rfl, ?_⟩
    rw [drop_skipSpace] at hdrop
    have hhead := List.head?_dropWhile_not whitespace.contains (buf.drop s)
    rw [hdrop] at hhead
    simpa using hhead

theorem getD_of_drop (h : buf.drop s = c :: rest) : buf.getD s 0 = c := by
  have hget := congrArg List.head? h
  rw [List.head?_drop] at hget
  rw [getD_eq_getElem?_getD, hget]
  rfl

theorem drop_succ_of_drop (h : buf.drop s = c :: rest) : buf.drop (s + 1) = rest := by
  rw [← drop_drop, h]
  rfl

theorem getD_succ_of_drop (h : buf.drop s = c :: rest) :
    buf.getD (s + 1) 0 = rest.head?.getD 0 := by
  rw [getD_eq_getElem?_getD, ← List.head?_drop, drop_succ_of_drop h]

theorem lt_length_of_drop (h : buf.drop s = c :: rest) : s < buf.length := by
  have hlen := congrArg List.length h
  rw [length_drop, length_cons] at hlen
  omega

theorem scanToken_of_ne (h : buf.getD s 0 ≠ 0) :
    scanToken buf s =
      match symbol? (buf.getD s 0) with
      | some .gt => if buf.getD (s + 1) 0 = 62 then (.append, s + 2) else (.gt, s + 1)
      | some tok => (tok, s + 1)
      | none => (.word, s + ((buf.drop s).takeWhile inWord).length) := by
  unfold scanToken
  split
  · contradiction
  · rfl

theorem scanToken_eq (hdrop : buf.drop s = c :: rest) (hspace : whitespace.contains c = false)
    (hnul : c ≠ 0) :
    ∃ t e, scanToken buf s = (t.kind, e) ∧ spans buf s = t :: spans buf e ∧ s < e ∧
      e ≤ buf.length ∧ t.At s e ∧ t.symbol = (some c).filter symbols.contains := by
  have hlt := lt_length_of_drop hdrop
  have hnext := drop_succ_of_drop hdrop
  have hget := getD_of_drop hdrop
  have hscan := scanToken_of_ne (by rwa [hget])
  rw [hget] at hscan
  have hspans : spans buf s = lex (fun q w => (q, q + w.length)) s (c :: rest) := by
    rw [spans, hdrop]
  rw [lex, if_neg (by rw [hspace]; exact Bool.false_ne_true)] at hspans
  have single (t : Token (Nat × Nat)) (htok : scanToken buf s = (t.kind, s + 1))
      (hrest : spans buf s = t :: lex (fun q w => (q, q + w.length)) (s + 1) rest)
      (hnot : ∀ w, t ≠ .word w) (hsymbol : t.symbol = (some c).filter symbols.contains) :
      ∃ t e, scanToken buf s = (t.kind, e) ∧ spans buf s = t :: spans buf e ∧ s < e ∧
        e ≤ buf.length ∧ t.At s e ∧ t.symbol = (some c).filter symbols.contains :=
    ⟨t, s + 1, htok, by rw [hrest, spans, hnext], Nat.lt_succ_self s, hlt,
      fun w hw => absurd hw (hnot w), hsymbol⟩
  rcases symbol?_cases c with ⟨hsym, hnot⟩ | hone | rfl
  · have hword : inWord c = true := by rw [inWord, hspace, hnot]; rfl
    have hlen : ((buf.drop s).takeWhile inWord).length = (c :: rest.takeWhile inWord).length := by
      rw [hdrop, takeWhile_cons_of_pos hword]
    have hbound := (takeWhile_sublist (l := buf.drop s) inWord).length_le
    rw [length_drop, hlen] at hbound
    have hrest : buf.drop (s + (c :: rest.takeWhile inWord).length) = rest.dropWhile inWord := by
      rw [← drop_drop, hdrop, length_cons, drop_succ_cons, drop_length_takeWhile]
    refine ⟨.word (s, s + (c :: rest.takeWhile inWord).length),
      s + (c :: rest.takeWhile inWord).length, ?_, ?_, ?_, ?_, ?_, ?_⟩
    · rw [hscan, hsym, hlen]
      rfl
    · rw [hspans, hsym, spans, hrest]
    · exact Nat.lt_add_of_pos_right (Nat.succ_pos _)
    · omega
    · exact fun _ hw => (Token.word.inj hw).symm
    · rw [Option.filter_some, hnot]
      rfl
  · rcases hone with rfl | rfl | rfl | rfl | rfl | rfl
    · exact single .pipe hscan hspans (by simp) rfl
    · exact single .lparen hscan hspans (by simp) rfl
    · exact single .rparen hscan hspans (by simp) rfl
    · exact single .semi hscan hspans (by simp) rfl
    · exact single .amp hscan hspans (by simp) rfl
    · exact single .lt hscan hspans (by simp) rfl
  · change _ = if _ then _ else _ at hscan
    change _ = if _ then _ else _ at hspans
    rw [getD_succ_of_drop hdrop] at hscan
    rcases rest with _ | ⟨c, rest⟩
    · exact single .gt hscan hspans (by simp) rfl
    by_cases hc : c = 62
    · rw [if_pos (by simpa using hc)] at hscan hspans
      refine ⟨.append, s + 2, hscan, ?_, by omega, lt_length_of_drop hnext, (by rintro _ ⟨⟩), rfl⟩
      rw [hspans, spans, drop_succ_of_drop hnext]
      rfl
    · rw [if_neg (by simpa using hc)] at hscan hspans
      exact single .gt hscan hspans (by simp) rfl

theorem wp_gettoken (hs : s ≤ buf.length) (hnul : 0 ∉ buf) {Q : Tok × Nat × Nat → Nat → Prop}
    {E : Failure → Prop}
    (eof : spans buf s = [] → ∀ q s', s ≤ s' → s' ≤ buf.length → spans buf s' = [] →
      Q (.eof, q, q) s')
    (token : ∀ t ts, spans buf s = t :: ts → ∀ q e s', s < s' → s' ≤ buf.length →
      spans buf s' = ts → t.At q e → Q (t.kind, q, e) s') : wp (gettoken buf) Q E s := by
  unfold gettoken
  simp only [wp_bind, wp_get, wp_set, wp_pure]
  rcases skipSpace_cases hs with ⟨hnone, hend⟩ | ⟨c, rest, hdrop, hspace⟩
  · have hscan : scanToken buf (skipSpace buf s) = (.eof, skipSpace buf s) := by
      rw [scanToken, hend, getD_eq_default _ _ le_rfl]
      rfl
    rw [hscan]
    refine eof hnone _ _ ((le_skipSpace buf s).trans (le_skipSpace buf _))
      (skipSpace_le (skipSpace_le hs)) ?_
    rw [spans_skipSpace, spans_skipSpace, hnone]
  · have hc : c ≠ 0 := by
      rintro rfl
      exact hnul (mem_of_mem_drop (hdrop ▸ mem_cons_self))
    obtain ⟨t, e, hscan, hspans, hlt, hle, hat, -⟩ := scanToken_eq hdrop hspace hc
    rw [hscan]
    rw [spans_skipSpace] at hspans
    have hprogress : s < skipSpace buf e :=
      (le_skipSpace buf s).trans_lt (hlt.trans_le (le_skipSpace buf e))
    exact token t _ hspans _ e _ hprogress (skipSpace_le hle) (spans_skipSpace buf e) hat

def Starts (toks : List UInt8) : List (Token α) → Bool
  | [] => false
  | t :: _ => t.symbol.any toks.contains

theorem wp_peek (hs : s ≤ buf.length) (hnul : 0 ∉ buf) {toks : List UInt8}
    (hsymbols : toks ⊆ symbols) {Q : Bool → Nat → Prop} {E : Failure → Prop}
    (post : ∀ s', s ≤ s' → s' ≤ buf.length → spans buf s' = spans buf s →
      Q (Starts toks (spans buf s)) s') : wp (peek buf toks) Q E s := by
  unfold peek
  simp only [wp_bind, wp_get, wp_set, wp_pure]
  have hQ := post _ (le_skipSpace buf s) (skipSpace_le hs) (spans_skipSpace buf s)
  rcases skipSpace_cases hs with ⟨hnone, hend⟩ | ⟨c, rest, hdrop, hspace⟩
  · rw [hnone] at hQ
    rw [hend, getD_eq_default _ _ le_rfl]
    rw [hend] at hQ
    exact hQ
  · have hc : c ≠ 0 := by
      rintro rfl
      exact hnul (mem_of_mem_drop (hdrop ▸ mem_cons_self))
    obtain ⟨t, e, -, hspans, -, -, -, hsymbol⟩ := scanToken_eq hdrop hspace hc
    rw [spans_skipSpace] at hspans
    rw [hspans] at hQ
    rw [getD_of_drop hdrop]
    have hstarts : Starts toks (t :: spans buf e) = decide (c ≠ 0 ∧ toks.contains c) := by
      rw [Starts, hsymbol]
      by_cases hmem : c ∈ symbols
      · simp [Option.filter, hmem, hc]
      · have hout : c ∉ toks := fun h => hmem (hsymbols h)
        simp [Option.filter, hmem, hout]
    rwa [← hstarts]

end Cursor

end Xv6.Sh
