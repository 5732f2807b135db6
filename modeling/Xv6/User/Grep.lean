import Mathlib.Data.List.Induction
import Xv6.User.Memmove

/-! `grep.c`. A string is the list of its bytes up to the NUL that the loops stop at. -/
namespace Xv6.Grep

open List

def CARET : UInt8 := 94 -- '^'
def DOLLAR : UInt8 := 36 -- '$'
def STAR : UInt8 := 42 -- '*'
def DOT : UInt8 := 46 -- '.'

/-- `here` searches for what follows `c*`. -/
def matchstar (here : List UInt8 → Bool) (c : UInt8) : List UInt8 → Bool
  | [] => here []
  | t :: text => here (t :: text) || ((t == c || c == DOT) && matchstar here c text)

def matchhere : List UInt8 → List UInt8 → Bool
  | [], _ => true
  | [c], text =>
    if c = DOLLAR then text.isEmpty
    else
      match text with
      | [] => false
      | t :: _ => c == DOT || c == t
  | c :: d :: re, text =>
    if d = STAR then matchstar (matchhere re) c text
    else
      match text with
      | [] => false
      | t :: text => (c == DOT || c == t) && matchhere (d :: re) text

/-- The loop of `match` looks at the empty string too. -/
def matchLoop (re : List UInt8) : List UInt8 → Bool
  | [] => matchhere re []
  | t :: text => matchhere re (t :: text) || matchLoop re text

def matchRe (re text : List UInt8) : Bool :=
  if re.head? = some CARET then matchhere re.tail text else matchLoop re text

/-- What a pattern matches: its first form decides. -/
inductive MatchesAt : List UInt8 → List UInt8 → Prop where
  | empty (text : List UInt8) : MatchesAt [] text
  | star (c : UInt8) (re skipped text : List UInt8) (run : ∀ t ∈ skipped, t = c ∨ c = DOT)
      (rest : MatchesAt re text) : MatchesAt (c :: STAR :: re) (skipped ++ text)
  | dollar : MatchesAt [DOLLAR] []
  | char (c : UInt8) (re : List UInt8) (t : UInt8) (text : List UInt8)
      (unstarred : re.head? ≠ some STAR) (plain : c :: re ≠ [DOLLAR])
      (same : c = DOT ∨ c = t) (rest : MatchesAt re text) : MatchesAt (c :: re) (t :: text)

def Matches (re text : List UInt8) : Prop :=
  if re.head? = some CARET then MatchesAt re.tail text
  else ∃ before after, text = before ++ after ∧ MatchesAt re after

variable {here : List UInt8 → Bool} {c d t : UInt8} {re text : List UInt8}

theorem matchstar_iff : matchstar here c text = true ↔
    ∃ skipped rest, text = skipped ++ rest ∧ (∀ t ∈ skipped, t = c ∨ c = DOT) ∧ here rest = true := by
  induction text with
  | nil => simp [matchstar]
  | cons t text ih =>
    simp only [matchstar, Bool.or_eq_true, Bool.and_eq_true, beq_iff_eq, ih]
    constructor
    · rintro (hnow | ⟨hrun, skipped, rest, rfl, hskip, hrest⟩)
      · exact ⟨[], t :: text, by simp [hnow]⟩
      · exact ⟨t :: skipped, rest, by simp_all⟩
    · rintro ⟨_ | ⟨x, skipped⟩, rest, heq, hskip, hrest⟩
      · exact .inl (by simp_all)
      · obtain ⟨rfl, rfl⟩ := List.cons.inj heq
        exact .inr ⟨hskip t mem_cons_self, skipped, rest, rfl,
          fun y hy => hskip y (mem_cons_of_mem _ hy), hrest⟩

theorem matchesAt_star_iff : MatchesAt (c :: STAR :: re) text ↔
    ∃ skipped rest, text = skipped ++ rest ∧ (∀ t ∈ skipped, t = c ∨ c = DOT) ∧
      MatchesAt re rest := by
  constructor
  · intro h
    cases h with
    | star c re skipped rest run h => exact ⟨skipped, rest, rfl, run, h⟩
    | char c re t text unstarred => exact absurd rfl unstarred
  · rintro ⟨skipped, rest, rfl, run, h⟩
    exact .star c re skipped rest run h

theorem matchesAt_dollar_iff : MatchesAt [DOLLAR] text ↔ text = [] := by
  constructor
  · intro h
    cases h with
    | dollar => rfl
    | char c re t text unstarred plain => exact absurd rfl plain
  · rintro rfl
    exact .dollar

theorem matchesAt_char_iff (unstarred : re.head? ≠ some STAR) (plain : c :: re ≠ [DOLLAR]) :
    MatchesAt (c :: re) text ↔
      ∃ t rest, text = t :: rest ∧ (c = DOT ∨ c = t) ∧ MatchesAt re rest := by
  constructor
  · intro h
    cases h with
    | star => exact absurd rfl unstarred
    | dollar => exact absurd rfl plain
    | char c re t text _ _ same h => exact ⟨t, text, rfl, same, h⟩
  · rintro ⟨t, rest, rfl, same, h⟩
    exact .char c re t rest unstarred plain same h

theorem matchhere_iff : matchhere re text = true ↔ MatchesAt re text := by
  induction re using List.twoStepInduction generalizing text with
  | nil => simp [matchhere, MatchesAt.empty]
  | singleton c =>
    by_cases hdollar : c = DOLLAR
    · simp [matchhere, hdollar, matchesAt_dollar_iff]
    · rw [matchesAt_char_iff (by simp) (by simpa)]
      cases text <;> simp [matchhere, hdollar, MatchesAt.empty]
  | cons_cons c d re ih ih' =>
    by_cases hstar : d = STAR
    · simp [matchhere, hstar, matchstar_iff, matchesAt_star_iff, ih]
    · rw [matchesAt_char_iff (by simpa) (by simp)]
      cases text <;> simp [matchhere, hstar, ih']

theorem matchLoop_iff : matchLoop re text = true ↔
    ∃ before after, text = before ++ after ∧ MatchesAt re after := by
  induction text with
  | nil => simp [matchLoop, matchhere_iff]
  | cons t text ih =>
    simp only [matchLoop, Bool.or_eq_true, matchhere_iff, ih]
    constructor
    · rintro (hnow | ⟨before, after, rfl, hlater⟩)
      · exact ⟨[], t :: text, rfl, hnow⟩
      · exact ⟨t :: before, after, rfl, hlater⟩
    · rintro ⟨_ | ⟨x, before⟩, after, heq, h⟩
      · exact .inl (heq ▸ h)
      · exact .inr ⟨before, after, (List.cons.inj heq).2, h⟩

/-- The matcher decides its pattern language. -/
theorem matchRe_iff (re text : List UInt8) : matchRe re text = true ↔ Matches re text := by
  unfold matchRe Matches
  split
  · exact matchhere_iff
  · exact matchLoop_iff

def NEWLINE : UInt8 := 10

def SIZE : Nat := 1024

/-- Accesses are checked against the size. -/
abbrev Buf := Nat → UInt8

inductive Fault where
  | outOfBounds
  | outOfFuel

section Loop

variable (buf : Buf)

def bytes : Nat → Nat → List UInt8
  | _, 0 => []
  | p, n + 1 => buf p :: bytes (p + 1) n

def store (i : Nat) (x : UInt8) : Except Fault Buf :=
  if i < SIZE then return Function.update buf i x else throw .outOfBounds

def strchr (c : UInt8) : (left : Nat) → (s : Nat) → Except Fault (Option Nat)
  | 0, _ => throw .outOfBounds
  | left + 1, s =>
    if buf s = 0 then return none
    else if buf s = c then return some s
    else strchr c left (s + 1)

def stringAt : (left : Nat) → (s : Nat) → Except Fault (List UInt8)
  | 0, _ => throw .outOfBounds
  | left + 1, s => do
    if buf s = 0 then return []
    else
      let rest ← stringAt left (s + 1)
      return buf s :: rest

def fill (m : Nat) (data : List UInt8) : Except Fault Buf :=
  if m + data.length ≤ SIZE then
    return fun i => if m ≤ i ∧ i < m + data.length then data.getD (i - m) 0 else buf i
  else throw .outOfBounds

def shift (p m : Nat) : Except Fault Buf :=
  if p + m ≤ SIZE then
    return fun i => Ulib.memmove (fun a => buf a.toNat) 0 (.ofNat 64 p) (.ofNat 32 m) (.ofNat 64 i)
  else throw .outOfBounds

end Loop

def grepLines (re : List UInt8) :
    Nat → Buf → Nat → List (List UInt8) → Except Fault (Buf × Nat × List (List UInt8))
  | 0, _, _, _ => throw .outOfFuel
  | fuel + 1, buf, p, out => do
    match ← strchr buf NEWLINE (SIZE - p) p with
    | none => return (buf, p, out)
    | some q =>
      let buf ← store buf q 0
      if matchRe re (← stringAt buf (SIZE - p) p) then
        let buf ← store buf q NEWLINE
        grepLines re fuel buf (q + 1) (out ++ [bytes buf p (q + 1 - p)])
      else grepLines re fuel buf (q + 1) out

/-- What `read` returns with `wish` bytes to be had. -/
def pieceLength (wish request : Nat) (input : List UInt8) : Nat :=
  min (max 1 wish) (min request input.length)

/-- What a `read` returns may depend on the input left. -/
def grepLoop (re : List UInt8) (wish : Nat → Nat) :
    Nat → Buf → Nat → List UInt8 → List (List UInt8) → Except Fault (List (List UInt8))
  | 0, _, _, _, _ => throw .outOfFuel
  | fuel + 1, buf, m, input, out => do
    let n := pieceLength (wish input.length) (SIZE - m - 1) input
    if n = 0 then return out
    else
      let buf ← fill buf m (input.take n)
      let m := m + n
      let buf ← store buf m 0
      let (buf, p, out) ← grepLines re (SIZE + 1) buf 0 out
      if 0 < m then
        if m < p then throw .outOfBounds
        else
          let buf ← shift buf p (m - p)
          grepLoop re wish fuel buf (m - p) (input.drop n) out
      else grepLoop re wish fuel buf m (input.drop n) out

def grep (re : List UInt8) (wish : Nat → Nat) (buf : Buf) (input : List UInt8) :
    Except Fault (List (List UInt8)) :=
  grepLoop re wish (input.length + 1) buf 0 input []

/-- The lines without their newlines, and what is left. -/
def splitLines : List UInt8 → List (List UInt8) × List UInt8
  | [] => ([], [])
  | c :: text =>
    if c = NEWLINE then ([] :: (splitLines text).1, (splitLines text).2)
    else
      match splitLines text with
      | ([], rest) => ([], c :: rest)
      | (line :: lines, rest) => ((c :: line) :: lines, rest)

/-- The matching lines, with newlines. -/
def matching (re text : List UInt8) : List (List UInt8) :=
  ((splitLines text).1.filter (matchRe re ·)).map (· ++ [NEWLINE])

variable {buf buf' : Buf} {p left : Nat} {l l' line rest : List UInt8}

def Holds (buf : Buf) (p : Nat) (l : List UInt8) : Prop := bytes buf p l.length = l

@[simp] theorem holds_nil : Holds buf p [] := rfl

@[simp] theorem holds_cons : Holds buf p (c :: l) ↔ buf p = c ∧ Holds buf (p + 1) l := by
  simp [Holds, bytes]

theorem holds_append : Holds buf p (l ++ l') ↔ Holds buf p l ∧ Holds buf (p + l.length) l' := by
  induction l generalizing p with
  | nil => simp
  | cons c l ih => simp [ih, and_assoc, Nat.add_assoc, Nat.add_comm 1]

theorem holds_iff : Holds buf p l ↔ ∀ i, i < l.length → buf (p + i) = l.getD i 0 := by
  induction l generalizing p with
  | nil => simp
  | cons c l ih =>
    rw [holds_cons, ih, length_cons, Nat.forall_lt_succ_left]
    simp [Nat.add_assoc, Nat.add_comm 1]

theorem Holds.congr {p' : Nat} (h : Holds buf p l)
    (same : ∀ i, i < l.length → buf' (p' + i) = buf (p + i)) : Holds buf' p' l :=
  holds_iff.mpr fun i hi => (same i hi).trans (holds_iff.mp h i hi)

theorem Holds.update (h : Holds buf p l) {i : Nat} (x : UInt8) (hi : i < p ∨ p + l.length ≤ i) :
    Holds (Function.update buf i x) p l :=
  h.congr fun _ _ => Function.update_of_ne (by omega) _ _

theorem store_eq {i : Nat} (hi : i < SIZE) (x : UInt8) :
    store buf i x = pure (Function.update buf i x) := if_pos hi

/-- The search ends at `d`. -/
theorem strchr_eq (hline : c ∉ line) (hnul : 0 ∉ line) (h : Holds buf p (line ++ d :: l))
    (hd : d = 0 ∨ d = c) (hleft : line.length < left) :
    strchr buf c left p = pure (if d = 0 then none else some (p + line.length)) := by
  induction line generalizing p left with
  | nil =>
    cases left with
    | zero => cases hleft
    | succ left =>
      rw [strchr, (holds_cons.mp h).1]
      by_cases hzero : d = 0
      · simp [hzero]
      · rw [if_neg hzero, if_neg hzero, if_pos (hd.resolve_left hzero)]
        rfl
  | cons t line ih =>
    rw [cons_append, holds_cons] at h
    rw [mem_cons, not_or] at hnul hline
    cases left with
    | zero => cases hleft
    | succ left =>
      rw [strchr, h.1, if_neg (Ne.symm hnul.1), if_neg (Ne.symm hline.1),
        ih hline.2 hnul.2 h.2 (Nat.lt_of_succ_lt_succ hleft), length_cons, Nat.add_right_comm,
        Nat.add_assoc]

theorem stringAt_eq (hnul : 0 ∉ text) (h : Holds buf p (text ++ [0])) (hleft : text.length < left) :
    stringAt buf left p = pure text := by
  induction text generalizing p left with
  | nil =>
    cases left with
    | zero => cases hleft
    | succ left => exact if_pos (holds_cons.mp h).1
  | cons t text ih =>
    rw [cons_append, holds_cons] at h
    rw [mem_cons, not_or] at hnul
    cases left with
    | zero => cases hleft
    | succ left =>
      rw [stringAt, h.1, if_neg (Ne.symm hnul.1), ih hnul.2 h.2 (Nat.lt_of_succ_lt_succ hleft)]
      simp

theorem splitLines_of_not_mem (h : NEWLINE ∉ text) : splitLines text = ([], text) := by
  induction text with
  | nil => rfl
  | cons c text ih =>
    rw [mem_cons, not_or] at h
    rw [splitLines, if_neg (Ne.symm h.1), ih h.2]

theorem splitLines_line (h : NEWLINE ∉ line) :
    splitLines (line ++ NEWLINE :: text) = (line :: (splitLines text).1, (splitLines text).2) := by
  induction line with
  | nil => simp [splitLines]
  | cons c line ih =>
    rw [mem_cons, not_or] at h
    rw [cons_append, splitLines, if_neg (Ne.symm h.1), ih h.2]

theorem lines_induction {motive : List UInt8 → Prop} (last : ∀ text, NEWLINE ∉ text → motive text)
    (line : ∀ line text, NEWLINE ∉ line → motive text → motive (line ++ NEWLINE :: text))
    (text : List UInt8) : motive text := by
  induction hlen : text.length using Nat.strong_induction_on generalizing text with
  | _ n ih =>
    by_cases hmem : NEWLINE ∈ text
    · obtain ⟨first, rest, rfl, hfirst⟩ := eq_append_cons_of_mem hmem
      refine line first rest hfirst (ih rest.length ?_ rest rfl)
      simp only [← hlen, length_append, length_cons]
      omega
    · exact last text hmem

theorem splitLines_append : splitLines (text ++ l) =
    ((splitLines text).1 ++ (splitLines ((splitLines text).2 ++ l)).1,
      (splitLines ((splitLines text).2 ++ l)).2) := by
  induction text using lines_induction with
  | last text h => simp [splitLines_of_not_mem h]
  | line line text h ih => simp [splitLines_line h, ih]

theorem splitLines_rest (text : List UInt8) :
    (splitLines text).2 <:+ text ∧ NEWLINE ∉ (splitLines text).2 := by
  induction text using lines_induction with
  | last text h => simp [splitLines_of_not_mem h, h]
  | line line text h ih =>
    rw [splitLines_line h]
    exact ⟨ih.1.trans ((suffix_cons _ _).trans (suffix_append _ _)), ih.2⟩

theorem matching_line (h : NEWLINE ∉ line) : matching re (line ++ NEWLINE :: text) =
    (if matchRe re line then [line ++ [NEWLINE]] else []) ++ matching re text := by
  simp only [matching, splitLines_line h, filter_cons]
  split <;> simp

theorem matching_append (text : List UInt8) : matching re (text ++ l) =
    matching re text ++ matching re ((splitLines text).2 ++ l) := by
  simp only [matching]
  rw [splitLines_append, filter_append, map_append]

/-- Nothing changes after the line found. -/
theorem grepLines_line {fuel : Nat} {out : List (List UInt8)} (hline : NEWLINE ∉ line)
    (hnul : 0 ∉ line) (h : Holds buf p (line ++ NEWLINE :: l)) (hsize : p + line.length < SIZE) :
    ∃ buf', grepLines re (fuel + 1) buf p out = grepLines re fuel buf' (p + line.length + 1)
        (out ++ if matchRe re line then [line ++ [NEWLINE]] else []) ∧
      Holds buf' (p + line.length + 1) l := by
  have hstrchr := strchr_eq hline hnul h (.inr rfl) (show _ < SIZE - p by omega)
  obtain ⟨hfront, hnewline, hback⟩ : Holds buf p line ∧ buf (p + line.length) = NEWLINE ∧ _ := by
    simpa [holds_append] using h
  have hstring : stringAt (Function.update buf (p + line.length) 0) (SIZE - p) p = pure line := by
    apply stringAt_eq hnul _ (by omega)
    rw [holds_append]
    exact ⟨hfront.update 0 (.inr (Nat.le_refl _)), by simp⟩
  rw [if_neg (show NEWLINE ≠ 0 by decide)] at hstrchr
  simp only [grepLines, hstrchr, pure_bind, store_eq hsize, hstring]
  by_cases hmatch : matchRe re line = true
  · -- the newline is put back
    have hwritten : Holds buf p (line ++ [NEWLINE]) := by simp [holds_append, hfront, hnewline]
    rw [Holds, length_append, length_singleton] at hwritten
    simp only [hmatch, if_true, Function.update_idem, ← hnewline, Function.update_eq_self]
    rw [hnewline, Nat.add_assoc, Nat.add_sub_cancel_left, hwritten]
    exact ⟨buf, rfl, hback⟩
  · simp only [hmatch]
    exact ⟨_, by simp, hback.update 0 (.inl (Nat.lt_succ_self _))⟩

theorem grepLines_eq (re : List UInt8) {fuel : Nat} (out : List (List UInt8))
    (hfuel : text.length < fuel)
    (hnul : 0 ∉ text)
    (h : Holds buf p (text ++ [0])) (hsize : p + text.length < SIZE) :
    ∃ buf' p', grepLines re fuel buf p out = pure (buf', p', out ++ matching re text) ∧
      p' + (splitLines text).2.length = p + text.length ∧ Holds buf' p' (splitLines text).2 := by
  induction text using lines_induction generalizing fuel buf p out with
  | last text hlast =>
    obtain ⟨fuel, rfl⟩ := Nat.exists_eq_add_of_lt hfuel
    rw [grepLines, strchr_eq hlast hnul h (.inl rfl) (by omega)]
    refine ⟨buf, p, ?_⟩
    simp [splitLines_of_not_mem hlast, matching, (holds_append.mp h).1]
  | line line text hline ih =>
    obtain ⟨fuel, rfl⟩ := Nat.exists_eq_add_of_lt hfuel
    rw [append_assoc, cons_append] at h
    simp only [length_append, length_cons, mem_append, mem_cons, not_or]
      at hsize hnul hfuel
    obtain ⟨buf', hround, hback⟩ := grepLines_line hline hnul.1 h (by omega)
    obtain ⟨buf'', p', hrest, hlen, hholds⟩ :=
      ih _ (show _ < (line ++ NEWLINE :: text).length + fuel by simp; omega) hnul.2.2 hback (by omega)
    rw [hround, hrest, matching_line hline, ← append_assoc, splitLines_line hline]
    refine ⟨buf'', p', rfl, ?_, hholds⟩
    simp only [length_append, length_cons]
    omega

theorem fill_eq (h : Holds buf 0 l) (hsize : l.length + l'.length ≤ SIZE) :
    ∃ buf', fill buf l.length l' = pure buf' ∧ Holds buf' 0 (l ++ l') := by
  refine ⟨_, if_pos hsize, holds_append.mpr ⟨h.congr fun i hi => if_neg (by omega), ?_⟩⟩
  rw [holds_iff]
  intro i hi
  simp [hi]

theorem shift_eq (h : Holds buf p l) (hsize : p + l.length ≤ SIZE) :
    ∃ buf', shift buf p l.length = pure buf' ∧ Holds buf' 0 l := by
  refine ⟨_, if_pos hsize, h.congr fun i hi => ?_⟩
  unfold SIZE at hsize
  have hlen : (BitVec.ofNat 32 l.length).toInt.toNat = l.length := by
    rw [BitVec.toInt_eq_toNat_of_lt (by simp; omega)]
    simp
    omega
  have hmoved := Ulib.moved (n := .ofNat 32 l.length) (fun a => buf a.toNat)
    (show (BitVec.ofNat 64 p).toNat + _ ≤ _ by rw [hlen]; simp; omega)
    (show (0 : BitVec 64).toNat + _ ≤ _ by rw [hlen]; simp; omega)
  have hbyte := hmoved.inside i (by rwa [hlen])
  rw [← BitVec.ofNat_add, show (0 : BitVec 64) + .ofNat 64 i = .ofNat 64 i by simp] at hbyte
  rw [Nat.zero_add, hbyte, BitVec.toNat_ofNat, Nat.mod_eq_of_lt (by omega)]

/-- A line fits into the buffer. -/
theorem length_lt_size {input : List UInt8} (hline : NEWLINE ∉ l)
    (hlines : ∀ line ∈ (splitLines (l ++ input)).1, line.length + 1 < SIZE)
    (hrest : (splitLines (l ++ input)).2.length < SIZE) (hinput : input ≠ []) :
    l.length + 1 < SIZE := by
  rw [splitLines_append, splitLines_of_not_mem hline] at hlines hrest
  by_cases hmem : NEWLINE ∈ input
  · obtain ⟨first, rest, rfl, hfirst⟩ := eq_append_cons_of_mem hmem
    have hfront : NEWLINE ∉ l ++ first := by simp [hline, hfirst]
    have hlen := hlines (l ++ first) (by rw [← append_assoc, splitLines_line hfront]; simp)
    rw [length_append] at hlen
    omega
  · have hall : NEWLINE ∉ l ++ input := by simp [hline, hmem]
    rw [splitLines_of_not_mem hall, length_append] at hrest
    have hpos := length_pos_of_ne_nil hinput
    omega

section Rounds

variable {wish : Nat → Nat} {n : Nat} {input : List UInt8}

/-- The unfinished line goes to the beginning of the buffer. -/
theorem grepLoop_round (re : List UInt8) (fuel : Nat) (out : List (List UInt8)) (h : Holds buf 0 l)
    (hn : pieceLength (wish input.length) (SIZE - l.length - 1) input = n) (hpos : n ≠ 0)
    (hnul : 0 ∉ l ++ input.take n) :
    ∃ buf', Holds buf' 0 (splitLines (l ++ input.take n)).2 ∧
      grepLoop re wish (fuel + 1) buf l.length input out =
        grepLoop re wish fuel buf' (splitLines (l ++ input.take n)).2.length (input.drop n)
          (out ++ matching re (l ++ input.take n)) := by
  have hbounds : n ≤ SIZE - l.length - 1 ∧ n ≤ input.length := by
    unfold pieceLength at hn
    omega
  have hpiece : (input.take n).length = n := by simp [hbounds.2]
  have hlen : (l ++ input.take n).length = l.length + n := by rw [length_append, hpiece]
  obtain ⟨buf₁, hfill, hfilled⟩ := fill_eq h (show l.length + (input.take n).length ≤ SIZE by omega)
  have hstored : Holds (Function.update buf₁ (l.length + n) 0) 0 (l ++ input.take n ++ [0]) := by
    rw [holds_append, hlen]
    exact ⟨hfilled.update 0 (.inr (by omega)), by simp⟩
  obtain ⟨buf₂, p, hscan, hp, hleft⟩ :=
    grepLines_eq re out (show _ < SIZE + 1 by omega) hnul hstored (by omega)
  obtain ⟨buf₃, hshift, hshifted⟩ := shift_eq hleft (by omega)
  have hrest : l.length + n - p = (splitLines (l ++ input.take n)).2.length := by omega
  refine ⟨buf₃, hshifted, ?_⟩
  have hstore : store buf₁ (l.length + n) 0 = _ := store_eq (by omega) 0
  simp only [grepLoop, hn, if_neg hpos, hfill, hstore, hscan, pure_bind, hrest, hshift,
    if_pos (show 0 < l.length + n by omega), if_neg (show ¬ l.length + n < p by omega)]

theorem grepLoop_eq {fuel : Nat} {out : List (List UInt8)} (hfuel : input.length < fuel)
    (hnul : 0 ∉ l ++ input) (hline : NEWLINE ∉ l)
    (h : Holds buf 0 l) (hlines : ∀ line ∈ (splitLines (l ++ input)).1, line.length + 1 < SIZE)
    (hrest : (splitLines (l ++ input)).2.length < SIZE) :
    grepLoop re wish fuel buf l.length input out = pure (out ++ matching re (l ++ input)) := by
  induction fuel generalizing buf l input out with
  | zero => cases hfuel
  | succ fuel ih =>
    by_cases hinput : input = []
    · simp [grepLoop, hinput, pieceLength, matching, splitLines_of_not_mem hline]
    have hfits := length_lt_size hline hlines hrest hinput
    have hsome := length_pos_of_ne_nil hinput
    generalize hn : pieceLength (wish input.length) (SIZE - l.length - 1) input = n
    have hpos : n ≠ 0 := by
      unfold pieceLength at hn
      omega
    have hsplit : l ++ input = (l ++ input.take n) ++ input.drop n := by simp
    rw [hsplit, mem_append, not_or] at hnul
    rw [hsplit, splitLines_append] at hlines hrest
    obtain ⟨buf', hleft, hround⟩ := grepLoop_round re fuel out h hn hpos hnul.1
    obtain ⟨hsuffix, hline'⟩ := splitLines_rest (l ++ input.take n)
    rw [hround, hsplit, matching_append (l ++ input.take n), ← append_assoc out]
    refine ih ?_ ?_ hline' hleft ?_ hrest
    · rw [length_drop]
      omega
    · rw [mem_append, not_or]
      exact ⟨fun hmem => hnul.1 (hsuffix.mem hmem), hnul.2⟩
    · exact fun line hmem => hlines line (mem_append_right _ hmem)

end Rounds

/-- However `read` cuts the input, `grep` writes the matching lines and stays inside `buf`. -/
theorem grep_eq (re : List UInt8) (wish : Nat → Nat) (buf : Buf) (input : List UInt8)
    (hnul : 0 ∉ input) (hlines : ∀ line ∈ (splitLines input).1, (line ++ [NEWLINE]).length ≤ 1023)
    (hrest : (splitLines input).2.length ≤ 1023) :
    grep re wish buf input =
      .ok (((splitLines input).1.filter (matchRe re ·)).map (· ++ [NEWLINE])) := by
  apply grepLoop_eq (l := []) (Nat.lt_succ_self _) hnul not_mem_nil holds_nil
  · intro line hmem
    have hlen := hlines line hmem
    rw [length_append, length_singleton] at hlen
    exact Nat.lt_succ_of_le hlen
  · exact Nat.lt_succ_of_le hrest

/-- Reads of two bytes, so that lines are carried over; the last has no newline. -/
theorem grep_pieces : grep [98] (fun _ => 2) (fun _ => 0) [97, 98, 10, 99, 98, 10, 98] =
    .ok [[97, 98, 10], [99, 98, 10]] :=
  grep_eq [98] (fun _ => 2) (fun _ => 0) [97, 98, 10, 99, 98, 10, 98] (by decide) (by decide)
    (by decide)

end Xv6.Grep
