import Xv6.Sh.Parser

/-! The language of the shell, generic in what stands for a word. -/
namespace Xv6.Sh

open List

inductive Token (α : Type) where
  | word (w : α)
  | pipe
  | amp
  | semi
  | lparen
  | rparen
  | lt
  | gt
  | append
  deriving DecidableEq

structure Redir (α : Type) where
  file : α
  mode : Nat
  fd : Nat

inductive Tree (α : Type) where
  | exec (args : List α)
  | redir (cmd : Tree α) (r : Redir α)
  | pipe (left right : Tree α)
  | list (left right : Tree α)
  | back (cmd : Tree α)

variable {α β : Type}

namespace Token

def map (f : α → β) : Token α → Token β
  | word w => word (f w)
  | pipe => pipe
  | amp => amp
  | semi => semi
  | lparen => lparen
  | rparen => rparen
  | lt => lt
  | gt => gt
  | append => append

def redir? : Token α → Option (α → Redir α)
  | lt => some fun file => ⟨file, O_RDONLY, 0⟩
  | gt => some fun file => ⟨file, O_WRONLY ||| O_CREATE ||| O_TRUNC, 1⟩
  | append => some fun file => ⟨file, O_WRONLY ||| O_CREATE, 1⟩
  | _ => none

end Token

namespace Redir

def map (f : α → β) (r : Redir α) : Redir β := ⟨f r.file, r.mode, r.fd⟩

end Redir

namespace Tree

def map (f : α → β) : Tree α → Tree β
  | exec args => exec (args.map f)
  | redir cmd r => redir (cmd.map f) (r.map f)
  | pipe left right => pipe (left.map f) (right.map f)
  | list left right => list (left.map f) (right.map f)
  | back cmd => back (cmd.map f)

/-- The first redirection is the innermost. -/
def redirs (T : Tree α) (rs : List (Redir α)) : Tree α := rs.foldl redir T

def backs : Nat → Tree α → Tree α
  | 0, T => T
  | n + 1, T => backs n (back T)

def words : Tree α → List α
  | exec args => args
  | redir cmd r => cmd.words ++ [r.file]
  | pipe left right => left.words ++ right.words
  | list left right => left.words ++ right.words
  | back cmd => cmd.words

end Tree

/-- The tokens of a string at `pos`; a word becomes `mk` of its place and text. -/
def lex (mk : Nat → List UInt8 → α) : Nat → List UInt8 → List (Token α)
  | _, [] => []
  | pos, c :: rest =>
    if whitespace.contains c then lex mk (pos + 1) rest
    else
      match symbol? c with
      | some .pipe => .pipe :: lex mk (pos + 1) rest
      | some .lparen => .lparen :: lex mk (pos + 1) rest
      | some .rparen => .rparen :: lex mk (pos + 1) rest
      | some .semi => .semi :: lex mk (pos + 1) rest
      | some .amp => .amp :: lex mk (pos + 1) rest
      | some .lt => .lt :: lex mk (pos + 1) rest
      | some _ =>
        if rest.head? = some 62 then .append :: lex mk (pos + 2) rest.tail
        else .gt :: lex mk (pos + 1) rest
      | none =>
        let w := c :: rest.takeWhile inWord
        .word (mk pos w) :: lex mk (pos + w.length) (rest.dropWhile inWord)
termination_by _ l => l.length
decreasing_by
  all_goals first
    | exact Nat.lt_succ_self _
    | exact Nat.lt_succ_of_le (tail_sublist _).length_le
    | exact Nat.lt_succ_of_le (dropWhile_sublist _).length_le

def tokens (s : List UInt8) : List (Token (List UInt8)) := lex (fun _ w => w) 0 s

inductive Redirs : List (Token α) → List (Redir α) → Prop where
  | nil : Redirs [] []
  | cons {op : Token α} {mk : α → Redir α} {w : α} {ts : List (Token α)} {rs : List (Redir α)} :
    op.redir? = some mk → Redirs ts rs → Redirs (op :: .word w :: ts) (mk w :: rs)

/-- `(word redir*)*`, with the words and the redirections. -/
inductive Args : List (Token α) → List α → List (Redir α) → Prop where
  | nil : Args [] [] []
  | cons {w : α} {ts us : List (Token α)} {ws : List α} {rs rs' : List (Redir α)} :
    Redirs ts rs → Args us ws rs' → Args (.word w :: ts ++ us) (w :: ws) (rs ++ rs')

inductive Nonterminal where
  | line
  | pipe
  | exec

/-- `line ::= pipe '&'* [';' line]`, `pipe ::= exec ['|' pipe]` and
`exec ::= '(' line ')' redir* | redir* (word redir*)*`. -/
inductive Derives : Nonterminal → List (Token α) → Tree α → Prop where
  | last {ts : List (Token α)} {T : Tree α} (n : Nat) :
    Derives .pipe ts T → Derives .line (ts ++ .replicate n .amp) (T.backs n)
  | seq {ts us : List (Token α)} {T U : Tree α} (n : Nat) :
    Derives .pipe ts T → Derives .line us U →
    Derives .line (ts ++ .replicate n .amp ++ .semi :: us) (.list (T.backs n) U)
  | single {ts : List (Token α)} {T : Tree α} : Derives .exec ts T → Derives .pipe ts T
  | pipe {ts us : List (Token α)} {T U : Tree α} :
    Derives .exec ts T → Derives .pipe us U → Derives .pipe (ts ++ .pipe :: us) (.pipe T U)
  | block {ts us : List (Token α)} {T : Tree α} {rs : List (Redir α)} :
    Derives .line ts T → Redirs us rs →
    Derives .exec (.lparen :: ts ++ .rparen :: us) (T.redirs rs)
  | simple {ts us : List (Token α)} {ws : List α} {rs rs' : List (Redir α)} :
    Redirs ts rs → Args us ws rs' → ws.length < MAXARGS →
    Derives .exec (ts ++ us) ((Tree.exec ws).redirs (rs ++ rs'))

section Map

variable (f : α → β)

theorem Token.redir?_map (op : Token α) {mk : α → Redir α} (h : op.redir? = some mk) :
    ∃ mk', (op.map f).redir? = some mk' ∧ ∀ w, mk' (f w) = (mk w).map f := by
  cases op <;> cases h
  all_goals exact ⟨_, rfl, fun _ => rfl⟩

theorem Tree.map_redirs (T : Tree α) (rs : List (Redir α)) :
    (T.redirs rs).map f = (T.map f).redirs (rs.map (Redir.map f)) := by
  unfold redirs
  induction rs generalizing T with
  | nil => rfl
  | cons r rs ih => exact ih _

theorem Tree.map_backs (n : Nat) (T : Tree α) : (T.backs n).map f = (T.map f).backs n := by
  induction n generalizing T with
  | zero => rfl
  | succ n ih => exact ih _

variable {f} {ts : List (Token α)} {ts' : List (Token β)}

theorem Redirs.map {rs : List (Redir α)} (h : Redirs ts rs) :
    Redirs (ts.map (Token.map f)) (rs.map (Redir.map f)) := by
  induction h with
  | nil => exact .nil
  | cons hop _ ih =>
    obtain ⟨mk', hmk, heq⟩ := Token.redir?_map f _ hop
    simp only [map_cons, ← heq]
    exact .cons hmk ih

theorem Args.map {ws : List α} {rs : List (Redir α)} (h : Args ts ws rs) :
    Args (ts.map (Token.map f)) (ws.map f) (rs.map (Redir.map f)) := by
  induction h with
  | nil => exact .nil
  | cons hrs _ ih =>
    rw [map_append, map_append]
    exact .cons hrs.map ih

theorem Derives.map {nt : Nonterminal} {T : Tree α} (h : Derives nt ts T) :
    Derives nt (ts.map (Token.map f)) (T.map f) := by
  induction h with
  | last n _ ih =>
    rw [Tree.map_backs, map_append, map_replicate]
    exact .last n ih
  | seq n _ _ ih ih' =>
    rw [map_append, map_append, map_replicate, map_cons, Tree.map,
      Tree.map_backs]
    exact .seq n ih ih'
  | single _ ih => exact .single ih
  | pipe _ _ ih ih' =>
    rw [map_append]
    exact .pipe ih ih'
  | block _ hrs ih =>
    rw [map_append, Tree.map_redirs]
    exact .block ih hrs.map
  | simple hrs hargs hlen =>
    rw [map_append, Tree.map_redirs, map_append]
    exact .simple hrs.map hargs.map (by rwa [length_map])

theorem Token.map_eq_word {t : Token α} {v : β} (h : t.map f = .word v) :
    ∃ w, t = .word w ∧ f w = v := by
  cases t <;> cases h
  exact ⟨_, rfl, rfl⟩

theorem Token.of_redir?_map {t : Token α} {mk' : β → Redir β} (h : (t.map f).redir? = some mk') :
    ∃ mk, t.redir? = some mk ∧ ∀ w, mk' (f w) = (mk w).map f := by
  cases t <;> cases h
  all_goals exact ⟨_, rfl, fun _ => rfl⟩

theorem Redirs.of_map {rs' : List (Redir β)} (h : Redirs ts' rs') (heq : ts.map (Token.map f) = ts') :
    ∃ rs, Redirs ts rs ∧ rs.map (Redir.map f) = rs' := by
  induction h generalizing ts with
  | nil =>
    rw [map_eq_nil_iff.mp heq]
    exact ⟨[], .nil, rfl⟩
  | cons hop _ ih =>
    obtain ⟨op, rest, rfl, rfl, hrest⟩ := map_eq_cons_iff.mp heq
    obtain ⟨t, ts, rfl, ht, hts⟩ := map_eq_cons_iff.mp hrest
    obtain ⟨w, rfl, rfl⟩ := Token.map_eq_word ht
    obtain ⟨mk, hmk, hsame⟩ := Token.of_redir?_map hop
    obtain ⟨rs, hrs, rfl⟩ := ih hts
    exact ⟨mk w :: rs, .cons hmk hrs, by rw [map_cons, hsame]⟩

theorem Args.of_map {ws' : List β} {rs' : List (Redir β)} (h : Args ts' ws' rs')
    (heq : ts.map (Token.map f) = ts') :
    ∃ ws rs, Args ts ws rs ∧ ws.map f = ws' ∧ rs.map (Redir.map f) = rs' := by
  induction h generalizing ts with
  | nil =>
    rw [map_eq_nil_iff.mp heq]
    exact ⟨[], [], .nil, rfl, rfl⟩
  | cons hrs _ ih =>
    rw [cons_append] at heq
    obtain ⟨t, rest, rfl, ht, hrest⟩ := map_eq_cons_iff.mp heq
    obtain ⟨w, rfl, rfl⟩ := Token.map_eq_word ht
    obtain ⟨ts, us, rfl, hts, hus⟩ := map_eq_append_iff.mp hrest
    obtain ⟨rs, hrs', rfl⟩ := hrs.of_map hts
    obtain ⟨ws, rs₂, hargs, rfl, rfl⟩ := ih hus
    exact ⟨w :: ws, rs ++ rs₂, .cons hrs' hargs, rfl, map_append⟩

theorem Token.replicate_amp_of_map {n : Nat} (h : ts.map (Token.map f) = .replicate n .amp) :
    ts = .replicate n .amp := by
  obtain ⟨hlen, hall⟩ := eq_replicate_iff.mp h
  refine eq_replicate_iff.mpr ⟨by rw [← hlen, length_map], fun t ht => ?_⟩
  have hamp : t.map f = .amp := hall _ (mem_map_of_mem ht)
  cases t <;> first | rfl | cases hamp

theorem Derives.of_map {nt : Nonterminal} {T' : Tree β} (h : Derives nt ts' T')
    (heq : ts.map (Token.map f) = ts') : ∃ T, Derives nt ts T ∧ T.map f = T' := by
  induction h generalizing ts with
  | last n _ ih =>
    obtain ⟨ts, amps, rfl, hts, hamps⟩ := map_eq_append_iff.mp heq
    obtain ⟨T, hT, rfl⟩ := ih hts
    rw [Token.replicate_amp_of_map hamps]
    exact ⟨_, .last n hT, Tree.map_backs f n T⟩
  | seq n _ _ ih ih' =>
    obtain ⟨front, rest, rfl, hfront, hrest⟩ := map_eq_append_iff.mp heq
    obtain ⟨ts, amps, rfl, hts, hamps⟩ := map_eq_append_iff.mp hfront
    obtain ⟨t, us, rfl, ht, hus⟩ := map_eq_cons_iff.mp hrest
    obtain ⟨T, hT, rfl⟩ := ih hts
    obtain ⟨U, hU, rfl⟩ := ih' hus
    cases t <;> simp only [Token.map, reduceCtorEq] at ht
    rw [Token.replicate_amp_of_map hamps]
    exact ⟨_, .seq n hT hU, by rw [Tree.map, Tree.map_backs]⟩
  | single _ ih =>
    obtain ⟨T, hT, rfl⟩ := ih heq
    exact ⟨T, .single hT, rfl⟩
  | pipe _ _ ih ih' =>
    obtain ⟨ts, rest, rfl, hts, hrest⟩ := map_eq_append_iff.mp heq
    obtain ⟨t, us, rfl, ht, hus⟩ := map_eq_cons_iff.mp hrest
    obtain ⟨T, hT, rfl⟩ := ih hts
    obtain ⟨U, hU, rfl⟩ := ih' hus
    cases t <;> simp only [Token.map, reduceCtorEq] at ht
    exact ⟨_, .pipe hT hU, rfl⟩
  | block _ hrs ih =>
    obtain ⟨front, rest, rfl, hfront, hrest⟩ := map_eq_append_iff.mp heq
    obtain ⟨t, ts, rfl, ht, hts⟩ := map_eq_cons_iff.mp hfront
    obtain ⟨t', us, rfl, ht', hus⟩ := map_eq_cons_iff.mp hrest
    obtain ⟨T, hT, rfl⟩ := ih hts
    obtain ⟨rs, hrs', rfl⟩ := hrs.of_map hus
    cases t <;> simp only [Token.map, reduceCtorEq] at ht
    cases t' <;> simp only [Token.map, reduceCtorEq] at ht'
    exact ⟨_, .block hT hrs', Tree.map_redirs f T rs⟩
  | simple hrs hargs hlen =>
    obtain ⟨ts, us, rfl, hts, hus⟩ := map_eq_append_iff.mp heq
    obtain ⟨rs, hrs', rfl⟩ := hrs.of_map hts
    obtain ⟨ws, rs₂, hargs', rfl, rfl⟩ := hargs.of_map hus
    rw [length_map] at hlen
    exact ⟨_, .simple hrs' hargs' hlen, by rw [Tree.map_redirs, map_append, Tree.map]⟩

end Map

end Xv6.Sh
