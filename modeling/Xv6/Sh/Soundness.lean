import Xv6.Sh.Scanner

/-! Every function of the parser ends, and what it returns derives from the tokens it has taken. -/
namespace Xv6.Sh

open Function
open Lib Lib.Exec

def ExecCmd.ofSpans (ws : List (Nat × Nat)) : ExecCmd where
  argv i := ws[i.val]?.map Prod.fst
  eargv i := ws[i.val]?.map Prod.snd

def Tree.cmd : Tree (Nat × Nat) → Cmd
  | exec args => .exec (.ofSpans args)
  | redir cmd r => .redir cmd.cmd r.file.1 r.file.2 r.mode r.fd
  | pipe left right => .pipe left.cmd right.cmd
  | list left right => .list left.cmd right.cmd
  | back cmd => .back cmd.cmd

theorem Tree.redirs_append {α : Type} (T : Tree α) (rs rs' : List (Redir α)) :
    T.redirs (rs ++ rs') = (T.redirs rs).redirs rs' := List.foldl_append

theorem Tree.withNode_redirs {node : ExecCmd} {T T' : Tree (Nat × Nat)}
    (h : T.cmd.withNode node = T'.cmd) (rs : List (Redir (Nat × Nat))) :
    (T.redirs rs).cmd.withNode node = (T'.redirs rs).cmd := by
  unfold redirs
  induction rs generalizing T T' with
  | nil => exact h
  | cons r rs ih =>
    refine ih ?_
    rw [cmd, Cmd.withNode, h, cmd]

variable {ws : List (Nat × Nat)}

theorem ExecCmd.store_ofSpans (h : ws.length < MAXARGS) (q e s : Nat) :
    (ExecCmd.ofSpans ws).store ws.length (some q) (some e) s =
      .ok (.ofSpans (ws ++ [(q, e)]), s) := by
  rw [store, dif_pos h]
  have hstore (f : Nat × Nat → Nat) : update (fun i : Fin MAXARGS => ws[i.val]?.map f)
      ⟨ws.length, h⟩ (some (f (q, e))) = fun i : Fin MAXARGS => (ws ++ [(q, e)])[i.val]?.map f := by
    funext i
    rcases Nat.lt_trichotomy i ws.length with hlt | heq | hgt
    · rw [update_of_ne (fun hi => by simp [hi] at hlt), List.getElem?_append_left hlt]
    · obtain rfl : i = ⟨ws.length, h⟩ := Fin.ext heq
      simp
    · rw [update_of_ne (fun hi => by simp [hi] at hgt), List.getElem?_eq_none hgt.le,
        List.getElem?_eq_none (by rw [List.length_append]; exact hgt)]
  exact congrArg (fun c => Except.ok (c, s))
    (congrArg₂ ExecCmd.mk (hstore Prod.fst) (hstore Prod.snd))

theorem ExecCmd.store_none (h : ws.length < MAXARGS) (s : Nat) :
    (ExecCmd.ofSpans ws).store ws.length none none s = .ok (.ofSpans ws, s) := by
  rw [store, dif_pos h]
  have hstore (f : Nat × Nat → Nat) : update (fun i : Fin MAXARGS => ws[i.val]?.map f)
      ⟨ws.length, h⟩ none = fun i : Fin MAXARGS => ws[i.val]?.map f :=
    update_eq_self_iff.mpr (by simp)
  exact congrArg (fun c => Except.ok (c, s))
    (congrArg₂ ExecCmd.mk (hstore Prod.fst) (hstore Prod.snd))

section Parser

variable {buf : List UInt8}

/-- From `s` to `s'` the parser has taken `ts`. -/
structure Takes (buf : List UInt8) (s s' : Nat) (ts : List (Token (Nat × Nat))) : Prop where
  spans_eq : spans buf s = ts ++ spans buf s'
  le : s ≤ s'
  bound : s' ≤ buf.length

namespace Takes

variable {s s₁ s₂ : Nat} {ts us : List (Token (Nat × Nat))}

theorem trans (h : Takes buf s s₁ ts) (h' : Takes buf s₁ s₂ us) : Takes buf s s₂ (ts ++ us) where
  spans_eq := by rw [h.spans_eq, h'.spans_eq, List.append_assoc]
  le := h.le.trans h'.le
  bound := h'.bound

end Takes

/-- `peek` takes nothing and tells how the rest starts. -/
theorem wp_peek_takes {s : Nat} (hs : s ≤ buf.length) (hnul : 0 ∉ buf) {toks : List UInt8}
    (hsymbols : toks ⊆ symbols) {Q : Bool → Nat → Prop} {E : Failure → Prop}
    (post : ∀ s', Takes buf s s' [] → Q (Starts toks (spans buf s')) s') :
    wp (peek buf toks) Q E s :=
  wp_peek hs hnul hsymbols fun s' hle hbound heq => heq ▸ post s' ⟨heq.symm, hle, hbound⟩

theorem wp_gettoken_of_starts {s : Nat} (hs : s ≤ buf.length) (hnul : 0 ∉ buf) {toks : List UInt8}
    (hstarts : Starts toks (spans buf s) = true) {Q : Tok × Nat × Nat → Nat → Prop}
    {E : Failure → Prop}
    (post : ∀ t q e s', t.symbol.any toks.contains = true → s < s' → Takes buf s s' [t] →
      Q (t.kind, q, e) s') : wp (gettoken buf) Q E s := by
  refine wp_gettoken hs hnul (fun hnone => ?_) fun t ts heq q e s' hlt hbound hts _ => ?_
  · rw [hnone] at hstarts
    cases hstarts
  · rw [heq] at hstarts
    exact post t q e s' hstarts hlt ⟨by rw [heq, hts]; rfl, hlt.le, hbound⟩

theorem wp_parseredirsLoop {fuel s : Nat} (hs : s ≤ buf.length) (hnul : 0 ∉ buf)
    (hfuel : buf.length - s < fuel) (T : Tree (Nat × Nat)) :
    wp (parseredirsLoop buf fuel T.cmd)
      (fun c s' => ∃ ts rs, Takes buf s s' ts ∧ Redirs ts rs ∧ c = (T.redirs rs).cmd)
      (fun e => e = .missingFile) s := by
  induction fuel generalizing s T with
  | zero => omega
  | succ fuel ih =>
    rw [parseredirsLoop, wp_bind]
    refine wp_peek_takes hs hnul (by decide) fun s₁ hpeek => ?_
    rw [wp_ite]
    split
    · rename_i hstarts
      rw [wp_bind]
      refine wp_gettoken_of_starts hpeek.bound hnul hstarts fun op q e s₂ hop hlt hget => ?_
      rw [wp_bind]
      refine wp_gettoken hget.bound hnul (fun _ _ _ _ _ _ => rfl)
        fun t ts heq q e s₃ hlt' hbound hts hat => ?_
      rw [wp_ite]
      split
      · exact rfl
      · rename_i hword
        cases t <;> simp only [Token.kind, ne_eq, reduceCtorEq, not_false_eq_true,
          not_true_eq_false] at hword
        rename_i w
        obtain rfl := hat w rfl
        have htakes : Takes buf s s₃ [op, .word (q, e)] := by
          refine (hpeek.trans hget).trans ⟨?_, hlt'.le, hbound⟩
          rw [heq, hts]
          rfl
        have hrest := hpeek.le
        -- the three operators that `peek` lets through
        have hround (mk : Nat × Nat → Redir (Nat × Nat)) (hmk : op.redir? = some mk) :
            wp (parseredirsLoop buf fuel (T.redir (mk (q, e))).cmd)
              (fun c s' => ∃ ts rs, Takes buf s s' ts ∧ Redirs ts rs ∧ c = (T.redirs rs).cmd)
              (fun e => e = .missingFile) s₃ := by
          refine wp_post (ih hbound (by omega) _) ?_
          rintro c s' ⟨ts, rs, htail, hrs, rfl⟩
          exact ⟨_, _, htakes.trans htail, .cons hmk hrs, rfl⟩
        cases op <;> simp [Token.symbol] at hop
        · exact hround _ rfl
        · exact hround _ rfl
        · exact hround _ rfl
    · exact ⟨[], [], hpeek, .nil, rfl⟩

theorem wp_parseredirs {s : Nat} (hs : s ≤ buf.length) (hnul : 0 ∉ buf) (T : Tree (Nat × Nat)) :
    wp (parseredirs buf T.cmd)
      (fun c s' => ∃ ts rs, Takes buf s s' ts ∧ Redirs ts rs ∧ c = (T.redirs rs).cmd)
      (fun e => e = .missingFile) s :=
  wp_parseredirsLoop hs hnul (by omega) T

def Reported (e : Failure) : Prop := e ≠ .outOfBounds ∧ e ≠ .outOfFuel

theorem wp_parseArgs {fuel s : Nat} (hs : s ≤ buf.length) (hnul : 0 ∉ buf)
    (hfuel : buf.length - s < fuel) (hargc : ws.length < MAXARGS) (T : Tree (Nat × Nat)) :
    wp (parseArgs buf fuel (.ofSpans ws) ws.length T.cmd)
      (fun c s' => ∃ ts ws' rs, Takes buf s s' ts ∧ Args ts ws' rs ∧
        (ws ++ ws').length < MAXARGS ∧
        c = (.ofSpans (ws ++ ws'), (ws ++ ws').length, (T.redirs rs).cmd))
      Reported s := by
  induction fuel generalizing s ws T with
  | zero => omega
  | succ fuel ih =>
    rw [parseArgs, wp_bind]
    refine wp_peek_takes hs hnul (by decide) fun s₁ hpeek => ?_
    have hdone {s' : Nat} (h : Takes buf s s' []) : ∃ ts ws' rs, Takes buf s s' ts ∧
        Args ts ws' rs ∧ (ws ++ ws').length < MAXARGS ∧
        (ExecCmd.ofSpans ws, ws.length, T.cmd) =
          (.ofSpans (ws ++ ws'), (ws ++ ws').length, (T.redirs rs).cmd) :=
      ⟨[], [], [], h, .nil, by rwa [List.append_nil], by rw [List.append_nil]; rfl⟩
    rw [wp_ite]
    split
    · exact hdone hpeek
    · rw [wp_bind]
      refine wp_gettoken hpeek.bound hnul ?_ fun t ts heq q e s₂ hlt hbound hts hat => ?_
      · intro hnone q s₂ hle hbound hnone'
        exact hdone (hpeek.trans ⟨by rw [hnone, hnone']; rfl, hle, hbound⟩)
      have hkind : t.kind ≠ .eof := by cases t <;> nofun
      dsimp only
      rw [if_neg hkind, wp_ite]
      split
      · exact ⟨nofun, nofun⟩
      · rename_i hword
        cases t <;> simp only [Token.kind, ne_eq, reduceCtorEq, not_false_eq_true,
          not_true_eq_false] at hword
        rename_i w
        obtain rfl := hat w rfl
        have htakes : Takes buf s s₂ [.word (q, e)] :=
          hpeek.trans ⟨by rw [heq, hts]; rfl, hlt.le, hbound⟩
        have hrest := hpeek.le
        rw [wp_bind]
        refine wp_of_run (ExecCmd.store_ofSpans hargc q e s₂) ?_
        rw [wp_ite]
        split
        · exact ⟨nofun, nofun⟩
        · rename_i hmore
          rw [wp_bind]
          refine wp_mono (wp_parseredirs hbound hnul T) ?_ ?_
          · rintro _ s₃ ⟨ts₁, rs, hredirs, hrs, rfl⟩
            have hle := hredirs.le
            have hlen : (ws ++ [(q, e)]).length = ws.length + 1 := List.length_append
            rw [← hlen]
            refine wp_post (ih hredirs.bound (by omega) (by omega) _) ?_
            rintro _ s₄ ⟨ts₂, ws', rs', htail, hargs, hlt, rfl⟩
            rw [List.append_assoc, List.singleton_append] at hlt ⊢
            refine ⟨_, _, _, (htakes.trans hredirs).trans htail, .cons hrs hargs, hlt, ?_⟩
            rw [Tree.redirs_append]
          · rintro _ rfl
            exact ⟨nofun, nofun⟩

theorem wp_parseBacks {fuel s : Nat} (hs : s ≤ buf.length) (hnul : 0 ∉ buf)
    (hfuel : buf.length - s < fuel) (T : Tree (Nat × Nat)) :
    wp (parseBacks buf fuel T.cmd)
      (fun c s' => ∃ n, Takes buf s s' (.replicate n .amp) ∧ c = (T.backs n).cmd)
      (fun _ => False) s := by
  induction fuel generalizing s T with
  | zero => omega
  | succ fuel ih =>
    rw [parseBacks, wp_bind]
    refine wp_peek_takes hs hnul (by decide) fun s₁ hpeek => ?_
    rw [wp_ite]
    split
    · rename_i hstarts
      rw [wp_bind]
      refine wp_gettoken_of_starts hpeek.bound hnul hstarts fun t q e s₂ ht hlt hget => ?_
      have hrest := hpeek.le
      have hbound := hget.bound
      refine wp_post (ih hbound (by omega) T.back) ?_
      rintro _ s₃ ⟨n, htail, rfl⟩
      cases t <;> simp [Token.symbol] at ht
      exact ⟨n + 1, (hpeek.trans hget).trans htail, rfl⟩
    · exact ⟨0, hpeek, rfl⟩

def Nonterminal.parse (buf : List UInt8) : Nonterminal → Nat → Exec Nat Failure Cmd
  | .line => parseline buf
  | .pipe => parsepipe buf
  | .exec => parseexec buf

/-- Calls that may be open with nothing left on the line. -/
def Nonterminal.depth : Nonterminal → Nat
  | .line => 4
  | .pipe => 3
  | .exec => 2

def Parsed (buf : List UInt8) (nt : Nonterminal) (s : Nat) (c : Cmd) (s' : Nat) : Prop :=
  ∃ ts T, Takes buf s s' ts ∧ Derives nt ts T ∧ c = T.cmd

theorem wp_parseblock {fuel s : Nat} (hs : s ≤ buf.length) (hnul : 0 ∉ buf)
    (hstarts : Starts [40] (spans buf s) = true)
    (hline : ∀ s', s < s' → s' ≤ buf.length →
      wp (parseline buf fuel) (Parsed buf .line s') Reported s') :
    wp (parseblock buf (fuel + 1)) (Parsed buf .exec s) Reported s := by
  rw [parseblock, wp_bind]
  refine wp_peek_takes hs hnul (by decide) fun s₁ hpeek => ?_
  rw [hpeek.spans_eq, List.nil_append] at hstarts
  rw [hstarts]
  change wp (_ >>= _) _ _ _
  rw [wp_bind]
  refine wp_gettoken_of_starts hpeek.bound hnul hstarts fun t q e s₂ ht hlt hget => ?_
  obtain rfl : t = .lparen := by cases t <;> simp_all [Token.symbol]
  rw [wp_bind]
  refine wp_post (hline s₂ (hpeek.le.trans_lt hlt) hget.bound) ?_
  rintro _ s₃ ⟨ts, T, htakes, hT, rfl⟩
  rw [wp_bind]
  refine wp_peek_takes htakes.bound hnul (by decide) fun s₄ hpeek' => ?_
  rcases hclose : Starts [41] (spans buf s₄) with _ | _
  · exact ⟨nofun, nofun⟩
  · change wp (_ >>= _) _ _ _
    rw [wp_bind]
    refine wp_gettoken_of_starts hpeek'.bound hnul hclose fun t q e s₅ ht _ hget' => ?_
    obtain rfl : t = .rparen := by cases t <;> simp_all [Token.symbol]
    refine wp_mono (wp_parseredirs hget'.bound hnul T) ?_ ?_
    · rintro _ s₆ ⟨us, rs, hredirs, hrs, rfl⟩
      have hall := ((((hpeek.trans hget).trans htakes).trans hpeek').trans hget').trans hredirs
      refine ⟨_, _, hall, ?_, rfl⟩
      simpa using Derives.block hT hrs
    · rintro _ rfl
      exact ⟨nofun, nofun⟩

/-- Each call takes a token or goes to the next function of the chain. -/
theorem wp_parse (hnul : 0 ∉ buf) (nt : Nonterminal) {fuel s : Nat} (hs : s ≤ buf.length)
    (hfuel : 4 * (buf.length - s) + nt.depth ≤ fuel) :
    wp (nt.parse buf fuel) (Parsed buf nt s) Reported s := by
  induction fuel using Nat.strong_induction_on generalizing nt s with
  | _ fuel ih =>
    rcases fuel with _ | fuel
    · cases nt <;> simp [Nonterminal.depth] at hfuel
    cases nt with
    | line =>
      rw [Nonterminal.parse, parseline, wp_bind]
      simp only [Nonterminal.depth] at hfuel
      refine wp_post (ih fuel (Nat.lt_succ_self _) .pipe hs ?_) ?_
      · simp only [Nonterminal.depth]
        omega
      rintro _ s₁ ⟨ts, T, htakes, hT, rfl⟩
      rw [wp_bind]
      refine wp_mono (wp_parseBacks htakes.bound hnul (by omega) T) ?_ fun _ => False.elim
      rintro _ s₂ ⟨n, hbacks, rfl⟩
      rw [wp_bind]
      refine wp_peek_takes hbacks.bound hnul (by decide) fun s₃ hpeek => ?_
      have hfront := (htakes.trans hbacks).trans hpeek
      rw [List.append_nil] at hfront
      rw [wp_ite]
      split
      · rename_i hstarts
        rw [wp_bind]
        refine wp_gettoken_of_starts hpeek.bound hnul hstarts fun t q e s₄ ht hlt hget => ?_
        obtain rfl : t = .semi := by cases t <;> simp_all [Token.symbol]
        rw [wp_bind]
        have hle := hfront.le
        have hbound := hget.bound
        refine wp_post (ih fuel (Nat.lt_succ_self _) .line hbound ?_) ?_
        · simp only [Nonterminal.depth]
          omega
        rintro _ s₅ ⟨us, U, hright, hU, rfl⟩
        refine ⟨_, .list (T.backs n) U, (hfront.trans hget).trans hright, ?_, rfl⟩
        simpa using Derives.seq n hT hU
      · exact ⟨_, _, hfront, .last n hT, rfl⟩
    | pipe =>
      rw [Nonterminal.parse, parsepipe, wp_bind]
      simp only [Nonterminal.depth] at hfuel
      refine wp_post (ih fuel (Nat.lt_succ_self _) .exec hs ?_) ?_
      · simp only [Nonterminal.depth]
        omega
      rintro _ s₁ ⟨ts, T, htakes, hT, rfl⟩
      rw [wp_bind]
      refine wp_peek_takes htakes.bound hnul (by decide) fun s₂ hpeek => ?_
      have hfront := htakes.trans hpeek
      rw [List.append_nil] at hfront
      rw [wp_ite]
      split
      · rename_i hstarts
        rw [wp_bind]
        refine wp_gettoken_of_starts hpeek.bound hnul hstarts fun t q e s₃ ht hlt hget => ?_
        obtain rfl : t = .pipe := by cases t <;> simp_all [Token.symbol]
        rw [wp_bind]
        have hle := hfront.le
        have hbound := hget.bound
        refine wp_post (ih fuel (Nat.lt_succ_self _) .pipe hbound ?_) ?_
        · simp only [Nonterminal.depth]
          omega
        rintro _ s₄ ⟨us, U, hright, hU, rfl⟩
        refine ⟨_, .pipe T U, (hfront.trans hget).trans hright, ?_, rfl⟩
        simpa using Derives.pipe hT hU
      · exact ⟨_, _, hfront, .single hT, rfl⟩
    | exec =>
      rw [Nonterminal.parse, parseexec, wp_bind]
      simp only [Nonterminal.depth] at hfuel
      refine wp_peek_takes hs hnul (by decide) fun s₁ hpeek => ?_
      have hle := hpeek.le
      rw [wp_ite]
      split
      · rename_i hstarts
        obtain ⟨fuel, rfl⟩ : ∃ n, fuel = n + 1 := ⟨fuel - 1, by omega⟩
        refine wp_post (wp_parseblock hpeek.bound hnul hstarts fun s' hlt hbound => ?_) ?_
        · refine ih fuel (by omega) .line hbound ?_
          simp only [Nonterminal.depth]
          omega
        · rintro _ s' ⟨ts, T, htakes, hT, rfl⟩
          exact ⟨_, _, hpeek.trans htakes, hT, rfl⟩
      · rw [wp_bind]
        refine wp_mono (wp_parseredirs hpeek.bound hnul (.exec [])) ?_ ?_
        · rintro _ s₂ ⟨ts, rs, hredirs, hrs, rfl⟩
          rw [wp_bind]
          change wp (parseArgs buf _ (.ofSpans []) ([] : List (Nat × Nat)).length _) _ _ _
          refine wp_post (wp_parseArgs hredirs.bound hnul (by omega) (by decide) _) ?_
          rintro _ s₃ ⟨us, ws, rs', hrest, hargs, hlen, rfl⟩
          rw [List.nil_append] at hlen ⊢
          rw [← Tree.redirs_append]
          dsimp only
          rw [wp_bind]
          refine wp_of_run (ExecCmd.store_none hlen s₃) ?_
          refine ⟨_, _, (hpeek.trans hredirs).trans hrest, .simple hrs hargs hlen, ?_⟩
          exact Tree.withNode_redirs rfl _
        · rintro _ rfl
          exact ⟨nofun, nofun⟩

end Parser

end Xv6.Sh
