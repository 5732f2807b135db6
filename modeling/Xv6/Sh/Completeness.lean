import Xv6.Sh.Soundness

/-! The parser returns every tree that its tokens derive, if what follows cannot continue it. -/
namespace Xv6.Sh

open Lib Lib.Exec List

def Nonterminal.follow : Nonterminal → List UInt8
  | .line => [41] -- ")"
  | .pipe => [41, 38, 59] -- ")&;"
  | .exec => [124, 41, 38, 59] -- "|)&;"

def Nonterminal.Ends {α : Type} (nt : Nonterminal) (us : List (Token α)) : Prop :=
  us = [] ∨ Starts nt.follow us = true

section Follow

variable {α : Type} {nt nt' : Nonterminal} {us : List (Token α)} {toks : List UInt8}

theorem Starts.of_subset {toks' : List UInt8} (hsub : toks ⊆ toks') (h : Starts toks us = true) :
    Starts toks' us = true := by
  rcases us with _ | ⟨t, us⟩
  · cases h
  · rw [Starts, Option.any_eq_true] at h ⊢
    obtain ⟨c, hc, hmem⟩ := h
    rw [contains_iff_mem] at hmem
    exact ⟨c, hc, contains_iff_mem.mpr (hsub hmem)⟩

theorem Starts.of_disjoint {toks' : List UInt8} (hdisjoint : toks.all (!toks'.contains ·))
    (h : Starts toks us = true) : Starts toks' us = false := by
  rcases us with _ | ⟨t, us⟩
  · rfl
  · rw [Starts, Option.any_eq_true] at h
    obtain ⟨c, hc, hmem⟩ := h
    rw [contains_iff_mem] at hmem
    rw [Starts, hc, Option.any_some]
    have hout := all_eq_true.mp hdisjoint c hmem
    rwa [Bool.not_eq_true'] at hout

namespace Nonterminal.Ends

theorem mono (h : nt.Ends us) (hsub : nt.follow ⊆ nt'.follow) : nt'.Ends us :=
  h.imp id (Starts.of_subset hsub)

theorem not_starts (h : nt.Ends us) (hdisjoint : nt.follow.all (!toks.contains ·)) :
    Starts toks us = false := by
  rcases h with rfl | h
  · rfl
  · exact Starts.of_disjoint hdisjoint h

end Nonterminal.Ends

theorem Args.not_starts {ts : List (Token α)} {ws : List α} {rs : List (Redir α)}
    (h : Args ts ws rs) (hends : Nonterminal.exec.Ends us)
    (hdisjoint : Nonterminal.exec.follow.all (!toks.contains ·)) :
    Starts toks (ts ++ us) = false := by
  cases h with
  | nil => exact hends.not_starts hdisjoint
  | cons => rfl

theorem Redirs.not_starts_paren {ts : List (Token α)} {rs : List (Redir α)} (h : Redirs ts rs)
    (hus : Starts [40] us = false) : Starts [40] (ts ++ us) = false := by
  cases h with
  | nil => exact hus
  | @cons op _ _ _ _ hop _ => cases op <;> first | rfl | cases hop

end Follow

section Parser

variable {buf : List UInt8} {s : Nat} {ts us : List (Token (Nat × Nat))} {E : Failure → Prop}

theorem Takes.rest {s' : Nat} (h : Takes buf s s' ts) (heq : spans buf s = ts ++ us) :
    spans buf s' = us :=
  append_cancel_left (h.spans_eq.symm.trans heq)

theorem wp_peek_of (b : Bool) {toks : List UInt8} {Q : Bool → Nat → Prop} (hs : s ≤ buf.length)
    (hnul : 0 ∉ buf) (hsymbols : toks ⊆ symbols) (heq : spans buf s = us) (hstarts : Starts toks us = b)
    (post : ∀ s', Takes buf s s' [] → spans buf s' = us → Q b s') : wp (peek buf toks) Q E s := by
  refine wp_peek_takes hs hnul hsymbols fun s' hpeek => ?_
  have heq' : spans buf s' = us := hpeek.rest heq
  rw [heq', hstarts]
  exact post s' hpeek heq'

theorem wp_gettoken_cons {t : Token (Nat × Nat)} (hs : s ≤ buf.length) (hnul : 0 ∉ buf)
    (h : spans buf s = t :: ts)
    {Q : Tok × Nat × Nat → Nat → Prop}
    (post : ∀ q e s', s < s' → Takes buf s s' [t] → spans buf s' = ts → t.At q e →
      Q (t.kind, q, e) s') : wp (gettoken buf) Q E s := by
  refine wp_gettoken hs hnul (fun hnone => ?_) fun t' ts' heq q e s' hlt hbound hts hat => ?_
  · rw [h] at hnone
    cases hnone
  · rw [h] at heq
    obtain ⟨rfl, rfl⟩ := List.cons.inj heq
    exact post q e s' hlt ⟨by rw [h, hts]; rfl, hlt.le, hbound⟩ hts hat

/-- A call that returns one value, up to where it leaves the line. -/
theorem wp_call {m : Exec Nat Failure Cmd} {f : Cmd → Exec Nat Failure Cmd} {c : Cmd}
    {P : Nat → Prop} {Q : Cmd → Nat → Prop} (call : wp m (fun c' s' => c' = c ∧ P s') E s)
    (rest : ∀ s', P s' → wp (f c) Q E s') : wp (m >>= f) Q E s := by
  rw [wp_bind]
  refine wp_post call ?_
  rintro _ s' ⟨rfl, h⟩
  exact rest s' h

variable {fuel : Nat} {rs : List (Redir (Nat × Nat))}

theorem parseredirsLoop_complete (hnul : 0 ∉ buf) (h : Redirs ts rs) (hs : s ≤ buf.length)
    (hfuel : buf.length - s < fuel) (heq : spans buf s = ts ++ us)
    (hend : Starts [60, 62] us = false) (T : Tree (Nat × Nat)) :
    wp (parseredirsLoop buf fuel T.cmd) (fun c s' => c = (T.redirs rs).cmd ∧ Takes buf s s' ts)
      (fun _ => False) s := by
  induction h generalizing s fuel T with
  | nil =>
    obtain ⟨fuel, rfl⟩ : ∃ n, fuel = n + 1 := ⟨fuel - 1, by omega⟩
    rw [parseredirsLoop, wp_bind]
    exact wp_peek_of false hs hnul (by decide) heq hend fun s₁ hpeek _ => ⟨rfl, hpeek⟩
  | @cons op mk w ts rs hop _ ih =>
    obtain ⟨fuel, rfl⟩ : ∃ n, fuel = n + 1 := ⟨fuel - 1, by omega⟩
    rw [parseredirsLoop, wp_bind]
    have hstarts : Starts [60, 62] (op :: .word w :: ts ++ us) = true := by
      cases op <;> first | rfl | cases hop
    refine wp_peek_of true hs hnul (by decide) heq hstarts fun s₁ hpeek heq₁ => ?_
    rw [if_pos rfl, wp_bind]
    refine wp_gettoken_cons hpeek.bound hnul heq₁ fun _ _ s₂ hlt hget heq₂ _ => ?_
    rw [wp_bind]
    refine wp_gettoken_cons hget.bound hnul heq₂ fun q e s₃ hlt' hget' heq₃ hat => ?_
    obtain rfl := hat w rfl
    have htakes := (hpeek.trans hget).trans hget'
    have hle := hpeek.le
    have hbound := hget'.bound
    have hround : wp (parseredirsLoop buf fuel (T.redir (mk (q, e))).cmd)
        (fun c s' => c = (T.redirs (mk (q, e) :: rs)).cmd ∧
          Takes buf s s' (op :: .word (q, e) :: ts)) (fun _ => False) s₃ := by
      refine wp_post (ih hbound (by omega) heq₃ _) ?_
      rintro _ s₄ ⟨rfl, htail⟩
      exact ⟨rfl, htakes.trans htail⟩
    cases op <;> cases hop
    all_goals exact hround

theorem parseredirs_complete (hnul : 0 ∉ buf) (h : Redirs ts rs) (hs : s ≤ buf.length)
    (heq : spans buf s = ts ++ us) (hend : Starts [60, 62] us = false) (T : Tree (Nat × Nat)) :
    wp (parseredirs buf T.cmd) (fun c s' => c = (T.redirs rs).cmd ∧ Takes buf s s' ts)
      (fun _ => False) s :=
  parseredirsLoop_complete hnul h hs (by omega) heq hend T

theorem parseArgs_complete (hnul : 0 ∉ buf) {ws' : List (Nat × Nat)} (h : Args ts ws' rs)
    (hs : s ≤ buf.length) (hfuel : buf.length - s < fuel) (heq : spans buf s = ts ++ us)
    (hend : Nonterminal.exec.Ends us) {ws : List (Nat × Nat)} (hlen : (ws ++ ws').length < MAXARGS)
    (T : Tree (Nat × Nat)) :
    wp (parseArgs buf fuel (.ofSpans ws) ws.length T.cmd)
      (fun c s' => c = (.ofSpans (ws ++ ws'), (ws ++ ws').length, (T.redirs rs).cmd) ∧
        Takes buf s s' ts) (fun _ => False) s := by
  induction h generalizing s fuel ws T with
  | nil =>
    obtain ⟨fuel, rfl⟩ : ∃ n, fuel = n + 1 := ⟨fuel - 1, by omega⟩
    rw [parseArgs, wp_bind]
    refine wp_peek_takes hs hnul (by decide) fun s₁ hpeek => ?_
    have heq₁ : spans buf s₁ = us := hpeek.rest heq
    rw [heq₁, append_nil]
    rcases hend with rfl | hstarts
    · change wp (_ >>= _) _ _ _
      rw [wp_bind]
      refine wp_gettoken hpeek.bound hnul ?_ fun t ts hcons => ?_
      · intro _ q s₂ hle hbound hnone
        exact ⟨rfl, hpeek.trans ⟨by rw [heq₁, hnone]; rfl, hle, hbound⟩⟩
      · rw [heq₁] at hcons
        cases hcons
    · rw [show Starts [124, 41, 38, 59] us = true from hstarts]
      exact ⟨rfl, hpeek⟩
  | @cons w ts₁ us₁ ws₁ rs rs' hrs hargs ih =>
    obtain ⟨fuel, rfl⟩ : ∃ n, fuel = n + 1 := ⟨fuel - 1, by omega⟩
    rw [parseArgs, wp_bind]
    refine wp_peek_of false hs hnul (by decide) heq rfl fun s₁ hpeek heq₁ => ?_
    rw [if_neg Bool.false_ne_true, wp_bind]
    refine wp_gettoken_cons hpeek.bound hnul heq₁ fun q e s₂ hlt hget heq₂ hat => ?_
    obtain rfl := hat w rfl
    have hlen' : (ws ++ (q, e) :: ws₁).length = ws.length + 1 + ws₁.length := by
      rw [length_append, length_cons]
      omega
    change wp (_ >>= _) _ _ _
    rw [wp_bind]
    refine wp_of_run (ExecCmd.store_ofSpans (by omega) q e s₂) ?_
    dsimp only
    rw [if_neg (by omega), wp_bind]
    have hrest : spans buf s₂ = ts₁ ++ (us₁ ++ us) := heq₂.trans (append_assoc ..)
    refine wp_post (parseredirs_complete hnul hrs hget.bound hrest
      (hargs.not_starts hend rfl) T) ?_
    rintro _ s₃ ⟨rfl, hredirs⟩
    have hle := hpeek.le
    have hle' := hredirs.le
    have hbound := hget.bound
    have hargc : (ws ++ [(q, e)]).length = ws.length + 1 := length_append
    have happend : ws ++ [(q, e)] ++ ws₁ = ws ++ (q, e) :: ws₁ := by
      rw [append_assoc, singleton_append]
    rw [← hargc]
    refine wp_post (ih hredirs.bound (by omega) (hredirs.rest hrest) (by rwa [happend]) _) ?_
    rintro _ s₄ ⟨rfl, htail⟩
    rw [happend, Tree.redirs_append]
    exact ⟨rfl, (hpeek.trans hget).trans (hredirs.trans htail)⟩

theorem parseBacks_complete (hnul : 0 ∉ buf) (n : Nat) (hs : s ≤ buf.length)
    (hfuel : buf.length - s < fuel) (heq : spans buf s = .replicate n .amp ++ us)
    (hend : Starts [38] us = false) (T : Tree (Nat × Nat)) :
    wp (parseBacks buf fuel T.cmd)
      (fun c s' => c = (T.backs n).cmd ∧ Takes buf s s' (.replicate n .amp)) (fun _ => False) s := by
  induction n generalizing s fuel T with
  | zero =>
    obtain ⟨fuel, rfl⟩ : ∃ n, fuel = n + 1 := ⟨fuel - 1, by omega⟩
    rw [parseBacks, wp_bind]
    exact wp_peek_of false hs hnul (by decide) heq hend fun s₁ hpeek _ => ⟨rfl, hpeek⟩
  | succ n ih =>
    obtain ⟨fuel, rfl⟩ : ∃ n, fuel = n + 1 := ⟨fuel - 1, by omega⟩
    rw [parseBacks, wp_bind]
    refine wp_peek_of true hs hnul (by decide) heq rfl fun s₁ hpeek heq₁ => ?_
    rw [if_pos rfl, wp_bind]
    refine wp_gettoken_cons hpeek.bound hnul heq₁ fun _ _ s₂ hlt hget heq₂ _ => ?_
    have hle := hpeek.le
    have hbound := hget.bound
    refine wp_post (ih hbound (by omega) heq₂ T.back) ?_
    rintro _ s₃ ⟨rfl, htail⟩
    exact ⟨rfl, (hpeek.trans hget).trans htail⟩

/-- A line with further tokens is parsed up to them. -/
theorem parse_complete (hnul : 0 ∉ buf) {nt : Nonterminal} {T : Tree (Nat × Nat)}
    (h : Derives nt ts T) (hs : s ≤ buf.length) (hfuel : 4 * (buf.length - s) + nt.depth ≤ fuel)
    (heq : spans buf s = ts ++ us) (hend : nt.Ends us) :
    wp (nt.parse buf fuel) (fun c s' => c = T.cmd ∧ Takes buf s s' ts) (fun _ => False) s := by
  induction h generalizing s fuel us with
  | @last ts T n _ ih =>
    simp only [Nonterminal.depth] at hfuel ih
    obtain ⟨fuel, rfl⟩ : ∃ n, fuel = n + 1 := ⟨fuel - 1, by omega⟩
    rw [Nonterminal.parse, parseline]
    rw [append_assoc] at heq
    have hends : Nonterminal.pipe.Ends (.replicate n .amp ++ us) := by
      rcases n with _ | n
      · exact hend.mono (by decide)
      · exact .inr rfl
    refine wp_call (ih hs (by omega) heq hends) fun s₁ htakes => ?_
    have heq₁ := htakes.rest heq
    refine wp_call (parseBacks_complete hnul n htakes.bound (by omega) heq₁
      (hend.not_starts rfl) T) fun s₂ hbacks => ?_
    rw [wp_bind]
    refine wp_peek_of false hbacks.bound hnul (by decide) (hbacks.rest heq₁) (hend.not_starts rfl)
      fun s₃ hpeek _ => ⟨rfl, ?_⟩
    simpa using (htakes.trans hbacks).trans hpeek
  | @seq ts us₁ T U n _ _ ih ih' =>
    simp only [Nonterminal.depth] at hfuel ih ih'
    obtain ⟨fuel, rfl⟩ : ∃ n, fuel = n + 1 := ⟨fuel - 1, by omega⟩
    rw [Nonterminal.parse, parseline]
    rw [append_assoc, append_assoc] at heq
    have hends : Nonterminal.pipe.Ends (.replicate n .amp ++ (.semi :: us₁ ++ us)) := by
      rcases n with _ | n
      · exact .inr rfl
      · exact .inr rfl
    refine wp_call (ih hs (by omega) heq hends) fun s₁ htakes => ?_
    have heq₁ := htakes.rest heq
    refine wp_call (parseBacks_complete hnul n htakes.bound (by omega) heq₁ rfl T)
      fun s₂ hbacks => ?_
    rw [wp_bind]
    refine wp_peek_of true hbacks.bound hnul (by decide) (hbacks.rest heq₁) rfl fun s₃ hpeek heq₃ => ?_
    rw [if_pos rfl, wp_bind]
    refine wp_gettoken_cons hpeek.bound hnul heq₃ fun _ _ s₄ hlt hget heq₄ _ => ?_
    have hfront := (htakes.trans hbacks).trans hpeek
    have hle := hfront.le
    have hbound := hget.bound
    refine wp_call (ih' hbound (by omega) heq₄ hend) fun s₅ hright => ⟨rfl, ?_⟩
    simpa using (hfront.trans hget).trans hright
  | single _ ih =>
    simp only [Nonterminal.depth] at hfuel ih
    obtain ⟨fuel, rfl⟩ : ∃ n, fuel = n + 1 := ⟨fuel - 1, by omega⟩
    rw [Nonterminal.parse, parsepipe]
    refine wp_call (ih hs (by omega) heq (hend.mono (by decide))) fun s₁ htakes => ?_
    rw [wp_bind]
    refine wp_peek_of false htakes.bound hnul (by decide) (htakes.rest heq) (hend.not_starts rfl)
      fun s₂ hpeek _ => ⟨rfl, ?_⟩
    simpa using htakes.trans hpeek
  | @pipe ts us₁ T U _ _ ih ih' =>
    simp only [Nonterminal.depth] at hfuel ih ih'
    obtain ⟨fuel, rfl⟩ : ∃ n, fuel = n + 1 := ⟨fuel - 1, by omega⟩
    rw [Nonterminal.parse, parsepipe]
    rw [append_assoc] at heq
    refine wp_call (ih hs (by omega) heq (.inr rfl)) fun s₁ htakes => ?_
    rw [wp_bind]
    refine wp_peek_of true htakes.bound hnul (by decide) (htakes.rest heq) rfl fun s₂ hpeek heq₂ => ?_
    rw [if_pos rfl, wp_bind]
    refine wp_gettoken_cons hpeek.bound hnul heq₂ fun _ _ s₃ hlt hget heq₃ _ => ?_
    have hfront := htakes.trans hpeek
    have hle := hfront.le
    have hbound := hget.bound
    refine wp_call (ih' hbound (by omega) heq₃ hend) fun s₄ hright => ⟨rfl, ?_⟩
    simpa using (hfront.trans hget).trans hright
  | @block ts us₁ T rs _ hrs ih =>
    simp only [Nonterminal.depth] at hfuel ih
    obtain ⟨fuel, rfl⟩ : ∃ n, fuel = n + 2 := ⟨fuel - 2, by omega⟩
    rw [append_assoc] at heq
    rw [Nonterminal.parse, parseexec, wp_bind]
    refine wp_peek_of true hs hnul (by decide) heq rfl fun s₁ hpeek heq₁ => ?_
    rw [if_pos rfl, parseblock, wp_bind]
    refine wp_peek_of true hpeek.bound hnul (by decide) heq₁ rfl fun s₂ hpeek' heq₂ => ?_
    change wp (_ >>= _) _ _ _
    rw [wp_bind]
    refine wp_gettoken_cons hpeek'.bound hnul heq₂ fun _ _ s₃ hlt hopen heq₃ _ => ?_
    have hfront := hpeek.trans hpeek'
    have hle := hfront.le
    have hbound := hopen.bound
    refine wp_call (ih hbound (by omega) heq₃ (.inr rfl)) fun s₄ htakes => ?_
    rw [wp_bind]
    refine wp_peek_of true htakes.bound hnul (by decide) (htakes.rest heq₃) rfl fun s₅ hpeek₅ heq₅ => ?_
    change wp (_ >>= _) _ _ _
    rw [wp_bind]
    refine wp_gettoken_cons hpeek₅.bound hnul heq₅ fun _ _ s₆ _ hclose heq₆ _ => ?_
    refine wp_post (parseredirs_complete hnul hrs hclose.bound heq₆
      (hend.not_starts rfl) T) ?_
    rintro _ s₇ ⟨rfl, hredirs⟩
    refine ⟨rfl, ?_⟩
    simpa using (((hfront.trans hopen).trans htakes).trans hpeek₅).trans (hclose.trans hredirs)
  | @simple ts us₁ ws rs rs' hrs hargs hlen =>
    simp only [Nonterminal.depth] at hfuel
    obtain ⟨fuel, rfl⟩ : ∃ n, fuel = n + 1 := ⟨fuel - 1, by omega⟩
    rw [append_assoc] at heq
    rw [Nonterminal.parse, parseexec, wp_bind]
    have hargs' : Starts [60, 62] (_ ++ _) = false := hargs.not_starts hend rfl
    refine wp_peek_of false hs hnul (by decide) heq
      (hrs.not_starts_paren (hargs.not_starts hend rfl)) fun s₁ hpeek heq₁ => ?_
    rw [if_neg Bool.false_ne_true]
    refine wp_call (parseredirs_complete hnul hrs hpeek.bound heq₁ hargs' (.exec []))
      fun s₂ hredirs => ?_
    rw [wp_bind]
    change wp (parseArgs buf _ (.ofSpans []) ([] : List (Nat × Nat)).length _) _ _ _
    refine wp_post (parseArgs_complete hnul hargs hredirs.bound (by omega) (hredirs.rest heq₁) hend
      (show ([] ++ ws).length < MAXARGS from hlen) _) ?_
    rintro _ s₃ ⟨rfl, hrest⟩
    rw [nil_append, ← Tree.redirs_append]
    dsimp only
    rw [wp_bind]
    refine wp_of_run (ExecCmd.store_none hlen s₃) ⟨Tree.withNode_redirs rfl _, ?_⟩
    simpa using (hpeek.trans hredirs).trans hrest

end Parser

end Xv6.Sh
