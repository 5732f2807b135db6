import Mathlib.Data.List.ReduceOption
import Mathlib.Data.List.TakeWhile
import Xv6.Sh.Completeness

/-! `parsecmd` returns a tree exactly when the tokens of the line derive it. -/
namespace Xv6.Sh

open Lib Lib.Exec List

def stringAt (mem : List UInt8) (p : Nat) : List UInt8 := (mem.drop p).takeWhile (· != 0)

def ExecCmd.args (mem : List UInt8) (cmd : ExecCmd) : List (List UInt8) :=
  ((List.ofFn cmd.argv).takeWhile Option.isSome).reduceOption.map (stringAt mem)

def Cmd.tree (mem : List UInt8) : Cmd → Tree (List UInt8)
  | .exec cmd => .exec (cmd.args mem)
  | .redir cmd file _ mode fd => .redir (cmd.tree mem) ⟨stringAt mem file, mode, fd⟩
  | .pipe left right => .pipe (left.tree mem) (right.tree mem)
  | .list left right => .list (left.tree mem) (right.tree mem)
  | .back cmd => .back (cmd.tree mem)

section Words

variable {α β : Type}

namespace Tree

/-- Room for the words and a null pointer. -/
def Fits : Tree α → Prop
  | exec args => args.length < MAXARGS
  | redir cmd _ => cmd.Fits
  | pipe left right => left.Fits ∧ right.Fits
  | list left right => left.Fits ∧ right.Fits
  | back cmd => cmd.Fits

theorem Fits.redirs {T : Tree α} (h : T.Fits) (rs : List (Redir α)) : (T.redirs rs).Fits := by
  unfold Tree.redirs
  induction rs generalizing T with
  | nil => exact h
  | cons r rs ih => exact ih (T := T.redir r) h

theorem Fits.backs {T : Tree α} (h : T.Fits) (n : Nat) : (T.backs n).Fits := by
  induction n generalizing T with
  | zero => exact h
  | succ n ih => exact ih (T := T.back) h

theorem words_redirs (T : Tree α) (rs : List (Redir α)) :
    (T.redirs rs).words = T.words ++ rs.map Redir.file := by
  unfold redirs
  induction rs generalizing T with
  | nil => exact (append_nil _).symm
  | cons r rs ih =>
    rw [foldl_cons, ih, words, append_assoc]
    rfl

theorem words_backs (T : Tree α) (n : Nat) : (T.backs n).words = T.words := by
  induction n generalizing T with
  | zero => rfl
  | succ n ih => exact ih _

theorem map_congr {f g : α → β} {T : Tree α} (h : ∀ w ∈ T.words, f w = g w) :
    T.map f = T.map g := by
  induction T with
  | exec args => exact congrArg exec (map_congr_left h)
  | redir cmd r ih =>
    have hfile := h r.file (by simp [words])
    rw [map, map, ih fun w hw => h w (mem_append_left _ hw), Redir.map, Redir.map, hfile]
  | pipe left right ihl ihr =>
    rw [map, map, ihl fun w hw => h w (mem_append_left _ hw),
      ihr fun w hw => h w (mem_append_right _ hw)]
  | list left right ihl ihr =>
    rw [map, map, ihl fun w hw => h w (mem_append_left _ hw),
      ihr fun w hw => h w (mem_append_right _ hw)]
  | back cmd ih => rw [map, map, ih h]

end Tree

theorem Redirs.file_mem {ts : List (Token α)} {rs : List (Redir α)} (h : Redirs ts rs) {w : α}
    (hw : w ∈ rs.map Redir.file) : .word w ∈ ts := by
  induction h with
  | nil => cases hw
  | @cons op mk v ts rs hop _ ih =>
    have hfile : (mk v).file = v := by
      cases op <;> cases hop
      all_goals rfl
    rw [map_cons, hfile] at hw
    rcases mem_cons.mp hw with rfl | hw
    · exact mem_cons_of_mem _ mem_cons_self
    · exact mem_cons_of_mem _ (mem_cons_of_mem _ (ih hw))

theorem Args.word_mem {ts : List (Token α)} {ws : List α} {rs : List (Redir α)}
    (h : Args ts ws rs) {w : α} (hw : w ∈ ws ++ rs.map Redir.file) : .word w ∈ ts := by
  induction h with
  | nil => cases hw
  | cons hrs _ ih =>
    simp only [mem_append, mem_cons, map_append] at hw ih ⊢
    rcases hw with (rfl | hw) | hw | hw
    · exact .inl (.inl rfl)
    · exact .inr (ih (.inl hw))
    · exact .inl (.inr (hrs.file_mem hw))
    · exact .inr (ih (.inr hw))

namespace Derives

variable {nt : Nonterminal} {ts : List (Token α)} {T : Tree α}

theorem fits (h : Derives nt ts T) : T.Fits := by
  induction h with
  | last n _ ih => exact ih.backs n
  | seq n _ _ ih ih' => exact ⟨ih.backs n, ih'⟩
  | single _ ih => exact ih
  | pipe _ _ ih ih' => exact ⟨ih, ih'⟩
  | block _ _ ih => exact ih.redirs _
  | simple _ _ hlen => exact Tree.Fits.redirs (T := .exec _) hlen _

theorem word_mem (h : Derives nt ts T) {w : α} (hw : w ∈ T.words) : .word w ∈ ts := by
  induction h with
  | last n _ ih =>
    rw [Tree.words_backs] at hw
    exact mem_append_left _ (ih hw)
  | seq n _ _ ih ih' =>
    rw [Tree.words, Tree.words_backs] at hw
    rcases mem_append.mp hw with hw | hw
    · exact mem_append_left _ (mem_append_left _ (ih hw))
    · exact mem_append_right _ (mem_cons_of_mem _ (ih' hw))
  | single _ ih => exact ih hw
  | pipe _ _ ih ih' =>
    rcases mem_append.mp hw with hw | hw
    · exact mem_append_left _ (ih hw)
    · exact mem_append_right _ (mem_cons_of_mem _ (ih' hw))
  | block _ hrs ih =>
    rw [Tree.words_redirs] at hw
    rcases mem_append.mp hw with hw | hw
    · exact mem_append_left _ (mem_cons_of_mem _ (ih hw))
    · exact mem_append_right _ (mem_cons_of_mem _ (hrs.file_mem hw))
  | simple hrs hargs _ =>
    rw [Tree.words_redirs, Tree.words, map_append] at hw
    simp only [mem_append] at hw
    rcases hw with hw | hw | hw
    · exact mem_append_right _ (hargs.word_mem (mem_append_left _ hw))
    · exact mem_append_left _ (hrs.file_mem hw)
    · exact mem_append_right _ (hargs.word_mem (mem_append_right _ hw))

end Derives

end Words

def slice (buf : List UInt8) (w : Nat × Nat) : List UInt8 := (buf.drop w.1).take (w.2 - w.1)

/-- A maximal span of word characters. -/
structure IsWord (buf : List UInt8) (w : Nat × Nat) : Prop where
  le : w.1 ≤ w.2
  bound : w.2 ≤ buf.length
  inside : ∀ i, w.1 ≤ i → i < w.2 → ∀ c, buf[i]? = some c → inWord c = true
  stop : ∀ c, buf[w.2]? = some c → inWord c = false

theorem isWord_of_drop {buf rest : List UInt8} {c : UInt8} {pos : Nat}
    (hdrop : buf.drop pos = c :: rest) (hword : inWord c = true) :
    IsWord buf (pos, pos + (c :: rest.takeWhile inWord).length) ∧
      slice buf (pos, pos + (c :: rest.takeWhile inWord).length) = c :: rest.takeWhile inWord := by
  have htake : (buf.drop pos).takeWhile inWord = c :: rest.takeWhile inWord := by
    rw [hdrop, takeWhile_cons_of_pos hword]
  have hsplit : buf.drop pos = (buf.drop pos).takeWhile inWord ++ (buf.drop pos).dropWhile inWord :=
    takeWhile_append_dropWhile.symm
  rw [← htake]
  have hlen := congrArg List.length hsplit
  rw [length_append, length_drop] at hlen
  have hlt := lt_length_of_drop hdrop
  refine ⟨⟨Nat.le_add_right _ _, by dsimp only; omega, ?_, ?_⟩, ?_⟩
  · intro i hle hi c' hc'
    obtain ⟨k, rfl⟩ := Nat.exists_eq_add_of_le hle
    rw [← List.getElem?_drop, hsplit, List.getElem?_append_left (by simpa using hi)] at hc'
    exact mem_takeWhile_imp (mem_of_getElem? hc')
  · intro c' hc'
    rw [← List.head?_drop, ← drop_drop, drop_length_takeWhile] at hc'
    have hhead := List.head?_dropWhile_not inWord (buf.drop pos)
    rw [hc'] at hhead
    simpa using hhead
  · rw [slice, Nat.add_sub_cancel_left]
    exact prefix_iff_eq_take.mp ( takeWhile_prefix _) |>.symm

/-- `ts` stand for `ts'` on the line, and their spans are words. -/
structure Shows (buf : List UInt8) (ts : List (Token (Nat × Nat)))
    (ts' : List (Token (List UInt8))) : Prop where
  map_eq : ts.map (Token.map (slice buf)) = ts'
  isWord : ∀ w, .word w ∈ ts → IsWord buf w

namespace Shows

variable {buf : List UInt8} {ts : List (Token (Nat × Nat))} {ts' : List (Token (List UInt8))}

theorem word (h : Shows buf ts ts') {w : Nat × Nat} {text : List UInt8} (hw : IsWord buf w)
    (htext : slice buf w = text) : Shows buf (.word w :: ts) (.word text :: ts') where
  map_eq := by rw [map_cons, Token.map, htext, h.map_eq]
  isWord v hv := by
    rcases mem_cons.mp hv with heq | hv
    · obtain rfl := Token.word.inj heq
      exact hw
    · exact h.isWord v hv

theorem symbol (h : Shows buf ts ts') (t : Token (Nat × Nat)) {t' : Token (List UInt8)}
    (ht : t.map (slice buf) = t') (hnot : ∀ w, t ≠ .word w) : Shows buf (t :: ts) (t' :: ts') where
  map_eq := by rw [map_cons, ht, h.map_eq]
  isWord w hw := by
    rcases mem_cons.mp hw with heq | hw
    · exact absurd heq.symm (hnot w)
    · exact h.isWord w hw

end Shows

theorem inWord_of_symbol? {c : UInt8} (hspace : ¬ whitespace.contains c = true)
    (hsym : symbol? c = none) : inWord c = true := by
  rcases symbol?_cases c with ⟨-, hnot⟩ | hone | rfl
  · rw [inWord, hnot, Bool.eq_false_iff.mpr hspace]
    rfl
  · rcases hone with rfl | rfl | rfl | rfl | rfl | rfl <;> cases hsym
  · cases hsym

theorem lex_spans {buf : List UInt8} (l : List UInt8) (pos pos' : Nat) (hdrop : buf.drop pos = l) :
    Shows buf (lex (fun q w => (q, q + w.length)) pos l) (lex (fun _ w => w) pos' l) := by
  induction hlen : l.length using Nat.strong_induction_on generalizing l pos pos' with
  | _ n ih =>
  subst hlen
  rcases l with _ | ⟨c, rest⟩
  · rw [lex, lex]
    exact ⟨rfl, (by simp)⟩
  have hnext := drop_succ_of_drop hdrop
  have hrest := ih rest.length (Nat.lt_succ_self _) rest (pos + 1) (pos' + 1) hnext rfl
  rw [lex, lex]
  split
  · exact hrest
  · rename_i hspace
    rcases hsym : symbol? c with _ | tok
    · obtain ⟨hisWord, hslice⟩ := isWord_of_drop hdrop (inWord_of_symbol? hspace hsym)
      have htail : buf.drop (pos + (c :: rest.takeWhile inWord).length) = rest.dropWhile inWord := by
        rw [← drop_drop, hdrop, length_cons, drop_succ_cons, drop_length_takeWhile]
      have hshort : (rest.dropWhile inWord).length < (c :: rest).length :=
        Nat.lt_succ_of_le (dropWhile_sublist _).length_le
      exact (ih _ hshort _ _ _ htail rfl).word hisWord hslice
    · cases tok with
      | pipe => exact hrest.symbol .pipe rfl (by simp)
      | lparen => exact hrest.symbol .lparen rfl (by simp)
      | rparen => exact hrest.symbol .rparen rfl (by simp)
      | semi => exact hrest.symbol .semi rfl (by simp)
      | amp => exact hrest.symbol .amp rfl (by simp)
      | lt => exact hrest.symbol .lt rfl (by simp)
      | gt | eof | append | word =>
        dsimp only
        split
        · rename_i hhead
          obtain ⟨rest, rfl⟩ := List.head?_eq_some_iff.mp hhead
          have hshort : rest.length < (c :: 62 :: rest).length := by
            simp only [length_cons]
            omega
          exact (ih _ hshort rest _ _ (drop_succ_of_drop hnext) rfl).symbol .append rfl (by simp)
        · exact hrest.symbol .gt rfl (by simp)

theorem shows_tokens (buf : List UInt8) : Shows buf (spans buf 0) (tokens buf) :=
  lex_spans buf 0 0 rfl

def terminate (ws : List (Nat × Nat)) (mem : List UInt8) : List UInt8 :=
  ws.foldl (fun mem w => mem.set w.2 0) mem

theorem terminate_append (ws ws' : List (Nat × Nat)) (mem : List UInt8) :
    terminate (ws ++ ws') mem = terminate ws' (terminate ws mem) := foldl_append

variable {ws : List (Nat × Nat)}

theorem nulterminateArgs_eq (hlen : ws.length < MAXARGS) {fuel i : Nat} (hi : i ≤ ws.length)
    (hfuel : MAXARGS < fuel + i) (mem : List UInt8) :
    nulterminateArgs (.ofSpans ws) fuel i mem = .ok (terminate (ws.drop i) mem) := by
  induction fuel generalizing i mem with
  | zero => omega
  | succ fuel ih =>
    rw [nulterminateArgs, dif_pos (by omega)]
    rcases Nat.lt_or_eq_of_le hi with hlt | rfl
    · have hw : ws[i]? = some ws[i] := List.getElem?_eq_getElem hlt
      simp only [ExecCmd.ofSpans, hw, Option.map_some]
      rw [drop_eq_getElem_cons hlt]
      exact ih hlt (by omega) _
    · have hnone : ws[ws.length]? = none := List.getElem?_eq_none le_rfl
      simp only [ExecCmd.ofSpans, hnone, Option.map_none, drop_length]
      rfl

theorem nulterminate_eq {T : Tree (Nat × Nat)} (h : T.Fits) (mem : List UInt8) :
    nulterminate T.cmd mem = .ok (terminate T.words mem) := by
  induction T generalizing mem with
  | exec args => exact nulterminateArgs_eq h (Nat.zero_le _) (Nat.lt_succ_self _) mem
  | redir cmd r ih =>
    rw [Tree.cmd, nulterminate, ih h, Tree.words, terminate_append]
    rfl
  | pipe left right ihl ihr =>
    rw [Tree.cmd, nulterminate, ihl h.1, Tree.words, terminate_append]
    exact ihr h.2 _
  | list left right ihl ihr =>
    rw [Tree.cmd, nulterminate, ihl h.1, Tree.words, terminate_append]
    exact ihr h.2 _
  | back cmd ih => exact ih h mem

theorem getElem?_terminate (ws : List (Nat × Nat)) (mem : List UInt8) (i : Nat) :
    (terminate ws mem)[i]? = if i ∈ ws.map Prod.snd then mem[i]?.map fun _ => 0 else mem[i]? := by
  induction ws generalizing mem with
  | nil => rfl
  | cons w ws ih =>
    rw [terminate, foldl_cons]
    refine (ih _).trans ?_
    simp only [map_cons, mem_cons, List.getElem?_set]
    obtain rfl | hw := eq_or_ne i w.2
    · rcases hi : mem[w.2]? with _ | c
      · have hlen := List.getElem?_eq_none_iff.mp hi
        simp [hlen]
      · obtain ⟨hlt, -⟩ := List.getElem?_eq_some_iff.mp hi
        simp [hlt]
    · rw [if_neg (Ne.symm hw)]
      simp only [hw, false_or]

theorem stringAt_eq {mem text : List UInt8} {p : Nat} (hnul : 0 ∉ text)
    (hmem : ∀ i, i < text.length → mem[p + i]? = text[i]?) (hend : mem[p + text.length]? = some 0) :
    stringAt mem p = text := by
  induction text generalizing p with
  | nil =>
    obtain ⟨hlt, hzero⟩ := List.getElem?_eq_some_iff.mp (show mem[p]? = some 0 from hend)
    rw [stringAt, drop_eq_getElem_cons hlt, hzero]
    rfl
  | cons c text ih =>
    have hfirst : mem[p]? = some c := hmem 0 (Nat.succ_pos _)
    obtain ⟨hlt, hc⟩ := List.getElem?_eq_some_iff.mp hfirst
    have hne : (c != 0) = true := bne_iff_ne.mpr fun h => hnul (h ▸ mem_cons_self)
    have htail := ih (p := p + 1) (fun h => hnul (mem_cons_of_mem _ h))
      (fun i hi => by
        rw [Nat.add_right_comm, Nat.add_assoc]
        exact hmem (i + 1) (Nat.succ_lt_succ hi))
      (by
        rw [Nat.add_right_comm, Nat.add_assoc]
        exact hend)
    rw [stringAt] at htail ⊢
    rw [drop_eq_getElem_cons hlt, hc, takeWhile_cons, if_pos hne]
    exact congrArg (c :: ·) htail

theorem IsWord.end_outside {buf : List UInt8} {w v : Nat × Nat} (hw : IsWord buf w)
    (hv : IsWord buf v) : ¬ (w.1 ≤ v.2 ∧ v.2 < w.2) := by
  intro ⟨hle, hlt⟩
  have hget := List.getElem?_eq_getElem (hlt.trans_le hw.bound)
  have hyes := hw.inside _ hle hlt _ hget
  rw [hv.stop _ hget] at hyes
  cases hyes

theorem terminate_end {buf : List UInt8} {w : Nat × Nat} (hw : w ∈ ws) (hbound : w.2 ≤ buf.length) :
    (terminate ws (buf ++ [0]))[w.2]? = some 0 := by
  rw [getElem?_terminate, if_pos (mem_map.mpr ⟨w, hw, rfl⟩),
    List.getElem?_eq_getElem (by rw [length_append]; exact Nat.lt_succ_of_le hbound)]
  rfl

theorem stringAt_terminate {buf : List UInt8} (hnul : 0 ∉ buf) (hws : ∀ w ∈ ws, IsWord buf w)
    {w : Nat × Nat} (hw : w ∈ ws) : stringAt (terminate ws (buf ++ [0])) w.1 = slice buf w := by
  have hword := hws w hw
  have hle := hword.le
  have hbound := hword.bound
  have hlen : (slice buf w).length = w.2 - w.1 := by
    rw [slice, length_take, length_drop]
    omega
  refine stringAt_eq (fun h => hnul (mem_of_mem_drop (mem_of_mem_take h))) ?_ ?_
  · intro i hi
    rw [hlen] at hi
    have hin : w.1 + i < buf.length := by omega
    have hnot : w.1 + i ∉ ws.map Prod.snd := by
      intro hmem
      obtain ⟨v, hv, heq⟩ := mem_map.mp hmem
      exact hword.end_outside (hws v hv) (by omega)
    rw [getElem?_terminate, if_neg hnot, List.getElem?_append_left hin, slice,
      List.getElem?_take_of_lt (by omega), List.getElem?_drop]
  · rw [hlen, Nat.add_sub_cancel' hle]
    exact terminate_end hw hbound

theorem ExecCmd.args_ofSpans (h : ws.length < MAXARGS) (mem : List UInt8) :
    (ExecCmd.ofSpans ws).args mem = ws.map fun w => stringAt mem w.1 := by
  have hargv : List.ofFn (ExecCmd.ofSpans ws).argv =
      ws.map (fun w => some w.1) ++ .replicate (MAXARGS - ws.length) none := by
    refine ext_getElem? fun i => ?_
    rw [List.getElem?_ofFn]
    by_cases hi : i < ws.length
    · rw [List.getElem?_append_left (by rwa [length_map]), dif_pos (hi.trans h)]
      simp [ExecCmd.ofSpans, hi]
    · rw [List.getElem?_append_right (by rw [length_map]; omega), List.getElem?_replicate,
        length_map]
      by_cases hmax : i < MAXARGS
      · rw [dif_pos hmax, if_pos (by omega)]
        simp [ExecCmd.ofSpans, Nat.le_of_not_lt hi]
      · rw [dif_neg hmax, if_neg (by omega)]
  have hsome : ∀ p ∈ ws.map (fun w => some w.1), Option.isSome p := by
    intro p hp
    obtain ⟨w, -, rfl⟩ := mem_map.mp hp
    rfl
  rw [args, hargv, takeWhile_append_of_pos hsome]
  simp [List.reduceOption, filterMap_map, Function.comp_def]

theorem tree_cmd {T : Tree (Nat × Nat)} (h : T.Fits) (mem : List UInt8) :
    T.cmd.tree mem = T.map fun w => stringAt mem w.1 := by
  induction T with
  | exec args => exact congrArg Tree.exec (ExecCmd.args_ofSpans h mem)
  | redir cmd r ih =>
    rw [Tree.cmd, Cmd.tree, ih h]
    rfl
  | pipe left right ihl ihr => rw [Tree.cmd, Cmd.tree, ihl h.1, ihr h.2, Tree.map]
  | list left right ihl ihr => rw [Tree.cmd, Cmd.tree, ihl h.1, ihr h.2, Tree.map]
  | back cmd ih => rw [Tree.cmd, Cmd.tree, ih h, Tree.map]

/-- A derivation over spans reads as its texts. -/
theorem tree_terminate {buf : List UInt8} (hnul : 0 ∉ buf) {T : Tree (Nat × Nat)}
    (h : Derives .line (spans buf 0) T) :
    T.cmd.tree (terminate T.words (buf ++ [0])) = T.map (slice buf) := by
  rw [tree_cmd h.fits]
  refine Tree.map_congr fun w hw => stringAt_terminate hnul (fun v hv => ?_) hw
  exact (shows_tokens buf).isWord v (h.word_mem hv)

theorem skipSpace_eq_length {buf : List UInt8} {s : Nat} (hs : s ≤ buf.length) (hnul : 0 ∉ buf)
    (h : spans buf s = []) : skipSpace buf s = buf.length := by
  rcases skipSpace_cases hs with ⟨-, hend⟩ | ⟨c, rest, hdrop, hspace⟩
  · exact hend
  · have hc : c ≠ 0 := by
      rintro rfl
      exact hnul (mem_of_mem_drop (hdrop ▸ mem_cons_self))
    obtain ⟨t, e, -, hspans, -⟩ := scanToken_eq hdrop hspace hc
    rw [spans_skipSpace, h] at hspans
    cases hspans

theorem spans_length (buf : List UInt8) : spans buf buf.length = [] := by
  rw [spans, drop_length, lex]

theorem parsecmd_of_parseline {buf : List UInt8} {T : Tree (Nat × Nat)} {s : Nat} (h : T.Fits)
    (hrun : parseline buf (4 * buf.length + 4) 0 = .ok (T.cmd, s)) :
    parsecmd buf = if skipSpace buf s ≠ buf.length then .error .leftovers
      else .ok (T.cmd, terminate T.words (buf ++ [0])) := by
  unfold parsecmd
  rw [hrun]
  change (if skipSpace buf s ≠ buf.length then _ else nulterminate T.cmd (buf ++ [0]) >>= _) = _
  rw [nulterminate_eq h]
  rfl

theorem parseline_cases {buf : List UInt8} (hnul : 0 ∉ buf) :
    (∃ e, parseline buf (4 * buf.length + 4) 0 = .error e ∧ Reported e) ∨
      ∃ ts T s, parseline buf (4 * buf.length + 4) 0 = .ok (T.cmd, s) ∧ Takes buf 0 s ts ∧
        Derives .line ts T := by
  have hparse : wp (parseline buf (4 * buf.length + 4)) (Parsed buf .line 0) Reported 0 :=
    wp_parse hnul .line (Nat.zero_le _) le_rfl
  rcases hrun : parseline buf (4 * buf.length + 4) 0 with e | ⟨c, s⟩
  · exact .inl ⟨e, rfl, stop_of_wp hparse hrun⟩
  · obtain ⟨ts, T, htakes, hT, rfl⟩ := post_of_wp hparse hrun
    exact .inr ⟨ts, T, s, rfl, htakes, hT⟩

theorem parsecmd_cases {buf : List UInt8} (hnul : 0 ∉ buf) :
    (∃ e, parsecmd buf = .error e ∧ Reported e) ∨
      ∃ T, parsecmd buf = .ok (T.cmd, terminate T.words (buf ++ [0])) ∧
        Derives .line (spans buf 0) T := by
  rcases parseline_cases hnul with ⟨e, hrun, he⟩ | ⟨ts, T, s, hrun, htakes, hT⟩
  · refine .inl ⟨e, ?_, he⟩
    rw [parsecmd, hrun]
    rfl
  · rw [parsecmd_of_parseline hT.fits hrun]
    split
    · exact .inl ⟨_, rfl, nofun, nofun⟩
    · rename_i hend
      refine .inr ⟨T, rfl, ?_⟩
      -- nothing but whitespace is left
      have hnone : spans buf s = [] := by
        rw [← spans_skipSpace, not_not.mp hend, spans_length]
      have heq := htakes.spans_eq
      rw [hnone, append_nil] at heq
      rwa [heq]

theorem parsecmd_of_derives {buf : List UInt8} (hnul : 0 ∉ buf) {T : Tree (Nat × Nat)}
    (h : Derives .line (spans buf 0) T) :
    parsecmd buf = .ok (T.cmd, terminate T.words (buf ++ [0])) := by
  have hparse : wp (parseline buf (4 * buf.length + 4))
      (fun c s => c = T.cmd ∧ Takes buf 0 s (spans buf 0)) (fun _ => False) 0 :=
    parse_complete hnul h (Nat.zero_le _) le_rfl (append_nil _).symm (.inl rfl)
  obtain ⟨_, s, hrun, rfl, htakes⟩ := returns_of_wp hparse fun _ => id
  have hnone : spans buf s = [] := htakes.rest (append_nil _).symm
  rw [parsecmd_of_parseline h.fits hrun,
    if_neg (not_not.mpr (skipSpace_eq_length htakes.bound hnul hnone))]

/-- The parser ends on every string, returns a tree if and only if its tokens derive it, and
stays inside `argv` and `eargv`. -/
theorem parsecmd_iff_derives {buf : List UInt8} (hnul : 0 ∉ buf) :
    (∀ T, (∃ cmd mem, parsecmd buf = .ok (cmd, mem) ∧ cmd.tree mem = T) ↔
      Derives .line (tokens buf) T) ∧
    parsecmd buf ≠ .error .outOfFuel ∧ parsecmd buf ≠ .error .outOfBounds := by
  have hshows := (shows_tokens buf).map_eq
  refine ⟨fun T => ⟨?_, fun h => ?_⟩, fun h => ?_, fun h => ?_⟩
  · rintro ⟨cmd, mem, hrun, rfl⟩
    rcases parsecmd_cases hnul with ⟨e, herr, -⟩ | ⟨T, hok, hT⟩
    · rw [hrun] at herr
      cases herr
    · rw [hrun] at hok
      cases hok
      rw [tree_terminate hnul hT, ← hshows]
      exact hT.map
  · obtain ⟨T, hT, rfl⟩ := h.of_map hshows
    exact ⟨_, _, parsecmd_of_derives hnul hT, tree_terminate hnul hT⟩
  · rcases parsecmd_cases hnul with ⟨e, herr, -, he⟩ | ⟨T, hok, -⟩
    · rw [h] at herr
      cases herr
      exact he rfl
    · rw [h] at hok
      cases hok
  · rcases parsecmd_cases hnul with ⟨e, herr, he, -⟩ | ⟨T, hok, -⟩
    · rw [h] at herr
      cases herr
      exact he rfl
    · rw [h] at hok
      cases hok

/-- The line `a | b`. -/
theorem parsecmd_pipe : (0 : UInt8) ∉ [97, 32, 124, 32, 98] ∧
    ∃ cmd mem, parsecmd [97, 32, 124, 32, 98] = .ok (cmd, mem) ∧
      cmd.tree mem = .pipe (.exec [[97]]) (.exec [[98]]) := by
  have htokens : tokens [97, 32, 124, 32, 98] = [.word [97], .pipe, .word [98]] := by
    simp [tokens, lex, whitespace, symbol?, inWord, symbols]
  refine ⟨by decide, ((parsecmd_iff_derives (by decide)).1 _).mpr ?_⟩
  rw [htokens]
  have hword (w : List UInt8) : Derives .exec [.word w] (.exec [w]) := by
    have hargs : Args [.word w] [w] [] := Args.cons Redirs.nil Args.nil
    exact Derives.simple Redirs.nil hargs (show 1 < MAXARGS by decide)
  exact .last 0 (.pipe (hword [97]) (.single (hword [98])))

/-- Arguments of EXEC and files of REDIR nodes, with their ends. -/
inductive Cmd.Word : Cmd → Nat → Option Nat → Prop where
  | argv {cmd : ExecCmd} {q : Nat} (i : Fin MAXARGS) (h : cmd.argv i = some q) :
      Word (.exec cmd) q (cmd.eargv i)
  | file {cmd : Cmd} {file efile mode fd : Nat} : Word (.redir cmd file efile mode fd) file efile
  | redir {cmd : Cmd} {file efile mode fd q : Nat} {e : Option Nat} (h : Word cmd q e) :
      Word (.redir cmd file efile mode fd) q e
  | pipe {left right side : Cmd} {q : Nat} {e : Option Nat} (hside : side = left ∨ side = right)
      (h : Word side q e) : Word (.pipe left right) q e
  | list {left right side : Cmd} {q : Nat} {e : Option Nat} (hside : side = left ∨ side = right)
      (h : Word side q e) : Word (.list left right) q e
  | back {cmd : Cmd} {q : Nat} {e : Option Nat} (h : Word cmd q e) : Word (.back cmd) q e

theorem Tree.word_cmd {T : Tree (Nat × Nat)} {q : Nat} {e : Option Nat} (h : T.cmd.Word q e) :
    ∃ w ∈ T.words, w.1 = q ∧ e = some w.2 := by
  induction T with
  | exec args =>
    cases h with
    | argv i h =>
      obtain ⟨w, hw, rfl⟩ := Option.map_eq_some_iff.mp h
      exact ⟨w, mem_of_getElem? hw, rfl, congrArg (Option.map Prod.snd) hw⟩
  | redir cmd r ih =>
    cases h with
    | file => exact ⟨r.file, by simp [words], rfl, rfl⟩
    | redir h =>
      obtain ⟨w, hw, heq⟩ := ih h
      exact ⟨w, mem_append_left _ hw, heq⟩
  | pipe left right ihl ihr | list left right ihl ihr =>
    obtain ⟨side, hside, h⟩ : ∃ side, (side = left.cmd ∨ side = right.cmd) ∧ side.Word q e := by
      cases h
      exact ⟨_, ‹_›, ‹_›⟩
    rcases hside with rfl | rfl
    · obtain ⟨w, hw, heq⟩ := ihl h
      exact ⟨w, mem_append_left _ hw, heq⟩
    · obtain ⟨w, hw, heq⟩ := ihr h
      exact ⟨w, mem_append_right _ hw, heq⟩
  | back cmd ih =>
    cases h with
    | back h => exact ih h

/-- Words that the command points to are tokens that end in a NUL and read as their texts. -/
theorem nulterminate_exact {buf mem : List UInt8} {cmd : Cmd} (hnul : 0 ∉ buf)
    (hrun : parsecmd buf = .ok (cmd, mem)) {q : Nat} {e : Option Nat} (hword : cmd.Word q e) :
    ∃ eq, e = some eq ∧ .word (q, eq) ∈ spans buf 0 ∧ mem[eq]? = some 0 ∧
      stringAt mem q = slice buf (q, eq) ∧
      ∀ q' e', cmd.Word q' (some e') → ¬ (q ≤ e' ∧ e' < eq) := by
  rcases parsecmd_cases hnul with ⟨e, herr, -⟩ | ⟨T, hok, hT⟩
  · rw [hrun] at herr
    cases herr
  rw [hrun] at hok
  cases hok
  have hws (v) (hv : v ∈ T.words) : IsWord buf v := (shows_tokens buf).isWord v (hT.word_mem hv)
  obtain ⟨w, hw, rfl, rfl⟩ := Tree.word_cmd hword
  refine ⟨w.2, rfl, hT.word_mem hw, terminate_end hw (hws w hw).bound,
    stringAt_terminate hnul hws hw, fun q' e' hword' => ?_⟩
  obtain ⟨v, hv, -, ⟨⟩⟩ := Tree.word_cmd hword'
  exact (hws w hw).end_outside (hws v hv)

/-- The file of the line `a>b`. -/
theorem nulterminate_redir : ∃ cmd mem, parsecmd [97, 62, 98] = .ok (cmd, mem) ∧
    cmd.Word 2 (some 3) ∧ stringAt mem 2 = [98] := by
  have hparse : ∃ cmd mem, parsecmd [97, 62, 98] = .ok (cmd, mem) ∧ cmd.Word 2 (some 3) :=
    ⟨_, _, rfl, .file⟩
  obtain ⟨cmd, mem, hrun, hword⟩ := hparse
  obtain ⟨_, ⟨⟩, -, -, htext, -⟩ := nulterminate_exact (by decide) hrun hword
  exact ⟨cmd, mem, hrun, hword, htext⟩

end Xv6.Sh
