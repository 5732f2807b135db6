import Xv6.Console.Input
import Xv6.Lib.Replay

/-! The console's input is that of a line editor with a queue of committed characters. -/
namespace Xv6.Console

open Function (update_eq_self_iff update_of_ne update_self)
open Lib Cons List

/-- The reference editor: what is committed, how much of it is taken, and the line being edited. -/
structure Editor where
  committed : List UInt8 := []
  taken : Nat := 0
  line : List UInt8 := []

namespace Editor

def unread (d : Editor) : List UInt8 := d.committed.drop d.taken

def waiting (d : Editor) : Nat := d.unread.length + d.line.length

def typed (d : Editor) (ch : UInt8) : Editor :=
  if ch = control 'P' ∨ ch = 0 then d
  else if ch = control 'U' then { d with line := [] }
  else if ch = control 'H' ∨ ch = 0x7f then { d with line := d.line.dropLast }
  else if d.waiting = INPUT_BUF then d
  else
    let ch := if ch = '\r'.toUInt8 then newline else ch
    let line := d.line ++ [ch]
    if ch = newline ∨ ch = control 'D' ∨ d.waiting + 1 = INPUT_BUF then
      { d with committed := d.committed ++ line, line := [] }
    else { d with line := line }

/-- A read up to the end of a line or a `^D`, which only a read that has delivered nothing takes. -/
def readFrom (killed : Bool) (target : Nat) : Nat → List UInt8 → List UInt8 × Ends
  | 0, _ => ([], .finishes 0 false)
  | n + 1, [] => ([], if killed then .fails else .sleeps (n + 1))
  | n + 1, ch :: stream =>
    if ch = control 'D' then ([], .finishes (n + 1) (decide (n + 1 = target)))
    else if ch = newline then ([ch], .finishes n false)
    else
      let (bytes, ends) := readFrom killed target n stream
      (ch :: bytes, ends)

def take (d : Editor) (count : Nat) : Editor := { d with taken := d.taken + count }

end Editor

def eofTaken (eof : Bool) : List UInt8 := if eof then [control 'D'] else []

def endTaken : Ends → List UInt8
  | .finishes _ eof => eofTaken eof
  | _ => []

def taken {P : Type} : Option (Reply P) → List UInt8
  | some reply => reply.bytes ++ eofTaken reply.eof
  | none => []

/-- The editor and its readers, with the size of each call and what is left of it. -/
structure Reference (P : Type) where
  editor : Editor := {}
  call : P → Option (Nat × Nat) := fun _ => none

namespace Reference

variable {P : Type} [DecidableEq P]

def read (s : Reference P) (p : P) (target n : Nat) (killed : Bool) : Reference P × Reply P :=
  let (bytes, ends) := Editor.readFrom killed target n s.editor.unread
  let d := s.editor.take (bytes ++ endTaken ends).length
  match ends with
  | .sleeps n => (⟨d, Function.update s.call p (some (target, n))⟩, ⟨p, bytes, false, none⟩)
  | .fails => (⟨d, Function.update s.call p none⟩, ⟨p, bytes, false, some (-1)⟩)
  | .finishes n eof => (⟨d, Function.update s.call p none⟩, ⟨p, bytes, eof, some (target - n)⟩)

def step (s : Reference P) : Event P → Option (Reference P × Option (Reply P))
  | .consoleintr ch => some ({ s with editor := s.editor.typed ch }, none)
  | .consoleread p n killed =>
    match s.call p with
    | none =>
      let (s, reply) := s.read p n.toNat n.toNat killed
      some (s, some reply)
    | some _ => none
  | .resume p killed =>
    match s.call p with
    | some (target, n) =>
      let (s, reply) := s.read p target n killed
      some (s, some reply)
    | none => none
  | .kill _ => some (s, none)

end Reference

namespace Editor

variable {d : Editor} {ch : UInt8} {rest stream bytes : List UInt8} {killed : Bool}
  {target n m : Nat} {ends : Ends}

theorem unread_take (d : Editor) (count : Nat) : (d.take count).unread = d.unread.drop count :=
  (drop_drop ..).symm

theorem unread_take_one (hunread : d.unread = ch :: rest) : (d.take 1).unread = rest := by
  rw [unread_take, hunread, drop_one, tail_cons]

theorem take_take (d : Editor) (m n : Nat) : (d.take m).take n = d.take (m + n) := by
  unfold take
  rw [Nat.add_assoc]

structure Delivers (target n : Nat) (stream bytes : List UInt8) (ends : Ends) : Prop where
  stream_eq : ∃ rest, stream = bytes ++ endTaken ends ++ rest
  plain : control 'D' ∉ bytes
  sleeps : ∀ m, ends = .sleeps m → stream = bytes ∧ m + bytes.length = n
  finishes : ∀ m eof, ends = .finishes m eof → m + bytes.length = n ∧ (eof = true → m = target)

theorem Delivers.cons (h : Delivers target n stream bytes ends) (hd : ch ≠ control 'D') :
    Delivers target (n + 1) (ch :: stream) (ch :: bytes) ends where
  stream_eq := h.stream_eq.imp fun _ heq => congrArg (ch :: ·) heq
  plain := not_mem_cons_of_ne_of_not_mem hd.symm h.plain
  sleeps m hm := ⟨congrArg (ch :: ·) (h.sleeps m hm).1, congrArg (· + 1) (h.sleeps m hm).2⟩
  finishes m eof hm := ⟨congrArg (· + 1) (h.finishes m eof hm).1, (h.finishes m eof hm).2⟩

theorem readFrom_delivers (killed : Bool) (target n : Nat) (stream : List UInt8) :
    Delivers target n stream (readFrom killed target n stream).1
      (readFrom killed target n stream).2 := by
  induction n generalizing stream with
  | zero => exact ⟨⟨stream, rfl⟩, not_mem_nil, nofun, by rintro _ _ ⟨⟩; simp [readFrom]⟩
  | succ n ih =>
    cases stream with
    | nil =>
      cases killed
      · exact ⟨⟨[], rfl⟩, not_mem_nil, by rintro _ ⟨⟩; exact ⟨rfl, rfl⟩, nofun⟩
      · exact ⟨⟨[], rfl⟩, not_mem_nil, nofun, nofun⟩
    | cons ch stream =>
      unfold readFrom
      split
      · rename_i hd
        refine ⟨?_, not_mem_nil, nofun, ?_⟩
        · by_cases hall : n + 1 = target
          · exact ⟨stream, by simp [endTaken, eofTaken, hall, hd]⟩
          · exact ⟨ch :: stream, by simp [endTaken, eofTaken, hall]⟩
        · rintro _ _ ⟨⟩
          exact ⟨rfl, of_decide_eq_true⟩
      · rename_i hd
        split
        · refine ⟨⟨stream, rfl⟩, fun hmem => hd (mem_singleton.mp hmem).symm, nofun, ?_⟩
          rintro _ _ ⟨⟩
          exact ⟨rfl, nofun⟩
        · exact (ih stream).cons hd

/-- A read that takes a `^D` has delivered nothing. -/
theorem readFrom_eof (hle : n ≤ target)
    (hends : (readFrom killed target n stream).2 = .finishes m true) :
    (readFrom killed target n stream).1 = [] ∧ m = target := by
  obtain ⟨hleft, hm⟩ := (readFrom_delivers killed target n stream).finishes m true hends
  have heq := hm rfl
  exact ⟨length_eq_zero_iff.mp (by omega), heq⟩

theorem readFrom_reaches_eof {line : List UInt8} (hd : control 'D' ∉ line) (hnl : newline ∉ line)
    (hlen : line.length < n) :
    readFrom killed target n (line ++ control 'D' :: rest) =
      (line, .finishes (n - line.length) (decide (n - line.length = target))) := by
  induction line generalizing n with
  | nil =>
    obtain ⟨n, rfl⟩ := Nat.exists_eq_add_one.mpr hlen
    unfold readFrom
    rw [nil_append]
    exact if_pos rfl
  | cons ch line ih =>
    obtain ⟨n, rfl⟩ := Nat.exists_eq_add_one.mpr (Nat.zero_lt_of_lt hlen)
    have hne : ch ≠ control 'D' := fun heq => hd (heq ▸ mem_cons_self)
    have hne' : ch ≠ newline := fun heq => hnl (heq ▸ mem_cons_self)
    have htail := ih (not_mem_of_not_mem_cons hd) (not_mem_of_not_mem_cons hnl)
      (Nat.lt_of_succ_lt_succ hlen)
    rw [cons_append, readFrom, if_neg hne, if_neg hne', htail, length_cons,
      Nat.add_sub_add_right]

theorem typed_committed (d : Editor) (ch : UInt8) :
    (d.typed ch).taken = d.taken ∧ ∃ more, (d.typed ch).committed = d.committed ++ more := by
  have same : d.committed = d.committed ++ [] := (append_nil _).symm
  unfold typed
  split
  · exact ⟨rfl, [], same⟩
  · split
    · exact ⟨rfl, [], same⟩
    · split
      · exact ⟨rfl, [], same⟩
      · split
        · exact ⟨rfl, [], same⟩
        · dsimp only
          split <;> split
          all_goals first | exact ⟨rfl, _, rfl⟩ | exact ⟨rfl, [], same⟩

end Editor

structure Shows (c : Cons) (d : Editor) : Prop where
  taken_le : d.taken ≤ d.committed.length
  w_eq : c.w = c.r + UInt32.ofNat d.unread.length
  e_eq : c.e = c.r + UInt32.ofNat d.waiting
  cells_eq : FreeRunning.cells c.buf c.r d.waiting = d.unread ++ d.line
  fits : d.waiting ≤ INPUT_BUF
  full : d.waiting = INPUT_BUF → d.line = []
  plain : newline ∉ d.line

namespace Shows

variable {c : Cons} {d : Editor} {ch : UInt8} {line rest : List UInt8}

theorem start : Shows {} {} :=
  ⟨Nat.le_refl _, rfl, rfl, rfl, Nat.zero_le _, fun _ => rfl, not_mem_nil⟩

section

variable (h : Shows c d)

include h

theorem waiting_lt : d.waiting < 2 ^ 32 :=
  Nat.lt_of_le_of_lt h.fits (by decide)

theorem unread_lt : d.unread.length < 2 ^ 32 :=
  Nat.lt_of_le_of_lt (Nat.le_add_right ..) h.waiting_lt

theorem w_sub : (c.w - c.r).toNat = d.unread.length := by
  rw [h.w_eq, FreeRunning.toNat_add_ofNat_sub _ h.unread_lt]

theorem e_sub : (c.e - c.r).toNat = d.waiting := by
  rw [h.e_eq, FreeRunning.toNat_add_ofNat_sub _ h.waiting_lt]

theorem unread_eq : c.unread = d.unread := by
  have hcells := h.cells_eq
  unfold Editor.waiting at hcells
  rw [FreeRunning.cells_add] at hcells
  unfold Cons.unread
  rw [h.w_sub]
  exact (append_inj hcells FreeRunning.cells_length).1

theorem e_eq_w_iff : c.e = c.w ↔ d.line = [] := by
  rw [h.e_eq, h.w_eq, FreeRunning.add_ofNat_inj _ h.waiting_lt h.unread_lt]
  unfold Editor.waiting
  rw [Nat.add_eq_left, length_eq_zero_iff]

theorem r_eq_w_iff : c.r = c.w ↔ d.unread = [] := by
  have hinj := FreeRunning.add_ofNat_inj c.r (by decide : 0 < 2 ^ 32) h.unread_lt
  rw [← h.w_eq] at hinj
  rw [← length_eq_zero_iff, eq_comm (a := d.unread.length), ← hinj]
  simp

theorem e_sub_w : (c.e - c.w).toNat = d.line.length := by
  have he : c.e = c.w + UInt32.ofNat d.line.length := by
    rw [h.e_eq, h.w_eq, UInt32.add_assoc, ← UInt32.ofNat_add]
    rfl
  have hlt : d.line.length < 2 ^ 32 := Nat.lt_of_le_of_lt (Nat.le_add_left ..) h.waiting_lt
  rw [he, FreeRunning.toNat_add_ofNat_sub _ hlt]

theorem erase (hline : d.line = line ++ [ch]) :
    c.cell (c.e - 1) = ch ∧ Shows { c with e := c.e - 1 } { d with line := line } := by
  have hwaiting : d.waiting = d.unread.length + line.length + 1 := by
    unfold Editor.waiting
    rw [hline, length_append]
    rfl
  have hcells := h.cells_eq
  rw [hwaiting, FreeRunning.cells_succ, hline, ← append_assoc] at hcells
  obtain ⟨hrest, hlast⟩ := append_inj' hcells rfl
  have he : c.e - 1 = c.r + UInt32.ofNat (d.unread.length + line.length) := by
    rw [h.e_eq, hwaiting, FreeRunning.add_ofNat_succ, UInt32.add_sub_cancel]
  have hfits := h.fits
  refine ⟨?_, h.taken_le, h.w_eq, he, hrest, ?_, ?_, ?_⟩
  · unfold Cons.cell
    rw [he]
    exact singleton_inj.mp hlast
  · change d.unread.length + line.length ≤ INPUT_BUF
    omega
  · intro hfull
    change d.unread.length + line.length = INPUT_BUF at hfull
    omega
  · intro hmem
    exact h.plain (hline ▸ mem_append_left _ hmem)

/-- The loop of `^U` erases the whole line. -/
theorem killLine {fuel : Nat} (hfuel : fuel = d.line.length) :
    Shows (c.killLine fuel) { d with line := [] } := by
  induction fuel generalizing c d with
  | zero =>
    have hnil : d.line = [] := length_eq_zero_iff.mp hfuel.symm
    unfold Cons.killLine
    rw [← hnil]
    exact h
  | succ fuel ih =>
    have hne : d.line ≠ [] := by
      intro hnil
      rw [hnil] at hfuel
      cases hfuel
    obtain ⟨line, ch, hline⟩ := (eq_nil_or_concat' d.line).resolve_left hne
    obtain ⟨hcell, herased⟩ := h.erase hline
    have hch : ch ≠ newline := fun heq => h.plain (by rw [hline, heq]; simp)
    have hgoes : c.e ≠ c.w ∧ c.cell (c.e - 1) ≠ newline :=
      ⟨fun heq => hne (h.e_eq_w_iff.mp heq), hcell ▸ hch⟩
    unfold Cons.killLine
    rw [if_pos hgoes]
    rw [hline, length_append] at hfuel
    exact ih (d := { d with line := line }) herased (Nat.succ.inj hfuel)

theorem cells_push (room : d.waiting < INPUT_BUF) (ch : UInt8) :
    (c.push ch).e = c.r + UInt32.ofNat (d.waiting + 1) ∧
      FreeRunning.cells (c.push ch).buf c.r (d.waiting + 1) = d.unread ++ (d.line ++ [ch]) := by
  constructor
  · change c.e + 1 = _
    rw [FreeRunning.add_ofNat_succ, ← h.e_eq]
  · unfold Cons.push
    dsimp only
    rw [h.e_eq, FreeRunning.cells_push (by decide) room, h.cells_eq, append_assoc]

theorem push (room : d.waiting + 1 < INPUT_BUF) (hch : ch ≠ newline) :
    Shows (c.push ch) { d with line := d.line ++ [ch] } := by
  obtain ⟨he, hcells⟩ := h.cells_push (by omega) ch
  have hwaiting : ({ d with line := d.line ++ [ch] } : Editor).waiting = d.waiting + 1 := by
    unfold Editor.waiting
    rw [length_append]
    rfl
  refine ⟨h.taken_le, h.w_eq, ?_, ?_, ?_, ?_, ?_⟩
  · rw [hwaiting]
    exact he
  · rw [hwaiting]
    exact hcells
  · rw [hwaiting]
    exact room.le
  · rw [hwaiting]
    intro hfull
    omega
  · intro hmem
    rcases mem_append.mp hmem with hmem | hmem
    · exact h.plain hmem
    · exact hch (mem_singleton.mp hmem).symm

theorem unread_commit (line : List UInt8) :
    ({ d with committed := d.committed ++ line, line := [] } : Editor).unread =
      d.unread ++ line :=
  drop_append_of_le_length h.taken_le

theorem commit (room : d.waiting < INPUT_BUF) (ch : UInt8) :
    Shows { c.push ch with w := (c.push ch).e }
      { d with committed := d.committed ++ (d.line ++ [ch]), line := [] } := by
  obtain ⟨he, hcells⟩ := h.cells_push room ch
  have hlen : (d.unread ++ (d.line ++ [ch])).length = d.waiting + 1 := by
    rw [length_append, length_append, ← Nat.add_assoc]
    rfl
  have hwaiting : ({ d with committed := d.committed ++ (d.line ++ [ch]), line := [] } :
      Editor).waiting = d.waiting + 1 := by
    unfold Editor.waiting
    rw [h.unread_commit, hlen]
    rfl
  refine ⟨?_, ?_, ?_, ?_, ?_, fun _ => rfl, not_mem_nil⟩
  · dsimp only
    rw [length_append]
    exact Nat.le_add_right_of_le h.taken_le
  · rw [h.unread_commit, hlen]
    exact he
  · rw [hwaiting]
    exact he
  · rw [hwaiting, h.unread_commit, append_nil]
    exact hcells
  · rw [hwaiting]
    exact room

theorem consoleintr (ch : UInt8) : Shows (c.consoleintr ch).1 (d.typed ch) := by
  unfold Cons.consoleintr Editor.typed
  by_cases hp : ch = control 'P'
  · rw [if_pos hp, if_pos (.inl hp)]
    exact h
  obtain rfl | hzero := eq_or_ne ch 0
  · exact h
  rw [if_neg hp, if_neg (not_or.mpr ⟨hp, hzero⟩)]
  split
  · exact h.killLine h.e_sub_w
  split
  · dsimp only
    split
    · rename_i hne
      have hline : d.line ≠ [] := fun hnil => hne (h.e_eq_w_iff.mpr hnil)
      obtain ⟨line, ch, hline⟩ := (eq_nil_or_concat' d.line).resolve_left hline
      rw [hline, dropLast_concat]
      exact (h.erase hline).2
    · rename_i heq
      have hnil : d.line = [] := h.e_eq_w_iff.mp (not_not.mp heq)
      rw [hnil, dropLast_nil, ← hnil]
      exact h
  have hroom : c.e - c.r < UInt32.ofNat INPUT_BUF ↔ d.waiting < INPUT_BUF := by
    rw [UInt32.lt_iff_toNat_lt, h.e_sub]
    rfl
  by_cases hfull : d.waiting = INPUT_BUF
  · rw [if_neg, if_pos hfull]
    · exact h
    · rintro ⟨-, hlt⟩
      exact absurd (hroom.mp hlt) (by omega)
  have room : d.waiting < INPUT_BUF := Nat.lt_of_le_of_ne h.fits hfull
  rw [if_pos ⟨hzero, hroom.mpr room⟩, if_neg hfull]
  dsimp only
  generalize (if ch = '\r'.toUInt8 then newline else ch) = ch
  have hlast : (c.push ch).e = (c.push ch).r + UInt32.ofNat INPUT_BUF ↔
      d.waiting + 1 = INPUT_BUF := by
    rw [(h.cells_push room ch).1]
    exact FreeRunning.add_ofNat_inj c.r (by unfold INPUT_BUF at room; omega) (by decide)
  have hboth := or_congr_right (a := ch = newline) (or_congr_right (a := ch = control 'D') hlast)
  by_cases hcommits : ch = newline ∨ ch = control 'D' ∨ d.waiting + 1 = INPUT_BUF
  · rw [if_pos hcommits, if_pos (hboth.mpr hcommits)]
    exact h.commit room ch
  · rw [if_neg hcommits, if_neg (fun hcommits' => hcommits (hboth.mp hcommits'))]
    rw [not_or, not_or] at hcommits
    exact h.push (by omega) hcommits.1

omit h in
theorem killLine_same (fuel : Nat) (c : Cons) :
    (c.killLine fuel).r = c.r ∧ (c.killLine fuel).w = c.w := by
  induction fuel generalizing c with
  | zero => exact ⟨rfl, rfl⟩
  | succ fuel ih =>
    unfold Cons.killLine
    split
    · exact ih _
    · exact ⟨rfl, rfl⟩

omit h in
/-- A handler that wakes nobody commits nothing. -/
theorem consoleintr_quiet (hquiet : (c.consoleintr ch).2 = false) :
    (c.consoleintr ch).1.r = c.r ∧ (c.consoleintr ch).1.w = c.w := by
  unfold Cons.consoleintr at hquiet ⊢
  split
  · exact ⟨rfl, rfl⟩
  rename_i hp
  split
  · exact killLine_same _ c
  rename_i hu
  split
  · dsimp only
    split <;> exact ⟨rfl, rfl⟩
  rename_i hh
  rw [if_neg hp, if_neg hu, if_neg hh] at hquiet
  split
  · rename_i hroom
    rw [if_pos hroom] at hquiet
    dsimp only at hquiet ⊢
    generalize (if ch = '\r'.toUInt8 then newline else ch) = ch at hquiet ⊢
    split at hquiet
    · cases hquiet
    · rename_i hstays
      rw [if_neg hstays]
      exact ⟨rfl, rfl⟩
  · exact ⟨rfl, rfl⟩

theorem pop (hunread : d.unread = ch :: rest) :
    c.cell c.r = ch ∧ Shows { c with r := c.r + 1 } (d.take 1) := by
  have hrest := Editor.unread_take_one hunread
  have hwaiting : d.waiting = (d.take 1).waiting + 1 := by
    unfold Editor.waiting
    rw [hrest, hunread, length_cons]
    change _ = rest.length + d.line.length + 1
    omega
  have hcells := h.cells_eq
  rw [hwaiting, FreeRunning.cells_cons, hunread, cons_append] at hcells
  obtain ⟨hfirst, htail⟩ := List.cons.inj hcells
  have hlen : d.unread.length = rest.length + 1 := by rw [hunread, length_cons]
  refine ⟨hfirst, ?_, ?_, ?_, ?_, ?_, ?_, h.plain⟩
  · have hdrop : d.unread.length = d.committed.length - d.taken := length_drop
    change d.taken + 1 ≤ d.committed.length
    omega
  · change c.w = c.r + 1 + UInt32.ofNat (d.take 1).unread.length
    rw [h.w_eq, hlen, hrest, FreeRunning.succ_add_ofNat]
  · change c.e = c.r + 1 + UInt32.ofNat (d.take 1).waiting
    rw [h.e_eq, hwaiting, FreeRunning.succ_add_ofNat]
  · rw [hrest]
    exact htail
  · exact Nat.le_trans (by omega) h.fits
  · intro hfull
    exact absurd h.fits (by omega)

theorem consolereadLoop (killed : Bool) {target n : Nat} (hle : n ≤ target) :
    Editor.readFrom killed target n d.unread = (Cons.consolereadLoop killed target n c).2 ∧
      Shows (Cons.consolereadLoop killed target n c).1
        (d.take ((Cons.consolereadLoop killed target n c).2.1 ++
          endTaken (Cons.consolereadLoop killed target n c).2.2).length) := by
  induction n generalizing c d with
  | zero => exact ⟨rfl, h⟩
  | succ n ih =>
    cases hunread : d.unread with
    | nil =>
      have hempty := h.r_eq_w_iff.mpr hunread
      unfold Cons.consolereadLoop
      rw [if_pos hempty]
      refine ⟨rfl, ?_⟩
      cases killed <;> exact h
    | cons ch rest =>
      have hsome : c.r ≠ c.w := by
        intro heq
        rw [h.r_eq_w_iff.mp heq] at hunread
        cases hunread
      obtain ⟨hcell, hpop⟩ := h.pop hunread
      unfold Cons.consolereadLoop Editor.readFrom
      rw [if_neg hsome]
      dsimp only
      rw [hcell]
      by_cases hd : ch = control 'D'
      · rw [if_pos hd, if_pos hd]
        by_cases hlt : n + 1 < target
        · rw [if_pos hlt, decide_eq_false (by omega)]
          refine ⟨rfl, ?_⟩
          rw [UInt32.add_sub_cancel]
          exact h
        · rw [if_neg hlt, decide_eq_true (by omega)]
          exact ⟨rfl, hpop⟩
      · rw [if_neg hd, if_neg hd]
        by_cases hnl : ch = newline
        · rw [if_pos hnl, if_pos hnl]
          exact ⟨rfl, hpop⟩
        · rw [if_neg hnl, if_neg hnl]
          obtain ⟨hread, hshows⟩ := ih hpop (by omega)
          rw [Editor.unread_take_one hunread] at hread
          rw [hread]
          refine ⟨rfl, ?_⟩
          rw [Editor.take_take] at hshows
          rw [cons_append, length_cons, Nat.add_comm]
          exact hshows

end

end Shows

theorem consolereadLoop_of_empty {c : Cons} (hempty : c.r = c.w) (killed : Bool) (target n : Nat) :
    (Cons.consolereadLoop killed target n c).1 = c := by
  cases n with
  | zero => rfl
  | succ n =>
    unfold Cons.consolereadLoop
    rw [if_pos hempty]

def Phase.call : Phase → Option (Nat × Nat)
  | .outside => none
  | .reading target n _ => some (target, n)

variable {P : Type} [DecidableEq P]

/-- The event lets `p` go on with a read of `target` bytes of which `n` are left. -/
inductive Reads (g : State P) : Event P → P → Nat → Nat → Prop where
  | calls {p : P} {n : Int} {killed : Bool} (outside : g.proc p = .outside) :
      Reads g (.consoleread p n killed) p n.toNat n.toNat
  | resumes {p : P} {target n : Nat} {killed : Bool} (awake : g.proc p = .reading target n false) :
      Reads g (.resume p killed) p target n

theorem reads_of_step {g next : State P} {event : Event P} {given : Reply P}
    (hstep : g.step event = some (next, some given)) : ∃ p target n, Reads g event p target n := by
  unfold State.step at hstep
  cases event with
  | consoleintr ch => cases hstep
  | kill p =>
    dsimp only at hstep
    split at hstep <;> cases hstep
  | consoleread p n killed =>
    dsimp only at hstep
    split at hstep
    · exact ⟨_, _, _, .calls ‹_›⟩
    · cases hstep
  | resume p killed =>
    dsimp only at hstep
    split at hstep
    · exact ⟨_, _, _, .resumes ‹_›⟩
    · cases hstep

/-- The console and the reference are at the same point; sleeping readers have nothing to read. -/
structure Simulates (g : State P) (s : Reference P) : Prop where
  ring : Shows g.cons s.editor
  call_eq : ∀ p, s.call p = (g.proc p).call
  left_le : ∀ {p target n asleep}, g.proc p = .reading target n asleep → n ≤ target
  asleep : ∀ {p target n}, g.proc p = .reading target n true → g.cons.r = g.cons.w

namespace Simulates

variable {g next : State P} {s : Reference P} {p : P} {c : Cons} {d : Editor}
  {target n : Nat} {event : Event P} {reply : Option (Reply P)}

omit [DecidableEq P] in
theorem start : Simulates ({} : State P) {} :=
  ⟨.start, fun _ => rfl, by rintro _ _ _ _ ⟨⟩, by rintro _ _ _ ⟨⟩⟩

theorem update (h : Simulates g s) (phase : Phase) (ring : Shows c d)
    (hle : ∀ {target n asleep}, phase = .reading target n asleep → n ≤ target)
    (hasleep : ∀ {target n}, phase = .reading target n true → c.r = c.w)
    (hothers : g.cons.r = g.cons.w → c.r = c.w) :
    Simulates ⟨c, Function.update g.proc p phase⟩ ⟨d, Function.update s.call p phase.call⟩ := by
  refine ⟨ring, fun q => ?_, fun {q _ _ _} hq => ?_, fun {q _ _} hq => ?_⟩
  · obtain rfl | hqp := eq_or_ne q p
    · simp only [update_self]
    · simp only [update_of_ne hqp]
      exact h.call_eq q
  · dsimp only at hq
    obtain rfl | hqp := eq_or_ne q p
    · rw [update_self] at hq
      exact hle hq
    · rw [update_of_ne hqp] at hq
      exact h.left_le hq
  · dsimp only at hq
    obtain rfl | hqp := eq_or_ne q p
    · rw [update_self] at hq
      exact hasleep hq
    · rw [update_of_ne hqp] at hq
      exact hothers (h.asleep hq)

theorem read (h : Simulates g s) (p : P) (hle : n ≤ target) (killed : Bool) :
    (s.read p target n killed).2 = (g.read p target n killed).2 ∧
      Simulates (g.read p target n killed).1 (s.read p target n killed).1 := by
  obtain ⟨hread, ring⟩ := h.ring.consolereadLoop killed hle
  have hothers : g.cons.r = g.cons.w → (consolereadLoop killed target n g.cons).1.r =
      (consolereadLoop killed target n g.cons).1.w := by
    intro hempty
    rw [consolereadLoop_of_empty hempty]
    exact hempty
  unfold State.read Reference.read
  rw [hread]
  dsimp only
  cases hends : (consolereadLoop killed target n g.cons).2.2 with
  | sleeps m =>
    rw [hends] at ring
    obtain ⟨hall, hleft⟩ := (Editor.readFrom_delivers killed target n s.editor.unread).sleeps m
      ((congrArg Prod.snd hread).trans hends)
    rw [hread] at hall hleft
    refine ⟨rfl, h.update (.reading target m true) ring ?_ ?_ hothers⟩
    · rintro _ _ _ ⟨⟩
      omega
    · rintro _ _ ⟨⟩
      -- a reader sleeps only when it has taken every committed character
      rw [ring.r_eq_w_iff, Editor.unread_take, hall]
      simp [endTaken]
  | fails =>
    rw [hends] at ring
    exact ⟨rfl, h.update .outside ring (by rintro _ _ _ ⟨⟩) (by rintro _ _ ⟨⟩) hothers⟩
  | finishes m eof =>
    rw [hends] at ring
    exact ⟨rfl, h.update .outside ring (by rintro _ _ _ ⟨⟩) (by rintro _ _ ⟨⟩) hothers⟩

omit [DecidableEq P] in
theorem wakeup (h : Simulates g s) (ring : Shows c d) :
    Simulates ({ g with cons := c } : State P).wakeup { s with editor := d } := by
  refine ⟨ring, fun q => ?_, fun {q target n asleep} hq => ?_, fun {q target n} hq => ?_⟩
  · have hcall := h.call_eq q
    unfold State.wakeup
    dsimp only
    rw [hcall]
    cases g.proc q <;> rfl
  · unfold State.wakeup at hq
    dsimp only at hq
    split at hq
    · rename_i hreading
      cases hq
      exact h.left_le hreading
    · cases hq
  · unfold State.wakeup at hq
    dsimp only at hq
    split at hq <;> cases hq

theorem read_step (h : Simulates g s) (hreads : Reads g event p target n) :
    n ≤ target ∧ ∃ killed,
      g.step event = some ((g.read p target n killed).1, some (g.read p target n killed).2) ∧
      s.step event = some ((s.read p target n killed).1, some (s.read p target n killed).2) := by
  have hcall := h.call_eq p
  unfold State.step Reference.step
  cases hreads with
  | calls outside =>
    dsimp only
    rw [hcall, outside]
    exact ⟨Nat.le_refl _, _, rfl, rfl⟩
  | resumes awake =>
    dsimp only
    rw [hcall, awake]
    exact ⟨h.left_le awake, _, rfl, rfl⟩

theorem kill (h : Simulates g s) (p : P) :
    ∃ next, g.step (.kill p) = some (next, none) ∧ Simulates next s := by
  unfold State.step
  dsimp only
  split
  · rename_i target n asleep hphase
    refine ⟨_, rfl, ?_⟩
    have hset := h.update (p := p) (.reading target n false) h.ring
      (by rintro _ _ _ ⟨⟩; exact h.left_le hphase) (by rintro _ _ ⟨⟩) id
    have hsame : Function.update s.call p (Phase.call (.reading target n false)) = s.call := by
      rw [update_eq_self_iff, h.call_eq, hphase]
      rfl
    rwa [hsame] at hset
  · exact ⟨_, rfl, h⟩

/-- Every step is one of the reference, with the same reply. -/
theorem step (h : Simulates g s) (hstep : g.step event = some (next, reply)) :
    ∃ next', s.step event = some (next', reply) ∧ Simulates next next' := by
  cases reply with
  | some given =>
    obtain ⟨p, target, n, hreads⟩ := reads_of_step hstep
    obtain ⟨hle, killed, heq, heq'⟩ := h.read_step hreads
    obtain ⟨hreply, hnext⟩ := h.read p hle killed
    cases heq.symm.trans hstep
    exact ⟨_, heq'.trans (by rw [hreply]), hnext⟩
  | none =>
    cases event with
    | consoleintr ch =>
      have ring := h.ring.consoleintr ch
      unfold State.step at hstep
      dsimp only at hstep
      cases hwoken : (g.cons.consoleintr ch).2 with
      | true =>
        rw [hwoken] at hstep
        cases hstep
        exact ⟨_, rfl, h.wakeup ring⟩
      | false =>
        rw [hwoken] at hstep
        cases hstep
        obtain ⟨hr, hw⟩ := Shows.consoleintr_quiet hwoken
        refine ⟨_, rfl, ring, h.call_eq, h.left_le, fun hq => ?_⟩
        change (g.cons.consoleintr ch).1.r = (g.cons.consoleintr ch).1.w
        rw [hr, hw]
        exact h.asleep hq
    | kill p =>
      obtain ⟨next', heq, hnext⟩ := h.kill p
      cases heq.symm.trans hstep
      exact ⟨s, rfl, hnext⟩
    | consoleread p n killed =>
      unfold State.step at hstep
      dsimp only at hstep
      split at hstep <;> cases hstep
    | resume p killed =>
      unfold State.step at hstep
      dsimp only at hstep
      split at hstep <;> cases hstep

end Simulates

namespace Reference

variable {s next last : Reference P} {event : Event P} {events : List (Event P)}
  {reply : Option (Reply P)} {replies : List (Option (Reply P))} {target n : Nat}

theorem read_takes (s : Reference P) (p : P) (target n : Nat) (killed : Bool) :
    (s.read p target n killed).1.editor =
        s.editor.take (taken (some (s.read p target n killed).2)).length ∧
      ∃ rest, s.editor.unread = taken (some (s.read p target n killed).2) ++ rest := by
  obtain ⟨rest, hrest⟩ := (Editor.readFrom_delivers killed target n s.editor.unread).stream_eq
  unfold read
  dsimp only
  cases hends : (Editor.readFrom killed target n s.editor.unread).2 with
  | sleeps m =>
    rw [hends] at hrest
    exact ⟨rfl, rest, hrest⟩
  | fails =>
    rw [hends] at hrest
    exact ⟨rfl, rest, hrest⟩
  | finishes m eof =>
    rw [hends] at hrest
    exact ⟨rfl, rest, hrest⟩

theorem step_takes (hstep : s.step event = some (next, reply)) :
    next.editor.taken = s.editor.taken + (taken reply).length ∧
      (∃ more, next.editor.committed = s.editor.committed ++ more) ∧
      ∃ rest, s.editor.unread = taken reply ++ rest := by
  have hread : ∀ p target n killed, (s.read p target n killed).1 = next →
      some (s.read p target n killed).2 = reply →
      next.editor.taken = s.editor.taken + (taken reply).length ∧
        (∃ more, next.editor.committed = s.editor.committed ++ more) ∧
        ∃ rest, s.editor.unread = taken reply ++ rest := by
    rintro p target n killed rfl rfl
    obtain ⟨heq, hrest⟩ := s.read_takes p target n killed
    rw [heq]
    exact ⟨rfl, ⟨[], (append_nil _).symm⟩, hrest⟩
  cases event with
  | consoleintr ch =>
    cases hstep
    obtain ⟨htaken, hmore⟩ := s.editor.typed_committed ch
    exact ⟨htaken, hmore, _, rfl⟩
  | consoleread p n killed =>
    unfold step at hstep
    dsimp only at hstep
    split at hstep
    · obtain ⟨hnext, hreply⟩ := Prod.mk.inj (Option.some.inj hstep)
      exact hread _ _ _ _ hnext hreply
    · cases hstep
  | resume p killed =>
    unfold step at hstep
    dsimp only at hstep
    split at hstep
    · obtain ⟨hnext, hreply⟩ := Prod.mk.inj (Option.some.inj hstep)
      exact hread _ _ _ _ hnext hreply
    · cases hstep
  | kill p =>
    cases hstep
    exact ⟨rfl, ⟨[], (append_nil _).symm⟩, _, rfl⟩

theorem step_unread (hle : s.editor.taken ≤ s.editor.committed.length)
    (hstep : s.step event = some (next, reply)) :
    (∃ more, s.editor.unread ++ more = taken reply ++ next.editor.unread) ∧
      next.editor.committed.take next.editor.taken =
        s.editor.committed.take s.editor.taken ++ taken reply ∧
      next.editor.taken ≤ next.editor.committed.length := by
  obtain ⟨htaken, ⟨more, hmore⟩, rest, hrest⟩ := step_takes hstep
  have hsplit : next.editor.committed =
      s.editor.committed.take s.editor.taken ++ taken reply ++ (rest ++ more) := by
    rw [hmore, ← take_append_drop s.editor.taken s.editor.committed]
    change _ ++ s.editor.unread ++ more = _
    rw [hrest, take_append_drop]
    simp only [append_assoc]
  have hlen : (s.editor.committed.take s.editor.taken ++ taken reply).length =
      next.editor.taken := by
    rw [length_append, length_take_of_le hle, htaken]
  refine ⟨⟨more, ?_⟩, ?_, ?_⟩
  · unfold Editor.unread
    rw [hsplit, ← hlen, drop_left]
    change s.editor.unread ++ more = _
    rw [hrest, append_assoc]
  · rw [hsplit, ← hlen, take_left]
  · rw [hsplit, length_append, hlen]
    exact Nat.le_add_right ..

/-- What was taken and what is unread is what the editor committed. -/
theorem replay_taken (hle : s.editor.taken ≤ s.editor.committed.length)
    (run : replay step s events = some (last, replies)) :
    s.editor.committed.take s.editor.taken ++ replies.flatMap taken ++ last.editor.unread =
      last.editor.committed := by
  induction events generalizing s replies with
  | nil =>
    cases run
    rw [flatMap_nil, append_nil]
    exact take_append_drop ..
  | cons event events ih =>
    obtain ⟨next, reply, rest, hstep, hrun, rfl⟩ := replay_cons_eq_some.mp run
    obtain ⟨-, htook, hle'⟩ := step_unread hle hstep
    have hnext := ih hle' hrun
    rw [htook, append_assoc _ (taken reply)] at hnext
    exact hnext

theorem read_reply (s : Reference P) (p : P) (hle : n ≤ target) (killed : Bool) :
    control 'D' ∉ (s.read p target n killed).2.bytes ∧
      ((s.read p target n killed).2.eof = true →
        (s.read p target n killed).2.bytes = [] ∧
          (s.read p target n killed).2.result = some 0) := by
  have hplain := (Editor.readFrom_delivers killed target n s.editor.unread).plain
  unfold read
  dsimp only
  cases hends : (Editor.readFrom killed target n s.editor.unread).2 with
  | sleeps m => exact ⟨hplain, by rintro ⟨⟩⟩
  | fails => exact ⟨hplain, by rintro ⟨⟩⟩
  | finishes m eof =>
    refine ⟨hplain, ?_⟩
    rintro rfl
    obtain ⟨hnil, rfl⟩ := Editor.readFrom_eof hle hends
    exact ⟨hnil, congrArg some (Int.sub_self _)⟩

end Reference

theorem Simulates.step_reply {g next : State P} {s : Reference P} {event : Event P}
    {reply : Option (Reply P)} (h : Simulates g s) (hstep : g.step event = some (next, reply)) :
    (∃ s', Simulates next s') ∧ ∀ given, reply = some given →
      control 'D' ∉ given.bytes ∧
        (given.eof = true → given.bytes = [] ∧ given.result = some 0) := by
  obtain ⟨next', -, hnext⟩ := h.step hstep
  refine ⟨⟨next', hnext⟩, ?_⟩
  rintro given rfl
  obtain ⟨p, target, n, hreads⟩ := reads_of_step hstep
  obtain ⟨hle, killed, heq, -⟩ := h.read_step hreads
  cases heq.symm.trans hstep
  rw [← (h.read p hle killed).1]
  exact s.read_reply p hle killed

namespace Reads

variable {g : State P} {s : Reference P} {event : Event P} {p : P} {target n : Nat}

/-- A `^D` ends the read that reaches it, and is taken if that has delivered nothing. -/
theorem reaches_eof (h : Reads g event p target n) (hsim : Simulates g s) {line rest : List UInt8}
    (hunread : g.cons.unread = line ++ control 'D' :: rest) (hd : control 'D' ∉ line)
    (hnl : newline ∉ line) (hlen : line.length < n) :
    ∃ next, g.step event = some (next,
        some ⟨p, line, decide (line = [] ∧ n = target), some (target - n + line.length)⟩) ∧
      next.cons.unread = if line = [] ∧ n = target then rest else control 'D' :: rest := by
  obtain ⟨hle, killed, hstep, -⟩ := hsim.read_step h
  have hunread' := hsim.ring.unread_eq.symm.trans hunread
  have heof : n - line.length = target ↔ line = [] ∧ n = target := by
    rw [← length_eq_zero_iff]
    omega
  have hread : s.read p target n killed =
      (⟨s.editor.take (line ++ eofTaken (decide (line = [] ∧ n = target))).length,
        Function.update s.call p none⟩,
        ⟨p, line, decide (line = [] ∧ n = target), some (target - n + line.length)⟩) := by
    have hresult : (target : Int) - (n - line.length : Nat) = target - n + line.length := by omega
    unfold Reference.read
    rw [hunread', Editor.readFrom_reaches_eof hd hnl hlen]
    dsimp only [endTaken]
    rw [decide_eq_decide.mpr heof, hresult]
  obtain ⟨hreply, hnext⟩ := hsim.read p hle killed
  rw [hread] at hreply hnext
  rw [← hreply] at hstep
  refine ⟨_, hstep, ?_⟩
  rw [hnext.ring.unread_eq]
  rw [Editor.unread_take, hunread', eofTaken]
  split
  · rename_i hfirst
    rw [if_pos (of_decide_eq_true hfirst), (of_decide_eq_true hfirst).1]
    rfl
  · rename_i hlater
    rw [if_neg (of_decide_eq_false (Bool.not_eq_true _ ▸ hlater)), append_nil, drop_left]

end Reads

/-- The console is a line editor with a queue of committed characters: every run gives the
replies of the reference. -/
theorem line_discipline {events : List (Event P)} {g : State P}
    {replies : List (Option (Reply P))} (run : replay State.step {} events = some (g, replies)) :
    ∃ s : Reference P, replay Reference.step {} events = some (s, replies) ∧
      replies.flatMap taken ++ g.cons.unread = s.editor.committed ∧
      (g.cons.e - g.cons.r).toNat = s.editor.waiting ∧
      g.cons.w - g.cons.r ≤ g.cons.e - g.cons.r ∧
      g.cons.e - g.cons.r ≤ UInt32.ofNat INPUT_BUF ∧
      (g.cons.e - g.cons.r = UInt32.ofNat INPUT_BUF → g.cons.w = g.cons.e ∧
        g.cons.r ≠ g.cons.w ∧ ∀ p target n, g.proc p ≠ .reading target n true) ∧
      (∀ event next reply, g.step event = some (next, reply) →
        g.cons.unread <+: taken reply ++ next.cons.unread) ∧
      (∀ reply, some reply ∈ replies → control 'D' ∉ reply.bytes ∧
        (reply.eof = true → reply.bytes = [] ∧ reply.result = some 0)) ∧
      ∀ event p target n line rest, Reads g event p target n →
        g.cons.unread = line ++ control 'D' :: rest → control 'D' ∉ line → newline ∉ line →
        line.length < n →
        ∃ next, g.step event = some (next,
            some ⟨p, line, decide (line = [] ∧ n = target), some (target - n + line.length)⟩) ∧
          next.cons.unread = if line = [] ∧ n = target then rest else control 'D' :: rest := by
  obtain ⟨s, hrun, hsim⟩ := replay_refines run Simulates.start Simulates.step
  refine ⟨s, hrun, ?_, hsim.ring.e_sub, ?_, ?_, ?_, ?_, ?_, ?_⟩
  · rw [hsim.ring.unread_eq, ← Reference.replay_taken (Nat.le_refl 0) hrun]
    rfl
  · rw [UInt32.le_iff_toNat_le, hsim.ring.w_sub, hsim.ring.e_sub]
    exact Nat.le_add_right ..
  · rw [UInt32.le_iff_toNat_le, hsim.ring.e_sub]
    exact hsim.ring.fits
  · intro hfull
    have hwaiting : s.editor.waiting = INPUT_BUF := by
      rw [← hsim.ring.e_sub, hfull]
      rfl
    have hline := hsim.ring.full hwaiting
    have hsome : g.cons.r ≠ g.cons.w := by
      intro hempty
      unfold Editor.waiting at hwaiting
      rw [hline, hsim.ring.r_eq_w_iff.mp hempty] at hwaiting
      cases hwaiting
    exact ⟨(hsim.ring.e_eq_w_iff.mpr hline).symm, hsome, fun p target n hp => hsome (hsim.asleep hp)⟩
  · intro event next reply hstep
    obtain ⟨next', hstep', hsim'⟩ := hsim.step hstep
    obtain ⟨⟨more, hmore⟩, -⟩ := Reference.step_unread hsim.ring.taken_le hstep'
    rw [hsim.ring.unread_eq, hsim'.ring.unread_eq]
    exact ⟨more, hmore⟩
  · intro reply hmem
    exact forall_replies (I := fun g => ∃ s, Simulates g s) run ⟨_, Simulates.start⟩
      (fun ⟨_, hsim⟩ hstep => hsim.step_reply hstep) _ hmem reply rfl
  · intro event p target n line rest hreads hunread hd hnl hlen
    exact hreads.reaches_eof hsim hunread hd hnl hlen

def session : List (Event Unit) :=
  [.consoleintr 97, .consoleintr (control 'H'), .consoleread () 10 false, .consoleintr 98,
    .consoleintr 13, .resume () false, .consoleintr (control 'D'), .consoleread () 10 false]

theorem session_taken : (replay State.step {} session).map (fun run => run.2.flatMap taken) =
    some [98, 10, control 'D'] := by
  decide +kernel

theorem line_discipline_session : ∃ g replies,
    replay State.step {} session = some (g, replies) ∧
      replies.flatMap taken = [98, 10, control 'D'] ∧
      ∃ s : Reference Unit, replay Reference.step {} session = some (s, replies) ∧
        replies.flatMap taken ++ g.cons.unread = s.editor.committed := by
  obtain ⟨⟨g, replies⟩, run, htaken⟩ := Option.map_eq_some_iff.mp session_taken
  obtain ⟨s, hrun, hcommitted, -⟩ := line_discipline run
  exact ⟨g, replies, run, htaken, s, hrun, hcommitted⟩

end Xv6.Console
