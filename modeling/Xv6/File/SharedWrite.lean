import Xv6.Fs.SmallDisk
import Xv6.Lib.Shuffle

/-! Writes through one open file that several processes share. A step is one of the sections of
`filewrite`; the offset is protected by the lock of the inode. -/
namespace Xv6.SharedFile

open Function List
open Lib Lib.Exec Lib.Shuffle

/-- A call of `filewrite` with bytes that the kernel can copy. -/
structure Call where
  n : Int
  bytes : Nat → UInt8

/-- The local variable `max`: a few blocks, to stay within a log transaction. -/
def maxWrite : Nat := (MAXOPBLOCKS - 1 - 1 - 2) / 2 * BSIZE

namespace Call

variable (c : Call) (i : Nat)

def n1 : Nat := min (c.n - i).toNat maxWrite

def source : Source := fun k => some (c.bytes (i + k))

def ret : Int := if (i : Int) = c.n then c.n else -1

end Call

inductive Pc where
  | out
  | loop (c : Call) (i : Nat)
  | begun (c : Call) (i : Nat)
  | locked (c : Call) (i : Nat)
  | wrote (c : Call) (i : Nat) (r : Int)
  | updated (c : Call) (i : Nat) (r : Int)
  | unlocked (c : Call) (i : Nat) (r : Int)
  | returned (c : Call) (ret : Int)

structure State (P : Type) where
  fs : Fs
  /-- `f->off` -/
  off : UInt32
  proc : P → Pc

inductive Event (P : Type) where
  | call (p : P) (c : Call)
  | beginOp (p : P)
  | ilock (p : P)
  | writei (p : P)
  | update (p : P)
  | iunlock (p : P)
  | endOp (p : P)
  | ret (p : P)

variable {P : Type} [DecidableEq P]

namespace State

def setProc (s : State P) (p : P) (pc : Pc) : State P :=
  { s with proc := update s.proc p pc }

/-- Run a function of the file system. A sleep only means that the step is not taken now. -/
def exec {α : Type} (s : State P) (p : P) (m : Exec Fs Panic α) (next : α → Pc) :
    Option (Except Panic (State P)) :=
  match m s.fs with
  | .ok (a, fs) => some (.ok { s.setProc p (next a) with fs := fs })
  | .error .sleepsForever => none
  | .error .deadlock => none
  | .error e => some (.error e)

variable (sb : Superblock) (k : Fin NINODE)

def step (s : State P) : Event P → Option (Except Panic (State P))
  | .call p c =>
    match s.proc p with
    | .out | .returned .. => some (.ok (s.setProc p (.loop c 0)))
    | _ => none
  | .beginOp p =>
    match s.proc p with
    | .loop c i => if (i : Int) < c.n then s.exec p Fs.beginOp fun _ => .begun c i else none
    | _ => none
  | .ilock p =>
    match s.proc p with
    | .begun c i => s.exec p (Fs.ilock sb k) fun _ => .locked c i
    | _ => none
  | .writei p =>
    match s.proc p with
    | .locked c i =>
      s.exec p (Fs.writei sb k (c.source i) s.off (UInt32.ofNat (c.n1 i))) fun r => .wrote c i r
    | _ => none
  | .update p =>
    match s.proc p with
    | .wrote c i r => some (.ok { s.setProc p (.updated c i r) with
        off := if r > 0 then s.off + UInt32.ofNat r.toNat else s.off })
    | _ => none
  | .iunlock p =>
    match s.proc p with
    | .updated c i r => s.exec p (Fs.iunlock k) fun _ => .unlocked c i r
    | _ => none
  | .endOp p =>
    match s.proc p with
    | .unlocked c i r => s.exec p Fs.endOp fun _ =>
        -- error from writei
        if r ≠ c.n1 i then .returned c (c.ret i) else .loop c (i + r.toNat)
    | _ => none
  | .ret p =>
    match s.proc p with
    | .loop c i => if (i : Int) < c.n then none else some (.ok (s.setProc p (.returned c (c.ret i))))
    | _ => none

def contents (s : State P) : List UInt8 :=
  (s.fs.store.volume sb).contents (s.fs.itable k).inum

end State

variable {sb : Superblock} {k : Fin NINODE}

inductive Runs (sb : Superblock) (k : Fin NINODE) (start : State P) :
    List (Event P) → State P → Prop where
  | nil : Runs sb k start [] start
  | snoc {events : List (Event P)} {event : Event P} {s s' : State P}
      (runs : Runs sb k start events s) (step : s.step sb k event = some (.ok s')) :
      Runs sb k start (events ++ [event]) s'

/-- The file is open in entry `k`, with the offset at its end. -/
structure Start (sb : Superblock) (k : Fin NINODE) (s : State P) : Prop where
  ready : InodesReady sb s.fs
  ref_pos : 0 < (s.fs.itable k).ref
  allocated : (s.fs.store.volume sb).allocated (s.fs.itable k).inum
  off_eq : s.off.toNat = (s.contents sb k).length
  out : ∀ p, s.proc p = .out

namespace Call

theorem n1_pos {c : Call} {i : Nat} (h : (i : Int) < c.n) : 0 < c.n1 i := by
  unfold n1
  have hmax : maxWrite = 3072 := rfl
  omega

theorem n1_le (c : Call) (i : Nat) : c.n1 i ≤ c.n.toNat - i := by
  unfold n1
  omega

theorem ret_eq {c : Call} {i : Nat} (h : i = 0 ∨ (i : Int) ≤ c.n) (hge : ¬ (i : Int) < c.n) :
    c.ret i = if 0 ≤ c.n then c.n else -1 := by
  unfold ret
  by_cases hi : (i : Int) = c.n
  · rw [if_pos hi, if_pos (by omega)]
  · rw [if_neg hi, if_neg (by omega)]

def chunksFrom (c : Call) (i : Nat) : List (List UInt8) :=
  if (i : Int) < c.n then ByteField.getBytes c.bytes i (c.n1 i) :: c.chunksFrom (i + c.n1 i)
  else []
termination_by c.n.toNat - i
decreasing_by
  have hpos := n1_pos ‹(i : Int) < c.n›
  omega

theorem chunksFrom_of_lt {c : Call} {i : Nat} (h : (i : Int) < c.n) :
    c.chunksFrom i = ByteField.getBytes c.bytes i (c.n1 i) :: c.chunksFrom (i + c.n1 i) := by
  rw [chunksFrom, if_pos h]

theorem chunksFrom_of_not_lt {c : Call} {i : Nat} (h : ¬ (i : Int) < c.n) : c.chunksFrom i = [] := by
  rw [chunksFrom, if_neg h]

theorem chunksFrom_flatten (c : Call) (i : Nat) :
    (c.chunksFrom i).flatten = ByteField.getBytes c.bytes i (c.n.toNat - i) := by
  induction i using chunksFrom.induct c with
  | case1 i hlt ih =>
    have hle := c.n1_le i
    have hsplit : c.n.toNat - i = c.n1 i + (c.n.toNat - (i + c.n1 i)) := by omega
    rw [chunksFrom_of_lt hlt, flatten_cons, ih, hsplit, ByteField.getBytes_add]
  | case2 i hge =>
    have hzero : c.n.toNat - i = 0 := by omega
    rw [chunksFrom_of_not_lt hge, hzero]
    rfl

end Call

def issued : List (Event P) → List (P × List UInt8)
  | [] => []
  | .call p c :: events => (c.chunksFrom 0).map (fun chunk => (p, chunk)) ++ issued events
  | _ :: events => issued events

def asked : List (Event P) → Nat
  | [] => 0
  | .call _ c :: events => c.n.toNat + asked events
  | _ :: events => asked events

omit [DecidableEq P] in
theorem issued_append (events more : List (Event P)) :
    issued (events ++ more) = issued events ++ issued more := by
  induction events with
  | nil => rfl
  | cons event events ih =>
    cases event with
    | call p c => simp only [cons_append, issued, ih, append_assoc]
    | _ => simpa only [cons_append, issued] using ih

omit [DecidableEq P] in
theorem asked_append (events more : List (Event P)) :
    asked (events ++ more) = asked events + asked more := by
  induction events with
  | nil => exact (Nat.zero_add _).symm
  | cons event events ih =>
    cases event with
    | call p c => simp only [cons_append, asked, ih, Nat.add_assoc]
    | _ => simpa only [cons_append, asked] using ih

omit [DecidableEq P] in
theorem sum_issued (events : List (Event P)) :
    ((issued events).map fun x => x.2.length).sum = asked events := by
  induction events with
  | nil => rfl
  | cons event events ih =>
    cases event with
    | call p c =>
      have hlength := congrArg List.length (c.chunksFrom_flatten 0)
      rw [length_flatten, ByteField.getBytes_length, Nat.sub_zero] at hlength
      have hmap : (((c.chunksFrom 0).map fun chunk => (p, chunk)).map fun x => x.2.length) =
          (c.chunksFrom 0).map List.length := map_map
      rw [issued, asked, map_append, sum_append, ih, hmap, hlength]
    | _ => exact ih

namespace Pc

def Holds : Pc → Prop
  | locked .. | wrote .. | updated .. => True
  | _ => False

def pending : Pc → Nat
  | wrote c i _ => c.n1 i
  | _ => 0

def todo : Pc → List (List UInt8)
  | out | returned .. => []
  | loop c i | begun c i | locked c i => c.chunksFrom i
  | wrote c i _ | updated c i _ | unlocked c i _ => c.chunksFrom (i + c.n1 i)

def Good : Pc → Prop
  | out => True
  | loop c i => i = 0 ∨ (i : Int) ≤ c.n
  | begun c i | locked c i => (i : Int) < c.n
  | wrote c i r | updated c i r | unlocked c i r => (i : Int) < c.n ∧ r = c.n1 i
  | returned c ret => ret = if 0 ≤ c.n then c.n else -1

def Outside : Pc → Prop
  | out | returned .. => True
  | _ => False

theorem todo_of_outside {pc : Pc} (h : pc.Outside) : pc.todo = [] := by
  cases pc with
  | out | returned => rfl
  | _ => exact h.elim

theorem not_holds_of_outside {pc : Pc} (h : pc.Outside) : ¬ pc.Holds := by
  cases pc with
  | out | returned => exact id
  | _ => exact h.elim

end Pc

/-- Between steps: the chunks `order` are written, and `holder` has the inode's lock. -/
structure Inv (sb : Superblock) (k : Fin NINODE) (i : Nat) (old : List UInt8)
    (events : List (Event P)) (s : State P) (a : FsView) (order : List (P × List UInt8))
    (holder : Option P) : Prop where
  rep : s.fs.Rep sb a
  ref : (k, i) ∈ a.own
  inum_lt : i < sb.ninodes
  node : ∃ node, a.nodes i = some node ∧ node.contents = old ++ (order.map Prod.snd).flatten
  held : ∀ p, (s.proc p).Holds ↔ holder = some p
  locks : i ∈ a.locks ↔ holder ≠ none
  off_eq : s.off.toNat + (holder.elim 0 fun p => (s.proc p).pending) =
    (old ++ (order.map Prod.snd).flatten).length
  good : ∀ p, (s.proc p).Good
  todo : ∀ p, own p order ++ (s.proc p).todo = own p (issued events)

section Steps

variable {i : Nat} {old : List UInt8} {events : List (Event P)} {s s' : State P} {a a' : FsView}
  {order : List (P × List UInt8)} {holder holder' : Option P} {p : P} {pc : Pc}

theorem State.exec_eq_ok {α : Type} {m : Exec Fs Panic α} {next : α → Pc}
    (h : s.exec p m next = some (.ok s')) :
    ∃ r fs, m s.fs = .ok (r, fs) ∧ s' = { s.setProc p (next r) with fs := fs } := by
  unfold State.exec at h
  split at h
  · rename_i r fs hrun
    exact ⟨r, fs, hrun, (Except.ok.inj (Option.some.inj h)).symm⟩
  all_goals cases h

theorem State.exec_eq_error {α : Type} {m : Exec Fs Panic α} {next : α → Pc} {e : Panic}
    (h : s.exec p m next = some (.error e)) :
    m s.fs = .error e ∧ e ≠ .sleepsForever ∧ e ≠ .deadlock := by
  unfold State.exec at h
  split at h
  · cases h
  · cases h
  · cases h
  · rename_i e' hsleep hlock hrun
    cases h
    exact ⟨hrun, fun he => hsleep (he ▸ rfl), fun he => hlock (he ▸ rfl)⟩

/-- A step that writes nothing and moves the lock. -/
theorem Inv.move (h : Inv sb k i old events s a order holder) (rep : s'.fs.Rep sb a')
    (hproc : s'.proc = update s.proc p pc) (hnodes : a'.nodes = a.nodes)
    (hown : a'.own = a.own) (held : pc.Holds ↔ holder' = some p)
    (others : ∀ q, q ≠ p → (holder' = some q ↔ holder = some q))
    (locks : i ∈ a'.locks ↔ holder' ≠ none)
    (off_eq : s'.off.toNat + (holder'.elim 0 fun q => (s'.proc q).pending) =
      s.off.toNat + (holder.elim 0 fun q => (s.proc q).pending))
    (good : pc.Good) (todo : pc.todo = (s.proc p).todo) :
    Inv sb k i old events s' a' order holder' where
  rep := rep
  ref := hown ▸ h.ref
  inum_lt := h.inum_lt
  node := hnodes ▸ h.node
  held := by
    intro q
    rw [hproc]
    by_cases hq : q = p
    · rw [hq, update_self]
      exact held
    · rw [update_of_ne hq, others q hq]
      exact h.held q
  locks := locks
  off_eq := off_eq.trans h.off_eq
  good := by
    intro q
    rw [hproc]
    by_cases hq : q = p
    · rw [hq, update_self]
      exact good
    · rw [update_of_ne hq]
      exact h.good q
  todo := by
    intro q
    rw [hproc]
    by_cases hq : q = p
    · rw [hq, update_self, todo]
      exact h.todo p
    · rw [update_of_ne hq]
      exact h.todo q

theorem Inv.moveOutside (h : Inv sb k i old events s a order holder) (rep : s'.fs.Rep sb a')
    (hproc : s'.proc = update s.proc p pc) (hoff : s'.off = s.off)
    (hnodes : a'.nodes = a.nodes) (hown : a'.own = a.own) (hlocks : a'.locks = a.locks)
    (before : ¬ (s.proc p).Holds) (after : ¬ pc.Holds) (good : pc.Good)
    (todo : pc.todo = (s.proc p).todo) : Inv sb k i old events s' a' order holder := by
  have hother : holder ≠ some p := fun hp => before ((h.held p).mpr hp)
  refine h.move rep hproc hnodes hown (iff_of_false after hother) (fun _ _ => Iff.rfl)
    (hlocks ▸ h.locks) ?_ good todo
  rw [hoff, hproc]
  cases holder with
  | none => rfl
  | some q =>
    have hq : q ≠ p := fun hq => hother (congrArg some hq)
    simp only [Option.elim_some, update_of_ne hq]

theorem Inv.call {c : Call} (h : Inv sb k i old events s a order holder)
    (outside : (s.proc p).Outside) :
    Inv sb k i old (events ++ [.call p c]) (s.setProc p (.loop c 0)) a order holder := by
  have hbefore := Pc.not_holds_of_outside outside
  have hother : holder ≠ some p := fun hp => hbefore ((h.held p).mpr hp)
  have hissued : issued [Event.call p c] = (c.chunksFrom 0).map fun chunk => (p, chunk) :=
    append_nil _
  refine ⟨h.rep, h.ref, h.inum_lt, h.node, ?_, h.locks, ?_, ?_, ?_⟩
  · intro q
    obtain rfl | hq := eq_or_ne q p
    · simp only [State.setProc, update_self]
      exact iff_of_false id hother
    · simp only [State.setProc, update_of_ne hq]
      exact h.held q
  · rw [← h.off_eq]
    cases holder with
    | none => rfl
    | some q =>
      have hq : q ≠ p := fun hq => hother (congrArg some hq)
      simp only [State.setProc, Option.elim_some, update_of_ne hq]
  · intro q
    obtain rfl | hq := eq_or_ne q p
    · simp only [State.setProc, update_self]
      exact .inl rfl
    · simp only [State.setProc, update_of_ne hq]
      exact h.good q
  · intro q
    have htodo := h.todo q
    rw [issued_append, hissued, own_append]
    obtain rfl | hq := eq_or_ne q p
    · rw [Pc.todo_of_outside outside, append_nil] at htodo
      simp only [State.setProc, update_self]
      rw [htodo, own_map_self]
      rfl
    · simp only [State.setProc, update_of_ne hq]
      rw [htodo, own_map_of_ne (Ne.symm hq), append_nil]

variable {event : Event P} {j : Nat}

theorem Inv.snoc (h : Inv sb k i old events s a order holder) (hissued : issued [event] = []) :
    Inv sb k i old (events ++ [event]) s a order holder := by
  refine { h with todo := fun p => ?_ }
  rw [issued_append, hissued, append_nil]
  exact h.todo p

theorem Inv.wp_ilock (h : Inv sb k i old events s a order holder) :
    wp (Fs.ilock sb k) (fun _ fs => holder = none ∧
      fs.Rep sb { a with locks := insert i a.locks, valid := insert i a.valid })
      (fun e => e = .deadlock) s.fs := by
  obtain ⟨node, hnode, -⟩ := h.node
  by_cases hlock : i ∈ a.locks
  · have hlocked := (h.rep.entry h.ref).locked_iff.mpr hlock
    have hpos := h.rep.table.ref_pos h.ref
    unfold Fs.ilock
    simp only [wp_bind, wp_get]
    rw [wp_else (by omega), wp_then hlocked]
    exact rfl
  · refine Fs.wp_ilock h.rep h.ref h.inum_lt hlock ?_ ?_
    · intro fs _ _ hrep _
      exact ⟨not_not.mp (mt h.locks.mpr hlock), hrep⟩
    · intro hnone
      rw [hnode] at hnone
      cases hnone

theorem Inv.room {c : Call} (h : Inv sb k i old events s a order holder)
    (hpc : s.proc p = .locked c j) :
    (old ++ (order.map Prod.snd).flatten).length + c.n1 j ≤ old.length + asked events := by
  have hlt : (j : Int) < c.n := by
    have hgood := h.good p
    rwa [hpc] at hgood
  have hprefix : ∀ q, own q (order ++ [(p, ByteField.getBytes c.bytes j (c.n1 j))]) <+:
      own q (issued events) := by
    intro q
    have htodo := h.todo q
    rw [← htodo, own_append]
    obtain rfl | hq := eq_or_ne q p
    · rw [hpc, own_cons_self, own_nil, Pc.todo, Call.chunksFrom_of_lt hlt]
      exact ⟨c.chunksFrom (j + c.n1 j), by simp⟩
    · rw [own_cons_of_ne (Ne.symm hq), own_nil, append_nil]
      exact prefix_append _ _
  have hsum := sum_le_of_own_prefix List.length hprefix
  rw [sum_issued, map_append, sum_append] at hsum
  rw [length_append, length_flatten, map_map]
  simp only [map_cons, map_nil, sum_cons, sum_nil,
    ByteField.getBytes_length] at hsum
  have hcomp : (order.map (List.length ∘ Prod.snd)).sum = (order.map fun x => x.2.length).sum := rfl
  omega

theorem source_bytes (c : Call) (j n : Nat) :
    (c.source j).bytes n = ByteField.getBytes c.bytes j n := by
  unfold Source.bytes
  apply ByteField.getBytes_congr
  intro x _
  rw [Nat.zero_add]
  rfl

theorem Inv.wp_writei {c : Call} (h : Inv sb k i old events s a order holder)
    (fits : old.length + asked events ≤ MAXFILE * BSIZE) (hpc : s.proc p = .locked c j) :
    wp (Fs.writei sb k (c.source j) s.off (UInt32.ofNat (c.n1 j))) (fun r fs =>
      r = c.n1 j ∧ ∃ node, fs.Rep sb (a.setNode i (some node)) ∧ node.contents =
        old ++ (order.map Prod.snd).flatten ++ ByteField.getBytes c.bytes j (c.n1 j))
      Panic.Limit s.fs := by
  have hmax : maxWrite = 3072 := rfl
  have hfile : MAXFILE * BSIZE = 274432 := rfl
  have hheld : holder = some p := (h.held p).mp (by rw [hpc]; trivial)
  obtain ⟨node, hnode, hcontents⟩ := h.node
  have hoff : s.off.toNat = node.contents.length := by
    have hoff := h.off_eq
    rw [hheld, Option.elim_some, hpc, ← hcontents] at hoff
    exact hoff
  have hroom := h.room hpc
  rw [← hcontents] at hroom
  have hn1 : (UInt32.ofNat (c.n1 j)).toNat = c.n1 j := by
    have hle : c.n1 j ≤ maxWrite := Nat.min_le_right _ _
    exact UInt32.toNat_ofNat_of_lt' (by simp only [UInt32.size]; omega)
  have hvalid : i ∈ a.valid :=
    h.rep.valid_of_lock (h.locks.mpr (by rw [hheld]; exact Option.some_ne_none p))
  refine Fs.wp_writei h.rep h.ref hvalid hnode ?_ ?_ fun _ _ he => he.limit
  · intro hrefused
    refine absurd ?_ hrefused
    rw [hn1, hoff]
    exact ⟨Nat.le_refl _, by omega, by omega⟩
  · intro tot total fs _ hle htotal hcomplete hrep _
    rw [hn1] at htotal hcomplete
    have htot : tot = c.n1 j := by
      rcases hcomplete with heq | ⟨-, hnone⟩
      · exact heq
      · cases hnone
    have htotal' : total = c.n1 j := by omega
    subst htot
    rw [htotal', source_bytes, hoff] at hrep
    refine ⟨rfl, _, hrep, ?_⟩
    have hlength : (ByteField.getBytes c.bytes j (c.n1 j)).length = c.n1 j :=
      ByteField.getBytes_length ..
    have happend := splice_at_end node.contents (ByteField.getBytes c.bytes j (c.n1 j))
    rw [hlength] at happend
    rw [← hcontents]
    exact happend

theorem Inv.written {c : Call} {node : Node} {fs : Fs} (h : Inv sb k i old events s a order holder)
    (hpc : s.proc p = .locked c j) (rep : fs.Rep sb (a.setNode i (some node)))
    (hcontents : node.contents =
      old ++ (order.map Prod.snd).flatten ++ ByteField.getBytes c.bytes j (c.n1 j)) :
    Inv sb k i old events { s.setProc p (.wrote c j (c.n1 j)) with fs := fs }
      (a.setNode i (some node)) (order ++ [(p, ByteField.getBytes c.bytes j (c.n1 j))])
      holder := by
  have hheld : holder = some p := (h.held p).mp (by rw [hpc]; trivial)
  have hlt : (j : Int) < c.n := by
    have hgood := h.good p
    rwa [hpc] at hgood
  have horder : ((order ++ [(p, ByteField.getBytes c.bytes j (c.n1 j))]).map Prod.snd).flatten =
      (order.map Prod.snd).flatten ++ ByteField.getBytes c.bytes j (c.n1 j) := by simp
  have hoff := h.off_eq
  refine ⟨rep, h.ref, h.inum_lt, ⟨node, update_self .., ?_⟩, ?_, h.locks, ?_, ?_, ?_⟩
  · rw [hcontents, horder, append_assoc]
  · intro q
    obtain rfl | hq := eq_or_ne q p
    · simp only [State.setProc, update_self]
      exact iff_of_true trivial hheld
    · simp only [State.setProc, update_of_ne hq]
      exact h.held q
  · rw [hheld, Option.elim_some, hpc] at hoff
    rw [horder, ← append_assoc, length_append, ByteField.getBytes_length, ← hoff, hheld]
    simp only [State.setProc, Option.elim_some, update_self]
    rfl
  · intro q
    obtain rfl | hq := eq_or_ne q p
    · simp only [State.setProc, update_self]
      exact ⟨hlt, rfl⟩
    · simp only [State.setProc, update_of_ne hq]
      exact h.good q
  · intro q
    have htodo := h.todo q
    rw [own_append]
    obtain rfl | hq := eq_or_ne q p
    · rw [hpc, Pc.todo, Call.chunksFrom_of_lt hlt] at htodo
      simp only [State.setProc, update_self]
      rw [own_cons_self, own_nil, append_assoc]
      exact htodo
    · simp only [State.setProc, update_of_ne hq]
      rw [own_cons_of_ne (Ne.symm hq), own_nil, append_nil]
      exact htodo

theorem Inv.off_update {c : Call} (h : Inv sb k i old events s a order holder)
    (fits : old.length + asked events ≤ MAXFILE * BSIZE) (hheld : holder = some p)
    (hpc : s.proc p = .wrote c j (c.n1 j)) :
    (if ((c.n1 j : Nat) : Int) > 0 then s.off + UInt32.ofNat ((c.n1 j : Nat) : Int).toNat
      else s.off).toNat + (holder.elim 0 fun q =>
        (update s.proc p (.updated c j (c.n1 j)) q).pending) =
      s.off.toNat + (holder.elim 0 fun q => (s.proc q).pending) := by
  have hmax : maxWrite = 3072 := rfl
  have hfile : MAXFILE * BSIZE = 274432 := rfl
  have hlt : (j : Int) < c.n := by
    have hgood := h.good p
    rw [hpc] at hgood
    exact hgood.1
  have hpos := Call.n1_pos hlt
  have hprefix : ∀ q, own q order <+: own q (issued events) := fun q => ⟨_, h.todo q⟩
  have hsum := sum_le_of_own_prefix List.length hprefix
  have hoff := h.off_eq
  rw [sum_issued] at hsum
  rw [hheld, Option.elim_some, hpc, length_append, length_flatten, map_map] at hoff
  have hcomp : (order.map (List.length ∘ Prod.snd)).sum = (order.map fun x => x.2.length).sum := rfl
  have hpending : (Pc.wrote c j (c.n1 j)).pending = c.n1 j := rfl
  have hdone : (Pc.updated c j (c.n1 j)).pending = 0 := rfl
  have hle : c.n1 j ≤ maxWrite := Nat.min_le_right _ _
  have hn1 : (UInt32.ofNat (c.n1 j)).toNat = c.n1 j :=
    UInt32.toNat_ofNat_of_lt' (by simp only [UInt32.size]; omega)
  rw [if_pos (by omega), Int.toNat_natCast, hheld, Option.elim_some, Option.elim_some,
    update_self, hpc, hpending, hdone, UInt32.toNat_add, hn1, Nat.mod_eq_of_lt (by omega), Nat.add_zero]

/-- Every step keeps the invariant, with the chunk that it writes added. -/
theorem Inv.step (h : Inv sb k i old events s a order holder)
    (fits : old.length + asked events ≤ MAXFILE * BSIZE) (hstep : s.step sb k event = some (.ok s')) :
    ∃ a' order' holder', Inv sb k i old (events ++ [event]) s' a' order' holder' := by
  cases event with
  | call p c =>
    simp only [State.step] at hstep
    split at hstep
    · rename_i hpc
      cases hstep
      exact ⟨a, order, holder, h.call (by rw [hpc]; trivial)⟩
    · rename_i hpc
      cases hstep
      exact ⟨a, order, holder, h.call (by rw [hpc]; trivial)⟩
    · cases hstep
  | beginOp p =>
    simp only [State.step] at hstep
    split at hstep
    · rename_i c j hpc
      split at hstep
      · rename_i hlt
        obtain ⟨r, fs, hrun, rfl⟩ := State.exec_eq_ok hstep
        have hwp : wp Fs.beginOp (fun _ fs => fs.Rep sb { a with ops := a.ops + 1 })
            (fun _ => True) s.fs := Fs.wp_beginOp h.rep (fun _ hrep _ => hrep) fun _ => trivial
        have hrep := post_of_wp hwp hrun
        refine ⟨_, order, holder, Inv.snoc (h.moveOutside hrep rfl rfl rfl rfl rfl
          ?_ id hlt ?_) rfl⟩
        · rw [hpc]
          exact id
        · rw [hpc]
          rfl
      · cases hstep
    · cases hstep
  | ilock p =>
    simp only [State.step] at hstep
    split at hstep
    · rename_i c j hpc
      obtain ⟨r, fs, hrun, rfl⟩ := State.exec_eq_ok hstep
      obtain ⟨hfree, hrep⟩ := post_of_wp h.wp_ilock hrun
      have hgood := h.good p
      rw [hpc] at hgood
      subst hfree
      refine ⟨_, order, some p, Inv.snoc (h.move hrep rfl rfl rfl (iff_of_true trivial rfl) ?_
        (iff_of_true (Set.mem_insert _ _) (Option.some_ne_none p)) ?_ hgood ?_) rfl⟩
      · intro q hq
        exact iff_of_false (fun heq => hq (Option.some.inj heq).symm) nofun
      · simp only [State.setProc, Option.elim_some, update_self]
        rfl
      · rw [hpc]
        rfl
    · cases hstep
  | writei p =>
    simp only [State.step] at hstep
    split at hstep
    · rename_i c j hpc
      obtain ⟨r, fs, hrun, rfl⟩ := State.exec_eq_ok hstep
      obtain ⟨rfl, node, hrep, hcontents⟩ := post_of_wp (h.wp_writei fits hpc) hrun
      exact ⟨_, _, holder, Inv.snoc (h.written hpc hrep hcontents) rfl⟩
    · cases hstep
  | update p =>
    simp only [State.step] at hstep
    split at hstep
    · rename_i c j r hpc
      cases hstep
      have hheld : holder = some p := (h.held p).mp (by rw [hpc]; trivial)
      have hgood := h.good p
      rw [hpc] at hgood
      obtain ⟨hlt, rfl⟩ := hgood
      refine ⟨a, order, holder, Inv.snoc (h.move h.rep rfl rfl rfl (iff_of_true trivial hheld)
        (fun _ _ => Iff.rfl) h.locks ?_ ⟨hlt, rfl⟩ ?_) rfl⟩
      · exact h.off_update fits hheld hpc
      · rw [hpc]
        rfl
    · cases hstep
  | iunlock p =>
    simp only [State.step] at hstep
    split at hstep
    · rename_i c j r hpc
      obtain ⟨u, fs, hrun, rfl⟩ := State.exec_eq_ok hstep
      have hheld : holder = some p := (h.held p).mp (by rw [hpc]; trivial)
      have hgood := h.good p
      rw [hpc] at hgood
      have hlock : i ∈ a.locks := h.locks.mpr (by rw [hheld]; exact Option.some_ne_none p)
      have hwp : wp (Fs.iunlock k) (fun _ fs => fs.Rep sb { a with locks := a.locks \ {i} })
          (fun _ => True) s.fs := Fs.wp_iunlock h.rep h.ref hlock fun _ hrep _ => hrep
      have hrep := post_of_wp hwp hrun
      refine ⟨_, order, none, Inv.snoc (h.move hrep rfl rfl rfl
        (iff_of_false id nofun) ?_ (iff_of_false (fun hi => hi.2 rfl) fun hne => hne rfl) ?_ hgood ?_)
        rfl⟩
      · intro q hq
        rw [hheld]
        exact iff_of_false nofun fun heq => hq (Option.some.inj heq).symm
      · rw [hheld, Option.elim_some, hpc]
        rfl
      · rw [hpc]
        rfl
    · cases hstep
  | endOp p =>
    simp only [State.step] at hstep
    split at hstep
    · rename_i c j r hpc
      obtain ⟨u, fs, hrun, rfl⟩ := State.exec_eq_ok hstep
      have hgood := h.good p
      rw [hpc] at hgood
      obtain ⟨hlt, rfl⟩ := hgood
      have hle := c.n1_le j
      have hwp : wp Fs.endOp (fun _ fs => fs.Rep sb { a with ops := a.ops - 1 })
          (fun _ => True) s.fs := Fs.wp_endOp h.rep (sub_add_cancel ..).symm fun _ hrep _ _ => hrep
      have hrep := post_of_wp hwp hrun
      rw [if_neg (not_not_intro rfl), Int.toNat_natCast]
      refine ⟨_, order, holder, Inv.snoc (h.moveOutside hrep rfl rfl rfl rfl rfl
        ?_ id ?_ ?_) rfl⟩
      · rw [hpc]
        exact id
      · right
        omega
      · rw [hpc]
        rfl
    · cases hstep
  | ret p =>
    simp only [State.step] at hstep
    split at hstep
    · rename_i c j hpc
      split at hstep
      · cases hstep
      · rename_i hge
        cases hstep
        have hgood := h.good p
        rw [hpc] at hgood
        refine ⟨a, order, holder, Inv.snoc (h.moveOutside h.rep rfl rfl rfl rfl rfl ?_ id ?_ ?_) rfl⟩
        · rw [hpc]
          exact id
        · exact Call.ret_eq hgood hge
        · rw [hpc]
          exact (Call.chunksFrom_of_not_lt hge).symm
    · cases hstep

theorem Inv.limit {e : Panic} (h : Inv sb k i old events s a order holder)
    (fits : old.length + asked events ≤ MAXFILE * BSIZE)
    (hstep : s.step sb k event = some (.error e)) : e.Limit := by
  cases event with
  | beginOp p =>
    simp only [State.step] at hstep
    split at hstep
    · split at hstep
      · obtain ⟨hrun, -, -⟩ := State.exec_eq_error hstep
        have hwp : wp Fs.beginOp (fun _ _ => True) Panic.Limit s.fs :=
          Fs.wp_beginOp h.rep (fun _ _ _ => trivial) fun _ => Fs.Panic.limit_sleep
        exact stop_of_wp hwp hrun
      · cases hstep
    · cases hstep
  | ilock p =>
    simp only [State.step] at hstep
    split at hstep
    · obtain ⟨hrun, -, hlock⟩ := State.exec_eq_error hstep
      exact absurd (stop_of_wp h.wp_ilock hrun) hlock
    · cases hstep
  | writei p =>
    simp only [State.step] at hstep
    split at hstep
    · rename_i c j hpc
      exact stop_of_wp (h.wp_writei fits hpc) (State.exec_eq_error hstep).1
    · cases hstep
  | iunlock p =>
    simp only [State.step] at hstep
    split at hstep
    · rename_i c j r hpc
      have hheld : holder = some p := (h.held p).mp (by rw [hpc]; trivial)
      have hlock : i ∈ a.locks := h.locks.mpr (by rw [hheld]; exact Option.some_ne_none p)
      have hwp : wp (Fs.iunlock k) (fun _ _ => True) Panic.Limit s.fs :=
        Fs.wp_iunlock h.rep h.ref hlock fun _ _ _ => trivial
      exact stop_of_wp hwp (State.exec_eq_error hstep).1
    · cases hstep
  | endOp p =>
    simp only [State.step] at hstep
    split at hstep
    · have hwp : wp Fs.endOp (fun _ _ => True) Panic.Limit s.fs :=
        Fs.wp_endOp h.rep (sub_add_cancel ..).symm fun _ _ _ _ => trivial
      exact stop_of_wp hwp (State.exec_eq_error hstep).1
    · cases hstep
  | call p c | update p | ret p =>
    simp only [State.step] at hstep
    repeat' split at hstep
    all_goals cases hstep

theorem Start.inv (h : Start sb k s) :
    Inv sb k (s.fs.itable k).inum (s.contents sb k) [] s (s.fs.viewOf sb) [] none where
  rep := h.ready.rep
  ref := Fs.mem_references.mpr ⟨h.ref_pos, rfl⟩
  inum_lt := h.ready.table.inum_lt k h.ref_pos
  node := ⟨_, Volume.nodes_of_allocated h.allocated, (append_nil _).symm⟩
  held p := by
    rw [h.out p]
    exact iff_of_false id nofun
  locks := iff_of_false id fun hne => hne rfl
  off_eq := by
    rw [map_nil, flatten_nil, append_nil]
    exact h.off_eq
  good p := by
    rw [h.out p]
    trivial
  todo p := by
    rw [h.out p]
    rfl

theorem Runs.inv {start : State P} (h : Start sb k start) (runs : Runs sb k start events s)
    (fits : (start.contents sb k).length + asked events ≤ MAXFILE * BSIZE) :
    ∃ a order holder, Inv sb k (start.fs.itable k).inum (start.contents sb k) events s a order
      holder := by
  induction runs with
  | nil => exact ⟨_, _, _, h.inv⟩
  | snoc runs step ih =>
    rw [asked_append] at fits
    obtain ⟨a, order, holder, hinv⟩ := ih (by omega)
    exact hinv.step (by omega) step

theorem Inv.contents_eq (h : Inv sb k i old events s a order holder) :
    s.contents sb k = old ++ (order.map Prod.snd).flatten := by
  obtain ⟨node, hnode, hcontents⟩ := h.node
  unfold State.contents
  rw [(h.rep.entry h.ref).inum, ← hcontents]
  have hnodes := congrFun h.rep.nodes_eq i
  rw [hnode] at hnodes
  have halloc : (s.fs.store.volume sb).allocated i := by
    by_contra hfree
    rw [Volume.nodes_eq_none_iff.mpr hfree] at hnodes
    cases hnodes
  rw [Volume.nodes_of_allocated halloc] at hnodes
  rw [← Option.some.inj hnodes]
  rfl

/-- Writes through a shared file are not lost: the file grows by whole chunks, those of one
process in its order, and in the end every chunk is there once and every call has returned its
count. -/
theorem writes_of_runs {start : State P} (h : Start sb k start) (runs : Runs sb k start events s)
    (fits : (start.contents sb k).length + asked events ≤ MAXFILE * BSIZE) :
    (∃ order : List (P × List UInt8),
      s.contents sb k = start.contents sb k ++ (order.map Prod.snd).flatten ∧
      (∀ p, own p order <+: own p (issued events)) ∧
      ((∀ p, (s.proc p).Outside) → (∀ p, own p order = own p (issued events)) ∧
        s.off.toNat = (s.contents sb k).length)) ∧
    (∀ p c ret, s.proc p = .returned c ret → ret = if 0 ≤ c.n then c.n else -1) ∧
    ∀ event e, s.step sb k event = some (.error e) → e.Limit := by
  obtain ⟨a, order, holder, hinv⟩ := runs.inv h fits
  refine ⟨⟨order, hinv.contents_eq, fun p => ⟨_, hinv.todo p⟩, ?_⟩, ?_, fun _ _ => hinv.limit fits⟩
  · intro houtside
    constructor
    · intro p
      have htodo := hinv.todo p
      rwa [Pc.todo_of_outside (houtside p), append_nil] at htodo
    · have hfree : holder = none := by
        cases holder with
        | none => rfl
        | some p => exact absurd ((hinv.held p).mpr rfl) (Pc.not_holds_of_outside (houtside p))
      have hoff := hinv.off_eq
      rw [hfree, ← hinv.contents_eq] at hoff
      exact hoff
  · intro p c ret hpc
    have hgood := hinv.good p
    rwa [hpc] at hgood

end Steps

def State.run (sb : Superblock) (k : Fin NINODE) (s : State P) : List (Event P) → Option (State P)
  | [] => some s
  | event :: rest =>
    match s.step sb k event with
    | some (.ok next) => next.run sb k rest
    | _ => none

theorem Runs.of_run {start s s' : State P} {events rest : List (Event P)}
    (runs : Runs sb k start events s) (h : s.run sb k rest = some s') :
    Runs sb k start (events ++ rest) s' := by
  induction rest generalizing events s with
  | nil =>
    cases h
    rwa [append_nil]
  | cons event rest ih =>
    unfold State.run at h
    split at h
    · rename_i next hstep
      have hrest := ih (.snoc runs hstep) h
      rwa [append_assoc] at hrest
    · cases h

def Pc.result : Pc → Option Int
  | returned _ ret => some ret
  | _ => none

theorem Pc.outside_of_result {pc : Pc} {ret : Int} (h : pc.result = some ret) : pc.Outside := by
  cases pc with
  | returned => trivial
  | _ => cases h

def twoWriters : State Bool where
  fs := plainFs (lone emptyFile) [1]
  off := 0
  proc _ := .out

/-- The first call waits for the inode's lock; its two pieces come between those of the second. -/
def twoWrites : List (Event Bool) :=
  [.call false ⟨4000, fun _ => 7⟩, .call true ⟨3073, fun _ => 9⟩, .beginOp false, .beginOp true,
    .ilock true, .writei true, .update true, .iunlock true, .ilock false, .writei false, .endOp true,
    .update false, .iunlock false, .endOp false, .beginOp true, .beginOp false, .ilock false,
    .writei false, .update false, .iunlock false, .endOp false, .ret false, .ilock true,
    .writei true, .update true, .iunlock true, .endOp true, .ret true]

theorem twoWriters_start : Start plainSb 0 twoWriters := by
  obtain ⟨hready, -, hnode⟩ := lone_ready emptyFile (by decide) (by decide)
  have hallocated : ((plainFs (lone emptyFile) [1]).store.volume plainSb).allocated 1 := by
    by_contra hfree
    rw [Volume.nodes_eq_none_iff.mpr hfree] at hnode
    cases hnode
  rw [Volume.nodes_of_allocated hallocated] at hnode
  have hcontents := congrArg Node.contents (Option.some.inj hnode)
  exact ⟨hready, by decide, hallocated, (congrArg List.length hcontents).symm, fun _ => rfl⟩

theorem twoWriters_results :
    (twoWriters.run plainSb 0 twoWrites).map
      (fun s => ((s.proc false).result, (s.proc true).result)) = some (some 4000, some 3073) := by
  decide +kernel

theorem writes_of_runs_twoWriters : ∃ s order, Runs plainSb 0 twoWriters twoWrites s ∧
    s.contents plainSb 0 =
      twoWriters.contents plainSb 0 ++ (order.map Prod.snd).flatten ∧
    (∀ p, own p order = own p (issued twoWrites)) ∧
    s.off.toNat = (s.contents plainSb 0).length := by
  obtain ⟨s, hrun, hresults⟩ := Option.map_eq_some_iff.mp twoWriters_results
  obtain ⟨hfalse, htrue⟩ := Prod.mk.inj hresults
  have hruns : Runs plainSb 0 twoWriters twoWrites s := Runs.of_run .nil hrun
  have hfits : (twoWriters.contents plainSb 0).length + asked twoWrites ≤ MAXFILE * BSIZE := by
    rw [← twoWriters_start.off_eq]
    decide
  obtain ⟨⟨order, hcontents, -, hdone⟩, -⟩ := writes_of_runs twoWriters_start hruns hfits
  have houtside : ∀ p, (s.proc p).Outside := by
    intro p
    cases p with
    | false => exact Pc.outside_of_result hfalse
    | true => exact Pc.outside_of_result htrue
  exact ⟨s, order, hruns, hcontents, hdone houtside⟩

end Xv6.SharedFile
