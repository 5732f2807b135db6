import Mathlib.Data.Fintype.Card
import Mathlib.Data.Multiset.Count
import Xv6.Lib.Ring
import Xv6.Log.Store

/-! The buffer cache of `bio.c`. A step is one critical section of `bcache.lock`; `held` and
`pins` are never read by the code. -/
namespace Xv6

open Lib List

structure Buf where
  valid : Bool := false
  dev : UInt32 := 0
  blockno : UInt32 := 0
  refcnt : UInt32 := 0
  data : Block := Block.zero

abbrev BufPtr := Option (Fin NBUF)

structure Bcache where
  buf : Fin NBUF → Buf
  links : Links BufPtr

namespace Bcache

def binit : Bcache where
  buf _ := {}
  links := (List.finRange NBUF).foldl (fun r b => r.pushFront none (some b))
    ⟨fun _ => none, fun _ => none⟩

def setBuf (c : Bcache) (b : Fin NBUF) (f : Buf → Buf) : Bcache :=
  { c with buf := Function.update c.buf b (f (c.buf b)) }

def find (c : Bcache) (step : BufPtr → BufPtr) (p : Buf → Bool) : Option (Fin NBUF) :=
  (Links.scan step none (fun x => x.any fun b => p (c.buf b)) (NBUF + 1) (step none)).join

def bget (c : Bcache) (dev blockno : UInt32) : Except Panic (Fin NBUF × Bcache) :=
  -- Is the block already cached?
  match c.find c.links.next fun x => x.dev = dev ∧ x.blockno = blockno with
  | some b => .ok (b, c.setBuf b fun x => { x with refcnt := x.refcnt + 1 })
  | none =>
    -- Not cached. Recycle the least recently used (LRU) unused buffer.
    match c.find c.links.prev fun x => x.refcnt = 0 with
    | some b => .ok (b, c.setBuf b fun x =>
        { x with dev := dev, blockno := blockno, valid := false, refcnt := 1 })
    | none => .error .bgetNoBuffers

def brelse (c : Bcache) (b : Fin NBUF) : Bcache :=
  let c := c.setBuf b fun x => { x with refcnt := x.refcnt - 1 }
  if (c.buf b).refcnt = 0 then
    { c with links := (c.links.unlink (some b)).pushFront none (some b) }
  else c

def bpin (c : Bcache) (b : Fin NBUF) : Bcache :=
  c.setBuf b fun x => { x with refcnt := x.refcnt + 1 }

def bunpin (c : Bcache) (b : Fin NBUF) : Bcache :=
  c.setBuf b fun x => { x with refcnt := x.refcnt - 1 }

def Linked (c : Bcache) : Prop :=
  ∃ order : List (Fin NBUF), (∀ b, b ∈ order) ∧ c.links.Ring none (order.map some)

def Unique (c : Bcache) : Prop :=
  ∀ b b', (c.buf b).dev ≠ 0 → (c.buf b').dev = (c.buf b).dev →
    (c.buf b').blockno = (c.buf b).blockno → b' = b

variable {c c' : Bcache} {b : Fin NBUF} {dev blockno : UInt32} {order : List (Fin NBUF)}

@[simp] theorem setBuf_self (f : Buf → Buf) : (c.setBuf b f).buf b = f (c.buf b) :=
  Function.update_self ..

theorem setBuf_of_ne {b' : Fin NBUF} (f : Buf → Buf) (h : b' ≠ b) :
    (c.setBuf b f).buf b' = c.buf b' := Function.update_of_ne h ..

theorem nodup_of_ring (h : c.links.Ring none (order.map some)) : order.Nodup :=
  (nodup_cons.mp h.nodup).2.of_map

theorem length_of_ring (cover : ∀ b, b ∈ order) (h : c.links.Ring none (order.map some)) :
    order.length = NBUF := by
  have hperm : order.Perm (List.finRange NBUF) := by
    rw [perm_ext_iff_of_nodup (nodup_of_ring h) (nodup_finRange NBUF)]
    intro b
    simp [cover b]
  rw [hperm.length_eq, length_finRange]

theorem find_map_some (p : Fin NBUF → Bool) :
    ((order.map some).find? fun x : BufPtr => x.any p).join = order.find? p := by
  rw [List.find?_map]
  have hcomp : (fun x : BufPtr => x.any p) ∘ some = p := rfl
  rw [hcomp]
  cases order.find? p <;> rfl

theorem find_next (cover : ∀ b, b ∈ order) (h : c.links.Ring none (order.map some))
    (p : Buf → Bool) : c.find c.links.next p = order.find? fun b => p (c.buf b) := by
  have hlength : (order.map some).length < NBUF + 1 := by
    rw [length_map, length_of_ring cover h]
    omega
  unfold find
  rw [h.scan_next hlength, find_map_some]

theorem find_prev (cover : ∀ b, b ∈ order) (h : c.links.Ring none (order.map some))
    (p : Buf → Bool) : c.find c.links.prev p = order.reverse.find? fun b => p (c.buf b) := by
  have hlength : (order.map some).length < NBUF + 1 := by
    rw [length_map, length_of_ring cover h]
    omega
  unfold find
  rw [h.scan_prev hlength, ← map_reverse, find_map_some]

/-- `bget` refers to the cached copy once more, or recycles an unused buffer. -/
inductive Got (c : Bcache) (dev blockno : UInt32) (b : Fin NBUF) : Bcache → Prop where
  | hit (cached : (c.buf b).dev = dev ∧ (c.buf b).blockno = blockno) :
      Got c dev blockno b (c.setBuf b fun x => { x with refcnt := x.refcnt + 1 })
  | recycled (unused : (c.buf b).refcnt = 0)
      (missing : ∀ b', ¬ ((c.buf b').dev = dev ∧ (c.buf b').blockno = blockno)) :
      Got c dev blockno b (c.setBuf b fun x =>
        { x with dev := dev, blockno := blockno, valid := false, refcnt := 1 })

theorem Linked.got (h : c.Linked) (run : c.bget dev blockno = .ok (b, c')) :
    Got c dev blockno b c' := by
  obtain ⟨order, cover, hring⟩ := h
  unfold bget at run
  rw [find_next cover hring, find_prev cover hring] at run
  split at run
  · rename_i b' hfind
    cases run
    exact .hit (by simpa using List.find?_some hfind)
  · rename_i hmiss
    split at run
    · rename_i b' hfind
      cases run
      refine .recycled (by simpa using List.find?_some hfind) ?_
      intro b' hb'
      have hnone := List.find?_eq_none.mp hmiss b' (cover b')
      exact hnone (by simpa using hb')
    · cases run

/-- `bget` panics only when the block is not cached and every buffer is in use. -/
theorem Linked.bget_error (h : c.Linked) {e : Panic} (run : c.bget dev blockno = .error e) :
    e = .bgetNoBuffers ∧ ∀ b, ¬ ((c.buf b).dev = dev ∧ (c.buf b).blockno = blockno) ∧
      (c.buf b).refcnt ≠ 0 := by
  obtain ⟨order, cover, hring⟩ := h
  unfold bget at run
  rw [find_next cover hring, find_prev cover hring] at run
  split at run
  · cases run
  · rename_i hmiss
    split at run
    · cases run
    · rename_i hnone
      cases run
      refine ⟨rfl, fun b => ⟨fun hb => ?_, fun hzero => ?_⟩⟩
      · exact List.find?_eq_none.mp hmiss b (cover b) (by simpa using hb)
      · have hb := List.find?_eq_none.mp hnone b (mem_reverse.mpr (cover b))
        exact hb (by simpa using hzero)

theorem ring_binit : Bcache.binit.links.Ring none ((List.finRange NBUF).reverse.map some) := by
  have hpush : ∀ (todo done : List (Fin NBUF)) (r : Links BufPtr), (todo ++ done).Nodup →
      r.Ring none (done.map some) →
      (todo.foldl (fun r b => r.pushFront none (some b)) r).Ring none
        ((todo.reverse ++ done).map some) := by
    intro todo
    induction todo with
    | nil => exact fun done r _ h => h
    | cons b todo ih =>
      intro done r hnodup h
      have hsplit : (todo ++ b :: done).Nodup := nodup_middle.mpr hnodup
      have hb : b ∉ done := by
        intro hmem
        exact (nodup_cons.mp (nodup_append.mp hsplit).2.1).1 hmem
      have hnew := ih (b :: done) (r.pushFront none (some b)) hsplit
        (h.pushFront (by simpa using hb))
      rw [reverse_cons, append_assoc]
      exact hnew
  rw [← append_nil (List.finRange NBUF).reverse]
  apply hpush
  · rw [append_nil]
    exact nodup_finRange NBUF
  · exact ⟨by simp, by simp [Links.Follows]⟩

theorem Linked.binit : Bcache.binit.Linked :=
  ⟨(List.finRange NBUF).reverse, fun b => by simp, ring_binit⟩

theorem Linked.setBuf (h : c.Linked) (f : Buf → Buf) : (c.setBuf b f).Linked := h

theorem ring_moveFront {left right : List (Fin NBUF)}
    (h : c.links.Ring none ((left ++ b :: right).map some)) :
    ((c.links.unlink (some b)).pushFront none (some b)).Ring none
      ((b :: (left ++ right)).map some) := by
  have hnodup := nodup_middle.mp (nodup_of_ring h)
  rw [map_append, map_cons] at h
  have hremoved := h.unlink
  rw [← map_append] at hremoved
  exact hremoved.pushFront (by simpa using (nodup_cons.mp hnodup).1)

theorem Linked.brelse (h : c.Linked) : (c.brelse b).Linked := by
  unfold Bcache.brelse
  dsimp only
  split
  · obtain ⟨order, cover, hring⟩ := h
    obtain ⟨left, right, rfl⟩ := append_of_mem (cover b)
    refine ⟨b :: (left ++ right), ?_, ring_moveFront hring⟩
    intro b'
    have hmem := cover b'
    simp only [mem_append, mem_cons] at hmem ⊢
    tauto
  · exact h

theorem brelse_buf : (c.brelse b).buf =
    (c.setBuf b fun x => { x with refcnt := x.refcnt - 1 }).buf := by
  unfold Bcache.brelse
  dsimp only
  split <;> rfl

theorem Unique.of_same (h : c.Unique)
    (same : ∀ b, (c'.buf b).dev = (c.buf b).dev ∧ (c'.buf b).blockno = (c.buf b).blockno) :
    c'.Unique := by
  intro b b' hdev hsame hblock
  rw [(same b).1] at hdev hsame
  rw [(same b').1] at hsame
  rw [(same b).2, (same b').2] at hblock
  exact h b b' hdev hsame hblock

theorem setRefcnt_same (f : UInt32 → UInt32) (b' : Fin NBUF) :
    ((c.setBuf b fun x => { x with refcnt := f x.refcnt }).buf b').dev = (c.buf b').dev ∧
    ((c.setBuf b fun x => { x with refcnt := f x.refcnt }).buf b').blockno =
      (c.buf b').blockno := by
  obtain rfl | hb := eq_or_ne b' b
  · rw [setBuf_self]
    exact ⟨rfl, rfl⟩
  · rw [setBuf_of_ne _ hb]
    exact ⟨rfl, rfl⟩

theorem Unique.got (h : c.Unique) (run : Got c dev blockno b c') : c'.Unique := by
  cases run with
  | hit cached => exact h.of_same (setRefcnt_same (· + 1))
  | recycled unused missing =>
    intro x y hdev hsame hblock
    by_cases hx : x = b <;> by_cases hy : y = b
    · rw [hx, hy]
    · subst hx
      rw [setBuf_self, setBuf_of_ne _ hy] at hsame hblock
      exact absurd ⟨hsame, hblock⟩ (missing y)
    · subst hy
      rw [setBuf_self, setBuf_of_ne _ hx] at hsame hblock
      exact absurd ⟨hsame.symm, hblock.symm⟩ (missing x)
    · rw [setBuf_of_ne _ hx] at hdev
      rw [setBuf_of_ne _ hx, setBuf_of_ne _ hy] at hsame hblock
      exact h x y hdev hsame hblock

end Bcache

end Xv6
