import Mathlib.Data.List.Nodup
import Xv6.Virtio.Driver

/-! What the functions of the driver do to the descriptors. -/
namespace Xv6.Virtio

open Function List

variable {B : Type} {d d' : Disk B} {i i0 i1 i2 : Nat} {idx : List Nat} {b : B}

namespace Disk

def reserve (d : Disk B) (idx : List Nat) : Disk B :=
  { d with free := fun i => if i ∈ idx then false else d.free i }

def release (d : Disk B) (idx : List Nat) : Disk B :=
  { d with
    desc := fun i => if i ∈ idx then {} else d.desc i
    free := fun i => if i ∈ idx then true else d.free i }

theorem allocDesc_eq_some (h : d.allocDesc = some (i, d')) :
    i < NUM ∧ d.free i = true ∧ d' = d.reserve [i] := by
  obtain ⟨j, hfind, heq⟩ := Option.map_eq_some_iff.mp h
  cases heq
  refine ⟨mem_range.mp (mem_of_find?_eq_some hfind), List.find?_some hfind, ?_⟩
  have hfree : update d.free i false = fun j => if j ∈ [i] then false else d.free j := by
    funext j
    simp only [update_apply, mem_singleton]
  unfold reserve
  rw [hfree]

theorem freeDesc_eq_ok (lt : i < NUM) (used : d.free i = false) :
    d.freeDesc i = .ok (d.release [i]) := by
  have hdesc : update d.desc i {} = fun j => if j ∈ [i] then {} else d.desc j := by
    funext j
    simp only [update_apply, mem_singleton]
  have hfree : update d.free i true = fun j => if j ∈ [i] then true else d.free j := by
    funext j
    simp only [update_apply, mem_singleton]
  unfold freeDesc release
  rw [if_neg (Nat.not_le.mpr lt), if_neg (by rw [used]; exact Bool.false_ne_true), hdesc, hfree]

theorem freeChainLoop_next {fuel : Nat} (lt : i < NUM) (used : d.free i = false)
    (more : (d.desc i).flags &&& VRING_DESC_F_NEXT ≠ 0) :
    d.freeChainLoop i (fuel + 1) = (d.release [i]).freeChainLoop (d.desc i).next fuel := by
  simp only [freeChainLoop, freeDesc_eq_ok lt used]
  rw [if_pos more]

theorem freeChainLoop_last {fuel : Nat} (lt : i < NUM) (used : d.free i = false)
    (last : (d.desc i).flags &&& VRING_DESC_F_NEXT = 0) :
    d.freeChainLoop i (fuel + 1) = .ok (d.release [i]) := by
  simp only [freeChainLoop, freeDesc_eq_ok lt used]
  rw [if_neg (not_not_intro last)]

theorem release_release (d : Disk B) (idx idx' : List Nat) :
    (d.release idx).release idx' = d.release (idx ++ idx') := by
  unfold release
  congr 1
  · funext j
    by_cases h : j ∈ idx <;> by_cases h' : j ∈ idx' <;> simp [h, h']
  · funext j
    by_cases h : j ∈ idx <;> by_cases h' : j ∈ idx' <;> simp [h, h']

theorem freeDescs_eq_ok (nodup : idx.Nodup) (used : ∀ i ∈ idx, i < NUM ∧ d.free i = false) :
    d.freeDescs idx = .ok (d.release idx) := by
  induction idx generalizing d with
  | nil =>
    unfold release
    simp [freeDescs]
  | cons i idx ih =>
    obtain ⟨hlt, hused⟩ := used i mem_cons_self
    obtain ⟨hfresh, hnodup⟩ := nodup_cons.mp nodup
    simp only [freeDescs, freeDesc_eq_ok hlt hused]
    rw [ih hnodup, release_release]
    · rfl
    · intro j hj
      have hne : j ∉ [i] := by
        rw [mem_singleton]
        rintro rfl
        exact hfresh hj
      refine ⟨(used j (mem_cons_of_mem _ hj)).1, ?_⟩
      simp only [release, hne, if_false]
      exact (used j (mem_cons_of_mem _ hj)).2

/-- `n` free descriptors are found, or those taken are freed again. -/
inductive Allocs (d : Disk B) (idx : List Nat) (n : Nat) :
    Except Fault (Option (List Nat) × Disk B) → Prop where
  | found (new : List Nat) (length : new.length = n) (nodup : (idx ++ new).Nodup)
      (unused : ∀ i ∈ new, i < NUM ∧ d.free i = true) :
      Allocs d idx n (.ok (some (idx ++ new), d.reserve new))
  | full (d' : Disk B) (free : d'.free = (d.release idx).free)
      (desc : ∀ i, i ∉ idx → d.free i = false → d'.desc i = d.desc i)
      (rest : d' = { d with desc := d'.desc, free := d'.free }) :
      Allocs d idx n (.ok (none, d'))

theorem allocs_allocDescs {n : Nat} (nodup : idx.Nodup)
    (used : ∀ i ∈ idx, i < NUM ∧ d.free i = false) : Allocs d idx n (d.allocDescs idx n) := by
  induction n generalizing d idx with
  | zero =>
    have hfound : Allocs d idx 0 (.ok (some (idx ++ []), d.reserve [])) :=
      .found [] rfl (by simpa using nodup) (by simp)
    have hsame : d.reserve [] = d := by simp [reserve]
    rwa [append_nil, hsame] at hfound
  | succ n ih =>
    unfold allocDescs
    cases halloc : d.allocDesc with
    | none =>
      dsimp only
      rw [freeDescs_eq_ok nodup used]
      exact .full _ rfl (fun i hi _ => by simp [release, hi]) rfl
    | some x =>
      obtain ⟨i, d₁⟩ := x
      obtain ⟨hlt, hfree, rfl⟩ := allocDesc_eq_some halloc
      have hfresh : i ∉ idx := by
        intro hi
        rw [(used i hi).2] at hfree
        cases hfree
      have hnodup : (idx ++ [i]).Nodup := by
        rw [nodup_append]
        refine ⟨nodup, nodup_singleton i, ?_⟩
        rintro j hj k hk rfl
        exact hfresh (mem_singleton.mp hk ▸ hj)
      have hused : ∀ j ∈ idx ++ [i], j < NUM ∧ (d.reserve [i]).free j = false := by
        intro j hj
        obtain hold | hnew := mem_append.mp hj
        · refine ⟨(used j hold).1, ?_⟩
          simp only [reserve]
          split
          · rfl
          · exact (used j hold).2
        · rw [mem_singleton] at hnew
          rw [hnew]
          exact ⟨hlt, by simp [reserve]⟩
      dsimp only
      have hrec := ih hnodup hused
      generalize (d.reserve [i]).allocDescs (idx ++ [i]) n = result at hrec
      cases hrec with
      | found new length nodup' unused =>
        have hreserve : (d.reserve [i]).reserve new = d.reserve (i :: new) := by
          unfold reserve
          congr 1
          funext j
          by_cases h : j = i <;> by_cases h' : j ∈ new <;> simp [h, h']
        rw [hreserve, append_assoc, singleton_append]
        refine .found (i :: new) (by rw [length_cons, length]) (by simpa using nodup') ?_
        intro j hj
        obtain rfl | hnew := mem_cons.mp hj
        · exact ⟨hlt, hfree⟩
        · obtain ⟨hjlt, hjfree⟩ := unused j hnew
          refine ⟨hjlt, ?_⟩
          simp only [reserve] at hjfree
          split at hjfree
          · cases hjfree
          · exact hjfree
      | full d₂ free desc rest =>
        refine .full d₂ ?_ ?_ (by rw [rest]; rfl)
        · rw [free]
          funext j
          by_cases h : j = i <;> by_cases h' : j ∈ idx <;> simp [release, reserve, h, h', hfree]
        · intro j hj hjfree
          have hji : j ≠ i := by
            rintro rfl
            rw [hfree] at hjfree
            cases hjfree
          have hkept := desc j (by simp [hj, hji]) (by simp [reserve, hjfree])
          rw [hkept]
          rfl

theorem allocs_alloc3Desc (d : Disk B) : Allocs d [] 3 d.alloc3Desc :=
  allocs_allocDescs nodup_nil (by simp)

end Disk

/-- The descriptors of a request for `b`. -/
structure Linked (d : Disk B) (b : B) (i0 i1 i2 : Nat) : Prop where
  fst : (d.desc i0).addr = .ops i0 ∧ (d.desc i0).flags &&& VRING_DESC_F_NEXT ≠ 0 ∧
    (d.desc i0).next = i1
  snd : (d.desc i1).addr = .data b ∧ (d.desc i1).flags &&& VRING_DESC_F_NEXT ≠ 0 ∧
    (d.desc i1).next = i2
  thd : (d.desc i2).addr = .status i0 ∧ (d.desc i2).flags &&& VRING_DESC_F_NEXT = 0 ∧
    (d.desc i2).flags &&& VRING_DESC_F_WRITE ≠ 0
  direction : (d.desc i1).flags &&& VRING_DESC_F_WRITE = 0 ↔ (d.ops i0).type = VIRTIO_BLK_T_OUT
  info : (d.info i0).b = some b

namespace Linked

/-- Other descriptors and the status do not matter. -/
theorem congr (h : Linked d b i0 i1 i2) (desc : ∀ i ∈ [i0, i1, i2], d'.desc i = d.desc i)
    (ops : d'.ops i0 = d.ops i0) (info : (d'.info i0).b = (d.info i0).b) :
    Linked d' b i0 i1 i2 := by
  have h0 := desc i0 (by simp)
  have h1 := desc i1 (by simp)
  have h2 := desc i2 (by simp)
  refine ⟨?_, ?_, ?_, ?_, ?_⟩
  · rw [h0]
    exact h.fst
  · rw [h1]
    exact h.snd
  · rw [h2]
    exact h.thd
  · rw [h1, ops]
    exact h.direction
  · rw [info]
    exact h.info

theorem request (h : Linked d b i0 i1 i2) : d.request i0 = some (d.ops i0, b, i0) := by
  unfold Disk.request
  simp only [h.fst.2.2, h.snd.2.2]
  rw [if_neg]
  · simp only [h.fst.1, h.snd.1, h.thd.1]
    rw [if_pos h.direction]
  · rintro (hnext | hnext | hnext | hwrite)
    · exact h.fst.2.1 hnext
    · exact h.snd.2.1 hnext
    · exact hnext h.thd.2.1
    · exact h.thd.2.2 hwrite

/-- The links lead to all three. -/
theorem freeChain (h : Linked d b i0 i1 i2) (desc : d'.desc = d.desc) (nodup : [i0, i1, i2].Nodup)
    (used : ∀ i ∈ [i0, i1, i2], i < NUM ∧ d'.free i = false) :
    d'.freeChain i0 = .ok (d'.release [i0, i1, i2]) := by
  have fst := h.fst
  have snd := h.snd
  have thd := h.thd
  rw [← desc] at fst snd thd
  obtain ⟨hne0, hrest⟩ := nodup_cons.mp nodup
  obtain ⟨hne1, -⟩ := nodup_cons.mp hrest
  simp only [mem_cons, not_mem_nil, or_false, not_or] at hne0 hne1
  obtain ⟨hlt0, hused0⟩ := used i0 (by simp)
  obtain ⟨hlt1, hused1⟩ := used i1 (by simp)
  obtain ⟨hlt2, hused2⟩ := used i2 (by simp)
  have hfree1 : (d'.release [i0]).free i1 = false := by
    simp [Disk.release, Ne.symm hne0.1, hused1]
  have hdesc1 : (d'.release [i0]).desc i1 = d'.desc i1 := by
    simp [Disk.release, Ne.symm hne0.1]
  have hfree2 : (d'.release [i0, i1]).free i2 = false := by
    simp [Disk.release, Ne.symm hne0.2, Ne.symm hne1, hused2]
  have hdesc2 : (d'.release [i0, i1]).desc i2 = d'.desc i2 := by
    simp [Disk.release, Ne.symm hne0.2, Ne.symm hne1]
  calc d'.freeChain i0
      = (d'.release [i0]).freeChainLoop i1 NUM := by
        unfold Disk.freeChain
        rw [Disk.freeChainLoop_next hlt0 hused0 fst.2.1, fst.2.2]
    _ = (d'.release [i0, i1]).freeChainLoop i2 7 := by
        unfold NUM
        rw [Disk.freeChainLoop_next hlt1 hfree1 (by rw [hdesc1]; exact snd.2.1), hdesc1, snd.2.2,
          Disk.release_release]
        rfl
    _ = .ok (d'.release [i0, i1, i2]) := by
        rw [Disk.freeChainLoop_last hlt2 hfree2 (by rw [hdesc2]; exact thd.2.1),
          Disk.release_release]
        rfl

end Linked

theorem linked_format (d : Disk B) (blockno : UInt32) (write : Bool)
    (nodup : [i0, i1, i2].Nodup) : Linked (d.format b blockno write [i0, i1, i2]) b i0 i1 i2 := by
  obtain ⟨hne0, hrest⟩ := nodup_cons.mp nodup
  obtain ⟨hne1, -⟩ := nodup_cons.mp hrest
  simp only [mem_cons, not_mem_nil, or_false, not_or] at hne0 hne1
  have hdesc0 : (d.format b blockno write [i0, i1, i2]).desc i0 =
      { addr := .ops i0, len := 16, flags := VRING_DESC_F_NEXT, next := i1 } := by
    simp [Disk.format, hne0.1, hne0.2]
  have hdesc1 : (d.format b blockno write [i0, i1, i2]).desc i1 =
      { addr := .data b, len := BSIZE,
        flags := (if write then 0 else VRING_DESC_F_WRITE) ||| VRING_DESC_F_NEXT, next := i2 } := by
    simp [Disk.format, hne1]
  have hdesc2 : (d.format b blockno write [i0, i1, i2]).desc i2 =
      { addr := .status i0, len := 1, flags := VRING_DESC_F_WRITE, next := 0 } := by
    simp [Disk.format]
  have hops : ((d.format b blockno write [i0, i1, i2]).ops i0).type =
      if write then VIRTIO_BLK_T_OUT else VIRTIO_BLK_T_IN := by
    simp [Disk.format]
  refine ⟨?_, ?_, ?_, ?_, ?_⟩
  · rw [hdesc0]
    have hnext : VRING_DESC_F_NEXT &&& VRING_DESC_F_NEXT ≠ 0 := by decide
    exact ⟨rfl, hnext, rfl⟩
  · rw [hdesc1]
    refine ⟨rfl, ?_, rfl⟩
    dsimp only
    cases write <;> decide
  · rw [hdesc2]
    have hlast : VRING_DESC_F_WRITE &&& VRING_DESC_F_NEXT = 0 := by decide
    have hwrite : VRING_DESC_F_WRITE &&& VRING_DESC_F_WRITE ≠ 0 := by decide
    exact ⟨rfl, hlast, hwrite⟩
  · rw [hdesc1, hops]
    dsimp only
    cases write <;> decide
  · simp [Disk.format]

end Xv6.Virtio
