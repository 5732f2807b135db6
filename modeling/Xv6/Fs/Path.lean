import Mathlib.Data.List.GetD
import Mathlib.Data.List.TakeWhile
import Xv6.Fs.Handle

/-! Path names: the bytes before the terminating NUL. -/
namespace Xv6

open Lib Lib.Exec List

structure CStr where
  bytes : List UInt8
  nul : 0 ∉ bytes

def slash : UInt8 := 47

/-- Copy the next element into `name`. Returns the rest, without leading slashes, and the buffer. -/
def skipelem (path : List UInt8) (name : Nat → UInt8) : Option (List UInt8 × (Nat → UInt8)) :=
  let path := path.dropWhile (· = slash)
  if path = [] then none
  else
    let s := path.takeWhile (· ≠ slash)
    let name :=
      if s.length ≥ DIRSIZ then ByteField.putBytes name 0 (s.take DIRSIZ)
      else ByteField.putBytes name 0 (s ++ [0])
    some ((path.dropWhile (· ≠ slash)).dropWhile (· = slash), name)

namespace Fs

variable (sb : Superblock)

/-- The loop of `namex`; each round takes an element off the path. -/
def namexLoop (nameiparent : Bool) :
    Nat → Fin NINODE → List UInt8 → (Nat → UInt8) →
      Exec Fs Panic (Option (Fin NINODE) × (Nat → UInt8))
  | 0, ip, _, name => return (some ip, name)
  | fuel + 1, ip, path, name =>
    match skipelem path name with
    | none =>
      if nameiparent then do
        iput sb ip
        return (none, name)
      else return (some ip, name)
    | some (path, name) => do
      ilock sb ip
      if ((← get).itable ip).type ≠ T_DIR then do
        iunlockput sb ip
        return (none, name)
      else if nameiparent ∧ path = [] then do
        -- Stop one level early.
        iunlock ip
        return (some ip, name)
      else
        match ← dirlookup sb ip name with
        | none => do
          iunlockput sb ip
          return (none, name)
        | some (next, _) => do
          iunlockput sb ip
          namexLoop nameiparent fuel next path name

def namex (cwd : Fin NINODE) (path : List UInt8) (nameiparent : Bool) (name : Nat → UInt8) :
    Exec Fs Panic (Option (Fin NINODE) × (Nat → UInt8)) := do
  let ip ← if path.head? = some slash then iget ROOTDEV ROOTINO else idup cwd
  namexLoop sb nameiparent (path.length + 1) ip path name

def namei (cwd : Fin NINODE) (path : List UInt8) : Exec Fs Panic (Option (Fin NINODE)) := do
  let (ip, _) ← namex sb cwd path false fun _ => 0
  return ip

def nameiparent (cwd : Fin NINODE) (path : List UInt8) :
    Exec Fs Panic (Option (Fin NINODE) × (Nat → UInt8)) :=
  namex sb cwd path true fun _ => 0

end Fs

/-- The maximal parts without slashes, cut to `DIRSIZ` bytes. -/
def elems (path : List UInt8) : List (List UInt8) :=
  ((path.splitOnP (· = slash)).filter (· ≠ [])).map (List.take DIRSIZ)

theorem elems_slash (path : List UInt8) : elems (slash :: path) = elems path := by
  unfold elems
  rw [splitOnP_cons_eq_if_modifyHead, if_pos (by simp), filter_cons_of_neg (by simp)]

theorem elems_dropWhile (path : List UInt8) : elems (path.dropWhile (· = slash)) = elems path := by
  induction path with
  | nil => rfl
  | cons c path ih =>
    obtain rfl | hc := eq_or_ne c slash
    · rw [dropWhile_cons_of_pos (by simp), ih, elems_slash]
    · rw [dropWhile_cons_of_neg (by simpa using hc)]

variable {path : List UInt8}

theorem takeWhile_ne_slash : ∀ c ∈ path.takeWhile (· ≠ slash), c ≠ slash := by
  intro c hc
  simpa using mem_takeWhile_imp hc

theorem elems_of_head {c : UInt8} (hc : c ≠ slash) :
    elems (c :: path) = ((c :: path).takeWhile (· ≠ slash)).take DIRSIZ ::
      elems ((c :: path).dropWhile (· ≠ slash)) := by
  generalize hs : (c :: path).takeWhile (· ≠ slash) = s
  generalize ht : (c :: path).dropWhile (· ≠ slash) = t
  have hsplit : c :: path = s ++ t := by
    rw [← hs, ← ht, takeWhile_append_dropWhile]
  have hmem : ∀ x ∈ s, decide (x = slash) = false := by
    intro x hx
    rw [← hs] at hx
    simpa using takeWhile_ne_slash x hx
  have hne : s ≠ [] := by
    rw [← hs, takeWhile_cons_of_pos (by simpa using hc)]
    exact cons_ne_nil _ _
  cases t with
  | nil =>
    rw [hsplit, append_nil]
    unfold elems
    rw [splitOnP_eq_singleton hmem]
    simp [hne]
  | cons x t =>
    have hx : x = slash := by
      have hhead := List.head?_dropWhile_not (fun x => decide (x ≠ slash)) (c :: path)
      rw [ht] at hhead
      simpa using hhead
    subst hx
    rw [hsplit, elems_slash]
    unfold elems
    rw [splitOnP_append_cons_of_forall_mem hmem _ (by simp), filter_cons_of_pos (by simpa using hne),
      map_cons]

theorem elems_eq_nil_iff (h : path.head? ≠ some slash) : elems path = [] ↔ path = [] := by
  cases path with
  | nil => simp [elems]
  | cons c path =>
    rw [elems_of_head (by simpa using h)]
    simp

theorem head?_dropWhile_slash (path : List UInt8) :
    (path.dropWhile (· = slash)).head? ≠ some slash := by
  intro h
  have hhead := List.head?_dropWhile_not (fun x => decide (x = slash)) path
  rw [h] at hhead
  simp at hhead

theorem skipelem_eq_none_iff {name : Nat → UInt8} :
    skipelem path name = none ↔ elems path = [] := by
  rw [← elems_dropWhile, elems_eq_nil_iff (head?_dropWhile_slash path)]
  unfold skipelem
  dsimp only
  split
  · rename_i h
    simp [h]
  · rename_i h
    simp [h]

theorem text_elem {s : List UInt8} (hnul : 0 ∉ s) (name : Nat → UInt8) :
    CString.text (if s.length ≥ DIRSIZ then ByteField.putBytes name 0 (s.take DIRSIZ)
      else ByteField.putBytes name 0 (s ++ [0])) DIRSIZ 0 = s.take DIRSIZ := by
  split
  · rename_i hlong
    have hlength : (s.take DIRSIZ).length = DIRSIZ := by
      rw [length_take]
      omega
    refine CString.text_eq (fun hmem => hnul (mem_of_mem_take hmem)) ?_ (.inl hlength)
    intro i hi
    rw [ByteField.putBytes_inside (by omega) (by omega), Nat.zero_add, Nat.sub_zero]
  · rename_i hshort
    have htake : s.take DIRSIZ = s := take_of_length_le (by omega)
    rw [htake]
    refine CString.text_eq hnul ?_ (.inr ⟨by omega, ?_⟩)
    · intro i hi
      rw [ByteField.putBytes_inside (by omega) (by rw [length_append]; omega), Nat.zero_add,
        Nat.sub_zero, getD_append _ _ _ _ hi]
    · rw [ByteField.putBytes_inside (by omega) (by rw [length_append]; simp), Nat.zero_add,
        Nat.sub_zero, getD_append_right _ _ _ _ (Nat.le_refl _), Nat.sub_self]
      rfl

theorem skipelem_some {rest : List UInt8} {name name' : Nat → UInt8} (hnul : 0 ∉ path)
    (h : skipelem path name = some (rest, name')) :
    elems path = CString.text name' DIRSIZ 0 :: elems rest ∧ rest.length < path.length ∧
      0 ∉ rest ∧ (rest = [] ↔ elems rest = []) := by
  have hsub : (path.dropWhile (· = slash)).Sublist path := dropWhile_sublist _
  have helems := elems_dropWhile path
  have hhead := head?_dropWhile_slash path
  unfold skipelem at h
  dsimp only at h
  generalize path.dropWhile (· = slash) = path' at h hsub helems hhead
  split at h
  · cases h
  · rename_i hne
    obtain ⟨c, tail, rfl⟩ := exists_cons_of_ne_nil hne
    obtain ⟨hrest, hname⟩ := Prod.mk.inj (Option.some.inj h)
    have hc : c ≠ slash := by simpa using hhead
    have hnul' : 0 ∉ c :: tail := fun hmem => hnul (hsub.subset hmem)
    have hdrop : (c :: tail).dropWhile (· ≠ slash) = tail.dropWhile (· ≠ slash) :=
      dropWhile_cons_of_pos (by simpa using hc)
    have hsub' : rest.Sublist tail := by
      rw [← hrest, hdrop]
      exact (dropWhile_sublist _).trans (dropWhile_sublist _)
    refine ⟨?_, ?_, ?_, ?_⟩
    · rw [← helems, elems_of_head hc, ← hrest, elems_dropWhile, ← hname, text_elem]
      exact fun hmem => hnul' ((takeWhile_sublist _).subset hmem)
    · have hlength := hsub'.length_le
      have hlength' := hsub.length_le
      rw [length_cons] at hlength'
      omega
    · exact fun hmem => hnul' (mem_cons_of_mem _ (hsub'.subset hmem))
    · rw [← hrest, elems_eq_nil_iff (head?_dropWhile_slash _)]

end Xv6
