import Mathlib.Algebra.Order.Ring.Nat

/-! Fixed-width little-endian fields inside an array of bytes, a function from offsets. -/
namespace Xv6.Lib.ByteField

/-- The `width` bytes from `off` as a little-endian number. -/
def getLE (bytes : Nat → UInt8) (off : Nat) : Nat → Nat
  | 0 => 0
  | width + 1 => (bytes off).toNat + 256 * getLE bytes (off + 1) width

def setLE (bytes : Nat → UInt8) (off width value : Nat) : Nat → UInt8 :=
  fun i => if off ≤ i ∧ i < off + width then UInt8.ofNat (value / 256 ^ (i - off)) else bytes i

def putBytes (bytes : Nat → UInt8) (off : Nat) (source : List UInt8) : Nat → UInt8 :=
  fun i => if off ≤ i ∧ i < off + source.length then source.getD (i - off) 0 else bytes i

def getBytes (bytes : Nat → UInt8) (off count : Nat) : List UInt8 :=
  (List.range count).map fun i => bytes (off + i)

theorem getLE_congr {left right : Nat → UInt8} {off width : Nat}
    (h : ∀ i, off ≤ i → i < off + width → left i = right i) :
    getLE left off width = getLE right off width := by
  induction width generalizing off with
  | zero => rfl
  | succ width ih =>
    have htail := @ih (off + 1) fun i hlow hhigh => h i (by omega) (by omega)
    simp only [getLE, h off (by omega) (by omega), htail]

theorem getLE_lt (bytes : Nat → UInt8) (off width : Nat) :
    getLE bytes off width < 256 ^ width := by
  induction width generalizing off with
  | zero => simp [getLE]
  | succ width ih =>
    have hbyte : (bytes off).toNat < 256 := (bytes off).toNat_lt
    have htail := ih (off + 1)
    simp only [getLE, Nat.pow_succ]
    omega

theorem getLE_zero (off width : Nat) : getLE (fun _ => 0) off width = 0 := by
  induction width generalizing off with
  | zero => rfl
  | succ width ih =>
    unfold getLE
    rw [ih]
    rfl

variable {bytes : Nat → UInt8}

theorem setLE_inside {off width value i : Nat} (hlow : off ≤ i) (hhigh : i < off + width) :
    setLE bytes off width value i = UInt8.ofNat (value / 256 ^ (i - off)) := by
  simp [setLE, hlow, hhigh]

theorem setLE_outside {off width value i : Nat} (h : i < off ∨ off + width ≤ i) :
    setLE bytes off width value i = bytes i := by
  unfold setLE
  rw [if_neg (by omega)]

theorem getLE_setLE (bytes : Nat → UInt8) (off width value : Nat) :
    getLE (setLE bytes off width value) off width = value % 256 ^ width := by
  induction width generalizing bytes off value with
  | zero => simp [getLE, Nat.mod_one]
  | succ width ih =>
    have htail : getLE (setLE bytes off (width + 1) value) (off + 1) width =
        getLE (setLE bytes (off + 1) width (value / 256)) (off + 1) width := by
      apply getLE_congr
      intro i hlow hhigh
      rw [setLE_inside (by omega) (by omega), setLE_inside hlow hhigh, Nat.div_div_eq_div_mul,
        ← Nat.pow_succ', show (i - (off + 1)).succ = i - off by omega]
    have hhead : (setLE bytes off (width + 1) value off).toNat = value % 256 := by
      rw [setLE_inside (Nat.le_refl off) (by omega)]
      simp
    rw [getLE, hhead, htail, ih, Nat.pow_succ', Nat.mod_mul]

theorem getLE_setLE_of_lt {off width value : Nat} (h : value < 256 ^ width) :
    getLE (setLE bytes off width value) off width = value := by
  rw [getLE_setLE, Nat.mod_eq_of_lt h]

theorem getLE_setLE_disjoint {off width value off' width' : Nat}
    (h : off' + width' ≤ off ∨ off + width ≤ off') :
    getLE (setLE bytes off width value) off' width' = getLE bytes off' width' := by
  apply getLE_congr
  intro i hlow hhigh
  exact setLE_outside (by omega)

structure Field where
  off : Nat
  width : Nat
  value : Nat

def Field.Apart (left right : Field) : Prop :=
  left.off + left.width ≤ right.off ∨ right.off + right.width ≤ left.off

def setFields (bytes : Nat → UInt8) (fields : List Field) : Nat → UInt8 :=
  fields.foldl (fun current f => setLE current f.off f.width f.value) bytes

theorem setFields_outside {fields : List Field} {i : Nat}
    (h : ∀ f ∈ fields, i < f.off ∨ f.off + f.width ≤ i) : setFields bytes fields i = bytes i := by
  induction fields generalizing bytes with
  | nil => rfl
  | cons f tail ih =>
    change setFields (setLE bytes f.off f.width f.value) tail i = bytes i
    rw [ih fun g hg => h g (by simp [hg]), setLE_outside (h f (by simp))]

/-- Disjoint members read back as assigned. -/
theorem getLE_setFields {fields : List Field} (disjoint : fields.Pairwise Field.Apart) {f : Field}
    (h : f ∈ fields) : getLE (setFields bytes fields) f.off f.width = f.value % 256 ^ f.width := by
  induction fields generalizing bytes with
  | nil => simp at h
  | cons g tail ih =>
    change getLE (setFields (setLE bytes g.off g.width g.value) tail) f.off f.width = _
    rw [List.pairwise_cons] at disjoint
    rcases List.mem_cons.mp h with rfl | hmem
    · rw [← getLE_setLE bytes f.off f.width f.value]
      apply getLE_congr
      intro i hlow hhigh
      apply setFields_outside
      intro g hg
      have hapart := disjoint.1 g hg
      unfold Field.Apart at hapart
      omega
    · exact ih disjoint.2 hmem

theorem putBytes_inside {off i : Nat} {source : List UInt8} (hlow : off ≤ i)
    (hhigh : i < off + source.length) : putBytes bytes off source i = source.getD (i - off) 0 := by
  unfold putBytes
  rw [if_pos ⟨hlow, hhigh⟩]

theorem putBytes_outside {off i : Nat} {source : List UInt8} (h : i < off ∨ off + source.length ≤ i) :
    putBytes bytes off source i = bytes i := by
  unfold putBytes
  rw [if_neg (by omega)]

@[simp] theorem getBytes_length (bytes : Nat → UInt8) (off count : Nat) :
    (getBytes bytes off count).length = count := by
  simp [getBytes]

theorem getBytes_getD {off count i : Nat} (h : i < count) :
    (getBytes bytes off count).getD i 0 = bytes (off + i) := by
  simp [getBytes, List.getD, List.getElem?_map, List.getElem?_range h]

theorem getBytes_congr {left right : Nat → UInt8} {off off' count : Nat}
    (h : ∀ i, i < count → left (off + i) = right (off' + i)) :
    getBytes left off count = getBytes right off' count := by
  unfold getBytes
  apply List.map_congr_left
  intro i hi
  exact h i (List.mem_range.mp hi)

theorem getBytes_eq_of_getD {off count : Nat} {source : List UInt8} (hlength : source.length = count)
    (h : ∀ i, i < count → bytes (off + i) = source.getD i 0) :
    getBytes bytes off count = source := by
  subst hlength
  refine List.ext_getElem (getBytes_length ..) fun i hi hi' => ?_
  simp [getBytes, h i hi', List.getD, hi']

theorem getBytes_add (bytes : Nat → UInt8) (off m n : Nat) :
    getBytes bytes off (m + n) = getBytes bytes off m ++ getBytes bytes (off + m) n := by
  unfold getBytes
  rw [List.range_add, List.map_append, List.map_map]
  simp [Function.comp_def, Nat.add_assoc]

theorem take_getBytes (bytes : Nat → UInt8) (off count m : Nat) :
    (getBytes bytes off count).take m = getBytes bytes off (min m count) := by
  unfold getBytes
  rw [← List.map_take, List.take_range]

theorem drop_getBytes (bytes : Nat → UInt8) (off count m : Nat) :
    (getBytes bytes off count).drop m = getBytes bytes (off + m) (count - m) := by
  by_cases hm : m ≤ count
  · obtain ⟨rest, rfl⟩ := Nat.exists_eq_add_of_le hm
    rw [getBytes_add, List.drop_append_of_le_length (by simp), List.drop_of_length_le (by simp),
      List.nil_append, Nat.add_sub_cancel_left]
  · rw [List.drop_of_length_le (by simp; omega), Nat.sub_eq_zero_of_le (by omega)]
    rfl

end Xv6.Lib.ByteField
