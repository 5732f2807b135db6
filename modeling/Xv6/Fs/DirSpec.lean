import Xv6.Fs.Dir

/-! What the directory functions find and change, in terms of entries. -/
namespace Xv6

open Lib Lib.Exec

variable {sb : Superblock} {a : FsView} {k : Fin NINODE} {i : Nat} {f : Fs} {node : Node}
variable {E : Panic → Prop}

theorem kernelBytes_bytes {bytes : List UInt8} {n : Nat} (h : bytes.length = n) :
    (kernelBytes bytes).bytes n = bytes := by
  unfold Source.bytes ByteField.getBytes kernelBytes CString.ofList
  apply List.ext_getElem
  · simp [h]
  · intro j hj hj'
    simp [List.getD_eq_getElem?_getD, List.getElem?_eq_getElem hj']

theorem toNat_ofNat_of_le {x bound : Nat} (h : x ≤ bound) (hbound : bound < 2 ^ 32) :
    (UInt32.ofNat x).toNat = x := by
  rw [UInt32.toNat_ofNat']
  exact Nat.mod_eq_of_lt (by omega)

theorem Dir.hit_iff_named (name : Nat → UInt8) (de : Dirent) :
    decide (de.inum ≠ 0 ∧ namecmp name de.name = 0) = true ↔
      Dir.Named (CString.text name DIRSIZ 0) (de.inum, de.text) := by
  rw [decide_eq_true_iff]
  unfold namecmp Dir.Named
  rw [CString.strncmp_eq_zero_iff, eq_comm (a := CString.text name DIRSIZ 0)]
  rfl

namespace Fs

section Directory

variable (rep : f.Rep sb a) (hk : (k, i) ∈ a.own) (hi : i ∈ a.valid) (hnode : a.nodes i = some node)

include rep hk hi hnode

theorem wp_scan {e : Panic} {hit : Dirent → Bool} {P : Nat × List UInt8 → Prop} {fuel j : Nat}
    {Q : Option Dirent × Nat → Fs → Prop} (hhit : ∀ de, hit de = true ↔ P (de.inum, de.text))
    (hfuel : node.contents.length ≤ direntSize * j + fuel)
    (found : ∀ m de, Dir.IsFirst node.contents P j m →
      (de.inum, de.text) = Dir.entry node.contents m → Q (some de, direntSize * m) f)
    (missing : (∀ l, j ≤ l → l < Dir.slots node.contents → ¬ P (Dir.entry node.contents l)) →
      direntSize ∣ node.contents.length ∨ node.contents.length ≤ direntSize * j →
      Q (none, direntSize * max j (Dir.slots node.contents)) f)
    (bad : ¬ direntSize ∣ node.contents.length → E e) :
    wp (scan sb k e hit fuel (direntSize * j)) Q E f := by
  have hsize := rep.size_eq hk hi hnode
  have hlength := rep.length_le hk hi hnode
  have hlimit : MAXFILE * BSIZE + 16 < 2 ^ 32 := by decide
  have hdone : ∀ j, node.contents.length ≤ direntSize * j → Dir.slots node.contents ≤ j := by
    intro j hj
    unfold Dir.slots
    simp only [direntSize] at hj ⊢
    omega
  induction fuel generalizing j with
  | zero =>
    have hslots := hdone j hfuel
    have hnone := missing (fun l _ _ => by omega) (.inr hfuel)
    rwa [Nat.max_eq_left hslots] at hnone
  | succ fuel ih =>
    unfold scan
    simp only [wp_bind, wp_get]
    rw [wp_ite, hsize]
    split
    · rename_i hlt
      have hoff : (UInt32.ofNat (direntSize * j)).toNat = direntSize * j :=
        toNat_ofNat_of_le (Nat.le_of_lt (Nat.lt_of_lt_of_le hlt hlength)) (by omega)
      simp only [wp_bind]
      refine wp_readi rep hk hi hnode (by omega)
        (by rw [hoff, show (16 : UInt32).toNat = 16 from rfl]; omega) ?_
      intro bytes hbytes
      rw [hoff] at hbytes
      change bytes = (node.contents.drop (direntSize * j)).take direntSize at hbytes
      have hcount : bytes.length = min direntSize (node.contents.length - direntSize * j) := by
        rw [hbytes, List.length_take, List.length_drop]
      have hentry := Dir.ofBytes_read node.contents j
      rw [← hbytes] at hentry
      rw [wp_ite]
      split
      · rename_i hshort
        apply bad
        rintro ⟨q, hq⟩
        apply hshort
        rw [hcount]
        simp only [direntSize] at hq hlt ⊢
        omega
      · rename_i hfull
        have hfull' : direntSize * (j + 1) ≤ node.contents.length := by
          simp only [direntSize] at hfull hcount ⊢
          omega
        have hslot : j < Dir.slots node.contents := by
          unfold Dir.slots
          simp only [direntSize] at hfull' ⊢
          omega
        rw [wp_ite]
        split
        · rename_i hmatch
          rw [hhit, hentry] at hmatch
          exact found j _ ⟨Nat.le_refl j, hslot, hmatch, fun l hlow hhigh => by omega⟩ hentry
        · rename_i hnomatch
          rw [hhit, hentry] at hnomatch
          refine @ih (j + 1) ?_ ?_ ?_
          · simp only [direntSize] at hfuel ⊢
            omega
          · intro m de hfirst hde
            refine found m de ⟨by have := hfirst.1; omega, hfirst.2.1, hfirst.2.2.1, ?_⟩ hde
            intro l hlow hhigh
            by_cases hl : l = j
            · rwa [hl]
            · exact hfirst.2.2.2 l (by omega) hhigh
          · intro hnone hdvd
            have hrest : ∀ l, j ≤ l → l < Dir.slots node.contents →
                ¬ P (Dir.entry node.contents l) := by
              intro l hlow hhigh
              by_cases hl : l = j
              · rwa [hl]
              · exact hnone l (by omega) hhigh
            have hend := missing hrest (.inl ?_)
            · rwa [Nat.max_eq_right (by omega)] at hend ⊢
            · rcases hdvd with hdvd | hle
              · exact hdvd
              · exact ⟨j + 1, by omega⟩
    · rename_i hge
      have hslots := hdone j (by omega)
      have hnone := missing (fun l _ _ => by omega) (.inr (by omega))
      rwa [Nat.max_eq_left hslots] at hnone

theorem wp_dirlookup {name : Nat → UInt8} {Q : Option (Fin NINODE × Nat) → Fs → Prop}
    (hdir : node.type = T_DIR)
    (found : ∀ m, Dir.Finds node.contents (CString.text name DIRSIZ 0) m → ∀ l f',
      f'.Rep sb { a with own := (l, (Dir.entry node.contents m).1) ::ₘ a.own } →
      f'.store = f.store → Q (some (l, direntSize * m)) f')
    (missing : Dir.Misses node.contents (CString.text name DIRSIZ 0) →
      direntSize ∣ node.contents.length → Q none f)
    (bad : ¬ direntSize ∣ node.contents.length → E .dirlookupRead)
    (full : TableFull a.own → E .igetNoInodes) : wp (dirlookup sb k name) Q E f := by
  have hsize := rep.size_eq hk hi hnode
  have htype : (f.itable k).type = T_DIR := by
    rw [← hdir, rep.node_eq hk hi hnode]
    rfl
  unfold dirlookup
  simp only [wp_bind, wp_get]
  rw [wp_else (fun hne => hne htype)]
  simp only [wp_bind]
  refine wp_scan (j := 0) rep hk hi hnode (Dir.hit_iff_named name) (by omega) ?_ ?_ bad
  · intro m de hfirst hde
    have hinum : de.inum = (Dir.entry node.contents m).1 := by rw [← hde]
    simp only [wp_bind, wp_pure]
    rw [(rep.entry hk).dev, hinum]
    exact wp_iget rep (found m hfirst) full
  · intro hnone hdvd
    refine missing (fun m hm => hnone m (Nat.zero_le m) hm) ?_
    rcases hdvd with hdvd | hle
    · exact hdvd
    · exact ⟨0, by omega⟩

theorem wp_writeEntry {s inum : Nat} {name : List UInt8} {Q : Int → Fs → Prop}
    (hs : direntSize * s ≤ node.contents.length) (hname : name.length = DIRSIZ)
    (post : ∀ f', f'.Rep sb (a.setNode i (some { node with
      contents := Dir.setEntry node.contents s inum name })) →
      Spent sb (metaBlocks sb i) f.store f'.store 2 4 → Q direntSize f')
    (full : MAXFILE * BSIZE < direntSize * (s + 1) → Q (-1) f)
    (stop : ∀ e, Short sb (metaBlocks sb i) f.store 2 4 e → E e) :
    wp (writei sb k (kernelBytes (Dirent.bytes inum name)) (UInt32.ofNat (direntSize * s)) 16)
      Q E f := by
  have hlength := rep.length_le hk hi hnode
  have hlimit : MAXFILE * BSIZE + 16 < 2 ^ 32 := by decide
  have hoff : (UInt32.ofNat (direntSize * s)).toNat = direntSize * s :=
    toNat_ofNat_of_le (Nat.le_trans hs hlength) (by omega)
  have hcount : (16 : UInt32).toNat = direntSize := rfl
  have hbytes : (Dirent.bytes inum name).length = direntSize := by
    simp only [Dirent.bytes, List.length_cons, hname, DIRSIZ, direntSize]
  have hone : chunks (UInt32.ofNat (direntSize * s)).toNat (16 : UInt32).toNat = 1 := by
    rw [hoff, hcount, chunks, if_neg (by decide)]
    simp only [direntSize, BSIZE]
    omega
  refine wp_writei rep hk hi hnode ?_ ?_ fun _ => by rwa [hone]
  · intro hrefused
    apply full
    unfold Store.Accepts at hrefused
    rw [hoff, hcount] at hrefused
    simp only [direntSize] at hrefused hs ⊢
    omega
  · intro tot total f' _ hle htotal hcomplete hrep hspent
    rw [hone] at hspent
    rw [hcount] at hcomplete htotal
    have htot : tot = direntSize := by
      rcases hcomplete with heq | ⟨-, hnone⟩
      · exact heq
      · cases hnone
    have htotal' : total = direntSize := by omega
    subst htot
    rw [hoff, htotal', kernelBytes_bytes hbytes, List.take_of_length_le] at hrep
    · exact post f' hrep hspent
    · rw [Dir.length_splice hs, hbytes]

/-- `dirlink` refuses a name that is there, and else takes the first free slot. -/
theorem wp_dirlink {name : Nat → UInt8} {inum : Nat} {Q : Int → Fs → Prop}
    (hdir : node.type = T_DIR)
    (present : ∀ m, Dir.Finds node.contents (CString.text name DIRSIZ 0) m → ∀ f',
      f'.Rep sb a → f'.store = f.store → Q (-1) f')
    (added : Dir.Misses node.contents (CString.text name DIRSIZ 0) →
      direntSize ∣ node.contents.length → ∀ s, Dir.FreeSlot node.contents s → ∀ f',
      f'.Rep sb (a.setNode i (some { node with
        contents := Dir.setEntry node.contents s inum (CString.strncpy name DIRSIZ 0) })) →
      Spent sb (metaBlocks sb i) f.store f'.store 2 4 → Q 0 f')
    (full : ∀ s, Dir.FreeSlot node.contents s → MAXFILE * BSIZE < direntSize * (s + 1) →
      E .dirlink)
    (bad : ¬ direntSize ∣ node.contents.length → E .dirlookupRead ∧ E .dirlinkRead)
    (table : TableFull a.own → E .igetNoInodes)
    (stop : ∀ e, Short sb (metaBlocks sb i) f.store 2 4 e → E e) :
    wp (dirlink sb k name inum) Q E f := by
  have hsize := rep.size_eq hk hi hnode
  unfold dirlink
  simp only [wp_bind]
  refine wp_dirlookup rep hk hi hnode hdir ?_ ?_ (fun h => (bad h).1) table
  · intro m hfinds l f' hrep hstore
    simp only [wp_bind, wp_pure]
    exact wp_iput_back hrep rep.table.valid_sub rep.table.locks_sub
      fun f'' hrep' hstore' => present m hfinds f'' hrep' (hstore'.trans hstore)
  · intro hmisses hdvd
    simp only [wp_bind, wp_get]
    have hwrite : ∀ s, Dir.FreeSlot node.contents s →
        wp (writei sb k (kernelBytes (Dirent.bytes inum (CString.strncpy name DIRSIZ 0)))
          (UInt32.ofNat (direntSize * s)) 16)
          (fun r f' => wp (if r ≠ direntSize then throw .dirlink else pure 0) Q E f') E f := by
      intro s hfree
      have hs : direntSize * s ≤ node.contents.length := by
        have hle : s ≤ Dir.slots node.contents := by
          rcases hfree.1 with h | h <;> omega
        unfold Dir.slots at hle
        simp only [direntSize] at hle ⊢
        omega
      refine wp_writeEntry rep hk hi hnode hs CString.strncpy_length ?_ ?_ stop
      · intro f' hrep hspent
        rw [wp_else (fun hne => hne rfl)]
        exact added hmisses hdvd s hfree f' hrep hspent
      · intro hover
        rw [wp_then (by decide)]
        exact full s hfree hover
    refine wp_scan (P := fun e => e.1 = 0) (j := 0) rep hk hi hnode (by simp) (by omega) ?_ ?_
      (fun h => absurd hdvd h)
    · intro m de hfirst _
      exact hwrite m ⟨.inl ⟨hfirst.2.1, hfirst.2.2.1⟩,
        fun l hl => hfirst.2.2.2 l (Nat.zero_le l) hl⟩
    · intro hnone _
      rw [Nat.zero_max]
      exact hwrite _ ⟨.inr rfl, fun l hl => hnone l (Nat.zero_le l) hl⟩

theorem wp_isdirempty {Q : Bool → Fs → Prop}
    (empty : (∀ m, 2 ≤ m → m < Dir.slots node.contents → (Dir.entry node.contents m).1 = 0) →
      Q true f)
    (used : ∀ m, 2 ≤ m → m < Dir.slots node.contents → (Dir.entry node.contents m).1 ≠ 0 →
      Q false f)
    (bad : ¬ direntSize ∣ node.contents.length → E .isdirempty) :
    wp (isdirempty sb k) Q E f := by
  have hsize := rep.size_eq hk hi hnode
  unfold isdirempty
  simp only [wp_bind, wp_get]
  rw [Nat.mul_comm 2]
  refine wp_scan (P := fun e => e.1 ≠ 0) (j := 2) rep hk hi hnode (by simp) (by omega) ?_ ?_ bad
  · intro m de hfirst _
    exact used m hfirst.1 hfirst.2.1 hfirst.2.2.1
  · intro hnone _
    exact empty fun m hlow hhigh => not_not.mp (hnone m hlow hhigh)

end Directory

end Fs

end Xv6
