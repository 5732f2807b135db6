import Mathlib.Data.List.GetD
import Xv6.Mkfs.Build

/-! The image that `main` leaves: inode `j + 2` is the file of argument `j`. -/
namespace Xv6

open Function List Volume
open Lib Lib.Exec

namespace Dir

/-- Directory contents from the first slot on. -/
def packed (es : List (Nat × List UInt8)) : List UInt8 := es.flatMap fun e => Dirent.bytes e.1 e.2

theorem setEntry_at_end {c : List UInt8} {k : Nat} (h : c.length = direntSize * k) (inum : Nat)
    (name : List UInt8) : setEntry c k inum name = c ++ Dirent.bytes inum name := by
  unfold setEntry splice
  rw [← h, take_length, drop_eq_nil_of_le (by omega), append_nil]

theorem packed_append (es es' : List (Nat × List UInt8)) :
    packed (es ++ es') = packed es ++ packed es' :=
  flatMap_append

theorem packed_singleton (e : Nat × List UInt8) : packed [e] = Dirent.bytes e.1 e.2 :=
  flatMap_singleton _ _

variable {es : List (Nat × List UInt8)} {m : Nat}

theorem length_packed (h : ∀ e ∈ es, e.2.length = DIRSIZ) :
    (packed es).length = direntSize * es.length := by
  induction es with
  | nil => rfl
  | cons e es ih =>
    have hrest := ih fun e' he' => h e' (mem_cons_of_mem e he')
    have hname := h e mem_cons_self
    rw [← singleton_append, packed_append, packed_singleton, length_append, hrest]
    simp only [Dirent.bytes, length_cons, singleton_append, hname, DIRSIZ, direntSize]
    omega

theorem entry_packed (h : ∀ e ∈ es, e.2.length = DIRSIZ) (e : Nat × List UInt8)
    (he : es[m]? = some e) :
    entry (packed es) m = (e.1 % 2 ^ 16, CString.text (CString.ofList e.2) DIRSIZ 0) := by
  induction es using List.reverseRecOn with
  | nil => cases he
  | append_singleton es last ih =>
    have hfront : ∀ e ∈ es, e.2.length = DIRSIZ :=
      fun e' he' => h e' (mem_append_left _ he')
    have hlast : last.2.length = DIRSIZ := h last (mem_append_right _ mem_cons_self)
    have hlength := length_packed hfront
    rw [packed_append, packed_singleton, ← setEntry_at_end hlength]
    obtain rfl | hm := eq_or_ne m es.length
    · rw [List.getElem?_concat_length] at he
      cases he
      exact entry_setEntry_self (Nat.le_of_eq hlength.symm) hlast
    · have hlt := (List.getElem?_eq_some_iff.mp he).1
      rw [length_append, length_singleton] at hlt
      rw [List.getElem?_append_left (by omega)] at he
      rw [entry_setEntry_ne (Nat.le_of_eq hlength.symm) hlast hm]
      exact ih hfront he

theorem entry_of_ge {c : List UInt8} (h : c.length ≤ direntSize * m) : (entry c m).1 = 0 := by
  have hzero : ∀ p, direntSize * m ≤ p → CString.ofList c p = 0 :=
    fun p hp => getD_eq_default _ _ (Nat.le_trans h hp)
  simp only [entry, ByteField.getLE]
  rw [hzero _ (Nat.le_refl _), hzero _ (Nat.le_succ _)]
  rfl

theorem entry_append_zeros (c : List UInt8) (k : Nat) :
    entry (c ++ List.replicate k 0) m = entry c m := by
  have hbyte : CString.ofList (c ++ List.replicate k 0) = CString.ofList c := by
    funext p
    unfold CString.ofList
    by_cases hp : p < c.length
    · rw [getD_append _ _ _ _ hp]
    · rw [getD_append_right _ _ _ _ (by omega), getD_eq_default c _ (by omega),
        getD_eq_getElem?_getD, List.getElem?_replicate]
      split <;> rfl
  unfold entry
  rw [hbyte]

end Dir

namespace Mkfs

variable {ninodes : Nat} {hn : ninodes < 208} {s s' : Image} {i : Nat} {E : Exit → Prop}
  {files : List HostFile}

namespace HostFile

def bytes (f : HostFile) : List UInt8 := (f.reads.getD []).flatMap Chunk.bytes

def node (f : HostFile) : Node := ⟨T_FILE, 0, 0, 1, f.bytes⟩

/-- No '/' is left in the name, it can be opened and is not too long. -/
structure Good (f : HostFile) : Prop where
  slash : 47 ∉ f.shortname
  opens : f.reads ≠ none
  le : f.bytes.length ≤ MAXFILE * BSIZE

end HostFile

def rootEntries (files : List HostFile) : List (Nat × List UInt8) :=
  (ROOTINO, dot) :: (ROOTINO, dotdot) :: files.mapIdx fun j f => (j + 2, f.name)

def rootNode (files : List HostFile) : Node := ⟨T_DIR, 0, 0, 1, Dir.packed (rootEntries files)⟩

def nodesOf (files : List HostFile) (i : Nat) : Option Node :=
  if i = ROOTINO then some (rootNode files)
  else if 2 ≤ i then (files[i - 2]?).map HostFile.node
  else none

def blocksUsed (files : List HostFile) : Nat :=
  nmeta + (files.map fun f => blocksFor f.bytes.length).sum +
    blocksFor (direntSize * (files.length + 2))

theorem length_rootEntries (files : List HostFile) : (rootEntries files).length = files.length + 2 := by
  simp only [rootEntries, length_cons, length_mapIdx]

theorem names_rootEntries : ∀ e ∈ rootEntries files, e.2.length = DIRSIZ := by
  intro e he
  simp only [rootEntries, mem_cons, mem_mapIdx] at he
  obtain rfl | rfl | ⟨j, hj, rfl⟩ := he
  · rfl
  · rfl
  · exact CString.strncpy_length

theorem length_root (files : List HostFile) :
    (Dir.packed (rootEntries files)).length = direntSize * (files.length + 2) := by
  rw [Dir.length_packed names_rootEntries, length_rootEntries]

theorem root_append (files : List HostFile) (f : HostFile) :
    Dir.packed (rootEntries (files ++ [f])) =
      Dir.packed (rootEntries files) ++ Dirent.bytes (files.length + 2) f.name := by
  have hentries : rootEntries (files ++ [f]) = rootEntries files ++ [(files.length + 2, f.name)] := by
    simp only [rootEntries, mapIdx_append, cons_append, mapIdx_cons, mapIdx_nil,
      Nat.zero_add]
  rw [hentries, Dir.packed_append, Dir.packed_singleton]

theorem nodesOf_append (files : List HostFile) (f : HostFile) :
    nodesOf (files ++ [f]) = update (update (nodesOf files) (files.length + 2)
      (some f.node)) ROOTINO (some (rootNode (files ++ [f]))) := by
  funext i
  by_cases hroot : i = ROOTINO
  · rw [hroot, update_self]
    exact if_pos rfl
  rw [update_of_ne hroot]
  by_cases hnew : i = files.length + 2
  · rw [hnew, update_self]
    rw [hnew] at hroot
    unfold nodesOf
    rw [if_neg hroot, if_pos (by omega), Nat.add_sub_cancel, List.getElem?_concat_length]
    rfl
  · rw [update_of_ne hnew]
    unfold nodesOf
    rw [if_neg hroot, if_neg hroot]
    by_cases hlow : 2 ≤ i
    · rw [if_pos hlow, if_pos hlow]
      by_cases hin : i - 2 < files.length
      · rw [List.getElem?_append_left hin]
      · have hpast : (files ++ [f]).length ≤ i - 2 := by
          rw [length_append, length_singleton]
          omega
        rw [List.getElem?_eq_none hpast, List.getElem?_eq_none (by omega)]
    · rw [if_neg hlow, if_neg hlow]

theorem blocksUsed_append (files : List HostFile) (f : HostFile) :
    blocksUsed (files ++ [f]) = nmeta + (files.map fun f => blocksFor f.bytes.length).sum +
      blocksFor (direntSize * (files.length + 3)) + blocksFor f.bytes.length := by
  unfold blocksUsed
  rw [map_append, sum_append, length_append, map_singleton, sum_singleton,
    length_singleton, Nat.add_assoc files.length]
  omega

theorem blocksUsed_le_append (files rest : List HostFile) :
    blocksUsed files ≤ blocksUsed (files ++ rest) := by
  have hmono : blocksFor (direntSize * (files.length + 2)) ≤
      blocksFor (direntSize * ((files ++ rest).length + 2)) := by
    apply blocksFor_mono
    rw [length_append]
    simp only [direntSize]
    omega
  unfold blocksUsed
  rw [map_append, sum_append]
  omega

structure Progress (hn : ninodes < 208) (files : List HostFile) (s : Image) : Prop where
  built : Built hn s
  nodes : (s.volume hn).nodes = nodesOf files
  freeinode : s.freeinode = files.length + 2
  freeblock : s.freeblock = blocksUsed files

variable {Q : Unit → Image → Prop}

theorem Built.wp_chunks {node : Node} {base : Nat} {chunks : List Chunk} (h : Built hn s)
    (hi : i < ninodes) (hnode : (s.volume hn).nodes i = some node)
    (hnext : s.freeblock = base + blocksFor node.contents.length)
    (post : ∀ s', Built hn s' → (s'.volume hn).nodes = update (s.volume hn).nodes i
        (some { node with contents := node.contents ++ chunks.flatMap Chunk.bytes }) →
      s'.freeblock = base + blocksFor (node.contents.length + (chunks.flatMap Chunk.bytes).length) →
      s'.freeinode = s.freeinode → Q () s') (stop : ∀ e,
      FSSIZE < base + blocksFor (node.contents.length + (chunks.flatMap Chunk.bytes).length) ∨
        MAXFILE * BSIZE < node.contents.length + (chunks.flatMap Chunk.bytes).length → E e) :
    wp (chunks.forM fun chunk => iappend i chunk.bytes) Q E s := by
  induction chunks generalizing s node with
  | nil =>
    refine post s h ?_ hnext rfl
    rw [flatMap_nil, append_nil, ← hnode, update_eq_self]
  | cons chunk chunks ih =>
    rw [flatMap_cons, length_append, ← Nat.add_assoc] at post stop
    have hmono := blocksFor_mono (Nat.le_add_right (node.contents.length + chunk.bytes.length)
      (chunks.flatMap Chunk.bytes).length)
    change wp (iappend i chunk.bytes >>= fun _ => chunks.forM fun chunk => iappend i chunk.bytes) Q E s
    rw [wp_bind]
    refine h.wp_iappend hi hnode hnext ?_ ?_
    · intro s₁ h₁ hnodes₁ hfree₁ hinode₁
      have hnode₁ : (s₁.volume hn).nodes i =
          some { node with contents := node.contents ++ chunk.bytes } := by
        rw [hnodes₁, update_self]
      have hlength : (node.contents ++ chunk.bytes).length =
          node.contents.length + chunk.bytes.length := length_append
      refine ih h₁ hnode₁ (by rw [hlength]; exact hfree₁) ?_ ?_
      · intro s₂ h₂ hnodes₂ hfree₂ hinode₂
        refine post s₂ h₂ ?_ ?_ (hinode₂.trans hinode₁)
        · rw [hnodes₂, hnodes₁, update_idem, append_assoc]
        · rw [hfree₂, hlength]
      · rw [hlength]
        exact stop
    · intro e hfull
      exact stop e (by omega)

theorem Progress.wp_addFile {f : HostFile} (h : Progress hn files s)
    (hi : files.length + 2 < ninodes) (post : ∀ s', Progress hn (files ++ [f]) s' → Q () s')
    (stop : ∀ e, (f.Good → FSSIZE < blocksUsed (files ++ [f])) → E e) : wp (addFile f) Q E s := by
  have hroot : ROOTINO ≠ files.length + 2 := by simp only [ROOTINO]; omega
  have hlimit : direntSize * (files.length + 3) ≤ MAXFILE * BSIZE := by
    simp only [direntSize, MAXFILE, NDIRECT, NINDIRECT, BSIZE]
    omega
  rw [blocksUsed_append] at stop
  unfold addFile
  rw [wp_ite]
  by_cases hslash : 47 ∈ f.shortname
  · rw [if_pos hslash, wp_throw]
    exact stop _ fun hgood => absurd hslash hgood.slash
  rw [if_neg hslash]
  cases hreads : f.reads with
  | none =>
    rw [wp_throw]
    exact stop _ fun hgood => absurd hreads hgood.opens
  | some chunks =>
    have hbytes : chunks.flatMap Chunk.bytes = f.bytes := by
      unfold HostFile.bytes
      rw [hreads]
      rfl
    have hfree : (s.volume hn).nodes s.freeinode = none := by
      rw [h.nodes, h.freeinode]
      unfold nodesOf
      rw [if_neg hroot.symm, if_pos (by omega), List.getElem?_eq_none (by omega)]
      rfl
    rw [wp_bind]
    refine h.built.wp_ialloc (by rw [h.freeinode]; exact hi) hfree (by decide) ?_
    intro s₁ h₁ hnodes₁ hfree₁ hinode₁
    rw [h.freeinode] at hnodes₁ hinode₁ ⊢
    have hnode₁ : (s₁.volume hn).nodes ROOTINO = some (rootNode files) := by
      rw [hnodes₁, update_of_ne hroot, h.nodes]
      exact if_pos rfl
    have hlength : (rootNode files).contents.length = direntSize * (files.length + 2) :=
      length_root files
    have hdirent : (Dirent.bytes (files.length + 2) f.name).length = direntSize := by
      simp only [Dirent.bytes, length_cons, HostFile.name, CString.strncpy_length, DIRSIZ,
        direntSize]
    have hgrown : (rootNode files).contents.length +
        (Dirent.bytes (files.length + 2) f.name).length = direntSize * (files.length + 3) := by
      rw [hlength, hdirent]
      rfl
    rw [wp_bind]
    refine h₁.wp_iappend (Nat.lt_of_le_of_lt (Nat.le_add_left 1 _) hi) hnode₁
      (by rw [hfree₁, h.freeblock, hlength]; rfl) ?_ ?_
    · intro s₂ h₂ hnodes₂ hfree₂ hinode₂
      have hnode₂ : (s₂.volume hn).nodes (files.length + 2) = some ⟨T_FILE, 0, 0, 1, []⟩ := by
        rw [hnodes₂, update_of_ne hroot.symm, hnodes₁, update_self]
      have hnext₂ : s₂.freeblock = nmeta + (files.map fun f => blocksFor f.bytes.length).sum +
          blocksFor (direntSize * (files.length + 3)) + blocksFor ([] : List UInt8).length := by
        rw [hfree₂, hgrown]
        rfl
      refine h₂.wp_chunks hi hnode₂ hnext₂ ?_ ?_
      · intro s₃ h₃ hnodes₃ hfree₃ hinode₃
        rw [nil_append, hbytes] at hnodes₃
        rw [length_nil, Nat.zero_add, hbytes] at hfree₃
        refine post s₃ ⟨h₃, ?_, ?_, ?_⟩
        · rw [nodesOf_append, hnodes₃, hnodes₂, hnodes₁, update_comm hroot,
            update_idem, h.nodes]
          unfold rootNode
          rw [root_append]
          rfl
        · rw [hinode₃, hinode₂, hinode₁, length_append, length_singleton]
        · rw [hfree₃, blocksUsed_append]
      · intro e hfull
        rw [length_nil, Nat.zero_add, hbytes] at hfull
        refine stop e fun hgood => ?_
        have hle := hgood.le
        omega
    · intro e hfull
      rw [hgrown] at hfull
      exact stop e fun _ => by omega

theorem Progress.wp_files {rest : List HostFile} (h : Progress hn files s)
    (hi : files.length + rest.length + 2 ≤ ninodes)
    (post : ∀ s', Progress hn (files ++ rest) s' → Q () s')
    (stop : ∀ e, ((∀ f ∈ rest, f.Good) → FSSIZE < blocksUsed (files ++ rest)) → E e) :
    wp (rest.forM addFile) Q E s := by
  induction rest generalizing s files with
  | nil =>
    rw [append_nil] at post
    exact post s h
  | cons f rest ih =>
    have happend : files ++ f :: rest = (files ++ [f]) ++ rest := by rw [append_assoc]; rfl
    rw [happend] at post stop
    rw [length_cons] at hi
    change wp (addFile f >>= fun _ => rest.forM addFile) Q E s
    rw [wp_bind]
    refine h.wp_addFile (by omega) ?_ ?_
    · intro s₁ h₁
      refine ih h₁ (by rw [length_append, length_singleton]; omega) post ?_
      intro e hfull
      exact stop e fun hgood => hfull fun g hg => hgood g (mem_cons_of_mem f hg)
    · intro e hfull
      refine stop e fun hgood => ?_
      exact Nat.lt_of_lt_of_le (hfull (hgood f mem_cons_self)) (blocksUsed_le_append _ _)

def formatted : Image :=
  { sector := update (fun _ => Block.zero) 1 superblock, length := FSSIZE }

theorem sector_formatted {b : Nat} (h : b ≠ 1) : formatted.sector b = Block.zero := by
  change update (fun _ => Block.zero) 1 superblock b = Block.zero
  rw [update_of_ne h]

theorem wp_zero_blocks {count : Nat} (hcount : count ≤ 2 ^ 22) (post : Q () { length := count }) :
    wp (forUpTo count (fun i _ => wsect i Block.zero) ()) Q E {} := by
  refine wp_forUpTo (fun i _ s => s = { length := i }) rfl ?_ ?_
  · rintro i hi - s rfl
    have hmod : i % 2 ^ 22 = i := Nat.mod_eq_of_lt (by omega)
    unfold wsect
    rw [wp_modify, hmod, update_eq_self_iff.mpr rfl, Nat.max_eq_right (Nat.le_succ i)]
  · rintro - s rfl
    exact post

theorem built_formatted (hn : ninodes < 208) :
    Built hn formatted ∧ (formatted.volume hn).nodes = fun _ => none := by
  have hfree : ∀ i, ¬ (formatted.volume hn).allocated i := by
    intro i
    unfold Volume.allocated
    rw [not_ne_iff]
    by_cases hi : i < ninodes
    · have hblock : sb.IBLOCK i ≠ 1 := by
        change i / IPB + (2 + nlog) ≠ 1
        generalize i / IPB = k
        omega
      rw [Image.volume_inode hi, sector_formatted hblock]
      change BitVec.ofNat 16 (ByteField.getLE Block.zero.byte _ 2) = 0
      simp only [ByteField.getLE, Block.byte_zero]
      rfl
    · have hnone : (formatted.volume hn).inode i = Dinode.zero := if_neg hi
      rw [hnone]
      rfl
  refine ⟨⟨⟨rfl, Nat.le_refl _, ?_⟩, ⟨⟨?_, ?_⟩, ?_, ?_⟩, ?_, ?_⟩, ?_⟩
  · intro b hb
    have hne : b ≠ 1 := by
      rintro rfl
      exact absurd hb (by decide)
    exact sector_formatted hne
  · rintro ⟨i, p⟩ q r hp
    rw [hold_of_not_allocated (hfree i)] at hp
    cases hp
  · intro b
    refine iff_of_false ?_ ?_
    · rintro ⟨hdata, hused⟩
      rw [dataStart_layout] at hdata
      have hlt : b < nmeta := of_decide_eq_true hused
      omega
    · rintro ⟨⟨i, p⟩, hp⟩
      rw [hold_of_not_allocated (hfree i)] at hp
      cases hp
  · intro b hb _
    rw [dataStart_layout] at hb
    exact decide_eq_true hb
  · intro b hb
    exact Nat.lt_trans (of_decide_eq_true hb) nmeta_lt
  · exact fun i hi => absurd hi (hfree i)
  · exact fun i hi => absurd hi (hfree i)
  · funext i
    exact nodes_eq_none_iff.mpr (hfree i)

theorem test_marked (n b : Nat) :
    BitMap.test ((List.range n).foldl BitMap.mark fun _ => 0) b = decide (b < n) := by
  induction n with
  | zero => simp [BitMap.test]
  | succ n ih =>
    rw [range_succ, foldl_append, foldl_cons, foldl_nil]
    by_cases hb : b = n
    · rw [hb, BitMap.test_mark_self]
      exact (decide_eq_true (Nat.lt_succ_self n)).symm
    · rw [BitMap.test_mark_ne hb, ih, decide_eq_decide]
      omega

theorem wp_balloc (hn : ninodes < 208) (laid : Laid s) (hle : s.freeblock ≤ FSSIZE)
    (post : ∀ s', s'.store.volume (layout ninodes hn) = s.volume hn → Q () s') :
    wp (balloc s.freeblock) Q E s := by
  unfold balloc
  rw [wp_then (Nat.lt_of_le_of_lt hle (by decide))]
  refine wp_wsect laid (by decide) (post _ ?_)
  unfold Store.volume Image.volume
  congr 1
  · funext i
    change (if i < ninodes then _ else _) = if i < ninodes then _ else _
    by_cases hi : i < ninodes
    · have hblock : sb.IBLOCK i ≠ sb.bmapstart := by
        change i / IPB + (2 + nlog) ≠ 2 + nlog + ninodeblocks
        simp only [IPB, BSIZE, ninodeblocks, NINODES]
        omega
      rw [if_pos hi, if_pos hi]
      change (update s.sector sb.bmapstart _ (sb.IBLOCK i)).dinode _ = _
      rw [update_of_ne hblock]
      rfl
    · rw [if_neg hi, if_neg hi]
  · funext b
    rw [dataStart_layout]
    by_cases hb : nmeta ≤ b
    · have hne : b ≠ sb.bmapstart := by
        rintro rfl
        exact absurd hb (by decide)
      rw [if_pos hb]
      change update s.sector sb.bmapstart _ b = _
      rw [update_of_ne hne]
      exact (Image.volume_block hn hb).symm
    · rw [if_neg hb]
      change _ = if (layout ninodes hn).dataStart ≤ b then _ else _
      rw [dataStart_layout, if_neg hb]
  · funext b
    by_cases hb : b < FSSIZE
    · have hbit : b % BPB = b := Nat.mod_eq_of_lt (Nat.lt_trans hb (by decide))
      have hmap : (layout ninodes hn).BBLOCK b = sb.bmapstart := by
        change b / BPB + (2 + nlog + ninodeblocks) = 2 + nlog + ninodeblocks
        rw [Nat.div_eq_of_lt (Nat.lt_trans hb (by decide)), Nat.zero_add]
      have hbyte : b / 8 < BSIZE := by
        simp only [FSSIZE] at hb
        simp only [BSIZE]
        omega
      change (decide (b < FSSIZE) && BitMap.test
        (update s.sector sb.bmapstart _ ((layout ninodes hn).BBLOCK b)).byte (b % BPB)) = _
      rw [hmap, hbit, update_self, BitMap.test_congr (Block.byte_ofFn _ hbyte), test_marked,
        decide_eq_true hb, Bool.true_and]
    · change (decide (b < FSSIZE) && _) = decide (b < s.freeblock)
      rw [decide_eq_false hb, Bool.false_and, decide_eq_false (by omega)]

/-- With zeros behind the last entry. -/
def rootNodeFixed (files : List HostFile) : Node :=
  { rootNode files with
    contents := Dir.packed (rootEntries files) ++
      List.replicate (fixedSize (direntSize * (files.length + 2)) - direntSize * (files.length + 2)) 0 }

/-- The root is longer than its entries, and the blocks are those needed before. -/
structure Finished (hn : ninodes < 208) (files : List HostFile) (v : Volume) : Prop where
  owned : v.Owned (layout ninodes hn)
  nodes : v.nodes = update (nodesOf files) ROOTINO (some (rootNodeFixed files))
  extent : ∀ i node, nodesOf files i = some node → Extent v i node.contents.length

theorem le_fixedSize (off : Nat) : off ≤ fixedSize off := by
  unfold fixedSize
  simp only [BSIZE]
  omega

theorem Built.fits_fixed (h : Built hn s) (hi : (s.volume hn).allocated i) :
    { (s.volume hn).inode i with size := fixedSize ((s.volume hn).inode i).size }.Fits := by
  have hmax := (h.extent i hi).le_max
  simp only [MAXFILE, NDIRECT, NINDIRECT, BSIZE] at hmax
  refine ⟨?_, (h.owned.fits hi (by omega)).addrs_lt⟩
  simp only [fixedSize, BSIZE]
  omega

theorem Progress.finished (h : Progress hn files s) :
    Finished hn files ((s.volume hn).setInode ROOTINO { (s.volume hn).inode ROOTINO with
      size := fixedSize ((s.volume hn).inode ROOTINO).size }) := by
  set v := s.volume hn
  have hroot : v.nodes ROOTINO = some (rootNode files) := by
    rw [h.nodes]
    exact if_pos rfl
  have halloc : v.allocated ROOTINO := allocated_of_node hroot
  have hnode : rootNode files = (v.inode ROOTINO).node (v.contents ROOTINO) := by
    rw [nodes_of_allocated halloc] at hroot
    exact (Option.some.inj hroot).symm
  have hcontents : v.contents ROOTINO = Dir.packed (rootEntries files) := by
    rw [show Dir.packed (rootEntries files) = (rootNode files).contents from rfl, hnode]
    rfl
  have hsize : (v.inode ROOTINO).size = direntSize * (files.length + 2) := by
    rw [← contents_length, hcontents, length_root]
  have hhold : (v.setInode ROOTINO { v.inode ROOTINO with
      size := fixedSize (v.inode ROOTINO).size }).hold = v.hold :=
    hold_setInode_same rfl rfl
  generalize hw : v.setInode ROOTINO { v.inode ROOTINO with
    size := fixedSize (v.inode ROOTINO).size } = w at *
  have hself : w.inode ROOTINO = { v.inode ROOTINO with
      size := fixedSize (v.inode ROOTINO).size } := by
    rw [← hw, inode_setInode_self]
  have hother : ∀ j, j ≠ ROOTINO → w.inode j = v.inode j := by
    intro j hj
    rw [← hw, inode_setInode_ne hj]
  have hfile : ∀ j bn, w.fileBlock j bn = v.fileBlock j bn := by
    intro j bn
    unfold Volume.fileBlock
    rw [hhold, ← hw]
    rfl
  refine ⟨⟨?_, ?_, ?_⟩, ?_, ?_⟩
  · rw [hhold, ← hw]
    exact h.built.owned.holding
  · rw [← hw]
    exact h.built.owned.reserved
  · rw [← hw]
    exact h.built.owned.used_lt
  · rw [← h.nodes]
    apply nodes_update
    -- past the entries there is nothing but zeros
    · have hlonger : w.contents ROOTINO = (rootNodeFixed files).contents := by
        have hsplit : fixedSize (v.inode ROOTINO).size = (v.inode ROOTINO).size +
            (fixedSize (v.inode ROOTINO).size - (v.inode ROOTINO).size) := by
          have hle := le_fixedSize (v.inode ROOTINO).size
          omega
        have hbyte : w.byteAt ROOTINO = v.byteAt ROOTINO := by
          funext pos
          exact byteAt_congr (hfile _ _)
        unfold Volume.contents
        rw [hself, hbyte]
        dsimp only
        rw [hsplit, ByteField.getBytes_add, Nat.zero_add]
        change v.contents ROOTINO ++ _ = Dir.packed (rootEntries files) ++ _
        rw [hcontents, ← hsize]
        congr 1
        refine eq_replicate_iff.mpr ⟨ByteField.getBytes_length .., ?_⟩
        intro byte hmem
        obtain ⟨k, -, rfl⟩ := mem_map.mp hmem
        exact h.built.tail ROOTINO halloc _ (Nat.le_add_right _ _)
      have halloc' : w.allocated ROOTINO := by
        unfold Volume.allocated
        rw [hself]
        exact halloc
      rw [nodes_of_allocated halloc', hlonger, hself]
      unfold rootNodeFixed
      rw [hnode]
      rfl
    · exact hother
    · intro j hj
      refine contents_congr (by rw [hother j hj]) fun pos => ?_
      exact byteAt_congr (hfile _ _)
  · intro i node hnodes
    rw [← h.nodes] at hnodes
    have hi := allocated_of_node hnodes
    have hlen : node.contents.length = (v.inode i).size := by
      rw [nodes_of_allocated hi] at hnodes
      rw [← Option.some.inj hnodes, ← contents_length]
      rfl
    rw [hlen]
    refine (h.built.extent i hi).congr (fun bn => by rw [hhold]) ?_
    by_cases hroot : i = ROOTINO
    · rw [hroot, hself]
      rfl
    · rw [hother i hroot]

theorem Built.wp_dots (h : Built hn s) (hroot : ROOTINO < ninodes)
    (hnodes : (s.volume hn).nodes = update (fun _ => none) ROOTINO (some ⟨T_DIR, 0, 0, 1, []⟩))
    (hfree : s.freeblock = nmeta) (hinode : s.freeinode = 2)
    (post : ∀ s', Progress hn [] s' → Q () s') :
    wp (iappend ROOTINO (Dirent.bytes ROOTINO dot))
      (fun _ s' => wp (iappend ROOTINO (Dirent.bytes ROOTINO dotdot)) Q E s') E s := by
  have hsmall : blocksUsed [] ≤ FSSIZE := by decide +kernel
  have hroom : ∀ n, n ≤ 2 * direntSize →
      ¬ (FSSIZE < nmeta + blocksFor n ∨ MAXFILE * BSIZE < n) := by
    intro n hn hfull
    have hmono := blocksFor_mono hn
    have hmax : 2 * direntSize ≤ MAXFILE * BSIZE := by decide
    change nmeta + blocksFor (2 * direntSize) ≤ FSSIZE at hsmall
    omega
  have hnode : (s.volume hn).nodes ROOTINO = some ⟨T_DIR, 0, 0, 1, []⟩ := by
    rw [hnodes, update_self]
  have hnext : s.freeblock = nmeta + blocksFor ([] : List UInt8).length := hfree
  refine h.wp_iappend hroot hnode hnext ?_ (fun e hfull => absurd hfull (hroom _ (by decide)))
  intro s₁ h₁ hnodes₁ hfree₁ hinode₁
  have hnode₁ : (s₁.volume hn).nodes ROOTINO =
      some ⟨T_DIR, 0, 0, 1, [] ++ Dirent.bytes ROOTINO dot⟩ := by
    rw [hnodes₁, update_self]
  refine h₁.wp_iappend hroot hnode₁ hfree₁ ?_ (fun e hfull => absurd hfull (hroom _ (by decide)))
  intro s₂ h₂ hnodes₂ hfree₂ hinode₂
  refine post s₂ ⟨h₂, ?_, ?_, hfree₂⟩
  · rw [hnodes₂, hnodes₁, hnodes, update_idem, update_idem]
    funext i
    obtain rfl | hi := eq_or_ne i ROOTINO
    · rw [update_self]
      rfl
    · rw [update_of_ne hi]
      unfold nodesOf
      rw [if_neg hi]
      exact (ite_self _).symm
  · rw [hinode₂, hinode₁, hinode]
    rfl

theorem Progress.wp_finish (h : Progress hn files s) (hroot : ROOTINO < ninodes)
    (post : ∀ s, Finished hn files (s.store.volume (layout ninodes hn)) → Q () s) :
    wp (do
      let din ← rinode ROOTINO
      winode ROOTINO { din with size := fixedSize din.size }
      balloc (← get).freeblock) Q E s := by
  have hfinished := h.finished
  have hnode : (s.volume hn).nodes ROOTINO = some (rootNode files) := by
    rw [h.nodes]
    exact if_pos rfl
  rw [wp_bind]
  refine wp_rinode hn h.built.laid hroot ?_
  rw [wp_bind]
  refine wp_winode hn h.built.laid hroot (h.built.fits_fixed (allocated_of_node hnode)) ?_
  intro s₁ hlaid₁ hvolume₁ hfree₁ _
  rw [wp_bind, wp_get]
  refine wp_balloc hn hlaid₁ ?_ ?_
  · rw [hfree₁]
    exact freeblock_le h.built.owned rfl
  · intro s₂ hvolume₂
    rw [← hvolume₁, ← hvolume₂] at hfinished
    exact post s₂ hfinished

/-- `main` builds the image, unless a file is not accepted or blocks run out. -/
theorem wp_main (hn : ninodes < 208) (hlen : files.length + 2 ≤ ninodes)
    (post : ∀ s, Finished hn files (s.store.volume (layout ninodes hn)) → Q () s)
    (stop : ∀ e, ((∀ f ∈ files, f.Good) → FSSIZE < blocksUsed files) → E e) :
    wp (main files) Q E {} := by
  have hroot : ROOTINO < ninodes := Nat.lt_of_lt_of_le (Nat.lt_add_left _ (by decide)) hlen
  have hcount : FSSIZE ≤ 2 ^ 22 := by decide
  unfold main
  rw [wp_bind]
  -- with the number of rounds known, the unifier would run the loop
  generalize hfs : FSSIZE = count at hcount ⊢
  refine wp_zero_blocks hcount ?_
  subst hfs
  obtain ⟨hbuilt, hnodes⟩ := built_formatted hn
  rw [wp_bind]
  change wp (ialloc T_DIR >>= _) Q E formatted
  rw [wp_bind]
  refine hbuilt.wp_ialloc hroot (by rw [hnodes]) (by decide) ?_
  intro s₁ h₁ hnodes₁ hfree₁ hinode₁
  have hino : formatted.freeinode = ROOTINO := rfl
  rw [hino] at hnodes₁ hinode₁ ⊢
  rw [hnodes] at hnodes₁
  rw [wp_else (not_not_intro rfl)]
  simp only [wp_bind]
  refine h₁.wp_dots hroot hnodes₁ hfree₁ hinode₁ ?_
  intro s₂ h₂
  refine h₂.wp_files (by rw [length_nil, Nat.zero_add]; exact hlen) ?_ stop
  intro s₃ h₃
  rw [nil_append] at h₃
  have hfinish := h₃.wp_finish (E := E) hroot post
  simp only [wp_bind] at hfinish
  exact hfinish

end Mkfs

end Xv6
