import Xv6.Mkfs.Main

/-! When the image that `mkfs` writes is consistent. -/
namespace Xv6.Mkfs

open Function
open Lib Lib.Exec

variable {ninodes : Nat} {hn : ninodes < 208} {s : Image} {v : Volume} {files : List HostFile}

theorem finished_of_main (hn : ninodes < 208) (hlen : files.length + 2 ≤ ninodes)
    (hexit : main files {} = .ok ((), s)) :
    Finished hn files (s.store.volume (layout ninodes hn)) := by
  have hwp : wp (main files) (fun _ s => Finished hn files (s.store.volume (layout ninodes hn)))
      (fun _ => True) {} := wp_main hn hlen (fun _ h => h) (fun _ _ => trivial)
  have hpost := post_of_wp hwp hexit
  exact hpost

theorem main_returns (hn : ninodes < 208) (hlen : files.length + 2 ≤ ninodes)
    (hgood : ∀ f ∈ files, f.Good) (hroom : blocksUsed files ≤ FSSIZE) :
    ∃ s, main files {} = .ok ((), s) ∧ Finished hn files (s.store.volume (layout ninodes hn)) := by
  have hwp : wp (main files) (fun _ s => Finished hn files (s.store.volume (layout ninodes hn)))
      (fun _ => False) {} :=
    wp_main hn hlen (fun _ h => h) (fun _ hstop => absurd (hstop hgood) (Nat.not_lt.mpr hroom))
  obtain ⟨a, s, hrun, hfinished⟩ := returns_of_wp hwp fun _ => id
  exact ⟨s, hrun, hfinished⟩

theorem Finished.contents_root (h : Finished hn files v) :
    v.contents ROOTINO = (rootNodeFixed files).contents := by
  have hnode : v.nodes ROOTINO = some (rootNodeFixed files) := by
    rw [h.nodes, update_self]
  rw [Volume.nodes_of_allocated (allocated_of_node hnode)] at hnode
  rw [← Option.some.inj hnode]
  rfl

theorem length_rootFixed (files : List HostFile) :
    (rootNodeFixed files).contents.length = fixedSize (direntSize * (files.length + 2)) := by
  have hle := le_fixedSize (direntSize * (files.length + 2))
  change (Dir.packed _ ++ List.replicate _ 0).length = _
  rw [List.length_append, length_root, List.length_replicate]
  omega

theorem entry_root {m : Nat} {e : Nat × List UInt8} (h : (rootEntries files)[m]? = some e) :
    Dir.entry (rootNodeFixed files).contents m =
      (e.1 % 2 ^ 16, CString.text (CString.ofList e.2) DIRSIZ 0) :=
  (Dir.entry_append_zeros _ _).trans (Dir.entry_packed names_rootEntries e h)

theorem entry_root_of_ge {m : Nat} (h : files.length + 2 ≤ m) :
    (Dir.entry (rootNodeFixed files).contents m).1 = 0 := by
  change (Dir.entry (Dir.packed _ ++ List.replicate _ 0) m).1 = 0
  rw [Dir.entry_append_zeros]
  apply Dir.entry_of_ge
  rw [length_root]
  exact Nat.mul_le_mul_left _ h

theorem rootEntries_file {j : Nat} {f : HostFile} (h : files[j]? = some f) :
    (rootEntries files)[j + 2]? = some (j + 2, f.name) := by
  simp only [rootEntries, List.getElem?_cons_succ, List.getElem?_mapIdx, h, Option.map_some]

theorem nodesOf_file {j : Nat} {f : HostFile} (h : files[j]? = some f) :
    nodesOf files (j + 2) = some f.node := by
  have hroot : j + 2 ≠ ROOTINO := by simp only [ROOTINO]; omega
  unfold nodesOf
  rw [if_neg hroot, if_pos (by omega), Nat.add_sub_cancel, h]
  rfl

theorem nodesOf_entry {m : Nat} {e : Nat × List UInt8} (h : (rootEntries files)[m]? = some e) :
    nodesOf files e.1 ≠ none ∧ e.1 < files.length + 2 := by
  match m, h with
  | 0, h =>
    cases h
    exact ⟨Option.some_ne_none _, Nat.lt_add_left _ (by decide)⟩
  | 1, h =>
    cases h
    exact ⟨Option.some_ne_none _, Nat.lt_add_left _ (by decide)⟩
  | j + 2, h =>
    obtain ⟨hlt, -⟩ := List.getElem?_eq_some_iff.mp h
    rw [length_rootEntries] at hlt
    have hfile : files[j]? = some files[j] := List.getElem?_eq_getElem (by omega)
    rw [rootEntries_file hfile] at h
    cases h
    refine ⟨?_, hlt⟩
    rw [nodesOf_file hfile]
    exact Option.some_ne_none _

/-- Unless the entries fill the last block. -/
theorem Finished.mapped (h : Finished hn files v) (hcount : (files.length + 2) % 64 ≠ 0) :
    v.Mapped := by
  intro i halloc bn hbn
  rw [← Volume.contents_length] at hbn
  obtain rfl | hroot := eq_or_ne i ROOTINO
  · rw [h.contents_root, length_rootFixed] at hbn
    rw [ne_eq, (h.extent ROOTINO (rootNode files) (if_pos rfl)).block]
    change ¬ (Dir.packed (rootEntries files)).length ≤ _
    rw [length_root]
    simp only [fixedSize, direntSize, BSIZE] at hbn ⊢
    omega
  · have hnode := Volume.nodes_of_allocated halloc
    rw [h.nodes, update_of_ne hroot] at hnode
    rw [ne_eq, (h.extent i _ hnode).block]
    exact Nat.not_le.mpr hbn

theorem Finished.consistent {hall : NINODES < 208}
    (h : Finished hall files (s.store.volume sb)) (hlen : files.length ≤ 198)
    (hcount : (files.length + 2) % 64 ≠ 0) : Consistent s := by
  refine ⟨?_, ?_⟩
  · intro m _ hne
    rw [h.contents_root] at hne ⊢
    have hm : m < (rootEntries files).length := by
      rw [length_rootEntries]
      by_contra hge
      exact hne (entry_root_of_ge (by omega))
    obtain ⟨hnode, hlt⟩ := nodesOf_entry (List.getElem?_eq_getElem hm)
    rw [entry_root (List.getElem?_eq_getElem hm)] at hne ⊢
    generalize (rootEntries files)[m] = e at *
    have hmod : e.1 % 2 ^ 16 = e.1 := Nat.mod_eq_of_lt (by omega)
    dsimp only at hne ⊢
    rw [hmod] at hne ⊢
    have hbound : e.1 < sb.ninodes := Nat.lt_of_lt_of_le hlt (by change files.length + 2 ≤ 200; omega)
    refine ⟨hbound, ?_⟩
    by_contra hfree
    have hnone := Volume.nodes_eq_none_iff.mpr hfree
    rw [h.nodes] at hnone
    by_cases hroot : e.1 = ROOTINO
    · rw [hroot, update_self] at hnone
      cases hnone
    · rw [update_of_ne hroot] at hnone
      exact hnode hnone
  · have hwell : WellFormed sb s.store := wellFormed_iff.mpr ⟨h.owned, h.mapped hcount⟩
    exact hwell.blocks

theorem volume_inode_layout (hn : ninodes < 208) (s : Image) {i : Nat} (hi : i < ninodes)
    (hall : i < NINODES) :
    (s.store.volume sb).inode i = (s.store.volume (layout ninodes hn)).inode i := by
  have hwide : (s.store.volume (layout ninodes hn)).inode i = s.store.dinode sb i := if_pos hi
  rw [hwide]
  exact Store.volume_inode hall

theorem volume_hold_layout (hn : ninodes < 208) (s : Image) {i p : Nat} (hi : i < ninodes)
    (hall : i < NINODES) :
    (s.store.volume sb).hold (i, p) = (s.store.volume (layout ninodes hn)).hold (i, p) := by
  have hinode := volume_inode_layout hn s hi hall
  apply Volume.hold_congr
  · unfold Volume.allocated
    rw [hinode]
  · exact Volume.slot_congr hinode rfl

/-- The inodes of up to 205 files fit. -/
theorem Finished.count_of_consistent (hwide : NINODES ≤ ninodes)
    (h : Finished hn files (s.store.volume (layout ninodes hn))) (hlen : files.length ≤ 205)
    (hc : Consistent s) : files.length ≤ 198 ∧ (files.length + 2) % 64 ≠ 0 := by
  have hroot : ROOTINO < NINODES := by decide
  have hhold : ∀ p, (s.store.volume sb).hold (ROOTINO, p) =
      (s.store.volume (layout ninodes hn)).hold (ROOTINO, p) :=
    fun p => volume_hold_layout hn s (Nat.lt_of_lt_of_le hroot hwide) hroot
  have hcontents : (s.store.volume sb).contents ROOTINO = (rootNodeFixed files).contents := by
    rw [← h.contents_root]
    apply Volume.contents_congr
    · rw [volume_inode_layout hn s (Nat.lt_of_lt_of_le hroot hwide) hroot]
    · intro pos
      apply Volume.byteAt_congr
      unfold Volume.fileBlock
      rw [hhold]
      rfl
  have hfixed := length_rootFixed files
  constructor
  · by_contra hmany
    -- the entry of file number 198 has inode number 200
    have hfile : files[198]? = some files[198] := List.getElem?_eq_getElem (by omega)
    have hentry := entry_root (rootEntries_file hfile)
    have hslot : 200 < Dir.slots (rootNodeFixed files).contents := by
      unfold Dir.slots
      rw [hfixed]
      simp only [fixedSize, direntSize, BSIZE]
      omega
    have hbad := hc.entries 200 (by rw [hcontents]; exact hslot)
    rw [hcontents, hentry] at hbad
    change 200 ≠ 0 → 200 < 200 ∧ _ at hbad
    exact absurd (hbad (by decide)).1 (Nat.lt_irrefl 200)
  · intro hfull
    -- the entries fill their last block, and the size points behind it
    have hnode : (s.store.volume (layout ninodes hn)).nodes ROOTINO = some (rootNodeFixed files) := by
      rw [h.nodes, update_self]
    have halloc : (s.store.volume sb).allocated ROOTINO := by
      unfold Volume.allocated
      rw [volume_inode_layout hn s (Nat.lt_of_lt_of_le hroot hwide) hroot]
      exact allocated_of_node hnode
    have hsize : ((s.store.volume sb).inode ROOTINO).size =
        fixedSize (direntSize * (files.length + 2)) := by
      rw [← Volume.contents_length, hcontents, hfixed]
    have hextent := h.extent ROOTINO (rootNode files) (if_pos rfl)
    have hend : (rootNode files).contents.length = (files.length + 2) / 64 * BSIZE := by
      change (Dir.packed (rootEntries files)).length = _
      rw [length_root]
      simp only [direntSize, BSIZE]
      omega
    refine hc.blocks.mapped ROOTINO halloc ((files.length + 2) / 64) ?_ ?_
    · rw [hsize]
      simp only [fixedSize, direntSize, BSIZE]
      omega
    · rw [← Volume.hold_eq_none_iff halloc, hhold, hextent.block, hend]

def emptyFile (k : Fin 676) : HostFile where
  path := [97 + UInt8.ofNat (k / 26), 97 + UInt8.ofNat (k % 26)]
  nul := by
    revert k
    decide +kernel
  reads := some []

theorem emptyFile_good (k : Fin 676) : (emptyFile k).Good := by
  refine ⟨?_, Option.some_ne_none _, Nat.zero_le _⟩
  revert k
  decide +kernel

def emptyFiles (n : Nat) : List HostFile := (List.range n).map fun k => emptyFile (Fin.ofNat 676 k)

theorem emptyFiles_good (n : Nat) : ∀ f ∈ emptyFiles n, f.Good := by
  intro f hf
  obtain ⟨k, -, rfl⟩ := List.mem_map.mp hf
  exact emptyFile_good _

theorem not_consistent_of_count {n : Nat} (hn : n ≤ 205) (hbad : 198 < n ∨ (n + 2) % 64 = 0)
    (hroom : blocksUsed (emptyFiles n) ≤ FSSIZE) :
    ∃ s, main (emptyFiles n) {} = .ok ((), s) ∧ ¬ Consistent s := by
  have hlength : (emptyFiles n).length = n := by
    unfold emptyFiles
    rw [List.length_map, List.length_range]
  have hwide : 207 < 208 := by decide
  obtain ⟨s, hrun, hfinished⟩ := main_returns hwide (by omega) (emptyFiles_good n) hroom
  refine ⟨s, hrun, fun hc => ?_⟩
  obtain ⟨hle, hmod⟩ := hfinished.count_of_consistent (by decide) (by omega) hc
  omega

/-- 62 files fill a block of the root, and file 199 has no inode. -/
theorem emptyFiles_not_consistent :
    (∃ s, main (emptyFiles 62) {} = .ok ((), s) ∧ ¬ Consistent s) ∧
      ∃ s, main (emptyFiles 199) {} = .ok ((), s) ∧ ¬ Consistent s :=
  ⟨not_consistent_of_count (by decide) (.inr (by decide)) (by decide +kernel),
    not_consistent_of_count (by decide) (.inl (by decide)) (by decide +kernel)⟩

/-- Up to 198 files that do not fill the last block of the root give a consistent image; up to
205, no others do. -/
theorem consistent_image (files : List HostFile) (s : Image) (hexit : main files {} = .ok ((), s)) :
    (files.length ≤ 198 ∧ (files.length + 2) % 64 ≠ 0 → Consistent s) ∧
      (files.length ≤ 205 → Consistent s → files.length ≤ 198 ∧ (files.length + 2) % 64 ≠ 0) := by
  constructor
  · rintro ⟨hlen, hcount⟩
    have hall : NINODES < 208 := by decide
    have hfinished := finished_of_main hall (by change _ ≤ 200; omega) hexit
    exact hfinished.consistent hlen hcount
  · intro hlen hc
    have hwide : 207 < 208 := by decide
    have hfinished := finished_of_main hwide (by omega) hexit
    exact hfinished.count_of_consistent (by decide) hlen hc

theorem consistent_image_emptyFiles :
    ∃ s, main (emptyFiles 61) {} = .ok ((), s) ∧ Consistent s := by
  have hall : NINODES < 208 := by decide
  obtain ⟨s, hrun, -⟩ := main_returns hall (by decide) (emptyFiles_good 61) (by decide +kernel)
  exact ⟨s, hrun, (consistent_image (emptyFiles 61) s hrun).1 (by decide)⟩

end Xv6.Mkfs
