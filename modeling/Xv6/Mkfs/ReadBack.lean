import Xv6.Mkfs.Consistency

/-! What the kernel reads from an image. A block of the root may be missing, but `dirlookup`
stops before it. -/
namespace Xv6

open Function
open Lib Lib.Exec

def Fs.boot (s : Store) : Fs :=
  ⟨s, fun _ => { Dinode.zero with dev := 0, inum := 0, ref := 0, valid := false, locked := false }⟩

namespace Fs

variable {sb : Superblock} {f : Fs} {k : Fin NINODE} {i m : Nat}

theorem iget_fresh (dev : Nat) (absent : ∀ k, 0 < (f.itable k).ref → (f.itable k).inum ≠ i)
    (room : ∃ k, (f.itable k).ref = 0) : ∃ k, (f.itable k).ref = 0 ∧ iget dev i f =
      .ok (k, f.setInode k { f.itable k with dev := dev, inum := i, ref := 1, valid := false }) := by
  have hmiss : (List.finRange NINODE).find? (fun k => decide (0 < (f.itable k).ref ∧
      (f.itable k).dev = dev ∧ (f.itable k).inum = i)) = none := by
    rw [List.find?_eq_none]
    intro k _ hk
    obtain ⟨hpos, -, hinum⟩ := of_decide_eq_true hk
    exact absent k hpos hinum
  cases hfree : (List.finRange NINODE).find? (fun k => decide ((f.itable k).ref = 0)) with
  | none =>
    obtain ⟨k, hk⟩ := room
    exact absurd (decide_eq_true hk) (List.find?_eq_none.mp hfree k (List.mem_finRange k))
  | some k =>
    have hk := List.find?_some hfree
    refine ⟨k, of_decide_eq_true hk, run_of_wp ?_⟩
    unfold iget
    rw [wp_bind, wp_get, hmiss]
    dsimp only
    rw [hfree]
    simp only [wp_bind, wp_set, wp_pure, and_self]

theorem ilock_fresh (href : 1 ≤ (f.itable k).ref) (hlocked : (f.itable k).locked = false)
    (hvalid : (f.itable k).valid = false)
    (htype : (f.store.dinode sb (f.itable k).inum).type ≠ 0) :
    ilock sb k f = .ok ((), f.setInode k { f.itable k with
      toDinode := f.store.dinode sb (f.itable k).inum, valid := true, locked := true }) := by
  apply run_of_wp
  unfold ilock
  simp only [wp_bind, wp_get]
  rw [wp_else (by omega), wp_else (by rw [hlocked]; decide), wp_ite,
    if_neg (by rw [hvalid]; decide)]
  simp only [wp_bind, wp_set]
  rw [wp_else htype]
  simp only [wp_pure, and_self]

def loaded (sb : Superblock) (s : Store) (dev i : Nat) : Inode :=
  { s.dinode sb i with dev := dev, inum := i, ref := 1, valid := true, locked := true }

theorem load_fresh {dev : Nat} (absent : ∀ k, 0 < (f.itable k).ref → (f.itable k).inum ≠ i)
    (room : ∃ k, (f.itable k).ref = 0) (idle : ∀ k, (f.itable k).ref = 0 → (f.itable k).locked = false)
    (htype : (f.store.dinode sb i).type ≠ 0) : ∃ k f', (f.itable k).ref = 0 ∧
      iget dev i f = .ok (k, f') ∧
      ilock sb k f' = .ok ((), f.setInode k (loaded sb f.store dev i)) := by
  obtain ⟨k, href, hget⟩ := iget_fresh dev absent room
  refine ⟨k, _, href, hget, ?_⟩
  rw [ilock_fresh]
  · rw [itable_setInode, setInode_setInode]
    rfl
  · rw [itable_setInode]
  · rw [itable_setInode]
    exact idle k href
  · rw [itable_setInode]
  · rw [itable_setInode]
    exact htype

theorem scan_found {e : Panic} {hit : Dirent → Bool} {bytes : Nat → List UInt8} {fuel j : Nat}
    (hsize : direntSize * m < (f.itable k).size)
    (hread : ∀ l, l ≤ m → readi sb k (fun _ => true) (UInt32.ofNat (direntSize * l)) 16 f =
      .ok ((direntSize, bytes l), f))
    (hmiss : ∀ l, l < m → hit (Dirent.ofBytes (bytes l)) = false)
    (hhit : hit (Dirent.ofBytes (bytes m)) = true) (hj : j ≤ m) (hfuel : m < j + fuel) :
    scan sb k e hit fuel (direntSize * j) f =
      .ok ((some (Dirent.ofBytes (bytes m)), direntSize * m), f) := by
  apply run_of_wp
  induction fuel generalizing j with
  | zero => omega
  | succ fuel ih =>
    have hlt : direntSize * j < (f.itable k).size :=
      Nat.lt_of_le_of_lt (Nat.mul_le_mul_left _ hj) hsize
    unfold scan
    rw [wp_bind, wp_get, wp_then hlt, wp_bind]
    refine wp_of_run (hread j hj) ?_
    rw [wp_else (not_not_intro rfl), wp_ite]
    obtain rfl | hend := eq_or_ne j m
    · rw [if_pos hhit]
      exact ⟨rfl, rfl⟩
    · rw [if_neg (by rw [hmiss j (by omega)]; decide)]
      exact @ih (j + 1) (by omega) (by omega)

theorem readi_of_run {dst : Nat → Bool} {off n : UInt32} {r : Int} {bytes : List UInt8}
    (hrun : Store.readi sb (f.itable k) dst off n f.store = .ok ((r, bytes, f.itable k), f.store)) :
    readi sb k dst off n f = .ok ((r, bytes), f) := by
  apply run_of_wp
  unfold readi
  rw [wp_onInode, wp_bind]
  refine wp_of_run hrun ⟨rfl, ?_⟩
  exact setInode_self f k

theorem readi_of_mapped {off n : UInt32} (held : Held sb f.store (f.itable k))
    (owned : (f.store.volume sb).Owned sb) (hsmall : (f.itable k).size < 2 ^ 31)
    (mapped : ∀ pos, pos < off.toNat + n.toNat → pos < (f.itable k).size →
      (f.store.volume sb).hold ((f.itable k).inum, blockSlot (pos / BSIZE)) ≠ none)
    (hoff : off.toNat ≤ (f.itable k).size) (hfit : off.toNat + n.toNat < 2 ^ 32) :
    ∃ bytes, bytes = (((f.store.volume sb).contents (f.itable k).inum).drop off.toNat).take n.toNat ∧
      readi sb k (fun _ => true) off n f = .ok (((bytes.length : Int), bytes), f) := by
  obtain ⟨bytes, hbytes, hrun⟩ :=
    (held.readiSpec_of_mapped owned hsmall mapped).inside hoff hfit (fun _ _ => rfl)
  refine ⟨bytes, ?_, readi_of_run hrun⟩
  rw [hbytes, List.drop_take, Nat.add_sub_cancel_left]

theorem dirlookup_found {name : Nat → UInt8} {c : List UInt8}
    (hdir : (f.itable k).type = T_DIR) (hfirst : Dir.Finds c (CString.text name DIRSIZ 0) m)
    (hsize : direntSize * m < (f.itable k).size)
    (hread : ∀ l, l ≤ m → readi sb k (fun _ => true) (UInt32.ofNat (direntSize * l)) 16 f =
      .ok ((direntSize, (c.drop (direntSize * l)).take direntSize), f))
    {l : Fin NINODE} {f' : Fs}
    (hget : iget (f.itable k).dev (Dir.entry c m).1 f = .ok (l, f')) :
    dirlookup sb k name f = .ok (some (l, direntSize * m), f') := by
  have hhit : ∀ l, decide ((Dirent.ofBytes ((c.drop (direntSize * l)).take direntSize)).inum ≠ 0 ∧
      namecmp name (Dirent.ofBytes ((c.drop (direntSize * l)).take direntSize)).name = 0) = true ↔
      Dir.Named (CString.text name DIRSIZ 0) (Dir.entry c l) := by
    intro l
    rw [Dir.hit_iff_named, Dir.ofBytes_read]
  have hinum : (Dirent.ofBytes ((c.drop (direntSize * m)).take direntSize)).inum =
      (Dir.entry c m).1 := by rw [← Dir.ofBytes_read]
  obtain ⟨-, -, hmatch, hbefore⟩ := hfirst
  apply run_of_wp
  unfold dirlookup
  simp only [wp_bind, wp_get]
  rw [wp_else (not_not_intro hdir), wp_bind]
  have hscan := @scan_found sb f k m .dirlookupRead
    (fun de => de.inum ≠ 0 ∧ namecmp name de.name = 0)
    (fun l => (c.drop (direntSize * l)).take direntSize) (f.itable k).size 0 hsize hread
    (fun l hl => by
      rw [← Bool.not_eq_true]
      exact fun hyes => hbefore l (Nat.zero_le l) hl ((hhit l).mp hyes))
    ((hhit m).mpr hmatch) (Nat.zero_le m) (by simp only [direntSize] at hsize; omega)
  refine wp_of_run hscan ?_
  dsimp only
  rw [wp_bind, hinum]
  exact wp_of_run hget ⟨rfl, rfl⟩

end Fs

namespace Mkfs

open Fs

variable {s : Image} {files : List HostFile}

namespace HostFile

def text (f : HostFile) : List UInt8 := CString.text (CString.ofList f.stored) DIRSIZ 0

/-- The name leads to a file with the bytes. -/
def ReadsBack (f : HostFile) (s : Store) : Prop :=
  ∀ name, CString.text name DIRSIZ 0 = f.text → ∃ dp f₁ f₂ ip pos f₃ f₄,
    iget ROOTDEV ROOTINO (boot s) = .ok (dp, f₁) ∧ ilock sb dp f₁ = .ok ((), f₂) ∧
    dirlookup sb dp name f₂ = .ok (some (ip, pos), f₃) ∧ ilock sb ip f₃ = .ok ((), f₄) ∧
    (f₄.itable ip).type = T_FILE ∧ (f₄.itable ip).nlink = 1 ∧
    ∀ off n : UInt32, off.toNat ≤ f.bytes.length → off.toNat + n.toNat < 2 ^ 32 →
      ∃ bytes, bytes = (f.bytes.drop off.toNat).take n.toNat ∧
        readi sb ip (fun _ => true) off n f₄ = .ok (((bytes.length : Int), bytes), f₄)

end HostFile

/-- Names that differ from each other and from "." and "..". -/
structure Distinct (files : List HostFile) : Prop where
  nodup : (files.map HostFile.text).Nodup
  dot : ∀ f ∈ files, f.text ≠ [46]
  dotdot : ∀ f ∈ files, f.text ≠ [46, 46]

theorem entry_file {j : Nat} {f : HostFile} (hlen : files.length ≤ 198) (hf : files[j]? = some f) :
    Dir.entry (rootNodeFixed files).contents (j + 2) = (j + 2, f.text) := by
  have hj := (List.getElem?_eq_some_iff.mp hf).1
  rw [entry_root (rootEntries_file hf)]
  dsimp only [HostFile.name, HostFile.text]
  rw [CString.text_strncpy, Nat.mod_eq_of_lt (by omega)]

theorem finds_file {j : Nat} {f : HostFile} (hlen : files.length ≤ 198) (hd : Distinct files)
    (hf : files[j]? = some f) : Dir.Finds (rootNodeFixed files).contents f.text (j + 2) := by
  obtain ⟨hj, rfl⟩ := List.getElem?_eq_some_iff.mp hf
  have hmem : files[j] ∈ files := List.getElem_mem hj
  have hle := le_fixedSize (direntSize * (files.length + 2))
  refine ⟨Nat.zero_le _, ?_, ?_, ?_⟩
  · unfold Dir.slots
    rw [length_rootFixed]
    simp only [direntSize] at hle ⊢
    omega
  · rw [entry_file hlen hf]
    exact ⟨Nat.succ_ne_zero _, rfl⟩
  · intro l _ hl hnamed
    -- the entries before it: ".", "..", and files with other names
    rcases l with _ | _ | l
    · rw [entry_root rfl] at hnamed
      exact hd.dot _ hmem hnamed.2.symm
    · rw [entry_root rfl] at hnamed
      exact hd.dotdot _ hmem hnamed.2.symm
    · have hl' : l < files.length := by omega
      rw [entry_file hlen (List.getElem?_eq_getElem hl')] at hnamed
      have heq : files[l].text = files[j].text := hnamed.2
      refine List.nodup_iff_getElem?_ne_getElem?.mp hd.nodup l j (by omega)
        (by rw [List.length_map]; exact hj) ?_
      rw [List.getElem?_map, List.getElem?_map, List.getElem?_eq_getElem hl',
        List.getElem?_eq_getElem hj, Option.map_some, Option.map_some, heq]

theorem held_of_node {st : Store} {node : Node} {ip : Inode}
    (hnode : (st.volume sb).nodes ip.inum = some node) (hi : ip.inum < sb.ninodes)
    (hdinode : ip.toDinode = st.dinode sb ip.inum) :
    Held sb st ip ∧ node = ip.node ((st.volume sb).contents ip.inum) := by
  have halloc := allocated_of_node hnode
  rw [Volume.nodes_of_allocated halloc, Store.volume_inode hi, ← hdinode] at hnode
  unfold Volume.allocated at halloc
  rw [Store.volume_inode hi, ← hdinode] at halloc
  exact ⟨⟨hi, hdinode, halloc⟩, (Option.some.inj hnode).symm⟩

theorem dinode_type {st : Store} {node : Node} {i : Nat} (hnode : (st.volume sb).nodes i = some node)
    (hi : i < sb.ninodes) : (st.dinode sb i).type ≠ 0 := by
  rw [← Store.volume_inode hi]
  exact allocated_of_node hnode

section Boot

variable {hall : NINODES < 208} (h : Finished hall files (s.store.volume sb))

include h

theorem Finished.nodes_file {j : Nat} {f : HostFile} (hf : files[j]? = some f) :
    (s.store.volume sb).nodes (j + 2) = some f.node := by
  have hroot : j + 2 ≠ ROOTINO := by simp only [ROOTINO]; omega
  rw [h.nodes, update_of_ne hroot, nodesOf_file hf]

theorem Finished.read_entry {fs : Fs} {k : Fin NINODE} {l : Nat} (hlen : files.length ≤ 198)
    (hl : l < files.length + 2) (hstore : fs.store = s.store) (hinum : (fs.itable k).inum = ROOTINO)
    (hdinode : (fs.itable k).toDinode = fs.store.dinode sb ROOTINO) :
    readi sb k (fun _ => true) (UInt32.ofNat (direntSize * l)) 16 fs = .ok ((direntSize,
      ((rootNodeFixed files).contents.drop (direntSize * l)).take direntSize), fs) := by
  have hnode : (fs.store.volume sb).nodes (fs.itable k).inum = some (rootNodeFixed files) := by
    rw [hstore, hinum, h.nodes, update_self]
  obtain ⟨held, hcontents⟩ := held_of_node hnode (by rw [hinum]; decide) (by rw [hdinode, hinum])
  have hext := h.extent ROOTINO (rootNode files) (if_pos rfl)
  have hlength : (rootNode files).contents.length = direntSize * (files.length + 2) :=
    length_root files
  have hle := le_fixedSize (direntSize * (files.length + 2))
  have hsize : (fs.itable k).size = fixedSize (direntSize * (files.length + 2)) := by
    rw [← held.volume_size, ← Volume.contents_length, ← length_rootFixed, hcontents]
    rfl
  have hbound : direntSize * l ≤ direntSize * 200 := Nat.mul_le_mul_left _ (by omega)
  have hoff : (UInt32.ofNat (direntSize * l)).toNat = direntSize * l :=
    toNat_ofNat_of_le hbound (by decide)
  have hn : (16 : UInt32).toNat = direntSize := rfl
  have hfixed : fixedSize (direntSize * (files.length + 2)) < 2 ^ 31 := by
    simp only [fixedSize, direntSize, BSIZE]
    omega
  have hmapped : ∀ pos, pos < (UInt32.ofNat (direntSize * l)).toNat + (16 : UInt32).toNat →
      pos < (fs.itable k).size →
      (fs.store.volume sb).hold ((fs.itable k).inum, blockSlot (pos / BSIZE)) ≠ none := by
    intro pos hpos _
    rw [hoff, hn] at hpos
    rw [hstore, hinum, ne_eq, hext.block, hlength, Nat.not_le]
    refine Nat.lt_of_le_of_lt (Nat.div_mul_le_self pos BSIZE) ?_
    simp only [direntSize] at hpos ⊢
    omega
  obtain ⟨bytes, hbytes, hrun⟩ := readi_of_mapped held (by rw [hstore]; exact h.owned)
    (by rw [hsize]; exact hfixed) hmapped (by rw [hoff, hsize]; simp only [direntSize] at hle ⊢; omega)
    (by rw [hoff, hn]; simp only [direntSize] at hbound ⊢; omega)
  have hcontents' : (fs.store.volume sb).contents (fs.itable k).inum =
      (rootNodeFixed files).contents := by
    rw [hcontents]
    rfl
  have hcount : bytes.length = direntSize := by
    rw [hbytes, hcontents', List.length_take, List.length_drop, length_rootFixed, hoff, hn]
    simp only [direntSize] at hle ⊢
    omega
  rw [hrun, hcount, hbytes, hcontents', hoff, hn]

theorem Finished.readsBack {f : HostFile} (hlen : files.length ≤ 198) (hd : Distinct files)
    (hmem : f ∈ files) : f.ReadsBack s.store := by
  intro name hname
  obtain ⟨j, hj, hf⟩ := List.getElem_of_mem hmem
  have hf' : files[j]? = some f := by rw [← hf, List.getElem?_eq_getElem hj]
  have hfirst := finds_file hlen hd hf'
  rw [← hname] at hfirst
  have hinum : (Dir.entry (rootNodeFixed files).contents (j + 2)).1 = j + 2 := by
    rw [entry_file hlen hf']
  have hentry : j + 2 < sb.ninodes := by
    change j + 2 < 200
    omega
  have hrootLt : ROOTINO < sb.ninodes := by decide
  have hrootNode : (s.store.volume sb).nodes ROOTINO = some (rootNodeFixed files) := by
    rw [h.nodes, update_self]
  have hfileNode := h.nodes_file hf'
  -- the root directory, locked
  have hempty : ∀ k, ((boot s.store).itable k).ref = 0 := fun _ => rfl
  obtain ⟨dp, f₁, -, hget, hlock⟩ := @load_fresh sb (boot s.store) ROOTINO ROOTDEV
    (fun k hpos => absurd (hempty k) (Int.ne_of_gt hpos)) ⟨⟨0, by decide⟩, rfl⟩ (fun _ _ => rfl)
    (dinode_type hrootNode hrootLt)
  set f₂ := (boot s.store).setInode dp (loaded sb s.store ROOTDEV ROOTINO)
  have hdp : f₂.itable dp = loaded sb s.store ROOTDEV ROOTINO := itable_setInode ..
  have hothers : ∀ k, k ≠ dp → f₂.itable k = (boot s.store).itable k :=
    fun k hk => update_of_ne hk _ _
  -- the file
  obtain ⟨ip, f₃, hfree, hget', hlock'⟩ := @load_fresh sb f₂ (j + 2) ROOTDEV
    (by
      intro k hpos
      by_cases hk : k = dp
      · rw [hk, hdp]
        change ROOTINO ≠ j + 2
        simp only [ROOTINO]
        omega
      · rw [hothers k hk, hempty] at hpos
        exact absurd hpos (Int.lt_irrefl 0))
    (by
      have : Nontrivial (Fin NINODE) := Fin.nontrivial_iff_two_le.mpr (by decide)
      obtain ⟨k, hk⟩ := exists_ne dp
      exact ⟨k, by rw [hothers k hk]; rfl⟩)
    (by
      intro k href
      by_cases hk : k = dp
      · rw [hk, hdp] at href
        cases href
      · rw [hothers k hk]
        rfl)
    (dinode_type hfileNode hentry)
  set f₄ := f₂.setInode ip (loaded sb s.store ROOTDEV (j + 2))
  have hip : f₄.itable ip = loaded sb s.store ROOTDEV (j + 2) := itable_setInode ..
  have hle := le_fixedSize (direntSize * (files.length + 2))
  have hheld := @held_of_node s.store _ (loaded sb s.store ROOTDEV (j + 2)) hfileNode hentry rfl
  have hrootHeld := @held_of_node s.store _ (loaded sb s.store ROOTDEV ROOTINO) hrootNode
    hrootLt rfl
  refine ⟨dp, f₁, f₂, ip, direntSize * (j + 2), f₃, f₄, hget, hlock, ?_, hlock', ?_, ?_, ?_⟩
  · refine dirlookup_found ?_ hfirst ?_ ?_ (by rw [hdp, hinum]; exact hget')
    · rw [hdp]
      exact (congrArg Node.type hrootHeld.2).symm
    · have hsize : (f₂.itable dp).size = fixedSize (direntSize * (files.length + 2)) := by
        rw [hdp, ← length_rootFixed, hrootHeld.2]
        exact (hrootHeld.1.volume_size.symm.trans (Volume.contents_length ..).symm)
      rw [hsize]
      simp only [direntSize] at hle ⊢
      omega
    · intro l hl
      exact h.read_entry hlen (by omega) rfl (by rw [hdp]; rfl) (by rw [hdp]; rfl)
  · rw [hip]
    exact (congrArg Node.type hheld.2).symm
  · rw [hip]
    exact (congrArg Node.nlink hheld.2).symm
  · intro off n hoff hfit
    have hcontents : (s.store.volume sb).contents (j + 2) = f.bytes :=
      (congrArg Node.contents hheld.2).symm
    have hsize : (f₄.itable ip).size = f.bytes.length := by
      rw [hip, ← hcontents, Volume.contents_length]
      exact hheld.1.volume_size.symm
    have hext := h.extent (j + 2) f.node (nodesOf_file hf')
    have hle : f.bytes.length ≤ MAXFILE * BSIZE := hext.le_max
    obtain ⟨bytes, hbytes, hrun⟩ := @readi_of_mapped sb f₄ ip off n (by rw [hip]; exact hheld.1) h.owned
      (by rw [hsize]; exact Nat.lt_of_le_of_lt hle (by decide))
      (by
        intro pos _ hpos
        rw [hsize] at hpos
        rw [hip]
        change (s.store.volume sb).hold (j + 2, _) ≠ none
        rw [ne_eq, hext.block, Nat.not_le]
        exact Nat.lt_of_le_of_lt (Nat.div_mul_le_self pos BSIZE) hpos)
      (by rw [hsize]; exact hoff) hfit
    refine ⟨bytes, ?_, hrun⟩
    rw [hbytes, hip, ← hcontents]
    rfl

end Boot

/-- `mkfs` writes an image with up to 198 files that fit, and the kernel reads back every file
of an image. -/
theorem kernel_reads_back (files : List HostFile) (hlen : files.length ≤ 198)
    (hd : Distinct files) (hsize : ∀ f ∈ files, f.bytes.length ≤ MAXFILE * BSIZE)
    (hroom : blocksUsed files ≤ FSSIZE) :
    ((∀ f ∈ files, 47 ∉ f.shortname ∧ f.reads ≠ none) → ∃ s, main files {} = .ok ((), s)) ∧
      ∀ s, main files {} = .ok ((), s) → ∀ f ∈ files, f.ReadsBack s.store := by
  have hall : NINODES < 208 := by decide
  have hcount : files.length + 2 ≤ NINODES := by
    change files.length + 2 ≤ 200
    omega
  constructor
  · intro hopens
    obtain ⟨s, hrun, -⟩ := main_returns hall hcount
      (fun f hf => ⟨(hopens f hf).1, (hopens f hf).2, hsize f hf⟩) hroom
    exact ⟨s, hrun⟩
  · intro s hexit f hf
    exact (finished_of_main hall hcount hexit).readsBack hlen hd hf

def smallProgram : HostFile where
  path := [117, 115, 101, 114, 47, 95, 97]
  nul := by decide
  reads := some [⟨[104, 105], by decide, by decide⟩, ⟨[33], by decide, by decide⟩]

theorem kernel_reads_back_smallProgram : smallProgram.text = [97] ∧
    smallProgram.bytes = [104, 105, 33] ∧ ∃ s, main [smallProgram] {} = .ok ((), s) ∧
      smallProgram.ReadsBack s.store := by
  obtain ⟨hexits, hreads⟩ := kernel_reads_back [smallProgram] (by decide)
    ⟨List.nodup_singleton _, by decide, by decide⟩ (by decide) (by decide +kernel)
  obtain ⟨s, hrun⟩ := hexits (by
    intro f hf
    rw [List.mem_singleton.mp hf]
    exact ⟨by decide, Option.some_ne_none _⟩)
  exact ⟨by decide, by decide, s, hrun, hreads s hrun smallProgram List.mem_cons_self⟩

end Mkfs

end Xv6
