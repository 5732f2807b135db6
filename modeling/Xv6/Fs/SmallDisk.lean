import Xv6.Fs.Ownership

/-! Disks with one block per file: log in blocks 2 to 31, inodes in block 32, free map in block
33, inode `i` in block `34 + i`. -/
namespace Xv6

open Lib

def plainSb : Superblock where
  size := 48
  ninodes := 8
  nlog := 30
  logstart := 2
  inodestart := 32
  bmapstart := 33
  log_le := smallLog_le
  inode_le := by decide
  bmap_le := by decide
  ninodes_le := by decide
  size_lt := by decide

variable {files : Nat → Option Node} {i : Nat} {node : Node}

structure PlainFiles (files : Nat → Option Node) : Prop where
  range : ∀ i node, files i = some node → 1 ≤ i ∧ i < 8
  type : ∀ i node, files i = some node → node.type ≠ 0
  short : ∀ i node, files i = some node → node.contents.length ≤ BSIZE

def plainDinode (files : Nat → Option Node) (i : Nat) : Dinode :=
  match files i with
  | none => Dinode.zero
  | some node => ⟨node.type, node.major, node.minor, node.nlink, node.contents.length,
      fun k => if k = 0 then 34 + i else 0⟩

def plainInodes (files : Nat → Option Node) : Nat → Block
  | 0 => Block.zero
  | n + 1 => (plainInodes files n).setDinode n (plainDinode files n)

def plainUsed (files : Nat → Option Node) (b : Nat) : Bool := b < 34 || (files (b - 34)).isSome

def plainMap (files : Nat → Option Node) : Nat → Nat → UInt8
  | 0 => fun _ => 0
  | n + 1 => if plainUsed files n then BitMap.mark (plainMap files n) n else plainMap files n

def plainBlock (files : Nat → Option Node) (b : Nat) : Block :=
  if b = 32 then plainInodes files 8
  else if b = 33 then Block.ofFn (plainMap files 48)
  else if b < 34 then Block.zero
  else
    match files (b - 34) with
    | none => Block.zero
    | some node => Block.ofFn fun j => node.contents.getD j 0

def plainStore (files : Nat → Option Node) : Store where
  disk := plainBlock files
  buf := plainBlock files
  log := { start := 2, size := 30 }

theorem plainInodes_dinode (h : PlainFiles files) {n : Nat} (hn : n ≤ 8) (hi : i < n) :
    (plainInodes files n).dinode i = plainDinode files i := by
  induction n with
  | zero => exact absurd hi (Nat.not_lt_zero i)
  | succ n ih =>
    unfold plainInodes
    obtain rfl | heq := eq_or_ne i n
    · refine Block.dinode_setDinode (by simp only [IPB, BSIZE]; omega) ?_
      unfold plainDinode
      split
      · exact ⟨by decide, fun _ => Nat.two_pow_pos 32⟩
      · rename_i node hnode
        have hshort := h.short i node hnode
        simp only [BSIZE] at hshort
        refine ⟨by simp only; omega, fun k => ?_⟩
        simp only
        split <;> omega
    · rw [Block.dinode_setDinode_ne (by simp only [IPB, BSIZE]; omega) heq, ih (by omega) (by omega)]

theorem plainMap_test (files : Nat → Option Node) (n b : Nat) :
    BitMap.test (plainMap files n) b = (decide (b < n) && plainUsed files b) := by
  induction n with
  | zero => simp [plainMap, BitMap.test]
  | succ n ih =>
    unfold plainMap
    obtain rfl | heq := eq_or_ne b n
    · split
      · rename_i hused
        simp [hused]
      · rename_i hused
        rw [ih]
        simp [hused]
    · have hlt : b < n + 1 ↔ b < n := by omega
      split
      · rw [BitMap.test_mark_ne heq, ih]
        simp only [hlt]
      · rw [ih]
        simp only [hlt]

theorem plainStore_used {b : Nat} (hb : b < 48) :
    (plainStore files).used plainSb b = plainUsed files b := by
  have hblock : plainSb.BBLOCK b = 33 := by
    have hdiv : b / BPB = 0 := Nat.div_eq_of_lt (by simp only [BPB, BSIZE]; omega)
    unfold Superblock.BBLOCK
    rw [hdiv]
    rfl
  have hmod : b % BPB = b := Nat.mod_eq_of_lt (by simp only [BPB, BSIZE]; omega)
  have hbyte : BitMap.test (Block.ofFn (plainMap files 48)).byte b =
      BitMap.test (plainMap files 48) b := by
    apply BitMap.test_congr
    exact Block.byte_ofFn _ (by simp only [BSIZE]; omega)
  unfold Store.used
  rw [hblock, hmod]
  change BitMap.test (Block.ofFn (plainMap files 48)).byte b = _
  rw [hbyte, plainMap_test]
  simp [hb]

theorem plainStore_inode (h : PlainFiles files) :
    ((plainStore files).volume plainSb).inode i = plainDinode files i := by
  by_cases hi : i < 8
  · rw [Store.volume_inode hi]
    have hdiv : i / IPB = 0 := Nat.div_eq_of_lt (by simp only [IPB, BSIZE]; omega)
    have hmod : i % IPB = i := Nat.mod_eq_of_lt (by simp only [IPB, BSIZE]; omega)
    have hblock : plainSb.IBLOCK i = 32 := by
      unfold Superblock.IBLOCK
      rw [hdiv]
      rfl
    unfold Store.dinode
    rw [hblock, hmod]
    exact plainInodes_dinode h (Nat.le_refl 8) hi
  · have hnone : files i = none := by
      by_contra hsome
      obtain ⟨node, hnode⟩ := Option.ne_none_iff_exists'.mp hsome
      exact hi (h.range i node hnode).2
    unfold Store.volume plainDinode
    simp only [hnone]
    exact if_neg hi

theorem plainStore_allocated (h : PlainFiles files) :
    ((plainStore files).volume plainSb).allocated i ↔ ∃ node, files i = some node := by
  unfold Volume.allocated
  rw [plainStore_inode h]
  unfold plainDinode
  cases hfile : files i with
  | none => simp [Dinode.zero]
  | some node => simpa using h.type i node hfile

theorem plainDinode_addrs (hnode : files i = some node) :
    (plainDinode files i).addrs = fun k => if k = 0 then 34 + i else 0 := by
  unfold plainDinode
  rw [hnode]

theorem plainDinode_size (hnode : files i = some node) :
    (plainDinode files i).size = node.contents.length := by
  unfold plainDinode
  rw [hnode]

theorem plainStore_wellFormed (h : PlainFiles files) : WellFormed plainSb (plainStore files) where
  blocks := by
    have hinode : ∀ i, ((plainStore files).volume plainSb).inode i = plainDinode files i :=
      fun _ => plainStore_inode h
    have halloc : ∀ i, ((plainStore files).volume plainSb).allocated i ↔
        ∃ node, files i = some node := fun _ => plainStore_allocated h
    refine .of_first (fun i => 34 + i) ?_ ?_ ?_ ?_ ?_
    · intro i hi
      obtain ⟨node, hnode⟩ := (halloc i).mp hi
      rw [hinode, plainDinode_addrs hnode]
    · intro i hi
      obtain ⟨node, hnode⟩ := (halloc i).mp hi
      rw [hinode, plainDinode_size hnode]
      exact h.short i node hnode
    · intro i j _ _ heq
      exact Nat.add_left_cancel heq
    · intro i hi
      obtain ⟨node, hnode⟩ := (halloc i).mp hi
      have hrange := h.range i node hnode
      exact ⟨Nat.le_add_right 34 i, show 34 + i < 48 by omega⟩
    · intro b hb hlt
      obtain ⟨i, rfl⟩ := Nat.exists_eq_add_of_le (show 34 ≤ b from hb)
      rw [Store.volume_used hlt, plainStore_used hlt]
      simp [plainUsed, halloc, Option.isSome_iff_exists]
  reserved := by
    intro b hb
    have hlt : b < 34 := hb
    rw [plainStore_used (by omega)]
    simp [plainUsed, hlt]

theorem plainStore_contents (h : PlainFiles files) (hnode : files i = some node) :
    ((plainStore files).volume plainSb).contents i = node.contents := by
  have hshort := h.short i node hnode
  have hsize : (((plainStore files).volume plainSb).inode i).size = node.contents.length := by
    rw [plainStore_inode h, plainDinode_size hnode]
  have hhold : ((plainStore files).volume plainSb).hold (i, blockSlot 0) = some (34 + i) := by
    have haddrs : (((plainStore files).volume plainSb).inode i).addrs =
        fun k => if k = 0 then 34 + i else 0 := by rw [plainStore_inode h, plainDinode_addrs hnode]
    rw [Volume.hold_eq_some_iff, Volume.slot_first haddrs]
    exact ⟨(plainStore_allocated h).mpr ⟨node, hnode⟩, if_pos rfl, by omega⟩
  have hblock : ((plainStore files).volume plainSb).block (34 + i) =
      Block.ofFn fun j => node.contents.getD j 0 := by
    rw [Store.volume_block (show plainSb.dataStart ≤ 34 + i from Nat.le_add_right 34 i)]
    change plainBlock files (34 + i) = _
    unfold plainBlock
    rw [if_neg (by omega), if_neg (by omega), if_neg (by omega), Nat.add_sub_cancel_left, hnode]
  have hbyte : ∀ pos, pos < node.contents.length →
      ((plainStore files).volume plainSb).byteAt i pos = node.contents.getD pos 0 := by
    intro pos hpos
    have hlt : pos < BSIZE := Nat.lt_of_lt_of_le hpos hshort
    unfold Volume.byteAt Volume.fileBlock
    rw [Nat.div_eq_of_lt hlt, Nat.mod_eq_of_lt hlt, hhold, Option.map_some, hblock]
    exact Block.byte_ofFn _ hlt
  unfold Volume.contents
  rw [hsize]
  apply List.ext_getElem
  · rw [ByteField.getBytes_length]
  · intro pos hpos hpos'
    have hget : (ByteField.getBytes (((plainStore files).volume plainSb).byteAt i) 0
        node.contents.length).getD pos 0 =
        ((plainStore files).volume plainSb).byteAt i (0 + pos) := ByteField.getBytes_getD hpos'
    rw [Nat.zero_add, hbyte pos hpos'] at hget
    simpa [List.getD_eq_getElem?_getD, hpos, hpos'] using hget

theorem plainStore_nodes (h : PlainFiles files) :
    ((plainStore files).volume plainSb).nodes = files := by
  funext i
  cases hfile : files i with
  | none =>
    rw [Volume.nodes_eq_none_iff, plainStore_allocated h]
    rintro ⟨node, hnode⟩
    rw [hfile] at hnode
    cases hnode
  | some node =>
    rw [Volume.nodes_of_allocated ((plainStore_allocated h).mpr ⟨node, hfile⟩),
      plainStore_contents h hfile, plainStore_inode h]
    unfold plainDinode Dinode.node
    rw [hfile]

def plainInode (files : Nat → Option Node) (i : Nat) : Inode :=
  { plainDinode files i with dev := ROOTDEV, inum := i, ref := 1, valid := true, locked := false }

def plainFs (files : Nat → Option Node) (held : List Nat) : Fs where
  store := plainStore files
  itable k :=
    match held[k.val]? with
    | none => freeEntry
    | some i => plainInode files i

theorem plainFs_itable {held : List Nat} {k : Fin NINODE}
    (h : 0 < ((plainFs files held).itable k).ref) :
    ∃ i, held[k.val]? = some i ∧ (plainFs files held).itable k = plainInode files i := by
  unfold plainFs at h ⊢
  cases hk : held[k.val]? with
  | none =>
    simp only [hk] at h
    exact absurd h (by decide)
  | some i => exact ⟨i, rfl, by simp only [hk]⟩

theorem plainFs_ready (h : PlainFiles files) {held : List Nat} (hnodup : held.Nodup)
    (halloc : ∀ i ∈ held, files i ≠ none) : InodesReady plainSb (plainFs files held) := by
  have hmem : ∀ {i : Nat} {k : Nat}, held[k]? = some i → ∃ node, files i = some node :=
    fun hk => Option.ne_none_iff_exists'.mp (halloc _ (List.mem_of_getElem? hk))
  refine ⟨plainStore_wellFormed h, ⟨rfl, rfl, List.nodup_nil, ?_, Nat.zero_le _, .inl rfl, rfl⟩,
    ⟨?_, ?_, ?_, ?_, ?_, ?_⟩⟩
  · intro b hb
    cases hb
  · intro k
    unfold plainFs
    dsimp only
    split
    · decide
    · exact ⟨Int.one_nonneg, (by decide : (1 : Int) + 3 < 2 ^ 31)⟩
  · intro k
    unfold plainFs
    dsimp only
    split <;> rfl
  · intro k hk
    obtain ⟨i, -, heq⟩ := plainFs_itable hk
    rw [heq]
    rfl
  · intro k hk
    obtain ⟨i, hi, heq⟩ := plainFs_itable hk
    obtain ⟨node, hnode⟩ := hmem hi
    rw [heq]
    exact (h.range i node hnode).2
  · intro k l hk hl hsame
    obtain ⟨i, hi, heq⟩ := plainFs_itable hk
    obtain ⟨j, hj, heq'⟩ := plainFs_itable hl
    rw [heq, heq'] at hsame
    have hij : i = j := hsame
    subst hij
    obtain ⟨hk', -⟩ := List.getElem?_eq_some_iff.mp hi
    exact Fin.ext ((List.getElem?_inj hk' hnodup).mp (hi.trans hj.symm))
  · intro k hk _
    obtain ⟨i, hi, heq⟩ := plainFs_itable hk
    obtain ⟨node, hnode⟩ := hmem hi
    rw [heq]
    have hlt : i < plainSb.ninodes := (h.range i node hnode).2
    refine ⟨?_, ?_⟩
    · exact (plainStore_inode h).symm.trans (Store.volume_inode hlt)
    · have htype := h.type i node hnode
      change (plainDinode files i).type ≠ 0
      unfold plainDinode
      rw [hnode]
      exact htype

def emptyFile : Node := ⟨T_FILE, 0, 0, 1, []⟩

theorem plainFiles_copies {p : Nat → Prop} [DecidablePred p] (range : ∀ i, p i → 1 ≤ i ∧ i < 8)
    (htype : node.type ≠ 0) (hshort : node.contents.length ≤ BSIZE) :
    PlainFiles fun i => if p i then some node else none := by
  have heq : ∀ i node', (if p i then some node else none) = some node' → p i ∧ node' = node := by
    intro i node' h
    split at h
    · rename_i hi
      exact ⟨hi, (Option.some.inj h).symm⟩
    · cases h
  refine ⟨fun i node' h => range i (heq i node' h).1, ?_, ?_⟩
  · intro i node' h
    rwa [(heq i node' h).2]
  · intro i node' h
    rwa [(heq i node' h).2]

theorem plainFs_open (h : PlainFiles files) (hnode : files 1 = some node) :
    InodesReady plainSb (plainFs files [1]) ∧
      ((0 : Fin NINODE), 1) ∈ (plainFs files [1]).references ∧
      ((plainFs files [1]).store.volume plainSb).nodes 1 = some node := by
  refine ⟨plainFs_ready h (List.nodup_singleton 1) ?_, Fs.mem_references.mpr ⟨Int.one_pos, rfl⟩,
    (congrFun (plainStore_nodes h) 1).trans hnode⟩
  intro i hi
  rw [List.mem_singleton.mp hi, hnode]
  exact Option.some_ne_none _

def lone (node : Node) (i : Nat) : Option Node := if i = 1 then some node else none

theorem lone_ready (node : Node) (htype : node.type ≠ 0) (hshort : node.contents.length ≤ BSIZE) :
    InodesReady plainSb (plainFs (lone node) [1]) ∧
      ((0 : Fin NINODE), 1) ∈ (plainFs (lone node) [1]).references ∧
      ((plainFs (lone node) [1]).store.volume plainSb).nodes 1 = some node := by
  have hrange : ∀ i, i = 1 → 1 ≤ i ∧ i < 8 := by
    rintro i rfl
    decide
  exact plainFs_open (plainFiles_copies hrange htype hshort) rfl

end Xv6
