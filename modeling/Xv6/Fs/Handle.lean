import Xv6.Fs.DirSpec

/-! The view of a caller that need not know all that the inode table has cached. -/
namespace Xv6

open Lib Lib.Exec

/-- `f` looks like `a`, perhaps with more inodes read. -/
def Fs.Sees (sb : Superblock) (f : Fs) (a : FsView) : Prop :=
  ∃ valid, a.valid ⊆ valid ∧ f.Rep sb { a with valid := valid }

namespace Fs

variable {sb : Superblock} {a : FsView} {k : Fin NINODE} {i : Nat} {f : Fs} {node : Node}
variable {E : Panic → Prop} {rest : Multiset (Fin NINODE × Nat)}

theorem Rep.sees (rep : f.Rep sb a) : f.Sees sb a := ⟨a.valid, subset_rfl, rep⟩

namespace Sees

section

variable (h : f.Sees sb a)

include h

theorem lt_of_node (hnode : a.nodes i = some node) : i < sb.ninodes := by
  obtain ⟨valid, hle, rep⟩ := h
  by_contra hge
  have halloc : ¬ (f.store.volume sb).allocated i := by
    unfold Volume.allocated Store.volume
    simp only [if_neg hge]
    exact fun h => h rfl
  rw [← Volume.nodes_eq_none_iff, rep.nodes_eq] at halloc
  rw [hnode] at halloc
  cases halloc

theorem referenced (hi : i ∈ a.valid) : i ∈ FsView.referenced a.own := by
  obtain ⟨valid, hle, rep⟩ := h
  exact rep.table.valid_sub (hle hi)

theorem inode (hk : (k, i) ∈ a.own) (hi : i ∈ a.valid) (hnode : a.nodes i = some node) :
    (f.itable k).type = node.type ∧ (f.itable k).major = node.major ∧
      (f.itable k).minor = node.minor ∧ (f.itable k).nlink = node.nlink ∧
      (f.itable k).size = node.contents.length := by
  obtain ⟨valid, hle, rep⟩ := h
  have hsize := rep.size_eq hk (hle hi) hnode
  rw [rep.node_eq hk (hle hi) hnode] at hsize ⊢
  exact ⟨rfl, rfl, rfl, rfl, hsize⟩

theorem inum (hk : (k, i) ∈ a.own) : (f.itable k).inum = i ∧ (f.itable k).dev = ROOTDEV := by
  obtain ⟨valid, -, rep⟩ := h
  exact ⟨(rep.entry hk).inum, (rep.entry hk).dev⟩

theorem valid_mono {valid : Set Nat} (hle : valid ⊆ a.valid) :
    f.Sees sb { a with valid := valid } := by
  obtain ⟨V, hV, rep⟩ := h
  exact ⟨V, hle.trans hV, rep⟩

variable {Q : Unit → Fs → Prop}

theorem wp_beginOp (post : ∀ f', f'.Sees sb { a with ops := a.ops + 1 } → Q () f')
    (stop : ∀ e : Panic, e.Limit → E e) : wp beginOp Q E f := by
  obtain ⟨V, hV, rep⟩ := h
  exact Fs.wp_beginOp rep (fun f' rep' _ => post f' ⟨V, hV, rep'⟩) fun _ => stop _ Panic.limit_sleep

theorem wp_endOp {ops : Int} (ops_eq : a.ops = ops + 1)
    (post : ∀ f', f'.Sees sb { a with ops := ops } → Q () f') : wp endOp Q E f := by
  obtain ⟨V, hV, rep⟩ := h
  exact Fs.wp_endOp rep ops_eq fun f' rep' _ _ => post f' ⟨V, hV, rep'⟩

theorem wp_iget {Q : Fin NINODE → Fs → Prop}
    (post : ∀ k f', f'.Sees sb { a with own := (k, i) ::ₘ a.own } → Q k f')
    (full : TableFull a.own → E .igetNoInodes) : wp (iget ROOTDEV i) Q E f := by
  obtain ⟨V, hV, rep⟩ := h
  exact Fs.wp_iget rep (fun k f' rep' _ => post k f' ⟨V, hV, rep'⟩) full

theorem wp_idup {Q : Fin NINODE → Fs → Prop} (hk : (k, i) ∈ a.own)
    (post : ∀ f', f'.Sees sb { a with own := (k, i) ::ₘ a.own } → Q k f') : wp (idup k) Q E f := by
  obtain ⟨V, hV, rep⟩ := h
  exact Fs.wp_idup rep hk fun f' rep' => post f' ⟨V, hV, rep'⟩

theorem wp_ilock (hk : (k, i) ∈ a.own) (hi : i < sb.ninodes) (hlock : i ∉ a.locks)
    (post : ∀ f' node, a.nodes i = some node →
      f'.Sees sb { a with locks := insert i a.locks, valid := insert i a.valid } → Q () f')
    (free : a.nodes i = none → E .ilockNoType) : wp (ilock sb k) Q E f := by
  obtain ⟨V, hV, rep⟩ := h
  exact Fs.wp_ilock rep hk hi hlock
    (fun f' node hnode rep' _ => post f' node hnode ⟨_, Set.insert_subset_insert hV, rep'⟩) free

theorem wp_iunlock (hk : (k, i) ∈ a.own) (hlock : i ∈ a.locks)
    (post : ∀ f', f'.Sees sb { a with locks := a.locks \ {i} } → Q () f') :
    wp (iunlock k) Q E f := by
  obtain ⟨V, hV, rep⟩ := h
  exact Fs.wp_iunlock rep hk hlock fun f' rep' _ => post f' ⟨V, hV, rep'⟩

/-- `iput` of an inode that stays. -/
theorem wp_iput_keep (own : a.own = (k, i) ::ₘ rest)
    (hlock : i ∈ a.locks → i ∈ FsView.referenced rest)
    (hkeep : ∀ node, a.nodes i = some node → node.nlink = 0 → i ∈ FsView.referenced rest)
    (post : ∀ f', f'.Sees sb (a.keep rest) → Q () f') : wp (iput sb k) Q E f := by
  obtain ⟨V, hV, rep⟩ := h
  have hk : (k, i) ∈ a.own := own ▸ Multiset.mem_cons_self _ _
  refine Fs.wp_iput_keep rep own hlock ?_ fun f' rep' _ =>
    post f' ⟨_, Set.inter_subset_inter_left _ hV, rep'⟩
  by_cases hi : i ∈ V
  · have hnode := rep.node hk hi
    by_cases hlinks : ((f.itable k).node ((f.store.volume sb).contents i)).nlink = 0
    · exact .inr (.inl (hkeep _ hnode hlinks))
    · exact .inr (.inr ⟨_, hnode, hlinks⟩)
  · exact .inl hi

theorem wp_iunlockput_keep {locks : Set Nat} (own : a.own = (k, i) ::ₘ rest)
    (hlocks : a.locks = insert i locks) (hnew : i ∉ locks)
    (hkeep : ∀ node, a.nodes i = some node → node.nlink = 0 → i ∈ FsView.referenced rest)
    (post : ∀ f', f'.Sees sb { a.keep rest with locks := locks } → Q () f') :
    wp (iunlockput sb k) Q E f := by
  have hk : (k, i) ∈ a.own := own ▸ Multiset.mem_cons_self _ _
  unfold iunlockput
  rw [wp_bind]
  refine h.wp_iunlock hk (hlocks ▸ Set.mem_insert i _) ?_
  rw [hlocks, Set.insert_sdiff_self_of_notMem hnew]
  intro f' h'
  exact h'.wp_iput_keep own (fun hi => absurd hi hnew) hkeep post

theorem wp_iput_free (own : a.own = (k, i) ::ₘ rest) (hlock : i ∉ a.locks) (hi : i ∈ a.valid)
    (hlast : i ∉ FsView.referenced rest) (hnode : a.nodes i = some node) (hlinks : node.nlink = 0)
    (post : ∀ f', f'.Sees sb ((a.keep rest).setNode i none) → Q () f')
    (stop : ∀ e : Panic, e.Limit → E e) : wp (iput sb k) Q E f := by
  obtain ⟨V, hV, rep⟩ := h
  exact Fs.wp_iput_free rep own hlock (hV hi) hlast hnode hlinks
    (fun f' rep' => post f' ⟨_, Set.inter_subset_inter_left _ hV, rep'⟩) stop

theorem wp_ialloc {Q : Fin NINODE → Fs → Prop} {type : BitVec 16} (htype : type ≠ 0)
    (post : ∀ k i f', 1 ≤ i → i < sb.ninodes → a.nodes i = none →
      f'.Sees sb { (a.setNode i (some
        { type := type, major := 0, minor := 0, nlink := 0, contents := [] })) with
          own := (k, i) ::ₘ a.own } → Q k f') (stop : ∀ e : Panic, e.Limit → E e) :
    wp (ialloc sb ROOTDEV type) Q E f := by
  obtain ⟨V, hV, rep⟩ := h
  refine Fs.wp_ialloc rep (fun k i f' hpos hlt hfree rep' => ?_) stop
  rw [if_neg htype] at rep'
  exact post k i f' hpos hlt hfree ⟨V, hV, rep'⟩

end

section Locked

variable (h : f.Sees sb a) (hk : (k, i) ∈ a.own) (hi : i ∈ a.valid) (hnode : a.nodes i = some node)

include h hk hi hnode

theorem wp_update {g : Inode → Inode} (hg : g (f.itable k) = { f.itable k with
      major := (g (f.itable k)).major, minor := (g (f.itable k)).minor,
      nlink := (g (f.itable k)).nlink }) (post : ∀ f', f'.Sees sb (a.setNode i (some { node with
      major := (g (f.itable k)).major, minor := (g (f.itable k)).minor,
      nlink := (g (f.itable k)).nlink })) → Q () f') (stop : ∀ e : Panic, e.Limit → E e) :
    wp (update sb k g) Q E f := by
  obtain ⟨V, hV, rep⟩ := h
  refine Fs.wp_update rep hk (hV hi) hnode hg (fun f' rep' => post f' ⟨V, hV, ?_⟩) stop
  have hself : (g (f.itable k)).node node.contents = { node with
      major := (g (f.itable k)).major, minor := (g (f.itable k)).minor,
      nlink := (g (f.itable k)).nlink } := by
    rw [hg, rep.node_eq hk (hV hi) hnode]
    rfl
  rw [← hself]
  exact rep'

theorem wp_itrunc
    (post : ∀ f', f'.Sees sb (a.setNode i (some { node with contents := [] })) → Q () f')
    (stop : ∀ e : Panic, e.Limit → E e) : wp (itrunc sb k) Q E f := by
  obtain ⟨V, hV, rep⟩ := h
  exact Fs.wp_itrunc rep hk (hV hi) hnode (fun f' rep' => post f' ⟨V, hV, rep'⟩) stop

theorem wp_dirlookup {name : Nat → UInt8} {Q : Option (Fin NINODE × Nat) → Fs → Prop}
    (hdir : node.type = T_DIR)
    (found : ∀ m, Dir.Finds node.contents (CString.text name DIRSIZ 0) m → ∀ l f',
      f'.Sees sb { a with own := (l, (Dir.entry node.contents m).1) ::ₘ a.own } →
      Q (some (l, direntSize * m)) f')
    (missing : Dir.Misses node.contents (CString.text name DIRSIZ 0) → Q none f)
    (hdvd : direntSize ∣ node.contents.length)
    (full : TableFull a.own → E .igetNoInodes) : wp (dirlookup sb k name) Q E f := by
  obtain ⟨V, hV, rep⟩ := h
  exact Fs.wp_dirlookup rep hk (hV hi) hnode hdir
    (fun m hm l f' rep' _ => found m hm l f' ⟨V, hV, rep'⟩) (fun hm _ => missing hm)
    (fun hbad => absurd hdvd hbad) full

theorem wp_dirlink {name : Nat → UInt8} {inum : Nat} {Q : Int → Fs → Prop}
    (hdir : node.type = T_DIR)
    (present : ∀ m, Dir.Finds node.contents (CString.text name DIRSIZ 0) m → ∀ f',
      f'.Sees sb a → Q (-1) f')
    (added : Dir.Misses node.contents (CString.text name DIRSIZ 0) →
      ∀ s, Dir.FreeSlot node.contents s → ∀ f', f'.Sees sb (a.setNode i (some { node with
        contents := Dir.setEntry node.contents s inum (CString.strncpy name DIRSIZ 0) })) → Q 0 f')
    (full : ∀ s, Dir.FreeSlot node.contents s → MAXFILE * BSIZE < direntSize * (s + 1) →
      E .dirlink)
    (hdvd : direntSize ∣ node.contents.length)
    (stop : ∀ e : Panic, e.Limit → E e) : wp (dirlink sb k name inum) Q E f := by
  obtain ⟨V, hV, rep⟩ := h
  exact Fs.wp_dirlink rep hk (hV hi) hnode hdir
    (fun m hm f' rep' _ => present m hm f' ⟨V, hV, rep'⟩)
    (fun hm _ s hs f' rep' _ => added hm s hs f' ⟨V, hV, rep'⟩) full (fun hbad => absurd hdvd hbad)
    (fun _ => stop _ Panic.limit_iget) fun e he => stop e he.limit

theorem wp_isdirempty {Q : Bool → Fs → Prop}
    (empty : (∀ m, 2 ≤ m → m < Dir.slots node.contents → (Dir.entry node.contents m).1 = 0) →
      Q true f)
    (used : ∀ m, 2 ≤ m → m < Dir.slots node.contents → (Dir.entry node.contents m).1 ≠ 0 →
      Q false f)
    (hdvd : direntSize ∣ node.contents.length) : wp (isdirempty sb k) Q E f := by
  obtain ⟨V, hV, rep⟩ := h
  exact Fs.wp_isdirempty rep hk (hV hi) hnode empty used fun hbad => absurd hdvd hbad

theorem wp_writeEntry {s inum : Nat} {name : List UInt8} {Q : Int → Fs → Prop}
    (hs : s < Dir.slots node.contents) (hname : name.length = DIRSIZ)
    (post : ∀ f', f'.Sees sb (a.setNode i (some { node with
      contents := Dir.setEntry node.contents s inum name })) → Q direntSize f')
    (stop : ∀ e : Panic, e.Limit → E e) :
    wp (writei sb k (kernelBytes (Dirent.bytes inum name)) (UInt32.ofNat (direntSize * s)) 16)
      Q E f := by
  obtain ⟨V, hV, rep⟩ := h
  have hlength := rep.length_le hk (hV hi) hnode
  unfold Dir.slots at hs
  simp only [direntSize] at hs
  refine Fs.wp_writeEntry rep hk (hV hi) hnode (by simp only [direntSize]; omega) hname
    (fun f' rep' _ => post f' ⟨V, hV, rep'⟩) (fun hfull => ?_) fun e he => stop e he.limit
  simp only [direntSize] at hfull
  omega

end Locked

end Sees

end Fs

end Xv6
