import Xv6.Fs.DirSpec
import Xv6.Mkfs.Append

/-! What `mkfs` has built after each argument. -/
namespace Xv6.Mkfs

open Lib Lib.Exec Volume

variable {ninodes : Nat} {hn : ninodes < 208} {s s' : Image} {i : Nat} {E : Exit → Prop}

/-- Between calls: blocks in use belong to files, which have the blocks for their size and
zeros behind their end. -/
structure Built (hn : ninodes < 208) (s : Image) : Prop where
  laid : Laid s
  owned : (s.volume hn).Owned (layout ninodes hn)
  extent : ∀ i, (s.volume hn).allocated i →
    Extent (s.volume hn) i ((s.volume hn).inode i).size
  tail : ∀ i, (s.volume hn).allocated i → ∀ pos, ((s.volume hn).inode i).size ≤ pos →
    (s.volume hn).byteAt i pos = 0

theorem Extent.le_max {v : Volume} {len : Nat} (h : Extent v i len) : len ≤ MAXFILE * BSIZE := by
  rw [← h.block MAXFILE]
  cases hhold : v.hold (i, blockSlot MAXFILE) with
  | none => rfl
  | some b =>
    obtain ⟨-, hslot, hne⟩ := hold_eq_some_iff.mp hhold
    rw [slot_eq_zero_of_ge (by decide)] at hslot
    exact absurd hslot.symm hne

theorem Extent.congr {v v' : Volume} {len : Nat} (h : Extent v i len)
    (hhold : ∀ bn, v'.hold (i, blockSlot bn) = none ↔ v.hold (i, blockSlot bn) = none)
    (hinode : (v'.inode i).addr NDIRECT = (v.inode i).addr NDIRECT) : Extent v' i len where
  block bn := (hhold bn).trans (h.block bn)
  indirect := by
    rw [hinode]
    exact h.indirect

theorem Built.mapped (h : Built hn s) : (s.volume hn).Mapped := by
  intro i halloc bn hbn
  rw [ne_eq, (h.extent i halloc).block]
  omega

theorem allocated_of_node {v : Volume} {node : Node} (h : v.nodes i = some node) :
    v.allocated i := by
  by_contra hfree
  rw [nodes_eq_none_iff.mpr hfree] at h
  cases h

theorem Built.wp_iappend {Q : Unit → Image → Prop} {node : Node} {base : Nat} {p : List UInt8}
    (h : Built hn s) (hi : i < ninodes) (hnode : (s.volume hn).nodes i = some node)
    (hnext : s.freeblock = base + blocksFor node.contents.length)
    (post : ∀ s', Built hn s' → (s'.volume hn).nodes = Function.update (s.volume hn).nodes i
        (some { node with contents := node.contents ++ p }) →
      s'.freeblock = base + blocksFor (node.contents.length + p.length) →
      s'.freeinode = s.freeinode → Q () s')
    (stop : ∀ e, FSSIZE < base + blocksFor (node.contents.length + p.length) ∨
      MAXFILE * BSIZE < node.contents.length + p.length → E e) : wp (iappend i p) Q E s := by
  have halloc := allocated_of_node hnode
  have hnode' : node = ((s.volume hn).inode i).node ((s.volume hn).contents i) := by
    rw [nodes_of_allocated halloc] at hnode
    exact (Option.some.inj hnode).symm
  have hcontents : node.contents = (s.volume hn).contents i := by rw [hnode']; rfl
  have hlength : node.contents.length = ((s.volume hn).inode i).size := by
    rw [hcontents, contents_length]
  have hseen : s.seen hn i ((s.volume hn).inode i) = s.volume hn := setInode_self ..
  have hlimit : MAXFILE * BSIZE < 2 ^ 32 := by decide
  rw [hlength] at hnext post stop
  unfold iappend
  rw [wp_bind]
  refine wp_rinode hn h.laid hi ?_
  rw [wp_bind]
  have hstart : (s.volume hn).Written (layout ninodes hn) i ((s.volume hn).inode i).size 0
      (kernelBytes p) (s.seen hn i ((s.volume hn).inode i)) := by
    rw [hseen]
    exact Volume.Written.start h.owned i _ _
  have hextent : Extent (s.seen hn i ((s.volume hn).inode i)) i
      (((s.volume hn).inode i).size + 0) := by
    rw [hseen]
    exact h.extent i halloc
  have hloop : wp (iappendLoop p.length ((s.volume hn).inode i)
      (((s.volume hn).inode i).size + 0) p)
      (fun r s₁ => wp (winode i { r.1 with size := r.2 }) Q E s₁) E s := by
    refine wp_iappendLoop h.laid halloc hstart hextent (Nat.le_refl _) ?_ hnext ?_ ?_
    · intro k _
      rw [Nat.zero_add]
      rfl
    · rintro din s₁ hlaid ⟨addrs, hdin⟩ hwritten hextent₁ hnext₁ hinode₁
      rw [Nat.zero_add] at hwritten hextent₁ hnext₁ ⊢
      generalize hlen : ((s.volume hn).inode i).size = len at *
      have hstored := hwritten.stored h.mapped (Nat.le_refl _) (by rw [hlen])
      have hmax : max ((s.volume hn).inode i).size (len + p.length) = len + p.length := by omega
      rw [hmax, Image.seen_inode] at hstored
      have hfits : { din with size := len + p.length }.Fits := by
        have hle := hextent₁.le_max
        have halloc₁ : ((s₁.seen hn i din).setInode i
            { din with size := len + p.length }).allocated i := by
          unfold Volume.allocated
          rw [inode_setInode_self, hdin]
          exact halloc
        have hfits := hstored.owned.fits halloc₁ (by rw [inode_setInode_self]; dsimp only; omega)
        rwa [inode_setInode_self] at hfits
      refine wp_winode hn hlaid hi hfits ?_
      intro s₂ hlaid₂ hvolume hfree₂ hinode₂
      have hvolume' : s₂.volume hn = (s₁.seen hn i din).setInode i
          { din with size := len + p.length } := by
        rw [hvolume]
        exact (setInode_setInode ..).symm
      have hhold : (s₂.volume hn).hold = (s₁.seen hn i din).hold := by
        rw [hvolume']
        exact hold_setInode_same (by rw [Image.seen_inode]) (by rw [Image.seen_inode])
      have hself : ((s₂.volume hn).inode i) = { din with size := len + p.length } := by
        rw [hvolume', inode_setInode_self]
      have hother : ∀ j, j ≠ i → (s₂.volume hn).inode j = (s.volume hn).inode j := by
        intro j hj
        rw [hvolume', inode_setInode_ne hj, hwritten.inode_ne j hj]
      have hother' : ∀ j, j ≠ i → (s₂.volume hn).allocated j → (s.volume hn).allocated j := by
        intro j hj
        unfold Volume.allocated
        rw [hother j hj]
        exact id
      refine post s₂ ⟨hlaid₂, ?_, ?_, ?_⟩ ?_ (hfree₂.trans hnext₁) (hinode₂.trans hinode₁)
      · rw [hvolume']
        exact hstored.owned
      · intro j hj
        obtain rfl | hji := eq_or_ne j i
        · rw [hself]
          refine hextent₁.congr (fun bn => by rw [hhold]) ?_
          rw [hself, Image.seen_inode]
          rfl
        · rw [hother j hji]
          refine (h.extent j (hother' j hji hj)).congr (fun bn => ?_) (by rw [hother j hji])
          have hfile := hwritten.file_ne j hji bn
          unfold Volume.fileBlock at hfile
          rw [hhold, ← Option.map_eq_none_iff (f := (s₁.seen hn i din).block), hfile,
            Option.map_eq_none_iff]
      · intro j hj pos hpos
        obtain rfl | hji := eq_or_ne j i
        · rw [hself] at hpos
          dsimp only at hpos
          rw [hvolume', hstored.byte, if_neg (by omega)]
          exact h.tail j halloc pos (by omega)
        · rw [hother j hji] at hpos
          rw [hvolume', hstored.byte_ne j hji]
          exact h.tail j (hother' j hji hj) pos hpos
      · have hnodes := hstored.nodes halloc (Nat.le_refl _) (by rw [hlen])
        have hbytes : (kernelBytes p).bytes p.length = p := kernelBytes_bytes rfl
        have hsize : len = ((s.volume hn).contents i).length := by rw [contents_length, hlen]
        rw [← hvolume', hbytes, hlen] at hnodes
        rw [hnodes, hnode', hsize, splice_at_end]
        rfl
    · intro e hfull
      rw [Nat.zero_add] at hfull
      exact stop e hfull
  exact hloop

theorem Built.wp_ialloc {Q : Nat → Image → Prop} {type : BitVec 16} (h : Built hn s)
    (hi : s.freeinode < ninodes) (hnone : (s.volume hn).nodes s.freeinode = none) (htype : type ≠ 0)
    (post : ∀ s', Built hn s' → (s'.volume hn).nodes = Function.update (s.volume hn).nodes
        s.freeinode (some ⟨type, 0, 0, 1, []⟩) →
      s'.freeblock = s.freeblock → s'.freeinode = s.freeinode + 1 → Q s.freeinode s') :
    wp (ialloc type) Q E s := by
  set d : Dinode := { Dinode.zero with type := type, nlink := 1 }
  have haddrs : ∀ k, d.addr k = 0 := fun _ => rfl
  have hempty : ∀ p, (s.volume hn).hold (s.freeinode, p) = none :=
    fun p => hold_of_not_allocated (nodes_eq_none_iff.mp hnone)
  have hfits : d.Fits := ⟨Nat.two_pow_pos 32, fun _ => Nat.two_pow_pos 32⟩
  have hlaid : Laid { s with freeinode := s.freeinode + 1 } :=
    ⟨h.laid.length_eq, h.laid.start_le, h.laid.zero⟩
  unfold ialloc
  simp only [wp_bind, wp_get, wp_modify, wp_pure]
  refine wp_winode hn hlaid hi hfits ?_
  intro s' hlaid' hvolume hfree hinode
  have hvolume' : s'.volume hn = (s.volume hn).setInode s.freeinode d := hvolume
  have hhold : (s'.volume hn).hold = (s.volume hn).hold := by
    rw [hvolume']
    exact hold_setInode_empty hempty haddrs
  have hfile : ∀ j bn, (s'.volume hn).fileBlock j bn = (s.volume hn).fileBlock j bn := by
    intro j bn
    unfold Volume.fileBlock
    rw [hhold, hvolume']
    rfl
  have hself : (s'.volume hn).inode s.freeinode = d := by rw [hvolume', inode_setInode_self]
  have hother : ∀ j, j ≠ s.freeinode → (s'.volume hn).inode j = (s.volume hn).inode j := by
    intro j hj
    rw [hvolume', inode_setInode_ne hj]
  have hother' : ∀ j, j ≠ s.freeinode → (s'.volume hn).allocated j → (s.volume hn).allocated j := by
    intro j hj
    unfold Volume.allocated
    rw [hother j hj]
    exact id
  refine post s' ⟨hlaid', ?_, ?_, ?_⟩ ?_ hfree hinode
  · rw [hvolume']
    exact h.owned.setInode_empty hempty haddrs
  · intro j hj
    obtain rfl | hji := eq_or_ne j s.freeinode
    · rw [hself]
      refine ⟨fun bn => ?_, ?_⟩
      · rw [hhold]
        exact iff_of_true (hempty _) (Nat.zero_le _)
      · rw [hself]
        exact iff_of_true rfl (Nat.zero_le _)
    · rw [hother j hji]
      exact (h.extent j (hother' j hji hj)).congr (fun bn => by rw [hhold]) (by rw [hother j hji])
  · intro j hj pos hpos
    rw [byteAt_congr (hfile j _)]
    obtain rfl | hji := eq_or_ne j s.freeinode
    · unfold Volume.byteAt Volume.fileBlock
      rw [hempty]
      rfl
    · rw [hother j hji] at hpos
      exact h.tail j (hother' j hji hj) pos hpos
  · rw [hvolume', nodes_setInode_empty hempty haddrs rfl, if_neg htype]
    rfl

end Xv6.Mkfs
