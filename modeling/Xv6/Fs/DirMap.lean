import Mathlib.Data.Finmap
import Xv6.Fs.SmallDisk

/-! A directory as a finite map from names to inode numbers, wherever the entries lie. -/
namespace Xv6

open Lib Lib.Exec

theorem Dir.erase_of_notMem {names : Finmap fun _ : List UInt8 => Nat} {name : List UInt8}
    (h : name ∉ names) : names.erase name = names := by
  apply Finmap.ext_lookup
  intro other
  by_cases hname : other = name
  · rw [hname, Finmap.lookup_erase, Finmap.lookup_eq_none.mpr h]
  · rw [Finmap.lookup_erase_ne hname]

namespace Dir

variable {c c' : List UInt8} {m s inum : Nat} {name : List UInt8} {e : Nat × List UInt8}

def InUse (c : List UInt8) (m : Nat) : Prop := m < slots c ∧ (entry c m).1 ≠ 0

def Distinct (c : List UInt8) : Prop :=
  ∀ m m', InUse c m → InUse c m' → (entry c m).2 = (entry c m').2 → m = m'

def bindings (c : List UInt8) : Finmap fun _ : List UInt8 => Nat :=
  (((List.range (slots c)).map (entry c)).filter (·.1 ≠ 0)).map (fun e => ⟨e.2, e.1⟩) |>.toFinmap

theorem Distinct.lookup_eq_some_iff (h : Distinct c) :
    (bindings c).lookup name = some inum ↔ ∃ m, InUse c m ∧ entry c m = (inum, name) := by
  have hmem : ∀ {x : Nat}, (⟨name, x⟩ : Sigma fun _ : List UInt8 => Nat) ∈
      (((List.range (slots c)).map (entry c)).filter (·.1 ≠ 0)).map
        (fun e => (⟨e.2, e.1⟩ : Sigma fun _ : List UInt8 => Nat)) ↔
      ∃ m, InUse c m ∧ entry c m = (x, name) := by
    intro x
    simp only [List.mem_map, List.mem_filter, List.mem_range, decide_eq_true_eq, Sigma.mk.injEq,
      heq_eq_eq]
    constructor
    · rintro ⟨e, ⟨⟨m, hm, rfl⟩, hused⟩, hname, hinum⟩
      exact ⟨m, ⟨hm, hused⟩, Prod.ext hinum hname⟩
    · rintro ⟨m, ⟨hm, hused⟩, heq⟩
      exact ⟨entry c m, ⟨⟨m, hm, rfl⟩, hused⟩, congrArg Prod.snd heq, congrArg Prod.fst heq⟩
  unfold bindings
  rw [Finmap.dlookup_list_toFinmap]
  constructor
  · exact fun hlookup => hmem.mp (List.of_mem_dlookup hlookup)
  · intro hentry
    obtain ⟨x, hx⟩ := Option.isSome_iff_exists.mp
      (List.dlookup_isSome.mpr (List.mem_keys_of_mem (hmem.mpr hentry)))
    obtain ⟨m, hm, heq⟩ := hentry
    obtain ⟨m', hm', heq'⟩ := hmem.mp (List.of_mem_dlookup hx)
    -- both bindings are in one slot
    have hsame : m = m' := h m m' hm hm' (by rw [heq, heq'])
    subst hsame
    rw [heq] at heq'
    cases heq'
    exact hx

theorem Distinct.mem_iff (h : Distinct c) :
    name ∈ bindings c ↔ ∃ m, InUse c m ∧ (entry c m).2 = name := by
  rw [Finmap.mem_iff]
  constructor
  · rintro ⟨inum, hlookup⟩
    obtain ⟨m, hm, heq⟩ := h.lookup_eq_some_iff.mp hlookup
    exact ⟨m, hm, congrArg Prod.snd heq⟩
  · rintro ⟨m, hm, rfl⟩
    exact ⟨(entry c m).1, h.lookup_eq_some_iff.mpr ⟨m, hm, rfl⟩⟩

theorem Finds.inUse (h : Finds c name m) : InUse c m ∧ (entry c m).2 = name :=
  ⟨⟨h.2.1, h.2.2.1.1⟩, h.2.2.1.2⟩

theorem Finds.lookup (h : Finds c name m) (hdistinct : Distinct c) :
    (bindings c).lookup name = some (entry c m).1 :=
  hdistinct.lookup_eq_some_iff.mpr ⟨m, h.inUse.1, Prod.ext rfl h.inUse.2⟩

theorem Finds.mem (h : Finds c name m) (hdistinct : Distinct c) : name ∈ bindings c :=
  hdistinct.mem_iff.mpr ⟨m, h.inUse⟩

theorem Misses.notMem (h : Misses c name) (hdistinct : Distinct c) : name ∉ bindings c := by
  rw [hdistinct.mem_iff]
  rintro ⟨m, ⟨hm, hused⟩, hname⟩
  exact h m hm ⟨hused, hname⟩

structure Sets (c : List UInt8) (s : Nat) (e : Nat × List UInt8) (c' : List UInt8) : Prop where
  self : entry c' s = e
  others : ∀ m, m ≠ s → entry c' m = entry c m
  slots_eq : slots c' = max (slots c) (s + 1)

theorem sets_setEntry {buf : List UInt8} (hs : s ≤ slots c) (hbuf : buf.length = DIRSIZ) :
    Sets c s (inum % 2 ^ 16, CString.text (CString.ofList buf) DIRSIZ 0) (setEntry c s inum buf) := by
  have hfit : direntSize * s ≤ c.length := by
    unfold slots at hs
    simp only [direntSize] at hs ⊢
    omega
  exact ⟨entry_setEntry_self hfit hbuf, fun m hm => entry_setEntry_ne hfit hbuf hm,
    slots_setEntry hfit hbuf⟩

namespace Sets

variable (h : Sets c s e c')

include h

theorem inUse_iff (hs : s ≤ slots c) (hm : m ≠ s) : InUse c' m ↔ InUse c m := by
  unfold InUse
  rw [h.others m hm, h.slots_eq]
  constructor
  · rintro ⟨hlt, hused⟩
    exact ⟨by omega, hused⟩
  · rintro ⟨hlt, hused⟩
    exact ⟨by omega, hused⟩

theorem distinct (hs : s ≤ slots c) (hdistinct : Distinct c)
    (hnew : e.1 ≠ 0 → ∀ m, m ≠ s → InUse c m → (entry c m).2 ≠ e.2) : Distinct c' := by
  intro m m' hm hm' hname
  by_cases hms : m = s
  · by_cases hms' : m' = s
    · rw [hms, hms']
    · subst hms
      rw [h.self, h.others m' hms'] at hname
      exact absurd hname.symm (hnew (h.self ▸ hm.2) m' hms' ((h.inUse_iff hs hms').mp hm'))
  · obtain rfl | hms' := eq_or_ne m' s
    · rw [h.self, h.others m hms] at hname
      exact absurd hname (hnew (h.self ▸ hm'.2) m hms ((h.inUse_iff hs hms).mp hm))
    · rw [h.others m hms, h.others m' hms'] at hname
      exact hdistinct m m' ((h.inUse_iff hs hms).mp hm) ((h.inUse_iff hs hms').mp hm') hname

theorem bindings_insert (hs : s ≤ slots c) (hdistinct : Distinct c) (hdistinct' : Distinct c')
    (hfree : ¬ InUse c s) (hinum : e.1 ≠ 0) : bindings c' = (bindings c).insert e.2 e.1 := by
  have hused : InUse c' s := by
    refine ⟨?_, by rwa [h.self]⟩
    rw [h.slots_eq]
    omega
  apply Finmap.ext_lookup
  intro name
  obtain rfl | hname := eq_or_ne name e.2
  · rw [Finmap.lookup_insert]
    exact hdistinct'.lookup_eq_some_iff.mpr ⟨s, hused, h.self⟩
  · rw [Finmap.lookup_insert_of_ne _ hname]
    refine Option.ext fun inum => ?_
    rw [hdistinct'.lookup_eq_some_iff, hdistinct.lookup_eq_some_iff]
    constructor
    · rintro ⟨m, hm, heq⟩
      obtain rfl | hms := eq_or_ne m s
      · rw [h.self] at heq
        exact absurd (congrArg Prod.snd heq).symm hname
      · exact ⟨m, (h.inUse_iff hs hms).mp hm, (h.others m hms).symm.trans heq⟩
    · rintro ⟨m, hm, heq⟩
      have hms : m ≠ s := by
        rintro rfl
        exact hfree hm
      exact ⟨m, (h.inUse_iff hs hms).mpr hm, (h.others m hms).trans heq⟩

theorem bindings_erase (hdistinct : Distinct c) (hdistinct' : Distinct c') (hused : InUse c s)
    (hinum : e.1 = 0) : bindings c' = (bindings c).erase (entry c s).2 := by
  have hs : s ≤ slots c := Nat.le_of_lt hused.1
  have hgone : ∀ m, InUse c' m → m ≠ s := by
    rintro m hm rfl
    exact hm.2 (by rw [h.self, hinum])
  apply Finmap.ext_lookup
  intro name
  by_cases hname : name = (entry c s).2
  · rw [hname, Finmap.lookup_erase, Option.eq_none_iff_forall_ne_some]
    intro inum hlookup
    obtain ⟨m, hm, heq⟩ := hdistinct'.lookup_eq_some_iff.mp hlookup
    have hms := hgone m hm
    rw [h.others m hms] at heq
    exact hms (hdistinct m s ((h.inUse_iff hs hms).mp hm) hused (by rw [heq]))
  · rw [Finmap.lookup_erase_ne hname]
    refine Option.ext fun inum => ?_
    rw [hdistinct'.lookup_eq_some_iff, hdistinct.lookup_eq_some_iff]
    constructor
    · rintro ⟨m, hm, heq⟩
      have hms := hgone m hm
      exact ⟨m, (h.inUse_iff hs hms).mp hm, (h.others m hms).symm.trans heq⟩
    · rintro ⟨m, hm, heq⟩
      have hms : m ≠ s := by
        rintro rfl
        exact hname (congrArg Prod.snd heq).symm
      exact ⟨m, (h.inUse_iff hs hms).mpr hm, (h.others m hms).trans heq⟩

end Sets

theorem FreeSlot.le (h : FreeSlot c s) : s ≤ slots c := by
  rcases h.1 with hlt | heq
  · exact Nat.le_of_lt hlt.1
  · exact Nat.le_of_eq heq

theorem FreeSlot.not_inUse (h : FreeSlot c s) : ¬ InUse c s := by
  rintro ⟨hlt, hused⟩
  rcases h.1 with hfree | heq
  · exact hused hfree.2
  · omega

theorem sets_link {buf : Nat → UInt8} (hs : FreeSlot c s) (hinum : inum < 65536) :
    Sets c s (inum, CString.text buf DIRSIZ 0)
      (setEntry c s inum (CString.strncpy buf DIRSIZ 0)) := by
  have hsets : Sets c s (inum % 2 ^ 16, _) (setEntry c s inum (CString.strncpy buf DIRSIZ 0)) :=
    sets_setEntry hs.le CString.strncpy_length
  have hmod : inum % 2 ^ 16 = inum := Nat.mod_eq_of_lt hinum
  rwa [CString.text_strncpy, hmod] at hsets

theorem sets_clear (hs : s < slots c) :
    Sets c s (0, []) (setEntry c s 0 (List.replicate DIRSIZ 0)) := by
  have hsets : Sets c s (0 % 2 ^ 16, _) (setEntry c s 0 (List.replicate DIRSIZ 0)) :=
    sets_setEntry (Nat.le_of_lt hs) List.length_replicate
  have htext : CString.text (CString.ofList (List.replicate DIRSIZ 0)) DIRSIZ 0 = [] := by decide
  rwa [htext] at hsets

theorem Sets.link (h : Sets c s (inum, name) c') (hs : FreeSlot c s) (hinum : 0 < inum)
    (hdistinct : Distinct c) (hmisses : Misses c name) :
    Distinct c' ∧ bindings c' = (bindings c).insert name inum := by
  have hdistinct' : Distinct c' := h.distinct hs.le hdistinct
    fun _ m _ hm hname => hmisses m hm.1 ⟨hm.2, hname⟩
  exact ⟨hdistinct', h.bindings_insert hs.le hdistinct hdistinct' hs.not_inUse (by omega)⟩

theorem Sets.clear (h : Sets c s (0, []) c') (hs : InUse c s) (hdistinct : Distinct c) :
    Distinct c' ∧ bindings c' = (bindings c).erase (entry c s).2 := by
  have hdistinct' : Distinct c' := h.distinct (Nat.le_of_lt hs.1) hdistinct
    fun hused => absurd rfl hused
  exact ⟨hdistinct', h.bindings_erase hdistinct hdistinct' hs rfl⟩

theorem Distinct.slots_le_card (h : Distinct c) (hused : ∀ m, m < slots c → InUse c m) :
    slots c ≤ (bindings c).keys.card := by
  have hinj : Set.InjOn (fun m => (entry c m).2) (Finset.range (slots c)) := by
    intro m hm m' hm' hname
    exact h m m' (hused m (Finset.mem_range.mp hm)) (hused m' (Finset.mem_range.mp hm')) hname
  have hmaps : ∀ m ∈ Finset.range (slots c), (entry c m).2 ∈ (bindings c).keys := by
    intro m hm
    exact Finmap.mem_keys.mpr (h.mem_iff.mpr ⟨m, hused m (Finset.mem_range.mp hm), rfl⟩)
  have hcard := Finset.card_le_card_of_injOn _ hmaps hinj
  rwa [Finset.card_range] at hcard

end Dir

inductive DirOp where
  | lookup (name : Nat → UInt8)
  | link (name : Nat → UInt8) (inum : Nat)
  | remove (name : Nat → UInt8)

inductive DirReply where
  | found (inum : Option Nat)
  | linked (r : Int)
  | removed (present : Bool)
deriving DecidableEq

namespace DirOp

def Fits : DirOp → Prop
  | link _ inum => 0 < inum ∧ inum < 65536
  | _ => True

/-- An operation on a directory. A lookup gives its reference back; removal is what
`sys_unlink` does. -/
def run (sb : Superblock) (k : Fin NINODE) : DirOp → Exec Fs Panic DirReply
  | lookup name => do
    match ← Fs.dirlookup sb k name with
    | none => return .found none
    | some (ip, _) => do
      let inum := ((← get).itable ip).inum
      Fs.iput sb ip
      return .found (some inum)
  | link name inum => do
    let r ← Fs.dirlink sb k name inum
    return .linked r
  | remove name => do
    match ← Fs.dirlookup sb k name with
    | none => return .removed false
    | some (ip, off) => do
      let r ← Fs.writei sb k (kernelBytes (Dirent.bytes 0 (List.replicate DIRSIZ 0)))
        (UInt32.ofNat off) 16
      if r ≠ direntSize then throw .unlinkWritei
      else do
        Fs.iput sb ip
        return .removed true

def apply (names : Finmap fun _ : List UInt8 => Nat) :
    DirOp → DirReply × Finmap fun _ : List UInt8 => Nat
  | lookup name => (.found (names.lookup (CString.text name DIRSIZ 0)), names)
  | link name inum =>
    if CString.text name DIRSIZ 0 ∈ names then (.linked (-1), names)
    else (.linked 0, names.insert (CString.text name DIRSIZ 0) inum)
  | remove name =>
    (.removed (decide (CString.text name DIRSIZ 0 ∈ names)), names.erase (CString.text name DIRSIZ 0))

def runAll (sb : Superblock) (k : Fin NINODE) : List DirOp → Exec Fs Panic (List DirReply)
  | [] => return []
  | op :: ops => do
    let reply ← op.run sb k
    let replies ← runAll sb k ops
    return reply :: replies

def applyAll (names : Finmap fun _ : List UInt8 => Nat) :
    List DirOp → List DirReply × Finmap fun _ : List UInt8 => Nat
  | [] => ([], names)
  | op :: ops =>
    let (reply, names) := op.apply names
    let (replies, names) := applyAll names ops
    (reply :: replies, names)

end DirOp

def MAXNAMES : Nat := MAXFILE * BSIZE / direntSize

namespace Fs

/-- Entry `k` has inode `i` read in, a directory of whole entries with different names. -/
structure Directory (sb : Superblock) (f : Fs) (a : FsView) (k : Fin NINODE) (i : Nat)
    (node : Node) : Prop where
  rep : f.Rep sb a
  own : (k, i) ∈ a.own
  valid : i ∈ a.valid
  node_eq : a.nodes i = some node
  type : node.type = T_DIR
  aligned : direntSize ∣ node.contents.length
  distinct : Dir.Distinct node.contents

end Fs

def FsView.refill (a : FsView) (i : Nat) (node : Node) (c : List UInt8) : FsView :=
  a.setNode i (some { node with contents := c })

theorem FsView.refill_self {a : FsView} {i : Nat} {node : Node} (h : a.nodes i = some node) :
    a.refill i node node.contents = a := by
  unfold FsView.refill FsView.setNode
  rw [← h, Function.update_eq_self]

theorem FsView.refill_refill (a : FsView) (i : Nat) (node : Node) (c c' : List UInt8) :
    (a.refill i node c).refill i { node with contents := c } c' = a.refill i node c' := by
  unfold FsView.refill FsView.setNode
  rw [Function.update_idem]

namespace Fs.Directory

variable {sb : Superblock} {f f' : Fs} {a : FsView} {k : Fin NINODE} {i : Nat} {node : Node}
variable {c' : List UInt8} {name : Nat → UInt8} {E : Panic → Prop}

section

variable (h : Directory sb f a k i node)

include h

theorem refill (rep : f'.Rep sb (a.refill i node c')) (aligned : direntSize ∣ c'.length)
    (distinct : Dir.Distinct c') :
    Directory sb f' (a.refill i node c') k i { node with contents := c' } where
  rep := rep
  own := h.own
  valid := h.valid
  node_eq := Function.update_self _ _ _
  type := h.type
  aligned := aligned
  distinct := distinct

theorem wp_dirlookup {Q : Option (Fin NINODE × Nat) → Fs → Prop}
    (found : ∀ m l f', Dir.Finds node.contents (CString.text name DIRSIZ 0) m →
      f'.Rep sb { a with own := (l, (Dir.entry node.contents m).1) ::ₘ a.own } →
      f'.store = f.store → Q (some (l, direntSize * m)) f')
    (missing : Dir.Misses node.contents (CString.text name DIRSIZ 0) → Q none f)
    (full : TableFull a.own → E .igetNoInodes) : wp (dirlookup sb k name) Q E f :=
  Fs.wp_dirlookup h.rep h.own h.valid h.node_eq h.type (fun m hm l f' => found m l f' hm)
    (fun hm _ => missing hm) (fun hbad => absurd h.aligned hbad) full

theorem full_card {s : Nat} (hs : Dir.FreeSlot node.contents s)
    (hover : MAXFILE * BSIZE < direntSize * (s + 1)) :
    (∀ m, m < Dir.slots node.contents → Dir.InUse node.contents m) ∧
      MAXNAMES ≤ Dir.slots node.contents ∧ node.contents.length = MAXFILE * BSIZE := by
  have hlength := h.rep.length_le h.own h.valid h.node_eq
  obtain ⟨q, hq⟩ := h.aligned
  have hmax : MAXFILE * BSIZE = direntSize * MAXNAMES := by decide
  have hslots : Dir.slots node.contents = q := by
    unfold Dir.slots
    rw [hq]
    exact Nat.mul_div_cancel_left q (by decide)
  simp only [direntSize] at hover hq hmax
  have hend : s = q := by
    rcases hs.1 with hlt | heq
    · have := hlt.1
      omega
    · omega
  subst hend
  refine ⟨fun m hm => ⟨hm, hs.2 m (by omega)⟩, by omega, by omega⟩

theorem wp_dirlink {inum : Nat} {Q : Int → Fs → Prop} (hlt : inum < 65536)
    (present : ∀ m f', Dir.Finds node.contents (CString.text name DIRSIZ 0) m → f'.Rep sb a →
      f'.store = f.store → Q (-1) f')
    (added : ∀ s c' f', Dir.Misses node.contents (CString.text name DIRSIZ 0) →
      Dir.FreeSlot node.contents s →
      Dir.Sets node.contents s (inum, CString.text name DIRSIZ 0) c' → direntSize ∣ c'.length →
      f'.Rep sb (a.refill i node c') → Spent sb (metaBlocks sb i) f.store f'.store 2 4 → Q 0 f')
    (full : (∀ m, m < Dir.slots node.contents → Dir.InUse node.contents m) →
      MAXNAMES ≤ Dir.slots node.contents → node.contents.length = MAXFILE * BSIZE → E .dirlink)
    (table : TableFull a.own → E .igetNoInodes)
    (stop : ∀ e, Short sb (metaBlocks sb i) f.store 2 4 e → E e) :
    wp (dirlink sb k name inum) Q E f := by
  refine Fs.wp_dirlink h.rep h.own h.valid h.node_eq h.type (fun m hm f' => present m f' hm) ?_ ?_
    (fun hbad => absurd h.aligned hbad) table stop
  · intro hmisses _ s hs f' rep
    refine added s _ f' hmisses hs (Dir.sets_link hs hlt) ?_ rep
    refine Dir.dvd_setEntry ?_ CString.strncpy_length h.aligned
    have hle := hs.le
    unfold Dir.slots at hle
    simp only [direntSize] at hle ⊢
    omega
  · intro s hs hover
    obtain ⟨hused, hcard, hlength⟩ := h.full_card hs hover
    exact full hused hcard hlength

theorem wp_clear {m : Nat} {Q : Int → Fs → Prop} (hm : m < Dir.slots node.contents)
    (post : ∀ c' f', Dir.Sets node.contents m (0, []) c' → direntSize ∣ c'.length →
      f'.Rep sb (a.refill i node c') → Spent sb (metaBlocks sb i) f.store f'.store 2 4 →
      Q direntSize f') (stop : ∀ e, Short sb (metaBlocks sb i) f.store 2 4 e → E e) :
    wp (writei sb k (kernelBytes (Dirent.bytes 0 (List.replicate DIRSIZ 0)))
      (UInt32.ofNat (direntSize * m)) 16) Q E f := by
  have hlength := h.rep.length_le h.own h.valid h.node_eq
  have hfit : direntSize * (m + 1) ≤ node.contents.length := by
    unfold Dir.slots at hm
    simp only [direntSize] at hm ⊢
    omega
  have hstart : direntSize * m ≤ node.contents.length := by
    simp only [direntSize] at hfit ⊢
    omega
  refine Fs.wp_writeEntry h.rep h.own h.valid h.node_eq hstart List.length_replicate ?_ ?_ stop
  · exact fun f' rep hspent => post _ f' (Dir.sets_clear hm)
      (Dir.dvd_setEntry hstart List.length_replicate h.aligned) rep hspent
  · intro hover
    omega

theorem wp_run {op : DirOp} (hfits : op.Fits) {Q : DirReply → Fs → Prop}
    (post : ∀ r c' f', Directory sb f' (a.refill i node c') k i { node with contents := c' } →
      (r, Dir.bindings c') = op.apply (Dir.bindings node.contents) →
      Spent sb (metaBlocks sb i) f.store f'.store 2 4 → Q r f')
    (full : MAXNAMES ≤ (Dir.bindings node.contents).keys.card → E .dirlink)
    (table : TableFull a.own → E .igetNoInodes)
    (stop : ∀ e, Short sb (metaBlocks sb i) f.store 2 4 e → E e) : wp (op.run sb k) Q E f := by
  have hself : ∀ {f' : Fs}, f'.Rep sb a →
      Directory sb f' (a.refill i node node.contents) k i { node with contents := node.contents } := by
    intro f' rep
    exact h.refill ((FsView.refill_self h.node_eq).symm ▸ rep) h.aligned h.distinct
  have hfree : ∀ {f' : Fs}, f'.store = f.store →
      Spent sb (metaBlocks sb i) f.store f'.store 2 4 := by
    intro f' hstore
    rw [hstore]
    exact Spent.refl.mono (Nat.zero_le _) (Nat.zero_le _)
  cases op with
  | lookup name =>
    unfold DirOp.run
    simp only [wp_bind]
    refine h.wp_dirlookup ?_ ?_ table
    · intro m l f' hfinds rep hstore
      simp only [wp_bind, wp_get, wp_pure]
      have hinum : (f'.itable l).inum = (Dir.entry node.contents m).1 :=
        (rep.entry (Multiset.mem_cons_self _ _)).inum
      rw [hinum]
      refine wp_iput_back rep h.rep.table.valid_sub h.rep.table.locks_sub ?_
      intro f'' rep' hstore'
      refine post _ _ f'' (hself rep') ?_ (hfree (hstore'.trans hstore))
      dsimp only [DirOp.apply]
      rw [hfinds.lookup h.distinct]
    · intro hmisses
      rw [wp_pure]
      refine post _ _ f (hself h.rep) ?_ (hfree rfl)
      dsimp only [DirOp.apply]
      rw [Finmap.lookup_eq_none.mpr (hmisses.notMem h.distinct)]
  | link name inum =>
    unfold DirOp.run
    simp only [wp_bind, wp_pure]
    refine h.wp_dirlink hfits.2 ?_ ?_ ?_ table stop
    · intro m f' hfinds rep hstore
      refine post _ _ f' (hself rep) ?_ (hfree hstore)
      dsimp only [DirOp.apply]
      rw [if_pos (hfinds.mem h.distinct)]
    · intro s c' f' hmisses hs hsets haligned rep hspent
      obtain ⟨hdistinct, hbindings⟩ := hsets.link hs hfits.1 h.distinct hmisses
      refine post _ c' f' (h.refill rep haligned hdistinct) ?_ hspent
      dsimp only [DirOp.apply]
      rw [if_neg (hmisses.notMem h.distinct), hbindings]
    · intro hused hcard _
      exact full (Nat.le_trans hcard (h.distinct.slots_le_card hused))
  | remove name =>
    unfold DirOp.run
    simp only [wp_bind]
    refine h.wp_dirlookup ?_ ?_ table
    · intro m l f' hfinds rep hstore
      have held : Directory sb f' { a with own := (l, (Dir.entry node.contents m).1) ::ₘ a.own } k i
          node := { h with rep := rep, own := Multiset.mem_cons_of_mem h.own }
      simp only [wp_bind]
      refine held.wp_clear hfinds.2.1 ?_ (by rwa [hstore])
      intro c' f₁ hsets haligned rep₁ hspent
      rw [wp_else (fun hne => hne rfl)]
      simp only [wp_bind, wp_pure]
      refine wp_iput_back (a := a.refill i node c') rep₁ h.rep.table.valid_sub
        h.rep.table.locks_sub ?_
      intro f₂ rep₂ hstore₂
      obtain ⟨hdistinct, hbindings⟩ := hsets.clear hfinds.inUse.1 h.distinct
      refine post _ c' f₂ (h.refill rep₂ haligned hdistinct) ?_ (by rwa [hstore₂, ← hstore])
      dsimp only [DirOp.apply]
      rw [decide_eq_true (hfinds.mem h.distinct), hbindings, hfinds.inUse.2]
    · intro hmisses
      have hnot := hmisses.notMem h.distinct
      rw [wp_pure]
      refine post _ _ f (hself h.rep) ?_ (hfree rfl)
      dsimp only [DirOp.apply]
      rw [decide_eq_false hnot, Dir.erase_of_notMem hnot]

/-- The operations stop only if 2 free blocks and 4 blocks of log for each are not there, or the
inode table or the directory is full. -/
theorem wp_runAll {ops : List DirOp} (hfits : ∀ op ∈ ops, op.Fits) :
    wp (DirOp.runAll sb k ops)
      (fun replies f' => ∃ c', Directory sb f' (a.refill i node c') k i { node with contents := c' } ∧
        (replies, Dir.bindings c') = DirOp.applyAll (Dir.bindings node.contents) ops)
      (fun e => Short sb (metaBlocks sb i) f.store (2 * ops.length) (4 * ops.length) e ∨
        e = .igetNoInodes ∧ TableFull a.own ∨ e = .dirlink ∧ ∃ done rest, ops = done ++ rest ∧
          MAXNAMES ≤ (DirOp.applyAll (Dir.bindings node.contents) done).2.keys.card) f := by
  induction ops generalizing f a node with
  | nil =>
    unfold DirOp.runAll
    rw [wp_pure]
    refine ⟨node.contents, h.refill ?_ h.aligned h.distinct, rfl⟩
    rw [FsView.refill_self h.node_eq]
    exact h.rep
  | cons op ops ih =>
    unfold DirOp.runAll
    simp only [wp_bind, wp_pure]
    rw [List.length_cons]
    refine h.wp_run (hfits op List.mem_cons_self) ?_ ?_ (fun hfull => .inr (.inl ⟨rfl, hfull⟩))
      fun e he => .inl (he.mono (by omega) (by omega))
    · intro r c₁ f₁ h₁ happly hspent
      refine wp_mono (ih h₁ fun op' hop => hfits op' (List.mem_cons_of_mem _ hop)) ?_ ?_
      · rintro replies f₂ ⟨c₂, h₂, hall⟩
        rw [FsView.refill_refill] at h₂
        refine ⟨c₂, h₂, ?_⟩
        dsimp only [DirOp.applyAll]
        rw [← happly]
        dsimp only
        rw [← hall]
      · rintro e (hshort | hfull | ⟨rfl, done, rest, rfl, hcard⟩)
        · exact .inl (Short.of_spent hspent hshort (by omega) (by omega))
        · exact .inr (.inl hfull)
        · refine .inr (.inr ⟨rfl, op :: done, rest, rfl, ?_⟩)
          dsimp only [DirOp.applyAll]
          rw [← happly]
          exact hcard
    · exact fun hcard => .inr (.inr ⟨rfl, [], op :: ops, rfl, hcard⟩)

end

/-- A directory is a finite map on truncated names, and any sequence of `dirlookup`, `dirlink`
and removals acts on it as on the map. -/
theorem directory_refines_map (h : Directory sb f a k i node) :
    (∀ name, wp (dirlookup sb k name)
      (fun r f' =>
        (∃ m l, r = some (l, direntSize * m) ∧ Dir.InUse node.contents m ∧
          (Dir.entry node.contents m).2 = CString.text name DIRSIZ 0 ∧
          f'.Rep sb { a with own := (l, (Dir.entry node.contents m).1) ::ₘ a.own }) ∨
        (r = none ∧ CString.text name DIRSIZ 0 ∉ Dir.bindings node.contents ∧ f' = f))
      (fun e => e = .igetNoInodes ∧ TableFull a.own) f) ∧
    (∀ name inum, 0 < inum → inum < 65536 →
      ((∃ m, m < Dir.slots node.contents ∧ ¬ Dir.InUse node.contents m) ∨
        node.contents.length < MAXFILE * BSIZE) →
      wp (dirlink sb k name inum)
        (fun r f' =>
          (r = -1 ∧ CString.text name DIRSIZ 0 ∈ Dir.bindings node.contents ∧ f'.Rep sb a) ∨
          (r = 0 ∧ CString.text name DIRSIZ 0 ∉ Dir.bindings node.contents ∧
            ∃ s c', Dir.FreeSlot node.contents s ∧
              Dir.Sets node.contents s (inum, CString.text name DIRSIZ 0) c' ∧
              Dir.bindings c' =
                (Dir.bindings node.contents).insert (CString.text name DIRSIZ 0) inum ∧
              f'.Rep sb (a.refill i node c')))
        (fun e => Short sb (metaBlocks sb i) f.store 2 4 e ∨ e = .igetNoInodes ∧ TableFull a.own)
        f) ∧
    (∀ m, Dir.InUse node.contents m →
      wp (writei sb k (kernelBytes (Dirent.bytes 0 (List.replicate DIRSIZ 0)))
        (UInt32.ofNat (direntSize * m)) 16)
        (fun r f' => r = direntSize ∧ ∃ c', Dir.Sets node.contents m (0, []) c' ∧
          Dir.bindings c' = (Dir.bindings node.contents).erase (Dir.entry node.contents m).2 ∧
          f'.Rep sb (a.refill i node c'))
        (fun e => Short sb (metaBlocks sb i) f.store 2 4 e) f) ∧
    ∀ ops : List DirOp, (∀ op ∈ ops, op.Fits) →
      wp (DirOp.runAll sb k ops)
        (fun replies f' => ∃ c',
          Directory sb f' (a.refill i node c') k i { node with contents := c' } ∧
          (replies, Dir.bindings c') = DirOp.applyAll (Dir.bindings node.contents) ops)
        (fun e => Short sb (metaBlocks sb i) f.store (2 * ops.length) (4 * ops.length) e ∨
          e = .igetNoInodes ∧ TableFull a.own ∨ e = .dirlink ∧ ∃ done rest, ops = done ++ rest ∧
            MAXNAMES ≤ (DirOp.applyAll (Dir.bindings node.contents) done).2.keys.card) f := by
  refine ⟨?_, ?_, ?_, fun ops hfits => h.wp_runAll hfits⟩
  · intro name
    refine h.wp_dirlookup ?_ ?_ fun hfull => ⟨rfl, hfull⟩
    · intro m l f' hfinds rep _
      exact .inl ⟨m, l, rfl, hfinds.inUse.1, hfinds.inUse.2, rep⟩
    · exact fun hmisses => .inr ⟨rfl, hmisses.notMem h.distinct, rfl⟩
  · intro name inum hpos hlt hroom
    refine h.wp_dirlink hlt ?_ ?_ ?_ (fun hfull => .inr ⟨rfl, hfull⟩) fun e he => .inl he
    · exact fun m f' hfinds rep _ => .inl ⟨rfl, hfinds.mem h.distinct, rep⟩
    · intro s c' f' hmisses hs hsets _ rep _
      exact .inr ⟨rfl, hmisses.notMem h.distinct, s, c', hs, hsets,
        (hsets.link hs hpos h.distinct hmisses).2, rep⟩
    · intro hused _ hlength
      rcases hroom with ⟨m, hm, hfree⟩ | hshort
      · exact absurd (hused m hm) hfree
      · omega
  · intro m hm
    refine h.wp_clear hm.1 ?_ fun e he => he
    intro c' f' hsets _ rep _
    exact ⟨rfl, c', hsets, (hsets.clear hm h.distinct).2, rep⟩

end Fs.Directory

/-! A disk with an empty directory, inside a transaction. -/

def emptyRoot : Node := ⟨T_DIR, 0, 0, 1, []⟩

def startedRoot : Fs :=
  match Fs.beginOp (plainFs (lone emptyRoot) [1]) with
  | .ok (_, f) => f
  | .error _ => plainFs (lone emptyRoot) [1]

theorem startedRoot_directory : ∃ a, startedRoot.Directory plainSb a 0 1 emptyRoot := by
  obtain ⟨hready, hmem, hnode⟩ := lone_ready emptyRoot (by decide) (by decide)
  have hbegin : Fs.beginOp (plainFs (lone emptyRoot) [1]) = .ok ((), startedRoot) := by
    obtain ⟨f, hrun⟩ := exists_of_resultOf
      (show resultOf Fs.beginOp (plainFs (lone emptyRoot) [1]) = some () by decide +kernel)
    rw [hrun]
    unfold startedRoot
    rw [hrun]
  have hspec : wp Fs.beginOp (fun _ f => f.Rep plainSb { (plainFs (lone emptyRoot) [1]).viewOf plainSb with
      ops := (plainFs (lone emptyRoot) [1]).store.log.outstanding + 1 }) (fun _ => True)
      (plainFs (lone emptyRoot) [1]) :=
    Fs.wp_beginOp hready.rep (fun _ rep _ => rep) fun _ => trivial
  have hrep := post_of_wp hspec hbegin
  exact ⟨_, ⟨hrep, hmem, ⟨0, hmem, rfl⟩, hnode, rfl, Nat.dvd_zero _,
    fun m _ hm => absurd hm.1 (Nat.not_lt_zero m)⟩⟩

def nameA (j : Nat) : UInt8 := if j = 0 then 97 else 0

def sampleOps : List DirOp :=
  [.link nameA 5, .lookup nameA, .link nameA 6, .remove nameA, .lookup nameA]

theorem sampleOps_replies : resultOf (DirOp.runAll plainSb 0 sampleOps) startedRoot =
    some [.linked 0, .found (some 5), .linked (-1), .removed true, .found none] := by
  decide +kernel

theorem directory_refines_map_emptyRoot : ∃ a f' c',
    startedRoot.Directory plainSb a 0 1 emptyRoot ∧
    DirOp.runAll plainSb 0 sampleOps startedRoot =
      .ok ([.linked 0, .found (some 5), .linked (-1), .removed true, .found none], f') ∧
    f'.Directory plainSb (a.refill 1 emptyRoot c') 0 1 { emptyRoot with contents := c' } := by
  have hfits : ∀ op ∈ sampleOps, op.Fits := by
    simp [sampleOps, DirOp.Fits]
  obtain ⟨f', hrun⟩ := exists_of_resultOf sampleOps_replies
  obtain ⟨a, ha⟩ := startedRoot_directory
  -- nothing below looks into the state
  generalize startedRoot = f at ha hrun ⊢
  obtain ⟨-, -, -, hall⟩ := ha.directory_refines_map
  obtain ⟨c', hdir, -⟩ := post_of_wp (hall _ hfits) hrun
  exact ⟨a, f', c', ha, hrun, hdir⟩

def newDir : Node := ⟨T_DIR, 0, 0, 0, []⟩

def sixFiles (i : Nat) : Option Node := if 1 ≤ i ∧ i < 7 then some emptyFile else none

/-- Make a directory and write `n` bytes to a file, all in one transaction. -/
def fillDisk (n : UInt32) : Exec Fs Panic (Fin NINODE) := do
  Fs.beginOp
  let dp ← Fs.ialloc plainSb ROOTDEV T_DIR
  Fs.ilock plainSb dp
  let _ ← Fs.writei plainSb 0 (fun _ => some 7) 0 n
  return dp

def fullDisk : Fs :=
  match fillDisk 8193 (plainFs sixFiles [1]) with
  | .ok (_, f) => f
  | .error _ => plainFs sixFiles [1]

theorem fillDisk_result : resultOf (fillDisk 8193) (plainFs sixFiles [1]) = some 1 := by decide +kernel

theorem fullDisk_directory : ∃ a i, fullDisk.Directory plainSb a 1 i newDir := by
  obtain ⟨hready, hown, hfile⟩ : InodesReady plainSb (plainFs sixFiles [1]) ∧
      ((0 : Fin NINODE), 1) ∈ ((plainFs sixFiles [1]).viewOf plainSb).own ∧
      ((plainFs sixFiles [1]).viewOf plainSb).nodes 1 = some emptyFile :=
    plainFs_open (plainFiles_copies (fun i hi => by omega) (by decide) (by decide)) rfl
  have hvalid : 1 ∈ ((plainFs sixFiles [1]).viewOf plainSb).valid := ⟨0, hown, rfl⟩
  have hrep := hready.rep
  have hlocks : ((plainFs sixFiles [1]).viewOf plainSb).locks = ∅ := rfl
  -- nothing below looks into the state
  generalize (plainFs sixFiles [1]).viewOf plainSb = a at hrep hfile hown hvalid hlocks
  have hspec : ∀ n, wp (fillDisk n) (fun k f => ∃ a i, f.Directory plainSb a k i newDir)
      (fun _ => True) (plainFs sixFiles [1]) := by
    intro n
    unfold fillDisk
    simp only [wp_bind, wp_pure]
    refine Fs.wp_beginOp hrep (fun f₁ rep₁ _ => ?_) fun _ => trivial
    refine Fs.wp_ialloc rep₁ (fun k i f₂ _ hi hfree rep₂ => ?_) fun _ _ => trivial
    rw [if_neg (by decide)] at rep₂
    have hne : i ≠ 1 := by
      rintro rfl
      rw [hfile] at hfree
      cases hfree
    refine Fs.wp_ilock rep₂ (Multiset.mem_cons_self _ _) hi (by simp [FsView.setNode, hlocks])
      (fun f₃ _ _ rep₃ _ => ?_) fun _ => trivial
    refine Fs.wp_writei rep₃ (Multiset.mem_cons_of_mem hown) (Set.mem_insert_of_mem _ hvalid)
      ((Function.update_of_ne hne.symm _ _).trans hfile) (fun _ => ?_)
      (fun tot total f₄ _ _ _ _ rep₄ _ => ?_) fun _ _ _ => trivial
    · exact ⟨_, i, rep₃, Multiset.mem_cons_self _ _, Set.mem_insert _ _, Function.update_self _ _ _,
        rfl, Nat.dvd_zero _, fun m _ hm => absurd hm.1 (Nat.not_lt_zero m)⟩
    · refine ⟨_, i, ⟨rep₄, ?_, ?_, ?_, rfl, Nat.dvd_zero _, ?_⟩⟩
      · exact Multiset.mem_cons_self _ _
      · exact Set.mem_insert i a.valid
      · exact (Function.update_of_ne hne _ _).trans (Function.update_self _ _ _)
      · exact fun m _ hm => absurd hm.1 (Nat.not_lt_zero m)
  obtain ⟨f, hrun⟩ := exists_of_resultOf fillDisk_result
  have hfull : fullDisk = f := by
    unfold fullDisk
    rw [hrun]
  rw [hfull]
  exact post_of_wp (hspec _) hrun

/-- Without a free block a name cannot be added to a new directory. -/
theorem dirlink_panics_on_full_disk : (∃ a i, fullDisk.Directory plainSb a 1 i newDir) ∧
    newDir.contents.length < MAXFILE * BSIZE ∧
    stopOf (Fs.dirlink plainSb 1 nameA 5) fullDisk = some .outOfBlocks :=
  ⟨fullDisk_directory, by decide, by decide +kernel⟩

end Xv6
