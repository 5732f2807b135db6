import Xv6.Fs.Itable

/-! What the functions of the inode table do to the view of their callers. -/
namespace Xv6

open Function (update_eq_self update_idem update_of_ne update_self)
open Lib Lib.Exec Volume

variable {sb : Superblock} {v v' : Volume} {a a' : FsView} {t : Fin NINODE → Inode}
variable {k : Fin NINODE} {i j : Nat} {ip : Inode}

namespace Entry

theorem congr (h : Entry sb v a i ip) (hvalid : i ∈ a'.valid ↔ i ∈ a.valid)
    (hlocks : i ∈ a'.locks ↔ i ∈ a.locks) (hinode : v'.inode i = v.inode i) :
    Entry sb v' a' i ip where
  inum := h.inum
  dev := h.dev
  valid_iff := h.valid_iff.trans hvalid.symm
  locked_iff := h.locked_iff.trans hlocks.symm
  coherent hi := by
    rw [hinode]
    exact h.coherent (hvalid.mp hi)

end Entry

theorem countP_cons (own : Multiset (Fin NINODE × Nat)) (k l : Fin NINODE) (i : Nat) :
    (((k, i) ::ₘ own).countP fun p => p.1 = l) =
      (own.countP fun p => p.1 = l) + if l = k then 1 else 0 := by
  rw [Multiset.countP_cons]
  simp only [eq_comm]

namespace Table

section

variable (h : Table sb v a t)

include h

theorem inum_eq {p q : Fin NINODE × Nat} (hp : p ∈ a.own) (hq : q ∈ a.own) (heq : p.1 = q.1) :
    p.2 = q.2 := by
  rw [← (h.entry p hp).inum, heq, (h.entry q hq).inum]

theorem slot_iff (hk : (k, i) ∈ a.own) {p : Fin NINODE × Nat} (hp : p ∈ a.own) :
    p.1 = k ↔ p.2 = i :=
  ⟨fun heq => h.inum_eq hp hk heq, fun heq => h.unique p hp (k, i) hk heq⟩

theorem ref_pos (hk : (k, i) ∈ a.own) : 0 < (t k).ref := by
  rw [h.count]
  have hpos : 0 < a.own.countP fun p => p.1 = k := Multiset.countP_pos.mpr ⟨(k, i), hk, rfl⟩
  omega

theorem ref_eq_zero_iff : (t k).ref = 0 ↔ ∀ p ∈ a.own, p.1 ≠ k := by
  rw [h.count, Int.natCast_eq_zero, Multiset.countP_eq_zero]

theorem set (slot : ∀ p ∈ a.own, p.1 = k ↔ p.2 = i) (count : ∀ l, a'.own.countP (fun p => p.1 = l) =
      if l = k then ip.ref else ((a.own.countP fun p => p.1 = l : Nat) : Int))
    (other : ∀ p, p ≠ (k, i) → (p ∈ a'.own ↔ p ∈ a.own))
    (entry : (k, i) ∈ a'.own → Entry sb v' a' i ip)
    (idle : (k, i) ∉ a'.own → ip.locked = false ∧ i ∉ a'.valid)
    (valid : ∀ j, j ≠ i → (j ∈ a'.valid ↔ j ∈ a.valid))
    (locks : ∀ j, j ≠ i → (j ∈ a'.locks ↔ j ∈ a.locks)) (lock_valid : i ∈ a'.locks → i ∈ a'.valid)
    (inode : ∀ j, j ≠ i → v'.inode j = v.inode j) : Table sb v' a' (Function.update t k ip) := by
  have hslot : ∀ p ∈ a'.own, p.1 = k ↔ p.2 = i := by
    intro p hp
    by_cases heq : p = (k, i)
    · simp [heq]
    · exact slot p ((other p heq).mp hp)
  have hold : ∀ p ∈ a'.own, p.2 ≠ i → p ∈ a.own := by
    intro p hp hne
    exact (other p fun heq => hne (by rw [heq])).mp hp
  refine ⟨?_, ?_, ?_, ?_, ?_, ?_⟩
  · intro l
    rw [count]
    by_cases hl : l = k
    · rw [hl, update_self, if_pos rfl]
    · rw [update_of_ne hl, if_neg hl, h.count]
  · intro p hp
    by_cases hpi : p.2 = i
    · have hpk := (hslot p hp).mpr hpi
      rw [hpk, update_self, hpi]
      apply entry
      rwa [← hpk, ← hpi]
    · have hpk : p.1 ≠ k := fun heq => hpi ((hslot p hp).mp heq)
      rw [update_of_ne hpk]
      exact (h.entry p (hold p hp hpi)).congr (valid _ hpi) (locks _ hpi) (inode _ hpi)
  · intro p hp q hq heq
    by_cases hpi : p.2 = i
    · rw [(hslot p hp).mpr hpi, (hslot q hq).mpr (heq ▸ hpi)]
    · exact h.unique p (hold p hp hpi) q (hold q hq (heq ▸ hpi)) heq
  · intro l hl
    by_cases hlk : l = k
    · rw [hlk, update_self]
      exact (idle fun hmem => hl _ hmem hlk.symm).1
    · rw [update_of_ne hlk]
      apply h.idle
      intro p hp hpl
      have hne : p ≠ (k, i) := by
        rintro rfl
        exact hlk hpl.symm
      exact hl p ((other p hne).mpr hp) hpl
  · intro j hj
    obtain rfl | hji := eq_or_ne j i
    · by_contra hnot
      exact (idle fun hmem => hnot ⟨k, hmem⟩).2 hj
    · obtain ⟨l, hl⟩ := h.valid_sub ((valid j hji).mp hj)
      refine ⟨l, (other _ ?_).mpr hl⟩
      rintro heq
      exact hji (Prod.mk.inj heq).2
  · intro j hj
    obtain rfl | hji := eq_or_ne j i
    · exact lock_valid hj
    · exact (valid j hji).mpr (h.locks_sub ((locks j hji).mp hj))

theorem set_same (hk : (k, i) ∈ a.own) (own : a'.own = a.own) (href : ip.ref = (t k).ref)
    (entry : Entry sb v' a' i ip) (valid : ∀ j, j ≠ i → (j ∈ a'.valid ↔ j ∈ a.valid))
    (locks : ∀ j, j ≠ i → (j ∈ a'.locks ↔ j ∈ a.locks)) (lock_valid : i ∈ a'.locks → i ∈ a'.valid)
    (inode : ∀ j, j ≠ i → v'.inode j = v.inode j) : Table sb v' a' (Function.update t k ip) := by
  refine h.set (fun p hp => h.slot_iff hk hp) ?_ (fun p _ => by rw [own]) (fun _ => entry)
    (fun hnot => absurd (own ▸ hk) hnot) valid locks lock_valid inode
  intro l
  rw [own]
  split
  · rename_i hl
    rw [href, hl, h.count]
  · rfl

theorem set_more (slot : ∀ p ∈ a.own, p.1 = k ↔ p.2 = i) (href : ip.ref = (t k).ref + 1)
    (entry : Entry sb v a i ip) :
    Table sb v { a with own := (k, i) ::ₘ a.own } (Function.update t k ip) := by
  refine h.set slot ?_ ?_ (fun _ => ⟨entry.inum, entry.dev, entry.valid_iff, entry.locked_iff,
    entry.coherent⟩) (fun hnot => absurd (Multiset.mem_cons_self _ _) hnot) (fun _ _ => Iff.rfl)
    (fun _ _ => Iff.rfl) (fun hi => h.locks_sub hi) (fun _ _ => rfl)
  · intro l
    by_cases hl : l = k
    · rw [if_pos hl, href, h.count, countP_cons, if_pos hl, hl]
      rfl
    · rw [if_neg hl, countP_cons, if_neg hl, Nat.add_zero]
  · intro p hp
    rw [Multiset.mem_cons]
    exact or_iff_right hp

theorem set_less {rest : Multiset (Fin NINODE × Nat)} (own : a.own = (k, i) ::ₘ rest)
    (hlock : i ∈ a.locks → i ∈ FsView.referenced rest) (href : ip.ref = (t k).ref - 1)
    (entry : (k, i) ∈ rest → Entry sb v' (a.keep rest) i ip)
    (hlocked : ip.locked = true → i ∈ a.locks) (inode : ∀ j, j ≠ i → v'.inode j = v.inode j) :
    Table sb v' (a.keep rest) (Function.update t k ip) := by
  have hk : (k, i) ∈ a.own := own ▸ Multiset.mem_cons_self _ _
  have hrest : ∀ p, p ≠ (k, i) → (p ∈ rest ↔ p ∈ a.own) := by
    intro p hp
    rw [own, Multiset.mem_cons]
    exact (or_iff_right hp).symm
  have hslot : ∀ p ∈ rest, p.2 = i → p = (k, i) := by
    intro p hp heq
    have hmem : p ∈ a.own := own ▸ Multiset.mem_cons_of_mem hp
    exact Prod.ext ((h.slot_iff hk hmem).mpr heq) heq
  refine h.set (fun p hp => h.slot_iff hk hp) ?_ hrest entry ?_ ?_ (fun _ _ => Iff.rfl)
    (fun hi => ⟨h.locks_sub hi, hlock hi⟩) inode
  · intro l
    have hcount := countP_cons rest k l i
    rw [← own] at hcount
    change ((rest.countP fun p => p.1 = l : Nat) : Int) = _
    by_cases hl : l = k
    · rw [if_pos hl] at hcount ⊢
      rw [href, h.count, ← hl, hcount]
      omega
    · rw [if_neg hl] at hcount ⊢
      rw [hcount, Nat.add_zero]
  · intro hnot
    have hgone : i ∉ FsView.referenced rest := by
      rintro ⟨l, hl⟩
      rw [hslot _ hl rfl] at hl
      exact hnot hl
    refine ⟨?_, fun hi => hgone hi.2⟩
    rw [← Bool.not_eq_true]
    exact fun h => hgone (hlock (hlocked h))
  · intro j hj
    constructor
    · exact fun hmem => hmem.1
    · intro hmem
      obtain ⟨l, hl⟩ := h.valid_sub hmem
      refine ⟨hmem, l, (hrest _ ?_).mpr hl⟩
      intro heq
      exact hj (Prod.mk.inj heq).2

theorem setVolume (hi : i ∉ a.valid) (inode : ∀ j, j ≠ i → v'.inode j = v.inode j)
    (node : Option Node) : Table sb v' (a.setNode i node) t := by
  refine ⟨h.count, ?_, h.unique, h.idle, h.valid_sub, h.locks_sub⟩
  intro p hp
  have hentry := h.entry p hp
  refine ⟨hentry.inum, hentry.dev, hentry.valid_iff, hentry.locked_iff, ?_⟩
  intro hvalid
  have hne : p.2 ≠ i := by
    rintro rfl
    exact hi hvalid
  rw [inode _ hne]
  exact hentry.coherent hvalid

end

end Table

theorem Short.limit {W : Finset Nat} {s : Store} {blocks writes : Nat} {e : Panic}
    (h : Short sb W s blocks writes e) : e.Limit := .inl h.1

namespace Fs

variable {f : Fs} {E : Panic → Prop}

namespace Rep

theorem owned (rep : f.Rep sb a) : (f.store.volume sb).Owned sb := (wellFormed_iff.mp rep.wf).1

theorem mapped (rep : f.Rep sb a) : (f.store.volume sb).Mapped := (wellFormed_iff.mp rep.wf).2

theorem entry (rep : f.Rep sb a) (hk : (k, i) ∈ a.own) :
    Entry sb (f.store.volume sb) a i (f.itable k) := rep.table.entry _ hk

theorem held (rep : f.Rep sb a) (hk : (k, i) ∈ a.own) (hi : i ∈ a.valid) :
    Held sb f.store (f.itable k) := by
  obtain ⟨hlt, hdinode, htype⟩ := (rep.entry hk).coherent hi
  rw [← (rep.entry hk).inum] at hlt hdinode
  exact ⟨hlt, by rw [hdinode, Store.volume_inode hlt], htype⟩

theorem node (rep : f.Rep sb a) (hk : (k, i) ∈ a.own) (hi : i ∈ a.valid) :
    a.nodes i = some ((f.itable k).node ((f.store.volume sb).contents i)) := by
  obtain ⟨-, hdinode, htype⟩ := (rep.entry hk).coherent hi
  have halloc : (f.store.volume sb).allocated i := by
    unfold Volume.allocated
    rw [← hdinode]
    exact htype
  rw [← rep.nodes_eq, nodes_of_allocated halloc, hdinode]

theorem valid_of_lock (rep : f.Rep sb a) (hi : i ∈ a.locks) : i ∈ a.valid := rep.table.locks_sub hi

theorem setTable (rep : f.Rep sb a) {t : Fin NINODE → Inode}
    (table : Table sb (f.store.volume sb) a' t) (hnodes : a'.nodes = a.nodes)
    (hops : a'.ops = a.ops) : Rep sb { f with itable := t } a' :=
  ⟨rep.wf, rep.ready, hnodes ▸ rep.nodes_eq, hops ▸ rep.ops_eq, table⟩

theorem change (rep : f.Rep sb a) (hk : (k, i) ∈ a.own) (hi : i ∈ a.valid) {s : Store} {ip : Inode}
    {loose : Set Nat} {node : Option Node} (wf : WellFormed sb s)
    (tracks : Tracks sb loose f.store s)
    (nodes : (s.volume sb).nodes = Function.update (f.store.volume sb).nodes i node)
    (inode : ∀ j, j ≠ i → (s.volume sb).inode j = (f.store.volume sb).inode j)
    (same : ip = { f.itable k with toDinode := ip.toDinode })
    (dinode : ip.toDinode = (s.volume sb).inode i) (htype : ip.type ≠ 0) :
    Rep sb ({ f with store := s }.setInode k ip) (a.setNode i node) := by
  have hentry := rep.entry hk
  have hlt := (hentry.coherent hi).1
  refine ⟨wf, tracks.logReady rep.ready, ?_, ?_, ?_⟩
  · change (s.volume sb).nodes = _
    rw [nodes, rep.nodes_eq]
    rfl
  · change s.log.outstanding = _
    rw [tracks.log]
    exact rep.ops_eq
  · refine rep.table.set_same hk rfl (by rw [same]) ⟨?_, ?_, ?_, ?_, fun _ => ⟨hlt, dinode, htype⟩⟩
      (fun _ _ => Iff.rfl) (fun _ _ => Iff.rfl) (fun hlock => rep.table.locks_sub hlock) inode
    · rw [same]
      exact hentry.inum
    · rw [same]
      exact hentry.dev
    · rw [same]
      exact hentry.valid_iff
    · rw [same]
      exact hentry.locked_iff

end Rep

theorem dinode_of_seen {s : Store} (hinum : ip.inum = i) (h : s.volume sb = s.seen sb ip) :
    ip.toDinode = (s.volume sb).inode i := by
  rw [h, ← hinum, Store.seen_inode]

theorem wp_onInode {α : Type} {m : Inode → Exec Store Panic (α × Inode)} {Q : α → Fs → Prop} :
    wp (onInode k m) Q E f ↔
      wp (m (f.itable k)) (fun r s => Q r.1 ({ f with store := s }.setInode k r.2)) E f.store := by
  unfold onInode onStore
  simp only [wp_bind, wp_get, wp_zoom, wp_modify, wp_pure]

@[simp] theorem itable_setInode (f : Fs) (k : Fin NINODE) (ip : Inode) :
    (f.setInode k ip).itable k = ip := update_self ..

@[simp] theorem store_setInode (f : Fs) (k : Fin NINODE) (ip : Inode) :
    (f.setInode k ip).store = f.store := rfl

@[simp] theorem setInode_setInode (f : Fs) (k : Fin NINODE) (ip ip' : Inode) :
    (f.setInode k ip).setInode k ip' = f.setInode k ip' := by
  unfold setInode
  rw [update_idem]

theorem setStore_setInode (f : Fs) (k : Fin NINODE) (ip : Inode) (s : Store) :
    { f.setInode k ip with store := s } = { f with store := s }.setInode k ip := rfl

theorem setInode_self (f : Fs) (k : Fin NINODE) : f.setInode k (f.itable k) = f := by
  unfold setInode
  rw [update_eq_self]

theorem mem_table_find (rep : f.Rep sb a)
    (h : (List.finRange NINODE).find? (fun k => decide (0 < (f.itable k).ref ∧
      (f.itable k).dev = ROOTDEV ∧ (f.itable k).inum = i)) = some k) : (k, i) ∈ a.own := by
  have hk := List.find?_some h
  simp only [decide_eq_true_eq] at hk
  obtain ⟨hpos, -, hinum⟩ := hk
  rw [rep.table.count] at hpos
  obtain ⟨p, hp, rfl⟩ := Multiset.countP_pos.mp (Int.natCast_pos.mp hpos)
  rw [(rep.table.entry p hp).inum] at hinum
  rwa [← hinum]

theorem not_mem_table_find (rep : f.Rep sb a)
    (h : (List.finRange NINODE).find? (fun k => decide (0 < (f.itable k).ref ∧
      (f.itable k).dev = ROOTDEV ∧ (f.itable k).inum = i)) = none) : ∀ p ∈ a.own, p.2 ≠ i := by
  intro p hp heq
  have hk := List.find?_eq_none.mp h p.1 (List.mem_finRange _)
  simp only [decide_eq_true_eq] at hk
  exact hk ⟨rep.table.ref_pos hp, (rep.table.entry p hp).dev, heq ▸ (rep.table.entry p hp).inum⟩

def TableFull (own : Multiset (Fin NINODE × Nat)) : Prop := ∀ k, ∃ i, (k, i) ∈ own

theorem Panic.limit_iget : Panic.Limit .igetNoInodes := .inr (.inr (.inl rfl))

theorem wp_iget {Q : Fin NINODE → Fs → Prop} (rep : f.Rep sb a)
    (post : ∀ k f', f'.Rep sb { a with own := (k, i) ::ₘ a.own } → f'.store = f.store → Q k f')
    (full : TableFull a.own → E .igetNoInodes) : wp (iget ROOTDEV i) Q E f := by
  unfold iget
  simp only [wp_bind, wp_get]
  split
  · rename_i k hfound
    have hk := mem_table_find rep hfound
    have hentry := rep.entry hk
    simp only [wp_bind, wp_set, wp_pure]
    refine post k _ (rep.setTable ?_ rfl rfl) rfl
    exact rep.table.set_more (fun p hp => rep.table.slot_iff hk hp) rfl
      ⟨hentry.inum, hentry.dev, hentry.valid_iff, hentry.locked_iff, hentry.coherent⟩
  · rename_i hmissing
    have hnew := not_mem_table_find rep hmissing
    split
    · rename_i hnone
      refine full fun k => ?_
      have hused : (f.itable k).ref ≠ 0 := by
        simpa using List.find?_eq_none.mp hnone k (List.mem_finRange k)
      by_contra hunused
      refine hused (rep.table.ref_eq_zero_iff.mpr ?_)
      rintro ⟨l, j⟩ hp rfl
      exact hunused ⟨j, hp⟩
    · rename_i k hfree
      have hzero : (f.itable k).ref = 0 := by simpa using List.find?_some hfree
      have hunused := rep.table.ref_eq_zero_iff.mp hzero
      have hvalid : i ∉ a.valid := by
        intro hi
        obtain ⟨l, hl⟩ := rep.table.valid_sub hi
        exact hnew _ hl rfl
      simp only [wp_bind, wp_set, wp_pure]
      refine post k _ (rep.setTable ?_ rfl rfl) rfl
      refine rep.table.set_more (fun p hp => iff_of_false (hunused p hp) (hnew p hp))
        (by simp [hzero]) ⟨rfl, rfl, ?_, ?_, fun hi => absurd hi hvalid⟩
      · simp [hvalid]
      · have hlock : i ∉ a.locks := fun hi => hvalid (rep.table.locks_sub hi)
        simp [hlock, rep.table.idle k hunused]

theorem wp_idup {Q : Fin NINODE → Fs → Prop} (rep : f.Rep sb a) (hk : (k, i) ∈ a.own)
    (post : ∀ f', f'.Rep sb { a with own := (k, i) ::ₘ a.own } → Q k f') : wp (idup k) Q E f := by
  have hentry := rep.entry hk
  unfold idup
  simp only [wp_bind, wp_modify, wp_pure]
  apply post
  refine rep.setTable ?_ rfl rfl
  exact rep.table.set_more (fun p hp => rep.table.slot_iff hk hp) rfl
    ⟨hentry.inum, hentry.dev, hentry.valid_iff, hentry.locked_iff, hentry.coherent⟩

variable {Q : Unit → Fs → Prop} {rest : Multiset (Fin NINODE × Nat)}

theorem wp_ilock (rep : f.Rep sb a) (hk : (k, i) ∈ a.own) (hi : i < sb.ninodes)
    (hlock : i ∉ a.locks) (post : ∀ f' node, a.nodes i = some node →
      f'.Rep sb { a with locks := insert i a.locks, valid := insert i a.valid } →
      f'.store = f.store → Q () f')
    (free : a.nodes i = none → E .ilockNoType) : wp (ilock sb k) Q E f := by
  have hentry := rep.entry hk
  have hpos := rep.table.ref_pos hk
  have hunlocked : ¬ (f.itable k).locked = true := fun h => hlock (hentry.locked_iff.mp h)
  have hinum := hentry.inum
  have hdinode : f.store.dinode sb (f.itable k).inum = (f.store.volume sb).inode i := by
    rw [hinum, Store.volume_inode hi]
  have hadd : ∀ ip : Inode, ip.inum = i → ip.dev = ROOTDEV → ip.valid = true → ip.locked = true →
      ip.ref = (f.itable k).ref → ip.toDinode = (f.store.volume sb).inode i → ip.type ≠ 0 →
      (f.setInode k ip).Rep sb { a with locks := insert i a.locks, valid := insert i a.valid } := by
    intro ip hinum hdev hvalid hlocked href hcoherent htype
    refine rep.setTable ?_ rfl rfl
    refine rep.table.set_same hk rfl href ⟨hinum, hdev, ?_, ?_, fun _ => ⟨hi, hcoherent, htype⟩⟩
      ?_ ?_ (fun _ => Set.mem_insert _ _) (fun _ _ => rfl)
    · simp [hvalid]
    · simp [hlocked]
    · intro j hj
      simp [hj]
    · intro j hj
      simp [hj]
  have hnode : ((f.store.volume sb).inode i).type ≠ 0 →
      a.nodes i = some (((f.store.volume sb).inode i).node ((f.store.volume sb).contents i)) := by
    intro htype
    rw [← rep.nodes_eq]
    exact nodes_of_allocated htype
  unfold ilock
  simp only [wp_bind, wp_get]
  rw [wp_else (by omega), wp_else hunlocked, wp_ite]
  by_cases hvalid : (f.itable k).valid = true
  · rw [if_pos hvalid]
    obtain ⟨-, hcoherent, htype⟩ := hentry.coherent (hentry.valid_iff.mp hvalid)
    exact post _ _ (hnode (hcoherent ▸ htype))
      (hadd _ hinum hentry.dev hvalid rfl rfl hcoherent htype) rfl
  · rw [if_neg hvalid, hdinode]
    simp only [wp_bind, wp_set]
    rw [wp_ite]
    split
    · rename_i htype
      apply free
      rw [← rep.nodes_eq, nodes_eq_none_iff]
      exact fun halloc => halloc htype
    · rename_i htype
      exact post _ _ (hnode htype) (hadd _ hinum hentry.dev rfl rfl rfl rfl htype) rfl

theorem wp_iunlock (rep : f.Rep sb a) (hk : (k, i) ∈ a.own) (hlock : i ∈ a.locks)
    (post : ∀ f', f'.Rep sb { a with locks := a.locks \ {i} } → f'.store = f.store → Q () f') :
    wp (iunlock k) Q E f := by
  have hentry := rep.entry hk
  have hpos := rep.table.ref_pos hk
  have hlocked := hentry.locked_iff.mpr hlock
  unfold iunlock
  simp only [wp_bind, wp_get]
  rw [wp_else (by simp [hlocked]; omega)]
  refine post _ (rep.setTable ?_ rfl rfl) rfl
  refine rep.table.set_same hk rfl rfl
    ⟨hentry.inum, hentry.dev, hentry.valid_iff, ?_, hentry.coherent⟩ (fun _ _ => Iff.rfl) ?_ ?_
    (fun _ _ => rfl)
  · simp
  · intro j hj
    simp [hj]
  · intro hi
    exact absurd rfl hi.2

section Contents

variable {node : Node} {off n : UInt32}
variable (rep : f.Rep sb a) (hk : (k, i) ∈ a.own) (hi : i ∈ a.valid) (hnode : a.nodes i = some node)

include rep hk hi hnode

theorem Rep.node_eq : node = (f.itable k).node ((f.store.volume sb).contents i) := by
  have h := rep.node hk hi
  rw [hnode] at h
  exact Option.some.inj h

theorem Rep.size_eq : (f.itable k).size = node.contents.length := by
  rw [rep.node_eq hk hi hnode, ((rep.entry hk).coherent hi).2.1]
  exact (contents_length _ _).symm

theorem Rep.length_le : node.contents.length ≤ MAXFILE * BSIZE := by
  obtain ⟨-, hdinode, htype⟩ := (rep.entry hk).coherent hi
  have halloc : (f.store.volume sb).allocated i := by
    unfold Volume.allocated
    rwa [← hdinode]
  rw [← rep.size_eq hk hi hnode, hdinode]
  exact rep.mapped.size_le halloc

omit hnode in
theorem wp_readi_frame {Q : Int × List UInt8 → Fs → Prop} {dst : Nat → Bool}
    (post : ∀ r, Q r f) : wp (readi sb k dst off n) Q E f := by
  have hheld := rep.held hk hi
  have hself : { f with store := f.store }.setInode k (f.itable k) = f := setInode_self f k
  unfold readi
  rw [wp_onInode]
  simp only [wp_bind, wp_pure]
  refine Store.wp_readi (by rw [hheld.seen]; exact rep.owned) (hheld.size_lt rep.mapped)
    (by rw [hheld.seen]; exact fun pos _ => hheld.mapped_pos rep.mapped) ?_ ?_
  · intro _
    rw [hself]
    exact post _
  · intro _ _ bytes _
    rw [hself]
    exact post _

theorem wp_readi {Q : Int × List UInt8 → Fs → Prop} (hoff : off.toNat ≤ node.contents.length)
    (hfit : off.toNat + n.toNat < 2 ^ 32)
    (post : ∀ bytes, bytes = (node.contents.drop off.toNat).take n.toNat →
      Q ((bytes.length : Int), bytes) f) : wp (readi sb k (fun _ => true) off n) Q E f := by
  have hinum := (rep.entry hk).inum
  obtain ⟨bytes, hbytes, hrun⟩ := (readiSpec rep.wf (rep.held hk hi) (fun _ => true) off n).inside
    (by rwa [rep.size_eq hk hi hnode]) hfit (fun _ _ => rfl)
  have hcontents : node.contents = (f.store.volume sb).contents i := by
    rw [rep.node_eq hk hi hnode]
    rfl
  unfold readi
  rw [wp_onInode]
  simp only [wp_bind, wp_pure]
  have hgoal : Q ((bytes.length : Int), bytes) f := by
    apply post
    rw [hbytes, hinum, hcontents, List.drop_take, Nat.add_sub_cancel_left]
  have hself : { f with store := f.store }.setInode k (f.itable k) = f := setInode_self f k
  unfold wp
  rw [hrun]
  change Q ((bytes.length : Int), bytes) ({ f with store := f.store }.setInode k (f.itable k))
  rwa [hself]

theorem wp_writei {Q : Int → Fs → Prop} {src : Source}
    (refused : ¬ Store.Accepts node.contents.length off.toNat n.toNat → Q (-1) f)
    (post : ∀ tot total f', Store.Accepts node.contents.length off.toNat n.toNat →
      tot ≤ total → total ≤ n.toNat → (tot = n.toNat ∨ total < n.toNat ∧ src total = none) →
      f'.Rep sb (a.setNode i (some { node with
        contents := (splice node.contents off.toNat (src.bytes total)).take
          (max node.contents.length (off.toNat + tot)) })) →
      Spent sb (metaBlocks sb i) f.store f'.store (2 * chunks off.toNat n.toNat)
        (4 * chunks off.toNat n.toNat) → Q (tot : Int) f')
    (stop : Store.Accepts node.contents.length off.toNat n.toNat → ∀ e,
      Short sb (metaBlocks sb i) f.store (2 * chunks off.toNat n.toNat)
        (4 * chunks off.toNat n.toNat) e → E e) : wp (writei sb k src off n) Q E f := by
  have hinum := (rep.entry hk).inum
  have hheld := rep.held hk hi
  have hsize := rep.size_eq hk hi hnode
  have hnode' := rep.node_eq hk hi hnode
  obtain ⟨hlt, hdinode, htype⟩ := (rep.entry hk).coherent hi
  unfold writei
  rw [wp_onInode]
  by_cases haccepts : Store.Accepts (f.itable k).size off.toNat n.toNat
  · refine Store.wp_writei hheld.inum_lt (by rw [hheld.seen]; exact rep.owned)
      (by rw [hheld.seen]; exact rep.mapped) htype
      (fun c hc => bblock_mem_metaBlocks i hc) (by rw [hinum]; exact iblock_mem_metaBlocks i)
      haccepts ?_ (stop (hsize ▸ haccepts))
    intro tot total addrs ip' s' hip hle htotal hcomplete hstored hvolume htracks hspent _
    rw [hheld.seen, hinum] at hstored
    refine post tot total _ (hsize ▸ haccepts) hle htotal hcomplete (rep.change hk hi
      (wellFormed_iff.mpr ⟨hstored.owned, hstored.mapped⟩) htracks ?_ hstored.inode_ne ?_ ?_ ?_) hspent
    · rw [hstored.nodes (by unfold Volume.allocated; rwa [← hdinode]) hle
        (by rw [← hdinode]; exact haccepts.1), ← hsize, hnode', ← hdinode]
      rfl
    · rw [hip]
      rfl
    · exact dinode_of_seen (by rw [hip]; exact hinum) hvolume
    · rw [hip]
      exact htype
  · rw [Store.writei_refused haccepts, wp_pure]
    have hself : { f with store := f.store }.setInode k (f.itable k) = f := setInode_self f k
    rw [hself]
    exact refused (hsize ▸ haccepts)

theorem wp_itrunc
    (post : ∀ f', f'.Rep sb (a.setNode i (some { node with contents := [] })) → Q () f')
    (stop : ∀ e : Panic, e.Limit → E e) : wp (itrunc sb k) Q E f := by
  have hinum := (rep.entry hk).inum
  have hheld := rep.held hk hi
  have hnode' := rep.node_eq hk hi hnode
  obtain ⟨hlt, hdinode, htype⟩ := (rep.entry hk).coherent hi
  unfold itrunc
  rw [wp_onInode]
  simp only [wp_bind, wp_pure]
  refine Store.wp_itrunc hheld.inum_lt (by rw [hheld.seen]; exact rep.owned) htype
    (fun c hc => bblock_mem_metaBlocks (f.itable k).inum hc) (iblock_mem_metaBlocks _) ?_
    (fun e he => stop e he.limit)
  intro ip' s' hip hemptied hvolume htracks _
  rw [hheld.seen, hinum] at hemptied
  refine post _ (rep.change hk hi
    (wellFormed_iff.mpr ⟨hemptied.owned, hemptied.mapped rep.mapped⟩) htracks ?_
    hemptied.inode_ne ?_ ?_ ?_)
  · rw [hemptied.nodes (by unfold Volume.allocated; rwa [← hdinode]), hnode', ← hdinode]
    rfl
  · rw [hip]
    rfl
  · exact dinode_of_seen (by rw [hip]; exact hinum) hvolume
  · rw [hip]
    exact htype

theorem wp_update {g : Inode → Inode} (hg : g (f.itable k) = { f.itable k with
      major := (g (f.itable k)).major, minor := (g (f.itable k)).minor,
      nlink := (g (f.itable k)).nlink })
    (post : ∀ f', f'.Rep sb (a.setNode i (some ((g (f.itable k)).node node.contents))) → Q () f')
    (stop : ∀ e : Panic, e.Limit → E e) : wp (update sb k g) Q E f := by
  have hinum := (rep.entry hk).inum
  have hnode' := rep.node_eq hk hi hnode
  obtain ⟨hlt, hdinode, htype⟩ := (rep.entry hk).coherent hi
  have hinum' : (g (f.itable k)).inum = i := by
    rw [hg]
    exact hinum
  have htype' : (g (f.itable k)).type = ((f.store.volume sb).inode i).type := by
    rw [hg, ← hdinode]
  have haddrs : (g (f.itable k)).addrs = ((f.store.volume sb).inode i).addrs := by
    rw [hg, ← hdinode]
  have hsize : (g (f.itable k)).size = ((f.store.volume sb).inode i).size := by
    rw [hg, ← hdinode]
  have halloc : (f.store.volume sb).allocated i := by
    unfold Volume.allocated
    rwa [← hdinode]
  have hbound := rep.mapped.size_le halloc
  have hfits : (g (f.itable k)).toDinode.Fits := by
    have h := rep.owned.fits halloc (by simp only [MAXFILE, NDIRECT, NINDIRECT, BSIZE] at hbound; omega)
    exact ⟨by rw [hsize]; exact h.size_lt, by rw [haddrs]; exact h.addrs_lt⟩
  unfold update
  rw [wp_onInode]
  simp only [wp_bind, wp_pure]
  refine Store.wp_iupdate (by rwa [hinum']) hfits (iblock_mem_metaBlocks _) ?_
    (fun e he => stop e he.limit)
  intro s' hvolume htracks _ _
  have hvolume' : s'.volume sb =
      (f.store.volume sb).setInode i (g (f.itable k)).toDinode := by
    rw [hvolume, ← hinum']
    rfl
  refine post _ (rep.change hk hi ?_ htracks ?_ ?_ ?_ ?_ ?_)
  · rw [wellFormed_iff, hvolume']
    exact ⟨rep.owned.setInode_same htype' haddrs, rep.mapped.setInode_same htype' haddrs hsize⟩
  · rw [hvolume', nodes_setInode_same halloc htype' haddrs hsize, hnode']
    rfl
  · intro j hj
    rw [hvolume', inode_setInode_ne hj]
  · rw [hg]
  · rw [hvolume', inode_setInode_self]
  · rw [htype']
    exact halloc

end Contents

theorem wp_iput_keep (rep : f.Rep sb a) (own : a.own = (k, i) ::ₘ rest)
    (hlock : i ∈ a.locks → i ∈ FsView.referenced rest)
    (hkeep : i ∉ a.valid ∨ i ∈ FsView.referenced rest ∨
      ∃ node, a.nodes i = some node ∧ node.nlink ≠ 0)
    (post : ∀ f', f'.Rep sb (a.keep rest) → f'.store = f.store → Q () f') :
    wp (iput sb k) Q E f := by
  have hk : (k, i) ∈ a.own := own ▸ Multiset.mem_cons_self _ _
  have hentry := rep.entry hk
  have hcond : ¬ ((f.itable k).ref = 1 ∧ (f.itable k).valid = true ∧ (f.itable k).nlink = 0) := by
    rintro ⟨href, hvalid, hnlink⟩
    rcases hkeep with hinvalid | ⟨l, hl⟩ | ⟨node, hnode, hlinks⟩
    · exact hinvalid (hentry.valid_iff.mp hvalid)
    · have hmem : (l, i) ∈ a.own := own ▸ Multiset.mem_cons_of_mem hl
      have hlk : l = k := (rep.table.slot_iff hk hmem).mpr rfl
      have hpos : 0 < rest.countP fun p => p.1 = k := Multiset.countP_pos.mpr ⟨(l, i), hl, hlk⟩
      have hcount := countP_cons rest k k i
      rw [rep.table.count, own, hcount, if_pos rfl] at href
      omega
    · apply hlinks
      rw [rep.node_eq hk (hentry.valid_iff.mp hvalid) hnode]
      exact hnlink
  unfold iput
  simp only [wp_bind, wp_get]
  rw [wp_else hcond]
  simp only [wp_modify]
  refine post _ (rep.setTable ?_ rfl rfl) rfl
  refine rep.table.set_less own hlock rfl ?_ hentry.locked_iff.mp (fun _ _ => rfl)
  intro hmem
  have hiff : i ∈ (a.keep rest).valid ↔ i ∈ a.valid := and_iff_left ⟨k, hmem⟩
  exact ⟨hentry.inum, hentry.dev, hentry.valid_iff.trans hiff.symm, hentry.locked_iff,
    fun hi => hentry.coherent hi.1⟩

theorem wp_iput_free {node : Node} (rep : f.Rep sb a) (own : a.own = (k, i) ::ₘ rest)
    (hlock : i ∉ a.locks) (hi : i ∈ a.valid) (hlast : i ∉ FsView.referenced rest)
    (hnode : a.nodes i = some node) (hlinks : node.nlink = 0)
    (post : ∀ f', f'.Rep sb ((a.keep rest).setNode i none) → Q () f')
    (stop : ∀ e : Panic, e.Limit → E e) : wp (iput sb k) Q E f := by
  have hk : (k, i) ∈ a.own := own ▸ Multiset.mem_cons_self _ _
  have hentry := rep.entry hk
  have hinum := hentry.inum
  have hheld := rep.held hk hi
  have hnode' := rep.node_eq hk hi hnode
  obtain ⟨hlt, hdinode, htype⟩ := hentry.coherent hi
  have hunlocked : (f.itable k).locked = false := by
    rw [← Bool.not_eq_true, hentry.locked_iff]
    exact hlock
  have hslot : ∀ p ∈ rest, p.1 ≠ k := by
    intro p hp heq
    have hmem : p ∈ a.own := own ▸ Multiset.mem_cons_of_mem hp
    exact hlast ⟨p.1, (rep.table.slot_iff hk hmem).mp heq ▸ hp⟩
  have hcond : (f.itable k).ref = 1 ∧ (f.itable k).valid = true ∧ (f.itable k).nlink = 0 := by
    refine ⟨?_, hentry.valid_iff.mpr hi, ?_⟩
    · rw [rep.table.count, own, countP_cons, if_pos rfl, Multiset.countP_eq_zero.mpr hslot]
      rfl
    · rw [← hlinks, hnode']
      rfl
  have halloc : (f.store.volume sb).allocated i := by
    unfold Volume.allocated
    rwa [← hdinode]
  unfold iput
  simp only [wp_bind, wp_get]
  rw [wp_then hcond, wp_else (by simp [hunlocked])]
  simp only [wp_bind, itrunc, update, wp_onInode, wp_modify, wp_pure, itable_setInode,
    store_setInode, setStore_setInode, setInode_setInode]
  refine Store.wp_itrunc hheld.inum_lt (by rw [hheld.seen]; exact rep.owned) htype
    (fun c hc => bblock_mem_metaBlocks (f.itable k).inum hc) (iblock_mem_metaBlocks _) ?_
    (fun e he => stop e he.limit)
  intro ip s hip hemptied hvolume htracks _
  rw [hheld.seen, hinum] at hemptied
  subst hip
  refine Store.wp_iupdate hheld.inum_lt ⟨Nat.two_pow_pos 32, fun _ => Nat.two_pow_pos 32⟩
    (iblock_mem_metaBlocks _) ?_ (fun e he => stop e he.limit)
  intro s' hvolume' htracks' _ _
  have hnone : ∀ p, (s.volume sb).hold (i, p) = none := by
    intro p
    apply hold_eq_none_of_addr
    intro l
    rw [hemptied.inode_eq]
    rfl
  have hset : s'.volume sb = (s.volume sb).setInode i
      { (f.itable k).toDinode with addrs := fun _ => 0, size := 0, type := 0 } := by
    rw [hvolume']
    unfold Store.seen
    change (s.volume sb).setInode (f.itable k).inum _ = _
    rw [hinum]
    rfl
  apply post
  refine ⟨?_, htracks'.logReady (htracks.logReady rep.ready), ?_, ?_, ?_⟩
  · change WellFormed sb s'
    rw [wellFormed_iff, hset]
    exact ⟨hemptied.owned.setInode_empty hnone (fun _ => rfl),
      (hemptied.mapped rep.mapped).setInode_empty hnone (fun _ => rfl) rfl⟩
  · change (s'.volume sb).nodes = Function.update a.nodes i none
    rw [hset, nodes_setInode_empty hnone (fun _ => rfl) rfl, if_pos rfl,
      hemptied.nodes halloc, update_idem, rep.nodes_eq]
  · change s'.log.outstanding = a.ops
    rw [htracks'.log, htracks.log]
    exact rep.ops_eq
  · have htable : Table sb (s'.volume sb) (a.keep rest) (Function.update f.itable k
        { f.itable k with addrs := fun _ => 0, size := 0, type := 0, valid := false,
                          ref := (f.itable k).ref - 1 }) := by
      refine rep.table.set_less own (fun hi => absurd hi hlock) ?_ ?_ ?_ ?_
      · rfl
      · exact fun hmem => absurd rfl (hslot _ hmem)
      · exact hentry.locked_iff.mp
      · intro j hj
        rw [hset, inode_setInode_ne hj, hemptied.inode_ne j hj]
    exact ⟨htable.count, fun p hp => (htable.entry p hp).congr Iff.rfl Iff.rfl rfl,
      htable.unique, htable.idle, htable.valid_sub, htable.locks_sub⟩

theorem wp_iput (rep : f.Rep sb a) (own : a.own = (k, i) ::ₘ rest)
    (hlock : i ∈ a.locks → i ∈ FsView.referenced rest)
    (keep : (i ∉ a.valid ∨ i ∈ FsView.referenced rest ∨
      ∃ node, a.nodes i = some node ∧ node.nlink ≠ 0) → ∀ f', f'.Rep sb (a.keep rest) → Q () f')
    (free : ∀ node, i ∈ a.valid → i ∉ FsView.referenced rest → a.nodes i = some node →
      node.nlink = 0 → ∀ f', f'.Rep sb ((a.keep rest).setNode i none) → Q () f')
    (stop : ∀ e : Panic, e.Limit → E e) : wp (iput sb k) Q E f := by
  by_cases hi : i ∈ a.valid
  · by_cases hlast : i ∈ FsView.referenced rest
    · exact wp_iput_keep rep own hlock (.inr (.inl hlast))
        fun f' hrep _ => keep (.inr (.inl hlast)) f' hrep
    · have hk : (k, i) ∈ a.own := own ▸ Multiset.mem_cons_self _ _
      have hnode := rep.node hk hi
      by_cases hlinks : ((f.itable k).node ((f.store.volume sb).contents i)).nlink = 0
      · exact wp_iput_free rep own (fun h => hlast (hlock h)) hi hlast hnode hlinks
          (free _ hi hlast hnode hlinks) stop
      · exact wp_iput_keep rep own hlock (.inr (.inr ⟨_, hnode, hlinks⟩))
          fun f' hrep _ => keep (.inr (.inr ⟨_, hnode, hlinks⟩)) f' hrep
  · exact wp_iput_keep rep own hlock (.inl hi) fun f' hrep _ => keep (.inl hi) f' hrep

theorem wp_iput_back (rep : f.Rep sb { a with own := (k, i) ::ₘ a.own })
    (hvalid : a.valid ⊆ FsView.referenced a.own) (hlocks : a.locks ⊆ a.valid)
    (post : ∀ f', f'.Rep sb a → f'.store = f.store → Q () f') : wp (iput sb k) Q E f := by
  refine wp_iput_keep rep rfl (fun hi => hvalid (hlocks hi)) ?_ ?_
  · by_cases hi : i ∈ a.valid
    · exact .inr (.inl (hvalid hi))
    · exact .inl hi
  · intro f' hrep hstore
    refine post f' ?_ hstore
    unfold FsView.keep at hrep
    dsimp only at hrep
    rwa [Set.inter_eq_left.mpr hvalid] at hrep

theorem wp_ialloc {Q : Fin NINODE → Fs → Prop} {type : BitVec 16} (rep : f.Rep sb a)
    (post : ∀ k i f', 1 ≤ i → i < sb.ninodes → a.nodes i = none →
      f'.Rep sb { (a.setNode i (if type = 0 then none else some
        { type := type, major := 0, minor := 0, nlink := 0, contents := [] })) with
          own := (k, i) ::ₘ a.own } → Q k f')
    (stop : ∀ e : Panic, e.Limit → E e) : wp (ialloc sb ROOTDEV type) Q E f := by
  unfold ialloc onStore
  simp only [wp_bind, wp_zoom]
  refine Store.wp_iallocNum (W := ∅) ?_ (fun _ => stop _ (.inr (.inl rfl)))
    (fun e he => stop e he.limit)
  intro i s hpos hlt hfree hvolume htracks _
  have hnone : a.nodes i = none := by
    rw [← rep.nodes_eq]
    exact nodes_eq_none_iff.mpr hfree
  have hinvalid : i ∉ a.valid := by
    intro hi
    obtain ⟨k, hk⟩ := rep.table.valid_sub hi
    rw [rep.node hk hi] at hnone
    cases hnone
  have hhold : ∀ p, (f.store.volume sb).hold (i, p) = none :=
    fun p => hold_of_not_allocated hfree
  have hrep : Rep sb { f with store := s } (a.setNode i (if type = 0 then none else some
      { type := type, major := 0, minor := 0, nlink := 0, contents := [] })) := by
    refine ⟨?_, htracks.logReady rep.ready, ?_, ?_, ?_⟩
    · rw [wellFormed_iff, hvolume]
      exact ⟨rep.owned.setInode_empty hhold (fun _ => rfl),
        rep.mapped.setInode_empty hhold (fun _ => rfl) rfl⟩
    · rw [hvolume, nodes_setInode_empty hhold (fun _ => rfl) rfl, rep.nodes_eq]
      rfl
    · rw [htracks.log]
      exact rep.ops_eq
    · apply rep.table.setVolume hinvalid
      intro j hj
      rw [hvolume, inode_setInode_ne hj]
  exact wp_iget hrep (fun k f' hrep' _ => post k i f' hpos hlt hnone hrep')
    fun _ => stop _ Panic.limit_iget

theorem Panic.limit_sleep : Panic.Limit .sleepsForever := .inr (.inr (.inr rfl))

theorem wp_beginOp (rep : f.Rep sb a)
    (post : ∀ f', f'.Rep sb { a with ops := a.ops + 1 } →
      f'.store = f.store.setOutstanding (f.store.log.outstanding + 1) → Q () f')
    (stop : LOGSIZE < f.store.log.lh.length + (a.ops + 1) * MAXOPBLOCKS → E .sleepsForever) :
    wp beginOp Q E f := by
  unfold beginOp onStore
  rw [wp_zoom]
  apply Store.wp_beginOp rep.ready
  · refine post _ ?_ rfl
    exact ⟨⟨rep.wf.blocks, rep.wf.reserved⟩, Store.LogReady.setOutstanding rep.ready _, rep.nodes_eq,
      congrArg (· + 1) rep.ops_eq, ⟨rep.table.count,
        fun p hp => (rep.table.entry p hp).congr Iff.rfl Iff.rfl rfl, rep.table.unique,
        rep.table.idle, rep.table.valid_sub, rep.table.locks_sub⟩⟩
  · rwa [rep.ops_eq]

theorem wp_endOp {ops : Int} (rep : f.Rep sb a) (ops_eq : a.ops = ops + 1)
    (post : ∀ f', f'.Rep sb { a with ops := ops } → f'.store.volume sb = f.store.volume sb →
      (ops = 0 → f'.store.log.lh = []) → Q () f') : wp endOp Q E f := by
  unfold endOp onStore
  rw [wp_zoom]
  apply Store.wp_endOp rep.ready
  intro s hvolume hready hops hempty
  rw [rep.ops_eq, ops_eq] at hops hempty
  refine post _ ?_ hvolume fun hzero => hempty (by rw [hzero]; rfl)
  refine ⟨?_, hready, ?_, ?_, ?_⟩
  · rw [wellFormed_iff, hvolume]
    exact ⟨rep.owned, rep.mapped⟩
  · rw [hvolume]
    exact rep.nodes_eq
  · exact hops.trans (add_sub_cancel_right ..)
  · refine ⟨rep.table.count, ?_, rep.table.unique, rep.table.idle, rep.table.valid_sub,
      rep.table.locks_sub⟩
    intro p hp
    exact (rep.table.entry p hp).congr Iff.rfl Iff.rfl (by rw [hvolume])

end Fs

end Xv6
