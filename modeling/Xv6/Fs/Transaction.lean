import Xv6.Log.Crash
import Xv6.Fs.Bmap

/-! Transactions around file system operations. -/
namespace Xv6

open Function
open Lib Lib.Exec

namespace Store

def setOutstanding (s : Store) (outstanding : Int) : Store :=
  { s with log := { s.log with outstanding := outstanding } }

/-- With nobody else running, waiting for a commit or for log space would never end. -/
def beginOp : Exec Store Panic Unit := do
  let s ← get
  if s.log.committing ∨ s.log.lh.length + (s.log.outstanding + 1) * MAXOPBLOCKS > LOGSIZE then
    throw .sleepsForever
  else set (s.setOutstanding (s.log.outstanding + 1))

def endOp : Exec Store Panic Unit := do
  let s ← get
  let s := s.setOutstanding (s.log.outstanding - 1)
  if s.log.committing then throw .logCommitting
  else if s.log.outstanding = 0 then set s.commit
  else set s

end Store

/-- The log as `initlog` and later operations have left it. -/
structure LogReady (sb : Superblock) (s : Store) : Prop where
  start_eq : s.log.start = sb.logstart
  size_eq : s.log.size = sb.nlog
  nodup : s.log.lh.Nodup
  home : ∀ b ∈ s.log.lh, sb.Home b
  short : s.log.lh.length ≤ LOGSIZE
  fits : s.log.lh = [] ∨ s.log.lh.length + 1 ≤ sb.nlog
  idle : s.log.committing = false

variable {sb : Superblock} {s s' : Store} {loose : Set Nat} {b : Nat}

theorem Tracks.logReady (h : Tracks sb loose s s') (ready : LogReady sb s) : LogReady sb s' where
  start_eq := by
    rw [h.log]
    exact ready.start_eq
  size_eq := by
    rw [h.log]
    exact ready.size_eq
  nodup := h.nodup ready.nodup
  home b hb := (h.home b hb).elim (ready.home b) id
  short := by
    rcases h.fits with heq | ⟨hshort, -⟩
    · rw [heq]
      exact ready.short
    · exact hshort
  fits := by
    rcases h.fits with heq | ⟨-, hfits⟩
    · rw [heq]
      exact ready.fits
    · exact .inr (ready.size_eq ▸ hfits)
  idle := by
    rw [h.log]
    exact ready.idle

theorem LogReady.committable (ready : LogReady sb s) (hne : s.log.lh ≠ []) :
    s.log.Committable where
  nonempty := List.length_pos_of_ne_nil hne
  room := by
    have hshort := ready.short
    have hfits := ready.fits.resolve_left hne
    rw [ready.size_eq]
    omega
  distinct := ready.nodup
  uint c hc := by
    have hhome := (ready.home c hc).2
    have hsize := sb.size_lt
    omega
  outside c hc := by
    have hhome := (ready.home c hc).1
    have hregion := sb.log_le
    rw [ready.start_eq, ready.size_eq]
    omega

namespace Store

theorem apply_same {writes : List (Nat × Block)} {store : Nat → Block}
    (h : ∀ w ∈ writes, w.1 = b → w.2 = store b) : Writes.apply store writes b = store b := by
  apply Writes.apply_of_preserved (P := fun current => current b = store b) _ rfl
  intro w hw current hcurrent
  by_cases hb : b = w.1
  · rw [hb, update_self, ← hb]
    exact h w hw hb.symm
  · rw [update_of_ne hb, hcurrent]

theorem commit_buf (ready : s.log.Committable)
    (hb : b < s.log.start ∨ s.log.start + s.log.size ≤ b) : s.commit.buf b = s.buf b := by
  have hroom := ready.room_size
  have hpos : s.log.lh.length > 0 := ready.nonempty
  let header := (s.buf s.log.start).setHead s.log.lh
  let logged := Writes.apply s.buf (logWrites s.log s.buf ++ [(s.log.start, header)])
  have hlogged : logged b = s.buf b := by
    apply Writes.apply_untouched
    intro w hw
    rcases List.mem_append.mp hw with hw | hw
    · obtain ⟨p, hp, rfl⟩ := List.mem_map.mp hw
      have hlog := (mem_logPairs hp).2
      change p.2 ≠ b
      omega
    · rw [List.mem_singleton.mp hw]
      change s.log.start ≠ b
      omega
  have hinstalled : Writes.apply logged
      (((logPairs s.log).map Prod.swap).map fun p => (p.2, logged p.1)) b = logged b := by
    apply apply_same
    intro w hw hwb
    obtain ⟨q, hq, rfl⟩ := List.mem_map.mp hw
    obtain ⟨p, hp, rfl⟩ := List.mem_map.mp hq
    change logged p.2 = logged b
    have hhome : p.1 = b := hwb
    rw [hlogged, ← hhome]
    exact logged_apply _ _ _ _ hp
  have hstart : b ≠ s.log.start := by omega
  unfold commit
  rw [if_pos hpos, writeLogHead_eq ready, installTrans_eq, moves_eq ready.apart_swap]
  change update (Writes.apply logged
    (((logPairs s.log).map Prod.swap).map fun p => (p.2, logged p.1))) s.log.start _ b = s.buf b
  rw [update_of_ne hstart, hinstalled, hlogged]

theorem commit_log (ready : s.log.Committable) : s.commit.log = { s.log with lh := [] } := by
  have hpos : s.log.lh.length > 0 := ready.nonempty
  unfold commit
  rw [if_pos hpos, writeLogHead_eq ready, installTrans_eq, moves_eq ready.apart_swap]
  rfl

theorem commit_of_empty (h : s.log.lh = []) : s.commit = s := by
  unfold commit
  rw [if_neg (by simp [h])]

/-- To the file system a commit is invisible. -/
theorem volume_commit (ready : LogReady sb s) : s.commit.volume sb = s.volume sb := by
  by_cases hempty : s.log.lh = []
  · rw [commit_of_empty hempty]
  have hbuf : ∀ b, sb.inodestart ≤ b → s.commit.buf b = s.buf b := by
    intro b hb
    apply commit_buf (ready.committable hempty)
    have hregion := sb.log_le
    rw [ready.start_eq, ready.size_eq]
    omega
  have hinode := sb.inodestart_lt_bmapstart
  have hbmap := sb.bmapstart_lt_dataStart
  apply volume_congr
  · intro i hi
    unfold dinode
    rw [hbuf _ (sb.home_iblock hi).1]
  · intro b hb
    exact hbuf b (by omega)
  · intro b hb
    exact used_congr (hbuf _ (sb.home_bblock hb).1)

theorem logReady_commit (ready : LogReady sb s) : LogReady sb s.commit := by
  by_cases hempty : s.log.lh = []
  · rw [commit_of_empty hempty]
    exact ready
  have hlog := commit_log (ready.committable hempty)
  refine ⟨?_, ?_, ?_, ?_, ?_, ?_, ?_⟩
  · rw [hlog]
    exact ready.start_eq
  · rw [hlog]
    exact ready.size_eq
  · rw [hlog]
    exact List.nodup_nil
  · intro b hb
    rw [hlog] at hb
    cases hb
  · rw [hlog]
    exact Nat.zero_le _
  · exact .inl (by rw [hlog])
  · rw [hlog]
    exact ready.idle

theorem outstanding_commit (ready : LogReady sb s) :
    s.commit.log.outstanding = s.log.outstanding := by
  by_cases hempty : s.log.lh = []
  · rw [commit_of_empty hempty]
  · rw [commit_log (ready.committable hempty)]

theorem lh_commit (ready : LogReady sb s) : s.commit.log.lh = [] := by
  by_cases hempty : s.log.lh = []
  · rw [commit_of_empty hempty, hempty]
  · rw [commit_log (ready.committable hempty)]

theorem LogReady.setOutstanding (ready : LogReady sb s) (outstanding : Int) :
    LogReady sb (s.setOutstanding outstanding) :=
  ⟨ready.start_eq, ready.size_eq, ready.nodup, ready.home, ready.short, ready.fits, ready.idle⟩

variable {Q : Unit → Store → Prop}

theorem wp_beginOp {E : Panic → Prop} (ready : LogReady sb s)
    (post : Q () (s.setOutstanding (s.log.outstanding + 1)))
    (stop : LOGSIZE < s.log.lh.length + (s.log.outstanding + 1) * MAXOPBLOCKS → E .sleepsForever) :
    wp beginOp Q E s := by
  unfold beginOp
  simp only [wp_bind, wp_get]
  rw [wp_ite]
  split
  · rename_i hwait
    exact stop (hwait.resolve_left (by simp [ready.idle]))
  · exact post

theorem wp_endOp {E : Panic → Prop} (ready : LogReady sb s)
    (post : ∀ s', s'.volume sb = s.volume sb → LogReady sb s' →
      s'.log.outstanding = s.log.outstanding - 1 →
      (s.log.outstanding = 1 → s'.log.lh = []) → Q () s') : wp endOp Q E s := by
  have hready := LogReady.setOutstanding ready (s.log.outstanding - 1)
  have hidle : ¬ (s.setOutstanding (s.log.outstanding - 1)).log.committing = true := by
    rw [hready.idle]
    exact Bool.false_ne_true
  unfold endOp
  simp only [wp_bind, wp_get]
  rw [wp_else hidle, wp_ite]
  split
  · exact post _ (volume_commit hready) (logReady_commit hready) (outstanding_commit hready)
      fun _ => lh_commit hready
  · rename_i hmore
    exact post _ rfl hready rfl fun hlast => absurd (Int.sub_eq_zero.mpr hlast) hmore

end Store

end Xv6
