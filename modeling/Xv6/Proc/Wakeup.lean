import Xv6.Proc.Scheduling

/-! No wakeup is lost: `sleep` keeps the process's lock, which `wakeup` takes. -/
namespace Xv6.Machine

open Function (update update_eq_self update_of_ne update_self)

variable {C L K : Type}

/-- Past the release in `sleep`, and not woken since. -/
def Asleep (g : State C L K) (q : Slot) (chan : Chan K) : Prop :=
  (g.thread q).pc = .sleepSched chan ∨
    ((g.thread q).pc = .sleepTidy chan ∧ (g.proc q).state = .sleeping)

def ZombieOf (g : State C L K) (q p : Slot) : Prop :=
  (g.proc q).state = .zombie ∧ (g.proc q).parent = some p

/-- The caller of `wakeup` holds the lock of the channel. -/
def After.Guards (guard : K → L) : Chan K → After L → Prop
  | .other k, .kernel held => guard k ∈ held
  | .proc _, .reparent .. | .proc _, .exitZombie _ => True
  | _, _ => False

/-- What a process has seen of sleepers and zombies under a lock that it still holds. -/
def Knows (guard : K → L) (g : State C L K) (p : Slot) : Pc L K → Prop
  | .wakeup chan i after =>
    (∀ q : Slot, q.val < i → q ≠ p → ¬Asleep g q chan) ∧ after.Guards guard chan ∧
      ∀ status r, after = .exitZombie status → (g.proc p).parent = some r → chan = .proc r
  | .waitScan i _ => ∀ q : Slot, q.val < i → ¬ZombieOf g q p
  | .sleepAcquire (.proc r) | .sleepRelease (.proc r) => r = p ∧ ∀ q, ¬ZombieOf g q p
  | .sleepSched (.proc r) | .sleepTidy (.proc r) | .sleepReacquire (.proc r) => r = p
  | .exitZombie _ => ∀ r, (g.proc p).parent = some r → ¬Asleep g r (.proc r)
  | _ => True

structure Alert (guard : K → L) (g : State C L K) : Prop where
  knows : ∀ p, Knows guard g p (g.thread p).pc
  /-- Only `initproc` can be, while who handed it the child is about to wake it. -/
  waiting : ∀ p q, ZombieOf g q p → Asleep g p (.proc p) →
    p = initproc ∧ ∃ w after, (g.thread w).pc = .wakeup (.proc initproc) 0 after

variable {guard : K → L} {g next : State C L K} {event : Event C L K} {result : Option Return}
  {act : Act L K} {sit : Slot → Situation C} {c : C} {p q np : Slot} {pc pc' : Pc L K}
  {x : Proc C K} {t : Thread L K} {chan : Chan K}

/-- What is known under a lock stays known. -/
theorem Knows.mono (h : Knows guard g p pc)
    (wait : pc.waitLock = true →
      (∀ q r, Asleep next q (.proc r) → Asleep g q (.proc r)) ∧
      (∀ q, ZombieOf next q p → ZombieOf g q p) ∧
      (next.proc p).parent = (g.proc p).parent)
    (other : ∀ k q, guard k ∈ pc.held guard → Asleep next q (.other k) → Asleep g q (.other k)) :
    Knows guard next p pc := by
  cases pc with
  | wakeup chan i after =>
    obtain ⟨hasleep, hguards, hparent⟩ := h
    cases chan with
    | other k =>
      cases after with
      | kernel held =>
        refine ⟨fun q hi hq hnext => hasleep q hi hq (other k q hguards hnext), hguards, nofun⟩
      | reparent i status => exact hguards.elim
      | exitZombie status => exact hguards.elim
    | proc r =>
      have hlock : (Pc.wakeup (.proc r) i after : Pc L K).waitLock = true := by
        cases after with
        | kernel held => exact hguards.elim
        | reparent i status => rfl
        | exitZombie status => rfl
      obtain ⟨hold, -, hsame⟩ := wait hlock
      refine ⟨fun q hi hq hnext => hasleep q hi hq (hold q r hnext), hguards, ?_⟩
      intro status r' hafter hr'
      exact hparent status r' hafter (hsame ▸ hr')
  | waitScan i havekids =>
    intro q hi hnext
    exact h q hi ((wait rfl).2.1 q hnext)
  | sleepAcquire chan =>
    cases chan with
    | proc r => exact ⟨h.1, fun q hnext => h.2 q ((wait rfl).2.1 q hnext)⟩
    | other k => trivial
  | sleepRelease chan =>
    cases chan with
    | proc r => exact ⟨h.1, fun q hnext => h.2 q ((wait rfl).2.1 q hnext)⟩
    | other k => trivial
  | exitZombie status =>
    intro r hr hnext
    obtain ⟨hold, -, hsame⟩ := wait rfl
    exact h r (hsame ▸ hr) (hold r r hnext)
  | sleepSched chan => cases chan <;> exact h
  | sleepTidy chan => cases chan <;> exact h
  | sleepReacquire chan => cases chan <;> exact h
  | _ => trivial

/-- One process moves; nobody falls asleep or becomes a zombie. -/
structure Calm (g next : State C L K) (p : Slot) : Prop where
  asleep : ∀ q chan, Asleep next q chan → Asleep g q chan
  zombie : ∀ q r, ZombieOf next q r → ZombieOf g q r
  parent : ∀ q, q ≠ p → (g.thread q).pc.waitLock = true →
    (next.proc q).parent = (g.proc q).parent

/-- Only what the mover knows at its new place is left to show. -/
theorem Alert.calm (h : Alert guard g) (hthread : next.thread = update g.thread p t)
    (hcalm : Calm g next p) (knows : Knows guard next p t.pc)
    (woken : ∀ after, (g.thread p).pc = .wakeup (.proc initproc) 0 after →
      ¬Asleep next initproc (.proc initproc)) : Alert guard next := by
  have hother : ∀ r, r ≠ p → next.thread r = g.thread r := fun r hr => by
    rw [hthread, update_of_ne hr]
  refine ⟨fun r => ?_, fun r q hzombie hasleep => ?_⟩
  · obtain rfl | hr := eq_or_ne r p
    · rw [hthread, update_self]
      exact knows
    · rw [hother r hr]
      exact (h.knows r).mono
        (fun hlock => ⟨fun q r' => hcalm.asleep q _, fun q => hcalm.zombie q r,
          hcalm.parent r hr hlock⟩) fun k q _ => hcalm.asleep q _
  · obtain ⟨hinit, w, after, hw⟩ :=
      h.waiting r q (hcalm.zombie q r hzombie) (hcalm.asleep r _ hasleep)
    subst hinit
    have hwp : w ≠ p := by
      rintro rfl
      exact woken after hw hasleep
    exact ⟨rfl, w, after, by rw [hother w hwp]; exact hw⟩

theorem Alert.stay (h : Alert guard g) (hthread : next.thread = update g.thread p t)
    (hcalm : Calm g next p) (hparent : (next.proc p).parent = (g.proc p).parent)
    (hpc : t.pc = (g.thread p).pc) : Alert guard next := by
  have hknows : ∀ r, Knows guard next r (g.thread r).pc := fun r => by
    refine (h.knows r).mono (fun hlock => ⟨fun q r' => hcalm.asleep q _, fun q => hcalm.zombie q r, ?_⟩)
      fun k q _ => hcalm.asleep q _
    obtain rfl | hr := eq_or_ne r p
    · exact hparent
    · exact hcalm.parent r hr hlock
  have hsame : ∀ r, (next.thread r).pc = (g.thread r).pc := fun r => by
    rw [hthread]
    obtain rfl | hr := eq_or_ne r p
    · rw [update_self]
      exact hpc
    · rw [update_of_ne hr]
  refine ⟨fun r => by rw [hsame r]; exact hknows r, fun r q hzombie hasleep => ?_⟩
  obtain ⟨hinit, w, after, hw⟩ :=
    h.waiting r q (hcalm.zombie q r hzombie) (hcalm.asleep r _ hasleep)
  exact ⟨hinit, w, after, by rw [hsame w]; exact hw⟩

/-- The change puts nobody to sleep and leaves no zombie. -/
theorem Calm.of_update (hproc : next.proc = update g.proc q x)
    (hthread : next.thread = update g.thread p t)
    (sleeping : x.state = .sleeping → (g.proc q).state = .sleeping)
    (zombie : x.state = .zombie → (g.proc q).state = .zombie)
    (parent : x.parent = (g.proc q).parent ∨
      (x.state ≠ .zombie ∧ (g.thread q).pc.waitLock = false))
    (sched : ∀ chan, t.pc = .sleepSched chan → (g.thread p).pc = .sleepSched chan)
    (tidy : ∀ chan, t.pc = .sleepTidy chan → (g.thread p).pc = .sleepTidy chan) :
    Calm g next p := by
  have hself : next.proc q = x := by rw [hproc, update_self]
  have hother : ∀ r, r ≠ q → next.proc r = g.proc r := fun r hr => by
    rw [hproc, update_of_ne hr]
  have hsleeping : ∀ r, (next.proc r).state = .sleeping → (g.proc r).state = .sleeping := by
    intro r hr
    obtain rfl | hrq := eq_or_ne r q
    · rw [hself] at hr
      exact sleeping hr
    · rwa [hother r hrq] at hr
  refine ⟨?_, ?_, ?_⟩
  · intro r chan hr
    obtain rfl | hrp := eq_or_ne r p
    · rcases hr with hr | ⟨hr, hstate⟩
      · rw [hthread, update_self] at hr
        exact .inl (sched chan hr)
      · rw [hthread, update_self] at hr
        exact .inr ⟨tidy chan hr, hsleeping r hstate⟩
    · rcases hr with hr | ⟨hr, hstate⟩
      · rw [hthread, update_of_ne hrp] at hr
        exact .inl hr
      · rw [hthread, update_of_ne hrp] at hr
        exact .inr ⟨hr, hsleeping r hstate⟩
  · rintro r s ⟨hstate, hs⟩
    obtain rfl | hrq := eq_or_ne r q
    · rw [hself] at hstate hs
      rcases parent with hsame | ⟨hne, -⟩
      · exact ⟨zombie hstate, hsame ▸ hs⟩
      · exact absurd hstate hne
    · rw [hother r hrq] at hstate hs
      exact ⟨hstate, hs⟩
  · intro r _ hlock
    obtain rfl | hrq := eq_or_ne r q
    · rw [hself]
      rcases parent with hsame | ⟨-, hfree⟩
      · exact hsame
      · cases hfree.symm.trans hlock
    · rw [hother r hrq]

theorem Calm.goto (hproc : next.proc = g.proc)
    (hthread : next.thread = update g.thread p { pc := pc' })
    (sched : ∀ chan, pc' ≠ .sleepSched chan) (tidy : ∀ chan, pc' ≠ .sleepTidy chan) :
    Calm g next p :=
  .of_update (q := p) (hproc.trans (update_eq_self p g.proc).symm) hthread id id
    (.inl rfl) (fun chan hpc => absurd hpc (sched chan)) fun chan hpc => absurd hpc (tidy chan)

theorem Proc.wake_calm [DecidableEq K] (x : Proc C K) (chan : Chan K) :
    ((x.wake chan).state = .sleeping → x.state = .sleeping) ∧
      ((x.wake chan).state = .zombie → x.state = .zombie) ∧ (x.wake chan).parent = x.parent := by
  unfold Proc.wake
  split
  · exact ⟨nofun, nofun, rfl⟩
  · exact ⟨id, id, rfl⟩

theorem Proc.kill_calm (x : Proc C K) :
    (x.kill.state = .sleeping → x.state = .sleeping) ∧
      (x.kill.state = .zombie → x.state = .zombie) := by
  rcases x.kill_state with hsame | ⟨-, hrunnable⟩
  · exact ⟨fun h => hsame ▸ h, fun h => hsame ▸ h⟩
  · rw [hrunnable]
    exact ⟨nofun, nofun⟩

theorem not_asleep_of_pc (hpc : (g.thread q).pc = pc) (sched : ∀ chan, pc ≠ .sleepSched chan)
    (tidy : ∀ chan, pc ≠ .sleepTidy chan) : ¬Asleep g q chan := by
  rintro (h | ⟨h, -⟩)
  · exact sched chan (hpc.symm.trans h)
  · exact tidy chan (hpc.symm.trans h)

theorem Situated.chan_of_asleep (h : Situated guard g sit) (hasleep : Asleep g q chan)
    (lock : (g.proc q).lock = none) :
    (g.proc q).state = .sleeping ∧ (g.proc q).chan = some chan := by
  rcases hasleep with hpc | ⟨hpc, hstate⟩
  · -- before `sched` a process holds its own lock
    exfalso
    have hfits := h.fits q
    cases hsit : sit q <;> rw [hsit] at hfits
    case free =>
      rcases hfits.2.2.2 with hfree | hfree <;> cases hpc.symm.trans hfree
    case copied =>
      rw [hfits.2.2] at hpc
      cases hpc
    case embryo =>
      rw [hfits.2.2] at hpc
      cases hpc
    case ready =>
      rcases hfits.2.2 with ⟨-, hon⟩ | ⟨-, hres | ⟨chan', hres⟩⟩
      · rw [hpc] at hon
        cases hon
      · cases hpc.symm.trans hres
      · cases hpc.symm.trans hres
    case on c =>
      have hown : (g.thread q).ownLock = true := by
        rw [Thread.ownLock, hpc]
        exact Bool.or_true _
      have hlock := hfits.2.1
      rw [hown] at hlock
      cases lock.symm.trans hlock
    case leaving c => cases lock.symm.trans hfits.1
    case asleep =>
      obtain ⟨-, -, chan', hthread, -⟩ := hfits
      rw [hthread] at hpc
      cases hpc
    case dead =>
      rw [hfits.2.2] at hpc
      cases hpc
  · have hsit := (h.fits q).sleeping hstate lock
    have hfits := h.fits q
    rw [hsit] at hfits
    obtain ⟨-, -, chan', hthread, hchan⟩ := hfits
    rw [hthread] at hpc
    cases hpc
    exact ⟨hstate, hchan⟩

theorem Situated.woken [DecidableEq K] (h : Situated guard g sit) (lock : (g.proc q).lock = none)
    (hproc : next.proc q = (g.proc q).wake chan) (hthread : next.thread q = g.thread q) :
    ¬Asleep next q chan := by
  intro hnext
  have hold : Asleep g q chan := by
    rcases hnext with hpc | ⟨hpc, hstate⟩
    · exact .inl (hthread ▸ hpc)
    · exact .inr ⟨hthread ▸ hpc, ((g.proc q).wake_calm chan).1 (hproc ▸ hstate)⟩
  have hsleeps := h.chan_of_asleep hold lock
  have hwake : (next.proc q).state = .runnable := by
    rw [hproc, Proc.wake, if_pos hsleeps]
  rcases hnext with hpc | ⟨-, hstate⟩
  · -- it was `SLEEPING`, so past `sched`
    rw [hthread] at hpc
    have hsit := (h.fits q).sleeping hsleeps.1 lock
    have hfits := h.fits q
    rw [hsit] at hfits
    obtain ⟨-, -, chan', ht, -⟩ := hfits
    rw [ht] at hpc
    cases hpc
  · cases hwake.symm.trans hstate

namespace Alert

section

variable (h : Alert guard g)

include h

theorem goto (hproc : next.proc = g.proc) (hthread : next.thread = update g.thread p { pc := pc' })
    (sched : ∀ chan, pc' ≠ .sleepSched chan) (tidy : ∀ chan, pc' ≠ .sleepTidy chan)
    (knows : Knows guard next p pc')
    (woken : ∀ after, (g.thread p).pc ≠ .wakeup (.proc initproc) 0 after) : Alert guard next :=
  h.calm hthread (.goto hproc hthread sched tidy) knows fun after hpc => absurd hpc (woken after)

theorem still (hproc : next.proc = update g.proc q x) (hthread : next.thread = g.thread)
    (sleeping : x.state = .sleeping → (g.proc q).state = .sleeping)
    (zombie : x.state = .zombie → (g.proc q).state = .zombie)
    (parent : x.parent = (g.proc q).parent) : Alert guard next := by
  have hthread' : next.thread = update g.thread q (g.thread q) :=
    hthread.trans (update_eq_self q g.thread).symm
  refine h.stay hthread' (.of_update hproc hthread' sleeping zombie (.inl parent)
    (fun _ => id) fun _ => id) ?_ rfl
  rw [hproc, update_self]
  exact parent

theorem move (here : At g c p pc) (moves : Move guard g p act pc pc' result) :
    Alert guard (g.goto p pc') := by
  have hold := h.knows p
  rw [here.thread] at hold
  have hcalm : Calm g (g.goto p pc') p := by
    refine .goto rfl rfl ?_ ?_ <;> intro chan heq <;> cases moves <;>
      first | cases heq | (rename_i after _; cases after <;> cases heq)
  have hself : ((g.goto p pc').thread p).pc = pc' := by
    simp [State.goto, State.setThread]
  refine h.calm rfl hcalm ?_ ?_
  · cases moves with
    | callWakeup k held holds => exact ⟨fun q hq => absurd hq (Nat.not_lt_zero _), holds, (by simp)⟩
    | wakeupSelf chan i after self =>
      refine ⟨fun q hi hq hnext => ?_, hold.2.1, hold.2.2⟩
      have hne : q.val ≠ p.val := fun heq => hq (Fin.ext heq)
      exact hold.1 q (by omega) hq (hcalm.asleep q chan hnext)
    | wakeupDone chan i after done =>
      cases after with
      | kernel held => trivial
      | reparent i status => trivial
      | exitZombie status =>
        intro r hr hnext
        have hchan := hold.2.2 status r rfl hr
        subst hchan
        have hrp : r ≠ p := by
          rintro rfl
          exact not_asleep_of_pc hself (by rintro _ ⟨⟩) (by rintro _ ⟨⟩) hnext
        exact hold.1 r (by have hlt := r.isLt; omega) hrp (hcalm.asleep r _ hnext)
    | exitWake i status parent done known =>
      refine ⟨fun q hq => absurd hq (Nat.not_lt_zero _), trivial, ?_⟩
      intro status' r _ hr
      have hparent : some parent = some r := known.symm.trans hr
      cases hparent
      rfl
    | exitOrphan i status done orphan =>
      intro r hr
      cases orphan.symm.trans hr
    | waitOther q havekids other =>
      rintro r hr ⟨hstate, hparent⟩
      obtain rfl | hrq := eq_or_ne r q
      · exact other hparent
      · have hne : r.val ≠ q.val := fun heq => hrq (Fin.ext heq)
        exact hold r (by omega) ⟨hstate, hparent⟩
    | waitAlive q havekids child alive =>
      rintro r hr ⟨hstate, hparent⟩
      obtain rfl | hrq := eq_or_ne r q
      · exact alive hstate
      · have hne : r.val ≠ q.val := fun heq => hrq (Fin.ext heq)
        exact hold r (by omega) ⟨hstate, hparent⟩
    | waitSleep i done =>
      exact ⟨rfl, fun r hr => hold r (by have hlt := r.isLt; omega) hr⟩
    | _ => trivial
  · -- a visit to slot 0 that does not wake it is one of `initproc` itself
    intro after hpc
    rw [here.thread] at hpc
    cases moves with
    | wakeupSelf chan i after' self =>
      cases hpc
      obtain rfl : p = initproc := Fin.ext self.symm
      exact not_asleep_of_pc hself (by simp) (by simp)
    | wakeupDone chan i after' done =>
      cases hpc
      exact absurd done (by decide)
    | _ => cases hpc

theorem wakeupVisit [DecidableEq K] (hsit : Situated guard g sit) {after : After L}
    (here : At g c p (.wakeup chan q.val after)) (other : q ≠ p) (lock : (g.proc q).lock = none) :
    Alert guard ((g.setProc q ((g.proc q).wake chan)).goto p (.wakeup chan (q.val + 1) after)) := by
  have hold := h.knows p
  rw [here.thread] at hold
  have hwake := (g.proc q).wake_calm chan
  have hcalm : Calm g ((g.setProc q ((g.proc q).wake chan)).goto p
      (.wakeup chan (q.val + 1) after)) p :=
    .of_update rfl rfl hwake.1 hwake.2.1 (.inl hwake.2.2) nofun nofun
  have hwoken : ¬Asleep ((g.setProc q ((g.proc q).wake chan)).goto p
      (.wakeup chan (q.val + 1) after)) q chan :=
    hsit.woken lock (update_self ..) (update_of_ne other _ _)
  refine h.calm rfl hcalm ⟨fun r hr hrp hnext => ?_, hold.2.1, ?_⟩ ?_
  · obtain rfl | hrq := eq_or_ne r q
    · exact hwoken hnext
    · have hne : r.val ≠ q.val := fun heq => hrq (Fin.ext heq)
      exact hold.1 r (by omega) hrp (hcalm.asleep r chan hnext)
  · intro status r hafter hr
    refine hold.2.2 status r hafter ?_
    simpa [State.goto, State.setThread, State.setProc, update_of_ne other.symm] using hr
  · intro after' hpc
    rw [here.thread] at hpc
    have hq : q = initproc := by
      have hi : q.val = 0 := by
        injection hpc
      exact Fin.ext hi
    have hchan : chan = .proc initproc := by
      injection hpc
    subst hq hchan
    exact hwoken

/-- A process without `wait_lock` falls asleep and gives up its lock. -/
theorem fallAsleep (hproc : next.proc = g.proc)
    (hthread : next.thread = update g.thread p { pc := .sleepSched chan })
    (own : ∀ r, chan = .proc r → r = p ∧ ∀ q, ¬ZombieOf g q p)
    (before : ∀ after, (g.thread p).pc ≠ .wakeup (.proc initproc) 0 after)
    (wait : ∀ r, chan = .proc r → ∀ q, q ≠ p → (g.thread q).pc.waitLock = false)
    (lock : ∀ k, chan = .other k → ∀ q, q ≠ p → guard k ∉ (g.thread q).pc.held guard) :
    Alert guard next := by
  have hself : next.thread p = { pc := .sleepSched chan } := by rw [hthread, update_self]
  have hother : ∀ r, r ≠ p → next.thread r = g.thread r := fun r hr => by
    rw [hthread, update_of_ne hr]
  have hasleep : ∀ q chan', Asleep next q chan' → (q = p ∧ chan' = chan) ∨ Asleep g q chan' := by
    intro q chan' hq
    obtain rfl | hqp := eq_or_ne q p
    · rcases hq with hq | ⟨hq, -⟩
      · rw [hself] at hq
        cases hq
        exact .inl ⟨rfl, rfl⟩
      · rw [hself] at hq
        cases hq
    · rcases hq with hq | ⟨hq, hstate⟩
      · exact .inr (.inl (hother q hqp ▸ hq))
      · exact .inr (.inr ⟨hother q hqp ▸ hq, hproc ▸ hstate⟩)
  have hzombie : ∀ q r, ZombieOf next q r → ZombieOf g q r := by
    rintro q r ⟨hstate, hparent⟩
    exact ⟨hproc ▸ hstate, hproc ▸ hparent⟩
  refine ⟨fun r => ?_, fun r q hzombie' hr => ?_⟩
  · obtain rfl | hrp := eq_or_ne r p
    · rw [hself]
      cases chan with
      | proc r' => exact (own r' rfl).1
      | other k => trivial
    · rw [hother r hrp]
      refine (h.knows r).mono (fun hlock => ⟨fun q r' hq => ?_, fun q => hzombie q r, by rw [hproc]⟩)
        fun k q hheld hq => ?_
      · rcases hasleep q _ hq with ⟨-, hchan⟩ | hold
        · cases (wait r' hchan.symm r hrp).symm.trans hlock
        · exact hold
      · rcases hasleep q _ hq with ⟨-, hchan⟩ | hold
        · exact absurd hheld (lock k hchan.symm r hrp)
        · exact hold
  · rcases hasleep r _ hr with ⟨rfl, hchan⟩ | hold
    · exact absurd (hzombie q r hzombie') ((own r hchan.symm).2 q)
    · obtain ⟨hinit, w, after, hw⟩ := h.waiting r q (hzombie q r hzombie') hold
      have hwp : w ≠ p := by
        rintro rfl
        exact before after hw
      exact ⟨hinit, w, after, by rw [hother w hwp]; exact hw⟩

theorem sleepSched [DecidableEq C] (here : At g c p (.sleepSched chan)) :
    Alert guard (((g.setProc p { g.proc p with chan := some chan, state := .sleeping }).goto p
      (.sleepTidy chan)).swtch c p) := by
  have hold := h.knows p
  rw [here.thread] at hold
  have hself : Asleep g p chan := .inl (by rw [here.thread])
  refine h.calm (p := p) rfl ⟨fun q chan' hq => ?_, ?_, fun q hq _ => ?_⟩ ?_ ?_
  · obtain rfl | hqp := eq_or_ne q p
    · rcases hq with hq | ⟨hq, -⟩
      · simp [State.swtch, State.setCpu, State.goto, State.setThread] at hq
      · have hchan : chan = chan' := by
          simpa [State.swtch, State.setCpu, State.goto, State.setThread] using hq
        subst hchan
        exact hself
    · simpa [Asleep, State.swtch, State.setCpu, State.goto, State.setThread, State.setProc,
        update_of_ne hqp] using hq
  · rintro q r ⟨hstate, hparent⟩
    obtain rfl | hqp := eq_or_ne q p
    · simp [State.swtch, State.setCpu, State.goto, State.setThread, State.setProc] at hstate
    · simp only [State.swtch, State.setCpu, State.goto, State.setThread, State.setProc,
        update_of_ne hqp] at hstate hparent
      exact ⟨hstate, hparent⟩
  · simp only [State.swtch, State.setCpu, State.goto, State.setThread, State.setProc,
      update_of_ne hq]
  · cases chan <;> exact hold
  · intro after hpc
    rw [here.thread] at hpc
    cases hpc

theorem exitZombie (hsit : Situated guard g sit) {status : Int}
    (here : At g c p (.exitZombie status)) (hproc : next.proc = update g.proc p
      { g.proc p with xstate := status, state := .zombie, lock := some c })
    (hthread : next.thread = update g.thread p { pc := .exitRelease }) : Alert guard next := by
  have hold := h.knows p
  rw [here.thread] at hold
  have hlock : (g.thread p).pc.waitLock = true := by rw [here.thread]; rfl
  have hself : next.thread p = { pc := .exitRelease } := by rw [hthread, update_self]
  have hother : ∀ r, r ≠ p → next.thread r = g.thread r ∧ next.proc r = g.proc r := fun r hr => by
    rw [hthread, hproc, update_of_ne hr, update_of_ne hr]
    exact ⟨rfl, rfl⟩
  have hasleep : ∀ q chan', Asleep next q chan' → Asleep g q chan' := by
    intro q chan' hq
    have hqp : q ≠ p := by
      rintro rfl
      exact not_asleep_of_pc (congrArg Thread.pc hself) nofun nofun hq
    rwa [Asleep, (hother q hqp).1, (hother q hqp).2] at hq
  refine ⟨fun r => ?_, fun r q hzombie hr => ?_⟩
  · obtain rfl | hrp := eq_or_ne r p
    · rw [hself]
      trivial
    · rw [(hother r hrp).1]
      refine (h.knows r).mono (fun hrlock => ?_) fun k q _ => hasleep q _
      exact absurd (hsit.waitLock_unique hrlock hlock) hrp
  · have hr' := hasleep r _ hr
    obtain rfl | hqp := eq_or_ne q p
    · have hparent : (g.proc q).parent = some r := by
        have := hzombie.2
        rwa [hproc, update_self] at this
      exact absurd hr' (hold r hparent)
    · have hzombie' : ZombieOf g q r := by
        rwa [ZombieOf, (hother q hqp).2] at hzombie
      obtain ⟨hinit, w, after, hw⟩ := h.waiting r q hzombie' hr'
      have hwp : w ≠ p := by
        rintro rfl
        rw [here.thread] at hw
        cases hw
      exact ⟨hinit, w, after, by rw [(hother w hwp).1]; exact hw⟩

/-- Who wakes processes in `wait` holds `wait_lock`. -/
theorem waitLock_of_waker {r : Slot} {i : Nat} {after : After L}
    (hpc : (g.thread p).pc = .wakeup (.proc r) i after) : (g.thread p).pc.waitLock = true := by
  have hguards := h.knows p
  rw [hpc] at hguards ⊢
  cases after with
  | kernel held => exact hguards.2.1.elim
  | reparent i status => rfl
  | exitZombie status => rfl

/-- The child may be a zombie, and `initproc` asleep: it is woken next. -/
theorem reparentChild (hsit : Situated guard g sit) {status : Int}
    (here : At g c p (.reparent q.val status)) :
    Alert guard ((g.setProc q { g.proc q with parent := some initproc }).goto p
      (.wakeup (.proc initproc) 0 (.reparent (q.val + 1) status))) := by
  have hlock : (g.thread p).pc.waitLock = true := by rw [here.thread]; rfl
  have hself : ((g.setProc q { g.proc q with parent := some initproc }).goto p
      (.wakeup (.proc initproc) 0 (.reparent (q.val + 1) status))).thread p =
      { pc := .wakeup (.proc initproc) 0 (.reparent (q.val + 1) status) } :=
    update_self ..
  have hother : ∀ r, r ≠ p → ((g.setProc q { g.proc q with parent := some initproc }).goto p
      (.wakeup (.proc initproc) 0 (.reparent (q.val + 1) status))).thread r = g.thread r :=
    fun r hr => update_of_ne hr _ _
  have hstate : ∀ r, (((g.setProc q { g.proc q with parent := some initproc }).goto p
      (.wakeup (.proc initproc) 0 (.reparent (q.val + 1) status))).proc r).state =
      (g.proc r).state := by
    intro r
    obtain rfl | hrq := eq_or_ne r q
    · simp [State.goto, State.setThread, State.setProc]
    · simp [State.goto, State.setThread, State.setProc, update_of_ne hrq]
  have hasleep : ∀ r chan', Asleep ((g.setProc q { g.proc q with parent := some initproc }).goto p
      (.wakeup (.proc initproc) 0 (.reparent (q.val + 1) status))) r chan' → Asleep g r chan' := by
    intro r chan' hr
    have hrp : r ≠ p := by
      rintro rfl
      exact not_asleep_of_pc (congrArg Thread.pc hself) (by simp) (by simp) hr
    rwa [Asleep, hother r hrp, hstate r] at hr
  refine ⟨fun r => ?_, fun r s hzombie hr => ?_⟩
  · obtain rfl | hrp := eq_or_ne r p
    · rw [hself]
      exact ⟨fun q hq => absurd hq (Nat.not_lt_zero _), trivial, (by simp)⟩
    · rw [hother r hrp]
      refine (h.knows r).mono (fun hrlock => ?_) fun k q _ => hasleep q _
      exact absurd (hsit.waitLock_unique hrlock hlock) hrp
  · obtain rfl | hsq := eq_or_ne s q
    · have hinit : initproc = r := by
        simpa [State.goto, State.setThread, State.setProc] using hzombie.2
      exact ⟨hinit.symm, p, _, by rw [hself]⟩
    · have hzombie' : ZombieOf g s r := by
        simpa [ZombieOf, State.goto, State.setThread, State.setProc, update_of_ne hsq]
          using hzombie
      -- nobody else is waking `initproc` under the same lock
      obtain ⟨-, w, after, hw⟩ := h.waiting r s hzombie' (hasleep r _ hr)
      have hwp : w = p := hsit.waitLock_unique (h.waitLock_of_waker hw) hlock
      subst hwp
      rw [here.thread] at hw
      cases hw

theorem step [DecidableEq C] [DecidableEq L] [DecidableEq K]
    (hsit : Situated guard g sit) (hstep : Step guard g event next result) :
    Alert guard next := by
  cases hstep with
  | look c p => exact h
  | pick c p idle lock runnable => exact h.still rfl rfl (by simp) (by simp) rfl
  | resched c p back => exact h.still (q := p) rfl rfl id id rfl
  | interrupt q k lock =>
    have hwake := (g.proc q).wake_calm (.other k)
    exact h.still rfl rfl hwake.1 hwake.2.1 hwake.2.2
  | yield c p pc here on lock =>
    refine h.stay (p := p) rfl (.of_update rfl rfl (by simp) (by simp) (.inl rfl) ?_ ?_) ?_ ?_
    · rw [here.thread]
      exact fun _ => id
    · rw [here.thread]
      exact fun _ => id
    · simp [State.swtch, State.setCpu, State.setThread, State.setProc]
    · rw [here.thread]
  | yieldReturn c p runs yielding =>
    refine h.stay (p := p) rfl (.of_update (q := p) rfl rfl id id (.inl rfl) (fun _ => id)
      fun _ => id) ?_ rfl
    simp [State.releaseProc, State.setThread, State.setProc]
  | move c p act pc pc' result here moves => exact h.move here moves
  | fault c p here => exact h.still (q := p) rfl rfl id id rfl
  | sleepAcquire c p chan here lock =>
    have hold := h.knows p
    rw [here.thread] at hold
    have hcalm : Calm g ((g.acquireProc c p).goto p (.sleepRelease chan)) p :=
      .of_update (q := p) rfl rfl id id (.inl rfl) (by simp) (by simp)
    refine h.calm rfl hcalm ?_ (by rw [here.thread]; simp)
    cases chan with
    | proc r => exact ⟨hold.1, fun q hq => hold.2 q (hcalm.zombie q p hq)⟩
    | other k => trivial
  | sleepReleaseWait c p q here =>
    have hold := h.knows p
    rw [here.thread] at hold
    refine h.fallAsleep (p := p) rfl rfl ?_ (by rw [here.thread]; simp) ?_ (by simp)
    · rintro r ⟨⟩
      exact hold
    · intro r _ q' hq
      by_contra hlock
      exact hq (hsit.waitLock_unique (by simpa using hlock) (by rw [here.thread]; rfl))
  | sleepRelease c p k here =>
    refine h.fallAsleep (p := p) rfl rfl (by simp) (by rw [here.thread]; simp) (by simp) ?_
    rintro k' ⟨⟩ q hq hheld
    exact hq (hsit.held_unique hheld (by rw [here.thread]; exact List.mem_singleton_self _))
  | sleepSched c p chan here => exact h.sleepSched here
  | sleepTidy c p chan here =>
    have hold := h.knows p
    rw [here.thread] at hold
    refine h.calm (p := p) rfl (.of_update (q := p) rfl rfl id id (.inl rfl) (by simp) (by simp)) ?_
      (by rw [here.thread]; simp)
    cases chan <;> exact hold
  | sleepReacquireWait c p q here lock =>
    exact h.goto rfl rfl (by simp) (by simp) (fun r hr => absurd hr (Nat.not_lt_zero _))
      (by rw [here.thread]; simp)
  | waitAcquire c p here lock =>
    exact h.goto rfl rfl (by simp) (by simp) (fun r hr => absurd hr (Nat.not_lt_zero _))
      (by rw [here.thread]; simp)
  | wakeupVisit c p q chan after here other lock => exact h.wakeupVisit hsit here other lock
  | killHit c p q pid here lock found =>
    have hkill := (g.proc q).kill_calm
    exact h.calm (p := p) rfl
      (.of_update rfl rfl hkill.1 hkill.2 (.inl rfl) (by simp) (by simp)) trivial
      (by rw [here.thread]; simp)
  | allocFound c p q here lock unused =>
    -- the child's slot first, then the step of its maker
    have hpq : p ≠ q := by
      rintro rfl
      cases unused.symm.trans (hsit.running_of_at here rfl)
    let g' : State C L K := (g.setProc q { g.proc q with
      pid := g.nextpid, state := .used, lock := some c }).setThread q { pc := .forkret }
    have h' : Alert guard g' := by
      refine h.calm (p := q) rfl (.of_update rfl rfl (by simp) (by simp) (.inl rfl) (by simp)
        (by simp)) trivial ?_
      intro after hpc
      have hfree := (hsit.fits q).unused unused
      have hfits := hsit.fits q
      rw [hfree] at hfits
      rcases hfits.2.2.2 with hfree | hfree <;> cases hpc.symm.trans hfree
    have hthread : g'.thread p = { pc := .allocproc q.val } :=
      (update_of_ne hpq _ _).trans here.thread
    have h'' : Alert guard (g'.goto p (.forkCopy q)) :=
      h'.goto rfl rfl (by simp) (by simp) trivial (by rw [hthread]; simp)
    unfold State.allocproc
    rw [if_pos unused]
    exact ⟨h''.knows, h''.waiting⟩
  | forkFail c p np here =>
    have hfits := hsit.fits np
    obtain ⟨c', -, hcopied⟩ := hsit.copies p np (by rw [here.thread]; rfl)
    rw [hcopied] at hfits
    refine h.calm (p := p) rfl (.of_update (q := np) rfl rfl (by rintro ⟨⟩) (by rintro ⟨⟩)
      (.inr ⟨(by rintro ⟨⟩), ?_⟩)
      (by simp) (by simp)) trivial (by rw [here.thread]; simp)
    rw [hfits.2.2]
    rfl
  | forkParent c p np pid here lock =>
    have hfits := hsit.fits np
    rw [hsit.publishes p np (by rw [here.thread]; rfl)] at hfits
    refine h.calm (p := p) rfl (.of_update (q := np) rfl rfl id id (.inr ⟨?_, ?_⟩)
      (by simp) (by simp)) trivial (by rw [here.thread]; simp)
    · rw [hfits.1]
      simp
    · rw [hfits.2.2]
      rfl
  | reparentChild c p q status here child => exact h.reparentChild hsit here
  | exitZombie c p status here lock => exact h.exitZombie hsit here rfl rfl
  | reap c p q havekids here child lock zombie =>
    refine h.calm (p := p) rfl (.of_update (q := q) rfl rfl (by rintro ⟨⟩) (by rintro ⟨⟩)
      (.inr ⟨(by rintro ⟨⟩), ?_⟩)
      (by simp) (by simp)) trivial (by rw [here.thread]; simp)
    have hfits := hsit.fits q
    rw [(hsit.fits q).zombie zombie lock] at hfits
    rw [hfits.2.2]
    rfl
  | forkret c p here =>
    exact h.calm (p := p) rfl (.of_update (q := p) rfl rfl id id (.inl rfl)
      (by simp) (by simp)) trivial
      (by rw [here.thread]; simp)
  | forkCopy c p np here =>
    exact h.calm (p := p) rfl (.of_update (q := np) rfl rfl id id (.inl rfl)
      (by simp) (by simp)) trivial
      (by rw [here.thread]; simp)
  | forkRunnable c p np pid here lock =>
    exact h.calm (p := p) rfl (.of_update (q := np) rfl rfl (by simp) (by simp)
      (.inl rfl) (by simp) (by simp))
      trivial (by rw [here.thread]; simp)
  | callExit c p status here | acquire c p held l here | release c p held l here
  | sleepReacquire c p k here | exitAcquire c p status here | exitRelease c p here
  | exitSched c p here | waitFails c p act i havekids result here =>
    exact h.goto (p := p) rfl rfl (by simp) (by simp) trivial (by rw [here.thread]; simp)

end

theorem boot : Alert guard (State.boot : State C L K) := by
  have hpc : ∀ p, ((State.boot : State C L K).thread p).pc = .exited ∨
      ((State.boot : State C L K).thread p).pc = .forkret := by
    intro p
    obtain rfl | hp := eq_or_ne p initproc
    · exact .inr rfl
    · exact .inl (by simp [State.boot, update_of_ne hp])
  refine ⟨fun p => ?_, fun p q _ hasleep => ?_⟩
  · rcases hpc p with h | h
    · rw [h]
      trivial
    · rw [h]
      trivial
  · rcases hpc p with h | h <;> exact absurd hasleep (not_asleep_of_pc h (by simp) (by simp))

end Alert

theorem Situated.asleep_of_chan (h : Situated guard g sit) (hstate : (g.proc q).state = .sleeping)
    (hchan : (g.proc q).chan = some chan) : Asleep g q chan := by
  have hfits := h.fits q
  have hthread : ∃ chan', g.thread q = { pc := .sleepTidy chan' } ∧ (g.proc q).chan = some chan' := by
    cases hsit : sit q <;> rw [hsit] at hfits
    case asleep => exact hfits.2.2
    case leaving c =>
      rcases hfits.2 with ⟨hs, -⟩ | ⟨-, hs⟩ | ⟨hs, -⟩
      · cases hstate.symm.trans hs
      · exact hs
      · cases hstate.symm.trans hs
    case on c =>
      have hon := hstate.symm.trans hfits.1
      split at hon <;> cases hon
    all_goals cases hstate.symm.trans hfits.1
  obtain ⟨chan', hpc, hchan'⟩ := hthread
  have heq : some chan = some chan' := hchan.symm.trans hchan'
  cases heq
  exact .inr ⟨by rw [hpc], hstate⟩

theorem Alert.all_woken (h : Alert guard g) (hsit : Situated guard g sit) {i : Nat}
    {after : After L} (here : At g c p (.wakeup chan i after)) (done : NPROC ≤ i) (q : Slot) :
    ¬(((g.goto p after.pc).proc q).state = .sleeping ∧
      ((g.goto p after.pc).proc q).chan = some chan) ∧
    ((g.goto p after.pc).thread q).pc ≠ .sleepSched chan := by
  have hknows := h.knows p
  rw [here.thread] at hknows
  obtain rfl | hq := eq_or_ne q p
  · have hpc : ((g.goto q after.pc).thread q).pc = after.pc := by
      simp [State.goto, State.setThread]
    refine ⟨fun hsleeps => ?_, ?_⟩
    · have hstate : (g.proc q).state = .sleeping := hsleeps.1
      cases (hsit.running_of_at here rfl).symm.trans hstate
    · rw [hpc]
      cases after <;> rintro ⟨⟩
  · have hawake := hknows.1 q (by have hlt := q.isLt; omega) hq
    have hthread : (g.goto p after.pc).thread q = g.thread q := update_of_ne hq _ _
    refine ⟨fun hsleeps => hawake (hsit.asleep_of_chan hsleeps.1 hsleeps.2), fun hpc => ?_⟩
    rw [hthread] at hpc
    exact hawake (.inl hpc)

variable [DecidableEq C] [DecidableEq L] [DecidableEq K]

theorem alert_of_reachable (h : State.Reachable guard g) : Alert guard g := by
  induction h with
  | boot => exact Alert.boot
  | step hreach _ hstep ih =>
    obtain ⟨sit, hsit⟩ := exists_situated hreach
    exact ih.step hsit (step_of_event hstep)

/-- After `wakeup` nobody sleeps on the channel or is on the way there, and with `wait_lock`
free nobody sleeps in `wait` with a zombie child. -/
theorem no_lost_wakeup (h : State.Reachable guard g) :
    (∀ c p chan i after next result, At g c p (.wakeup chan i after) → NPROC ≤ i →
      g.step guard (.run c .next) = some (next, result) →
      ∀ q, ¬((next.proc q).state = .sleeping ∧ (next.proc q).chan = some chan) ∧
        (next.thread q).pc ≠ .sleepSched chan) ∧
    (g.waitLock = none → ∀ p q, (g.proc q).state = .zombie → (g.proc q).parent = some p →
      ¬((g.proc p).state = .sleeping ∧ (g.proc p).chan = some (.proc p))) := by
  have halert := alert_of_reachable h
  obtain ⟨sit, hsit⟩ := exists_situated h
  refine ⟨?_, ?_⟩
  · intro c p chan i after next result here hdone hstep
    have hnext : next = g.goto p after.pc := by
      simp only [State.step, here.runs, State.exec, here.thread, dif_neg (Nat.not_lt.mpr hdone)]
        at hstep
      cases hstep
      rfl
    subst hnext
    exact halert.all_woken hsit here hdone
  · rintro hfree p q hzombie hparent ⟨hstate, hchan⟩
    obtain ⟨-, w, after, hw⟩ :=
      halert.waiting p q ⟨hzombie, hparent⟩ (hsit.asleep_of_chan hstate hchan)
    have hlock : (g.thread w).pc.waitLock = true := halert.waitLock_of_waker hw
    obtain ⟨c, -, hheld⟩ := hsit.on_of_waitLock hlock
    cases hfree.symm.trans hheld

/-- `initproc` forks a child that sleeps, and wakes it. -/
def wakeChild : List (Event Bool Unit Unit) :=
  [.schedule true initproc, .run true .next, .run true .fork] ++
    List.replicate 5 (.run true .next) ++
    [.schedule false 1, .run false .next, .run false (.acquire ()), .run false (.sleep ())] ++
    List.replicate 3 (.run false .next) ++
    [.resched false, .run true (.acquire ()), .run true (.wakeup ())] ++
    List.replicate 64 (.run true .next)

theorem no_lost_wakeup_child : ∃ g next : State Bool Unit Unit,
    State.Reachable (fun _ => ()) g ∧ g.step (fun _ => ()) (.run true .next) = some (next, none) ∧
    ∀ q, ¬((next.proc q).state = .sleeping ∧ (next.proc q).chan = some (.other ())) := by
  have hrun : (State.run (fun _ => ()) State.boot wakeChild).map (fun r =>
      ((r.1.cpu true).runs, r.1.thread initproc)) =
        some (.process initproc, { pc := .wakeup (.other ()) 64 (.kernel [()]) }) := by
    decide +kernel
  obtain ⟨⟨g, results⟩, hg, hobserved⟩ := Option.map_eq_some_iff.mp hrun
  have hreach := State.Reachable.of_run hg
  have here : At g true initproc (.wakeup (.other ()) 64 (.kernel [()])) :=
    ⟨congrArg Prod.fst hobserved, congrArg Prod.snd hobserved⟩
  have hstep : g.step (fun _ => ()) (.run true .next) =
      some (g.goto initproc (.kernel [()]), none) := by
    simp only [State.step, here.runs, State.exec, here.thread]
    rfl
  exact ⟨g, _, hreach, hstep, fun q =>
    ((no_lost_wakeup hreach).1 true initproc _ 64 _ _ _ here (Nat.le_refl _) hstep q).1⟩

end Xv6.Machine
