import Xv6.Proc.Family
import Xv6.Proc.Scheduling

/-! The processes of the machine are a family, so `exit` and `wait` pair up. -/
namespace Xv6.Machine

open Function (update update_eq_self update_of_ne)

variable {C L K : Type}

def Pc.role : Pc L K → Role
  | .forkCopy np | .forkParent np _ => .making np
  | .forkRunnable np _ => .made np
  | .exit status => .giving 0 status
  | .reparent i status | .wakeup _ _ (.reparent i status) => .giving i status
  | .wakeup _ _ (.exitZombie status) | .exitZombie status => .giving NPROC status
  | .exitRelease | .exitSched | .exited => .gone
  | .waitScan i false => .scanning i
  | _ => .plain

def ProcState.life : ProcState → Life
  | .unused => .free
  | .used => .made
  | .sleeping | .runnable | .running => .alive
  | .zombie => .dead

def State.family (g : State C L K) : Family where
  parent q := (g.proc q).parent
  life q := (g.proc q).state.life
  role p := (g.thread p).pc.role
  pid q := (g.proc q).pid
  xstate q := (g.proc q).xstate
  uid := g.history.uid
  creator := g.history.creator
  count := g.history.count
  exiting := g.history.exiting
  exited := g.history.exited
  reaped := g.history.reaped

variable {guard : K → L} {g next : State C L K} {event : Event C L K} {result : Option Return}
  {act : Act L K} {sit : Slot → Situation C} {c : C} {p q np : Slot} {pc pc' : Pc L K}
  {x : Proc C K} {t : Thread L K}

structure Proc.Kept (x y : Proc C K) : Prop where
  parent : y.parent = x.parent
  life : y.state.life = x.state.life
  pid : y.pid = x.pid
  xstate : y.xstate = x.xstate

structure History.Kept (h h' : History) : Prop where
  uid : h'.uid = h.uid
  creator : h'.creator = h.creator
  count : h'.count = h.count
  exiting : h'.exiting = h.exiting
  exited : h'.exited = h.exited
  reaped : h'.reaped = h.reaped

theorem History.Kept.refl (h : History) : h.Kept h := ⟨rfl, rfl, rfl, rfl, rfl, rfl⟩

theorem Proc.Kept.refl (x : Proc C K) : x.Kept x := ⟨rfl, rfl, rfl, rfl⟩

theorem Proc.Kept.of_alive {x y : Proc C K} (parent : y.parent = x.parent) (pid : y.pid = x.pid)
    (xstate : y.xstate = x.xstate) (hx : x.state.life = .alive) (hy : y.state.life = .alive) :
    x.Kept y := ⟨parent, hy.trans hx.symm, pid, xstate⟩

theorem Proc.wake_kept [DecidableEq K] (x : Proc C K) (chan : Chan K) : x.Kept (x.wake chan) := by
  unfold Proc.wake
  split
  · rename_i hsleeps
    exact .of_alive rfl rfl rfl (by rw [hsleeps.1]; rfl) rfl
  · exact .refl x

theorem Proc.kill_kept (x : Proc C K) : x.Kept x.kill := by
  rcases x.kill_state with hsame | ⟨hsleeping, hrunnable⟩
  · exact ⟨rfl, by rw [hsame], rfl, rfl⟩
  · exact .of_alive rfl rfl rfl (by rw [hsleeping]; rfl) (by rw [hrunnable]; rfl)

theorem role_update (thread : Slot → Thread L K) :
    (fun r => (update thread p t r).pc.role) =
      update (fun r => (thread r).pc.role) p t.pc.role :=
  Function.comp_update (fun t : Thread L K => t.pc.role) thread p t

theorem parent_update (proc : Slot → Proc C K) :
    (fun r => (update proc q x r).parent) =
      update (fun r => (proc r).parent) q x.parent :=
  Function.comp_update Proc.parent proc q x

theorem life_update (proc : Slot → Proc C K) :
    (fun r => (update proc q x r).state.life) =
      update (fun r => (proc r).state.life) q x.state.life :=
  Function.comp_update (fun x : Proc C K => x.state.life) proc q x

theorem pid_update (proc : Slot → Proc C K) :
    (fun r => (update proc q x r).pid) =
      update (fun r => (proc r).pid) q x.pid :=
  Function.comp_update Proc.pid proc q x

theorem xstate_update (proc : Slot → Proc C K) :
    (fun r => (update proc q x r).xstate) =
      update (fun r => (proc r).xstate) q x.xstate :=
  Function.comp_update Proc.xstate proc q x

abbrev Family.set (f : Family) (q p : Slot) (x : Proc C K) (t : Thread L K) (h : History) : Family where
  parent := update f.parent q x.parent
  life := update f.life q x.state.life
  role := update f.role p t.pc.role
  pid := update f.pid q x.pid
  xstate := update f.xstate q x.xstate
  uid := h.uid
  creator := h.creator
  count := h.count
  exiting := h.exiting
  exited := h.exited
  reaped := h.reaped

theorem family_eq (hproc : next.proc = update g.proc q x)
    (hthread : next.thread = update g.thread p t) :
    next.family = g.family.set q p x t next.history := by
  simp only [State.family, hproc, hthread, role_update, parent_update, life_update, pid_update,
    xstate_update]

section Self

variable (proc : Slot → Proc C K) (q : Slot)

theorem parent_self : update (fun r => (proc r).parent) q (proc q).parent =
    fun r => (proc r).parent := update_eq_self q fun r => (proc r).parent

theorem life_self : update (fun r => (proc r).state.life) q (proc q).state.life =
    fun r => (proc r).state.life := update_eq_self q fun r => (proc r).state.life

theorem pid_self : update (fun r => (proc r).pid) q (proc q).pid =
    fun r => (proc r).pid := update_eq_self q fun r => (proc r).pid

theorem xstate_self : update (fun r => (proc r).xstate) q (proc q).xstate =
    fun r => (proc r).xstate := update_eq_self q fun r => (proc r).xstate

end Self

theorem family_of_kept (hproc : next.proc = update g.proc q x)
    (hthread : next.thread = update g.thread p t) (hhist : g.history.Kept next.history)
    (kept : (g.proc q).Kept x) : next.family = g.family.setRole p t.pc.role := by
  rw [family_eq hproc hthread, Family.set, kept.parent, kept.life, kept.pid, kept.xstate, hhist.uid,
    hhist.creator, hhist.count, hhist.exiting, hhist.exited, hhist.reaped]
  simp only [Family.setRole, State.family, parent_self, life_self, pid_self, xstate_self]

theorem family_goto (g : State C L K) (p : Slot) (pc : Pc L K) :
    (g.goto p pc).family = g.family.setRole p pc.role := by
  have hproc : (g.goto p pc).proc = update g.proc p (g.proc p) :=
    (update_eq_self p g.proc).symm
  exact family_of_kept hproc rfl (.refl _) (.refl _)

namespace Family.Step

theorem same (hproc : next.proc = update g.proc q x)
    (hthread : next.thread = update g.thread p t) (hhist : g.history.Kept next.history)
    (kept : (g.proc q).Kept x) (role : t.pc.role = (g.thread p).pc.role) :
    g.family.Step next.family := by
  have heq : g.family.setRole p t.pc.role = g.family := by
    have hself : update g.family.role p (g.thread p).pc.role = g.family.role :=
      update_eq_self p g.family.role
    rw [role, Family.setRole, hself]
  rw [family_of_kept hproc hthread hhist kept, heq]
  exact .rest

theorem of_update (hproc : next.proc = update g.proc q x)
    (hthread : next.thread = update g.thread p t)
    (h : g.family.Step (g.family.set q p x t next.history)) : g.family.Step next.family := by
  rw [family_eq hproc hthread]
  exact h

theorem becomePlain (hproc : next.proc = update g.proc q x)
    (hthread : next.thread = update g.thread p t) (hhist : g.history.Kept next.history)
    (kept : (g.proc q).Kept x) (role : t.pc.role = .plain) : g.family.Step next.family := by
  rw [family_of_kept hproc hthread hhist kept, role]
  exact .plain p

theorem still (hproc : next.proc = update g.proc q x) (hthread : next.thread = g.thread)
    (hhist : g.history.Kept next.history) (kept : (g.proc q).Kept x) :
    g.family.Step next.family :=
  same (p := q) hproc (hthread.trans (update_eq_self q g.thread).symm) hhist kept rfl

end Family.Step

theorem Situated.alive_of_at (h : Situated guard g sit) (here : At g c p pc)
    (alive : pc.zombie = false) : (g.proc p).state.life = .alive := by
  rw [h.running_of_at here alive]
  rfl

theorem Move.family (h : Move guard g p act pc pc' result) (here : At g c p pc)
    (alive : (g.proc p).state.life = .alive) : g.family.Step (g.goto p pc').family := by
  have hrole : g.family.role p = pc.role := by
    simp only [State.family, here.thread]
  have hsame : pc'.role = pc.role → g.family.Step (g.goto p pc').family := fun heq =>
    .same (update_eq_self p g.proc).symm rfl (.refl _) (.refl _)
      (by rw [here.thread]; exact heq)
  cases h with
  | wakeupSelf chan i after self => exact hsame (by cases after <;> rfl)
  | wakeupDone chan i after done => exact hsame (by cases after <;> rfl)
  | reparentOther q status other =>
    rw [family_goto]
    exact .skip p q status hrole alive other
  | exitWake i status parent done known =>
    rw [family_goto]
    exact .given p i status hrole alive done
  | exitOrphan i status done orphan =>
    rw [family_goto]
    exact .given p i status hrole alive done
  | waitOther q havekids other =>
    rw [family_goto]
    cases havekids with
    | false => exact .pass p q hrole other
    | true => exact .plain p
  | _ =>
    rw [family_goto]
    exact .plain p

/-- Meanwhile `initproc` is not looking for its children. -/
theorem Situated.init_not_scanning (h : Situated guard g sit) {status : Int}
    (here : At g c p (.reparent q.val status)) (i : Nat) : g.family.role initproc ≠ .scanning i := by
  intro hrole
  have hwait : (g.thread initproc).pc.waitLock = true := by
    simp only [State.family] at hrole
    cases hpc : (g.thread initproc).pc with
    | waitScan i havekids => rfl
    | wakeup chan i after =>
      rw [hpc] at hrole
      cases after <;> cases hrole
    | _ =>
      rw [hpc] at hrole
      cases hrole
  have hself : p = initproc := h.waitLock_unique (by rw [here.thread]; rfl) hwait
  subst hself
  simp only [State.family, here.thread] at hrole
  cases hrole

theorem boot_role (p : Slot) :
    (State.boot : State C L K).family.role p = .plain ∨
      (State.boot : State C L K).family.role p = .gone := by
  obtain rfl | hp := eq_or_ne p initproc
  · exact .inl rfl
  · refine .inr ?_
    simp only [State.family, State.boot, update_of_ne hp]
    rfl

theorem boot_life (q : Slot) (hq : q ≠ initproc) :
    (State.boot : State C L K).family.life q = .free := by
  simp only [State.family, State.boot, update_of_ne hq]
  rfl

theorem boot_parent (q : Slot) : (State.boot : State C L K).family.parent q = none := by
  obtain rfl | hq := eq_or_ne q initproc
  · rfl
  · simp only [State.family, State.boot, update_of_ne hq]

theorem boot_sound : (State.boot : State C L K).family.Sound := by
  have hgiving : ∀ p i status, (State.boot : State C L K).family.role p ≠ .giving i status := by
    intro p i status hp
    rcases boot_role (C := C) (L := L) (K := K) p with hrole | hrole <;> cases hrole.symm.trans hp
  have hmakes : ∀ p np, ¬(State.boot : State C L K).family.Makes p np := by
    rintro p np (hp | hp) <;>
      rcases boot_role (C := C) (L := L) (K := K) p with hrole | hrole <;> cases hrole.symm.trans hp
  refine ⟨⟨rfl, hgiving initproc⟩, ?_, ?_, ?_, ?_, fun q _ => boot_parent q, ?_, ?_, ?_, ?_, ?_⟩
  · intro p q hq
    cases (boot_parent q).symm.trans hq
  · intro p q i status hq
    cases (boot_parent q).symm.trans hq
  · intro q hq hlife
    rcases hlife with hlife | hlife <;> cases (boot_life q hq).symm.trans hlife
  · intro p np hp
    exact absurd (.inr hp) (hmakes p np)
  · intro p np hp
    exact absurd hp (hmakes p np)
  · intro p p' np hp
    exact absurd hp (hmakes p np)
  · intro p q hq
    cases (boot_parent q).symm.trans hq
  · intro p i status hp
    exact absurd hp (hgiving p i status)
  · intro p q i hp
    rcases boot_role (C := C) (L := L) (K := K) p with hrole | hrole <;> cases hrole.symm.trans hp

theorem boot_recorded : (State.boot : State C L K).family.Recorded := by
  have hused : ∀ q, (State.boot : State C L K).family.life q ≠ .free → q = initproc := fun q hq => by
    by_contra hne
    exact hq (boot_life q hne)
  refine ⟨fun _ _ => Nat.zero_lt_one, ?_, nofun, List.nodup_nil, nofun, ?_, nofun, nofun,
    List.nodup_nil, fun _ _ => List.not_mem_nil⟩
  · intro p q hp hq _
    rw [hused p hp, hused q hq]
  · intro q hq
    have hinit : q = initproc := hused q (by rw [hq]; nofun)
    subst hinit
    cases hq

theorem ProcState.life_dead {s : ProcState} : s.life = .dead ↔ s = .zombie := by
  cases s <;> simp [ProcState.life]

theorem ProcState.life_alive {s : ProcState} (h : s.life = .alive) : s ≠ .unused ∧ s ≠ .zombie := by
  cases s <;> simp_all [ProcState.life]

theorem Family.Sound.zombie_parent (h : g.family.Sound) (zombie : (g.proc q).state = .zombie) :
    ∃ p, (g.proc q).parent = some p ∧ (g.proc p).state ≠ .unused ∧ (g.proc p).state ≠ .zombie := by
  have hdead : g.family.life q = .dead := ProcState.life_dead.mpr zombie
  have huser : q ≠ initproc := by
    rintro rfl
    cases hdead.symm.trans h.init.1
  have hparent := h.parent_ne_none q huser (.inr hdead)
  obtain ⟨p, hp⟩ := Option.ne_none_iff_exists'.mp hparent
  exact ⟨p, hp, ProcState.life_alive (h.parent_alive p q hp)⟩

theorem Family.Sound.childless (h : g.family.Sound) {i : Nat} (here : At g c p (.waitScan i false))
    (done : NPROC ≤ i) (q : Slot) : (g.proc q).parent ≠ some p := by
  have hrole : g.family.role p = .scanning i := by
    simp only [State.family, here.thread]
    rfl
  exact h.scanned p q i hrole (by have hlt := q.isLt; omega)

theorem Situated.off_stack (h : Situated guard g sit) (zombie : (g.proc q).state = .zombie)
    (lock : (g.proc q).lock = none) :
    (g.thread q).pc = .exited ∧ ∀ c, (g.cpu c).proc ≠ some q := by
  have hdead := (h.fits q).zombie zombie lock
  have hfits := h.fits q
  rw [hdead] at hfits
  refine ⟨by rw [hfits.2.2], fun c hc => ?_⟩
  have hcpu := h.cpuProc_iff.mp hc
  rw [hdead] at hcpu
  cases hcpu

/-- `wait` returns the end of a child, not returned before. -/
structure Reaps (g next : State C L K) (p q : Slot) (pid : UInt32) (status : Int) : Prop where
  /-- The creator, or `initproc` once that is exiting. -/
  parent : (g.proc q).parent = some p
  kin : g.history.creator q = g.history.uid p ∨
    (p = initproc ∧ g.history.creator q ∈ g.history.exiting.map Prod.fst)
  /-- Passed to `exit` by the child. -/
  exiting : (g.history.uid q, status) ∈ g.history.exiting
  exited : ⟨g.history.uid q, pid, status⟩ ∈ g.history.exited
  fresh : ∀ r ∈ g.history.reaped, r.1.uid ≠ g.history.uid q
  reaped : next.history.reaped =
    g.history.reaped ++ [(⟨g.history.uid q, pid, status⟩, g.history.uid p)]

theorem reaps_of_at (hsound : g.family.Sound) (hrecorded : g.family.Recorded)
    (child : (g.proc q).parent = some p) (zombie : (g.proc q).state = .zombie) :
    Reaps g (g.reap p q).1 p q (g.proc q).pid (g.proc q).xstate := by
  have hdead : g.family.life q = .dead := ProcState.life_dead.mpr zombie
  have hexited := hrecorded.dead q hdead
  refine ⟨child, hsound.kin p q child, hrecorded.exited_exiting _ hexited, hexited, ?_, rfl⟩
  intro r hr huid
  exact hrecorded.unreaped q (by rw [hdead]; nofun) (List.mem_map.mpr ⟨r, hr, huid⟩)

variable [DecidableEq C] [DecidableEq L] [DecidableEq K]

theorem Situated.family (h : Situated guard g sit) (hstep : Step guard g event next result) :
    g.family.Step next.family := by
  cases hstep with
  | look c p => exact .rest
  | pick c p idle lock runnable =>
    exact .still rfl rfl (.refl _) (.of_alive rfl rfl rfl (by rw [runnable]; rfl) rfl)
  | resched c p back => exact .still (q := p) rfl rfl (.refl _) ⟨rfl, rfl, rfl, rfl⟩
  | interrupt q k lock => exact .still rfl rfl (.refl _) ((g.proc q).wake_kept _)
  | yield c p pc here on lock =>
    have halive := h.alive_of_at here (Pc.interruptible_alive on).1
    exact .same rfl rfl (.refl _) (.of_alive rfl rfl rfl halive rfl) (by rw [here.thread])
  | yieldReturn c p runs yielding =>
    exact .same (q := p) rfl rfl (.refl _) ⟨rfl, rfl, rfl, rfl⟩ rfl
  | move c p act pc pc' result here moves => exact moves.family here (h.alive_of_at here moves.alive)
  | callExit c p status here user =>
    have heq : State.family { g.goto p (.exit status) with
        history := { g.history with exiting := (g.history.uid p, status) :: g.history.exiting } } =
        { (g.goto p (.exit status)).family with
          exiting := (g.family.uid p, status) :: g.family.exiting } := rfl
    rw [heq, family_goto]
    exact .leave p status user
  | fault c p here => exact .still (q := p) rfl rfl (.refl _) ⟨rfl, rfl, rfl, rfl⟩
  | sleepReacquireWait c p q here lock | waitAcquire c p here lock =>
    have heq : State.family { g with waitLock := some c } = g.family := rfl
    rw [family_goto, heq]
    exact .scan p
  | sleepSched c p chan here =>
    exact .becomePlain rfl rfl (.refl _)
      (.of_alive rfl rfl rfl (h.alive_of_at here rfl) rfl) rfl
  | wakeupVisit c p q chan after here other lock =>
    refine .same rfl rfl (.refl _) ((g.proc q).wake_kept _) ?_
    rw [here.thread]
    cases after <;> rfl
  | killHit c p q pid here lock found =>
    exact .becomePlain rfl rfl ⟨rfl, rfl, rfl, rfl, rfl, rfl⟩ (g.proc q).kill_kept rfl
  | allocFound c p q here lock unused =>
    have hfree : (g.proc q).state.life = .free := by rw [unused]; rfl
    have halloc : g.family.Step _ := .alloc p q g.nextpid hfree (h.alive_of_at here rfl)
    simp only [State.family, State.allocproc, if_pos unused, State.goto, State.setThread,
      State.setProc, role_update, parent_update, life_update, pid_update, xstate_update,
      parent_self, xstate_self]
    exact halloc
  | forkFail c p np here =>
    have hrole : g.family.role p = .making np := by simp only [State.family, here.thread]; rfl
    refine .of_update (q := np) rfl rfl ?_
    exact .abandon p np hrole
  | forkCopy c p np here =>
    exact .same (q := np) rfl rfl (.refl _) ⟨rfl, rfl, rfl, rfl⟩ (by rw [here.thread]; rfl)
  | forkParent c p np pid here lock =>
    have hrole : g.family.role p = .making np := by simp only [State.family, here.thread]; rfl
    have hadopt : g.family.Step _ := .adopt p np hrole
    refine .of_update (q := np) rfl rfl ?_
    simp only [Family.set, State.family, life_self, pid_self, xstate_self]
    exact hadopt
  | forkRunnable c p np pid here lock =>
    have hrole : g.family.role p = .made np := by simp only [State.family, here.thread]; rfl
    have hpublish : g.family.Step _ := .publish p np hrole
    refine .of_update (q := np) rfl rfl ?_
    simp only [Family.set, State.family, parent_self, pid_self, xstate_self]
    exact hpublish
  | reparentChild c p q status here child =>
    have hrole : g.family.role p = .giving q.val status := by simp only [State.family, here.thread]; rfl
    have hgive : g.family.Step _ :=
      .give p q status hrole (h.alive_of_at here rfl) child (h.init_not_scanning here)
    refine .of_update (q := q) rfl rfl ?_
    simp only [Family.set, State.family, life_self, pid_self, xstate_self]
    exact hgive
  | exitZombie c p status here lock =>
    have hrole : g.family.role p = .giving NPROC status := by
      simp only [State.family, here.thread]
      rfl
    have hdie : g.family.Step _ := .die p status hrole (h.alive_of_at here rfl)
    refine .of_update (q := p) rfl rfl ?_
    simp only [Family.set, State.family, parent_self, pid_self]
    exact hdie
  | reap c p q havekids here child lock zombie =>
    have hdead : (g.proc q).state.life = .dead := by rw [zombie]; rfl
    have hreap : g.family.Step _ := .reap p q child hdead
    exact .of_update (q := q) rfl rfl hreap
  | exitAcquire c p | exitRelease c p | exitSched c p =>
    exact .same (update_eq_self p g.proc).symm rfl (.refl _) (.refl _)
      (by rw [At.thread ‹_›]; rfl)
  | forkret c p here | sleepAcquire c p chan here | sleepTidy c p chan here =>
    refine .becomePlain (q := p) rfl rfl (.refl _) ⟨rfl, ?_, rfl, rfl⟩ rfl
    rfl
  | acquire c p | release c p | sleepReleaseWait c p | sleepRelease c p | sleepReacquire c p
  | waitFails c p =>
    exact .becomePlain (update_eq_self p g.proc).symm rfl (.refl _) (.refl _) rfl

theorem family_of_reachable (h : State.Reachable guard g) :
    g.family.Sound ∧ g.family.Recorded := by
  induction h with
  | boot => exact ⟨boot_sound, boot_recorded⟩
  | step hreach _ hstep ih =>
    obtain ⟨sit, hsit⟩ := exists_situated hreach
    have hfamily := hsit.family (step_of_event hstep)
    exact ⟨ih.1.step hfamily, ih.2.step ih.1 hfamily⟩

theorem reaps_of_step (hsound : g.family.Sound) (hrecorded : g.family.Recorded) {pid : UInt32}
    {status : Int} (hstep : Step guard g event next (some (.waitReaped pid status))) :
    ∃ c p q, event = .run c .next ∧ (g.cpu c).runs = .process p ∧
      Reaps g next p q pid status := by
  generalize hresult : some (Return.waitReaped pid status) = result at hstep
  cases hstep with
  | move c p act pc pc' result here moves => cases moves <;> cases hresult
  | reap c p q havekids here child lock zombie =>
    cases hresult
    exact ⟨c, p, q, rfl, here.runs, reaps_of_at hsound hrecorded child zombie⟩
  | waitFails c p act i havekids result here fails => cases fails <;> cases hresult
  | _ => cases hresult

theorem childless_of_step (hsound : g.family.Sound)
    (hstep : Step guard g event next (some .waitNoChildren)) :
    ∃ c p act, event = .run c act ∧ (g.cpu c).runs = .process p ∧
      ∀ q, (g.proc q).parent ≠ some p := by
  generalize hresult : some Return.waitNoChildren = result at hstep
  cases hstep with
  | move c p act pc pc' result here moves => cases moves <;> cases hresult
  | reap c p q havekids here child lock zombie => cases hresult
  | waitFails c p act i havekids result here fails =>
    cases fails with
    | copy havekids q zombie => cases hresult
    | none done => exact ⟨c, p, act, rfl, here.runs, hsound.childless here done⟩
    | killed done => cases hresult
  | _ => cases hresult

/-- `wait` frees zombies off their kernel stacks. -/
theorem Situated.off_stack_of_step (h : Situated guard g sit) (hsound : g.family.Sound)
    (hstep : Step guard g event next result) (zombie : (g.proc q).state = .zombie)
    (freed : (next.proc q).state ≠ .zombie) :
    (g.thread q).pc = .exited ∧ ∀ c, (g.cpu c).proc ≠ some q := by
  have hreaped : next.history.reaped ≠ g.history.reaped := fun heq =>
    freed (ProcState.life_dead.mp
      (hsound.dead_stays (h.family hstep) heq (ProcState.life_dead.mpr zombie)))
  cases hstep with
  | reap c p r havekids here child lock zombie' =>
    have hqr : q = r := by
      by_contra hne
      refine freed ?_
      simp only [State.reap, State.goto, State.setThread, State.setProc,
        update_of_ne hne]
      exact zombie
    subst hqr
    exact h.off_stack zombie lock
  | allocFound c p r here lock unused =>
    rw [State.allocproc, if_pos unused] at hreaped
    exact absurd rfl hreaped
  | _ => exact absurd rfl hreaped

/-- Ends are returned once, with their status, to the parent; zombies have living parents; and
`wait` misses no child. -/
theorem exit_wait_pair (h : State.Reachable guard g) :
    (g.history.reaped.map fun r => r.1.uid).Nodup ∧
    (∀ q, (g.proc q).state = .zombie →
      ∃ p, (g.proc q).parent = some p ∧ (g.proc p).state ≠ .unused ∧
        (g.proc p).state ≠ .zombie) ∧
    ∀ event next result, g.step guard event = some (next, result) →
      (∀ pid status, result = some (.waitReaped pid status) →
        ∃ c p q, event = .run c .next ∧ (g.cpu c).runs = .process p ∧
          Reaps g next p q pid status) ∧
      (result = some .waitNoChildren →
        ∃ c p act, event = .run c act ∧ (g.cpu c).runs = .process p ∧
          ∀ q, (g.proc q).parent ≠ some p) ∧
      ∀ q, (g.proc q).state = .zombie → (next.proc q).state ≠ .zombie →
        (g.thread q).pc = .exited ∧ ∀ c, (g.cpu c).proc ≠ some q := by
  obtain ⟨hsound, hrecorded⟩ := family_of_reachable h
  obtain ⟨sit, hsit⟩ := exists_situated h
  refine ⟨hrecorded.reaped_nodup, fun q => hsound.zombie_parent, ?_⟩
  intro event next result hevent
  have hstep := step_of_event hevent
  refine ⟨?_, ?_, fun q => hsit.off_stack_of_step hsound hstep⟩
  · rintro pid status rfl
    exact reaps_of_step hsound hrecorded hstep
  · rintro rfl
    exact childless_of_step hsound hstep

def exitByChild (status : Int) : List (Event Bool Unit Unit) :=
  [.schedule true initproc, .run true .next, .run true .fork] ++
    List.replicate 5 (.run true .next) ++
    [.schedule false 1, .run false .next, .run false (.exit status)] ++
    List.replicate 134 (.run false .next) ++
    [.resched false, .run true .wait, .run true .next, .run true .next]

theorem exit_wait_pair_child : ∃ g next : State Bool Unit Unit,
    State.Reachable (fun _ => ()) g ∧
    g.step (fun _ => ()) (.run true .next) = some (next, some (.waitReaped 2 7)) ∧
    ∃ p q, Reaps g next p q 2 7 := by
  have hrun : ((State.run (fun _ => ()) State.boot (exitByChild 7)).bind fun r =>
      r.1.step (fun _ => ()) (.run true .next)).map Prod.snd =
        some (some (.waitReaped 2 7)) := by
    decide +kernel
  simp only [Option.map_eq_some_iff, Option.bind_eq_some_iff, Prod.exists] at hrun
  obtain ⟨next, result, ⟨g, results, hg, hstep⟩, hresult⟩ := hrun
  have hreach := State.Reachable.of_run hg
  obtain ⟨c, p, q, -, -, hreaps⟩ := ((exit_wait_pair hreach).2.2 _ next result hstep).1 2 7 hresult
  exact ⟨g, next, hreach, by rw [hstep, ← hresult], p, q, hreaps⟩

end Xv6.Machine
