import Xv6.Proc.Situation

/-! Every step keeps every process in a situation. -/
namespace Xv6.Machine

open Function (update update_eq_self update_of_ne update_self)

variable {C L K : Type}
  {guard : K → L} {g next : State C L K} {event : Event C L K} {result : Option Return}
  {act : Act L K}
  {sit : Slot → Situation C} {c : C} {p q : Slot} {pc pc' : Pc L K}

structure Pc.Keeps (guard : K → L) (pc pc' : Pc L K) : Prop where
  zombie : pc'.zombie = pc.zombie
  ownLock : pc'.ownLock = pc.ownLock
  waitLock : pc'.waitLock = pc.waitLock
  held : pc'.held guard = pc.held guard
  copies : pc'.copies = none
  publishes : pc'.publishes = none
  exited : pc' ≠ .exited

theorem Move.keeps (h : Move guard g p act pc pc' result) : pc.Keeps guard pc' := by
  cases h with
  | wakeupSelf chan i after => cases after <;> exact ⟨rfl, rfl, rfl, rfl, rfl, rfl, nofun⟩
  | wakeupDone chan i after => cases after <;> exact ⟨rfl, rfl, rfl, rfl, rfl, rfl, nofun⟩
  | _ => exact ⟨rfl, rfl, rfl, rfl, rfl, rfl, nofun⟩

theorem Move.alive (h : Move guard g p act pc pc' result) : pc.zombie = false := by
  cases h <;> rfl

theorem Proc.wake_spec [DecidableEq K] (x : Proc C K) (chan : Chan K) :
    (x.wake chan).lock = x.lock ∧ (x.wake chan).chan = x.chan ∧
      ((x.wake chan).state = x.state ∨ (x.state = .sleeping ∧ (x.wake chan).state = .runnable)) := by
  unfold Proc.wake
  split
  · rename_i hsleeps
    exact ⟨rfl, rfl, .inr ⟨hsleeps.1, rfl⟩⟩
  · exact ⟨rfl, rfl, .inl rfl⟩

theorem Proc.kill_state (x : Proc C K) :
    x.kill.state = x.state ∨ (x.state = .sleeping ∧ x.kill.state = .runnable) := by
  by_cases hsleeping : x.state = .sleeping
  · exact .inr ⟨hsleeping, if_pos hsleeping⟩
  · exact .inl (if_neg hsleeping)

theorem State.goto_goto (g : State C L K) (p : Slot) (pc pc' : Pc L K) :
    (g.goto p pc).goto p pc' = g.goto p pc' := by
  simp [State.goto, State.setThread]

variable {x : Proc C K}

theorem Fits.moved (h : Fits x ({ pc := pc } : Thread L K) (.on c))
    (zombie : pc'.zombie = pc.zombie) (ownLock : pc'.ownLock = pc.ownLock) (exited : pc' ≠ .exited) :
    Fits x ({ pc := pc' } : Thread L K) (.on c) := by
  refine ⟨?_, ?_, exited, nofun⟩
  · rw [zombie]
    exact h.1
  · rw [h.2.1, Thread.ownLock, Thread.ownLock, ownLock]

def Situation.boot : Slot → Situation C := update (fun _ => .free) initproc .ready

namespace Situated

section

variable (h : Situated guard g sit)

include h

theorem on_of_at (here : At g c p pc) : sit p = .on c :=
  (h.process c p).mp here.runs

theorem fits_of_at (here : At g c p pc) : Fits (g.proc p) { pc := pc } (.on c) := by
  have hfits := h.fits p
  rwa [h.on_of_at here, here.thread] at hfits

theorem not_copies (hq : (sit q).maker = none) (r : Slot) : (g.thread r).pc.copies ≠ some q := by
  intro hr
  rw [h.maker_of_copies hr] at hq
  cases hq

theorem not_publishes (hq : (sit q).maker = none) (r : Slot) :
    (g.thread r).pc.publishes ≠ some q := by
  intro hr
  rw [h.maker_of_publishes hr] at hq
  cases hq

theorem record (nextpid : UInt32) (history : History) :
    Situated guard { g with nextpid := nextpid, history := history } sit :=
  ⟨h.fits, h.process, h.back, h.cpuProc, h.copies, h.publishes, h.wait, h.locks, h.nodup⟩

theorem pick [DecidableEq C] (idle : (g.cpu c).runs = .idle) (lock : (g.proc p).lock = none)
    (runnable : (g.proc p).state = .runnable) :
    ∃ sit', Situated guard ((g.setProc p
      { g.proc p with state := .running, lock := some c }).setCpu c
        { proc := some p, runs := .process p }) sit' := by
  have hready := (h.fits p).runnable runnable lock
  have hresumable : (g.thread p).Resumable := by
    have hfits := h.fits p
    rw [hready] at hfits
    exact hfits.2.2
  exact ⟨_, h.switch rfl (update_eq_self p g.thread).symm rfl rfl rfl
    (hresumable.fits rfl rfl) rfl (.inr ⟨by rw [hready]; rfl, idle⟩) (.inl ⟨rfl, rfl⟩)
    (by rw [hready]; rfl) (hresumable.lockless guard) (hresumable.lockless guard)
    fun _ hr => hr⟩

theorem resched [DecidableEq C] (back : (g.cpu c).runs = .back p) :
    ∃ sit', Situated guard ((g.releaseProc p).setCpu c {}) sit' := by
  have hsit := (h.back c p).mp back
  have hfits := h.fits p
  rw [hsit] at hfits
  have hlockless : (g.thread p).Lockless guard := hfits.lockless nofun
  have hswitch : ∀ s : Situation C, s.cpu = none →
      Fits { g.proc p with lock := none } (g.thread p) s →
      ∃ sit', Situated guard ((g.releaseProc p).setCpu c {}) sit' := fun s hs hnew =>
    ⟨_, h.switch rfl (update_eq_self p g.thread).symm rfl rfl rfl hnew rfl
      (.inl (by rw [hsit]; rfl)) (.inr (.inr ⟨rfl, hs⟩)) (by rw [hsit]; rfl)
      hlockless hlockless fun _ hr => hr⟩
  rcases hfits.2 with ⟨hstate, hres⟩ | ⟨hstate, hchan⟩ | ⟨hstate, hthread⟩
  · exact hswitch .ready rfl ⟨hstate, rfl, hres⟩
  · exact hswitch .asleep rfl ⟨hstate, rfl, hchan⟩
  · exact hswitch .dead rfl ⟨hstate, rfl, hthread⟩

theorem swtch [DecidableEq C] (here : At g c p pc) {t : Thread L K} (fits : Fits x t (.leaving c))
    (before : ({ pc := pc } : Thread L K).Lockless guard)
    (children : ∀ r, t.pc.publishes = some r → pc.publishes = some r) :
    ∃ sit', Situated guard (((g.setProc p x).setThread p t).swtch c p) sit' := by
  have hon := h.on_of_at here
  have hslot : (g.cpu c).proc = some p := by rw [h.cpuProc c, here.runs]; rfl
  refine ⟨_, h.switch rfl rfl rfl rfl rfl fits hslot (.inl (by rw [hon]; rfl))
    (.inr (.inl ⟨rfl, rfl⟩)) (by rw [hon]; rfl) ?_ (fits.lockless nofun) ?_⟩
  · rw [here.thread]
    exact before
  · rw [here.thread]
    exact children

theorem yieldReturn (runs : (g.cpu c).runs = .process p) (yielding : (g.thread p).yielding = true) :
    Situated guard ((g.releaseProc p).setThread p { g.thread p with yielding := false }) sit := by
  have hon := (h.process c p).mp runs
  have hfits := h.fits p
  rw [hon] at hfits
  have hint := hfits.2.2.2 yielding
  refine h.own hon rfl rfl rfl ⟨hfits.1, ?_, hfits.2.2.1, nofun⟩ ?_ ?_
    (h.wait_unchanged hon rfl) (h.locks_unchanged hon rfl) (h.nodup p)
  · simp [Thread.ownLock, (Pc.interruptible_spec guard hint).1]
  · intro q hq
    rw [(Pc.interruptible_spec guard hint).2.2.2] at hq
    cases hq
  · exact h.publishes p

theorem move (here : At g c p pc) (moves : Move guard g p act pc pc' result) :
    Situated guard (g.goto p pc') sit := by
  have hkeeps := moves.keeps
  refine h.goto (h.on_of_at here)
    ((h.fits_of_at here).moved hkeeps.zombie hkeeps.ownLock hkeeps.exited) ?_ ?_ ?_ ?_
  · intro q hq
    rw [hkeeps.copies] at hq
    cases hq
  · intro q hq
    rw [hkeeps.publishes] at hq
    cases hq
  · rw [here.thread]
    exact hkeeps.waitLock
  · rw [here.thread]
    exact hkeeps.held

/-- A step on its own slot that keeps all locks but `p->lock`. -/
theorem self (here : At g c p pc) (fits : Fits x { pc := pc' } (.on c)) (copies : pc'.copies = none)
    (publishes : pc'.publishes = none) (waitLock : pc'.waitLock = pc.waitLock)
    (held : pc'.held guard = pc.held guard) : Situated guard ((g.setProc p x).goto p pc') sit := by
  have hon := h.on_of_at here
  refine h.own hon rfl rfl rfl fits ?_ ?_ (h.wait_unchanged hon ?_) (h.locks_unchanged hon ?_) ?_
  · intro q hq
    rw [copies] at hq
    cases hq
  · intro q hq
    rw [publishes] at hq
    cases hq
  · rw [here.thread]
    exact waitLock
  · rw [here.thread]
    exact held
  · rw [held]
    have hnodup := h.nodup p
    rwa [here.thread] at hnodup

theorem setWait (here : At g c p pc) (pc' : Pc L K) (zombie : pc'.zombie = pc.zombie)
    (ownLock : pc'.ownLock = pc.ownLock) (exited : pc' ≠ .exited) (copies : pc'.copies = none)
    (publishes : pc'.publishes = none) (held : pc'.held guard = pc.held guard) {w : Option C}
    (wait : (w = some c ∧ g.waitLock = none ∧ pc'.waitLock = true) ∨
      (w = none ∧ pc.waitLock = true ∧ pc'.waitLock = false)) :
    Situated guard ({ g with waitLock := w }.goto p pc') sit := by
  have hon := h.on_of_at here
  refine h.own hon (update_eq_self p g.proc).symm rfl rfl
    ((h.fits_of_at here).moved zombie ownLock exited) ?_ ?_ ?_ (h.locks_unchanged hon ?_) ?_
  · intro q hq
    rw [copies] at hq
    cases hq
  · intro q hq
    rw [publishes] at hq
    cases hq
  · rcases wait with ⟨rfl, hfree, hnew⟩ | ⟨rfl, hold, hnew⟩
    · rw [hfree]
      exact .acquired hnew
    · rw [(h.waitLock_iff hon).mpr (by rw [here.thread]; exact hold)]
      refine .released ?_
      rw [hnew]
      exact Bool.false_ne_true
  · rw [here.thread]
    exact held
  · rw [held]
    have hnodup := h.nodup p
    rwa [here.thread] at hnodup

theorem acquire [DecidableEq L] (here : At g c p pc) {l : L} (lock : g.lock l = none)
    (zombie : pc.zombie = false)
    (ownLock : pc.ownLock = false) (waitLock : pc.waitLock = false) :
    Situated guard ((g.setLock l (some c)).goto p (.kernel (l :: pc.held guard))) sit := by
  have hon := h.on_of_at here
  have hheld : (g.thread p).pc.held guard = pc.held guard := by rw [here.thread]
  refine h.own hon (update_eq_self p g.proc).symm rfl rfl
    ((h.fits_of_at here).moved zombie.symm ownLock.symm nofun) nofun nofun
    (h.wait_unchanged hon ?_) (h.locks_acquired hon lock ?_) ?_
  · rw [here.thread]
    exact waitLock.symm
  · rw [hheld]
    rfl
  · refine List.nodup_cons.mpr ⟨?_, ?_⟩
    · intro hl
      rw [← hheld] at hl
      rw [(h.lock_iff hon l).mpr hl] at lock
      cases lock
    · rw [← hheld]
      exact h.nodup p

theorem release [DecidableEq L] (here : At g c p pc) {l : L} (hl : l ∈ pc.held guard)
    (held : pc'.held guard = (pc.held guard).erase l) (fits : Fits (g.proc p) { pc := pc' } (.on c))
    (copies : pc'.copies = none) (publishes : pc'.publishes = none)
    (waitLock : pc'.waitLock = pc.waitLock) :
    Situated guard ((g.setLock l none).goto p pc') sit := by
  have hon := h.on_of_at here
  have hnodup := h.nodup p
  rw [here.thread] at hnodup
  refine h.own hon (update_eq_self p g.proc).symm rfl rfl fits ?_ ?_
    (h.wait_unchanged hon ?_) (h.locks_released hon ?_ ?_) ?_
  · intro q hq
    rw [copies] at hq
    cases hq
  · intro q hq
    rw [publishes] at hq
    cases hq
  · rw [here.thread]
    exact waitLock
  · rw [here.thread]
    exact hl
  · rw [here.thread]
    exact held
  · rw [held]
    exact hnodup.erase l

theorem rouse (lock : (g.proc q).lock = none) (hlock : x.lock = (g.proc q).lock)
    (hchan : x.chan = (g.proc q).chan)
    (hstate : x.state = (g.proc q).state ∨ ((g.proc q).state = .sleeping ∧ x.state = .runnable)) :
    ∃ sit', Situated guard (g.setProc q x) sit' ∧ ∀ c, sit p = .on c → sit' p = .on c := by
  rcases hstate with hsame | ⟨hsleeping, hrunnable⟩
  · refine ⟨sit, h.setProc ?_, fun _ hp => hp⟩
    have hfits := h.fits q
    cases hsit : sit q <;> rw [hsit] at hfits <;>
      simpa only [Fits, hsame, hlock, hchan] using hfits
  · have hasleep := (h.fits q).sleeping hsleeping lock
    have hfits := h.fits q
    rw [hasleep] at hfits
    obtain ⟨-, -, chan, hthread, -⟩ := hfits
    have hready : Fits x (g.thread q) .ready :=
      ⟨hrunnable, hlock.trans lock, by rw [hthread]; exact .inr ⟨rfl, .inr ⟨chan, rfl⟩⟩⟩
    have hmaker : (sit q).maker = none := by rw [hasleep]; rfl
    refine ⟨_, h.become rfl (update_eq_self q g.thread).symm rfl rfl rfl hready
      (by rw [hasleep]; rfl) rfl (h.not_copies hmaker) (h.not_publishes hmaker)
      fun _ hr => hr, ?_⟩
    intro c hp
    rw [update_of_ne]
    · exact hp
    · rintro rfl
      rw [hasleep] at hp
      cases hp

theorem wakeupVisit [DecidableEq K] {chan : Chan K} {after : After L}
    (here : At g c p (.wakeup chan q.val after))
    (other : q ≠ p) (lock : (g.proc q).lock = none) :
    ∃ sit', Situated guard ((g.setProc q ((g.proc q).wake chan)).goto p
      (.wakeup chan (q.val + 1) after)) sit' := by
  have hwake := (g.proc q).wake_spec chan
  obtain ⟨sit', h', hon⟩ := h.rouse (p := p) lock hwake.1 hwake.2.1 hwake.2.2
  have hfits := h.fits_of_at here
  refine ⟨sit', h'.goto (hon c (h.on_of_at here)) ?_ (by rintro _ ⟨⟩) (by rintro _ ⟨⟩) ?_ ?_⟩
  · simp only [State.setProc, update_of_ne other.symm]
    exact hfits.moved rfl rfl (by simp)
  · simp only [State.setProc, here.thread]
    cases after <;> rfl
  · simp only [State.setProc, here.thread]
    cases after <;> rfl

variable {pid : UInt32} {np : Slot}

theorem killHit (here : At g c p (.kill pid q.val)) (lock : (g.proc q).lock = none) :
    ∃ sit', Situated guard ((g.setProc q (g.proc q).kill).goto p (.kernel [])) sit' := by
  obtain ⟨sit', h', hon⟩ := h.rouse (x := (g.proc q).kill) (p := p) lock rfl rfl (g.proc q).kill_state
  have here' : At (g.setProc q (g.proc q).kill) c p (.kill pid q.val) := ⟨here.runs, here.thread⟩
  refine ⟨sit', h'.goto (hon c (h.on_of_at here))
    ((h'.fits_of_at here').moved rfl rfl nofun) nofun nofun ?_ ?_⟩
  · rw [here'.thread]
    rfl
  · rw [here'.thread]
    rfl

theorem allocFound (here : At g c p (.allocproc q.val)) (unused : (g.proc q).state = .unused) :
    ∃ sit', Situated guard (g.allocproc c p q q.val) sit' := by
  have hon := h.on_of_at here
  have hfree := (h.fits q).unused unused
  have hmaker : (sit q).maker = none := by rw [hfree]; rfl
  have hpq : p ≠ q := by
    rintro rfl
    rw [hon] at hfree
    cases hfree
  let g' : State C L K := (g.setProc q { g.proc q with
    pid := g.nextpid, state := .used, lock := some c }).setThread q { pc := .forkret }
  have hcopied : Fits { g.proc q with pid := g.nextpid, state := .used, lock := some c }
      ({ pc := .forkret } : Thread L K) (.copied p c) := ⟨rfl, rfl, rfl⟩
  have h' : Situated guard g' (update sit q (.copied p c)) :=
    h.become rfl rfl rfl rfl rfl hcopied (by rw [hfree]; rfl) rfl (h.not_copies hmaker)
      (h.not_publishes hmaker) nofun
  have here' : At g' c p (.allocproc q.val) :=
    ⟨here.runs, (update_of_ne hpq _ _).trans here.thread⟩
  have hchild : ∀ r, (Pc.forkCopy q : Pc L K).copies = some r →
      update sit q (.copied p c) r = .copied p c := by
    rintro r ⟨⟩
    exact update_self ..
  have h'' : Situated guard (g'.goto p (.forkCopy q)) _ :=
    h'.goto (h'.on_of_at here') ((h'.fits_of_at here').moved rfl rfl nofun) hchild nofun
      (by rw [here'.thread]; rfl) (by rw [here'.thread]; rfl)
  unfold State.allocproc
  rw [if_pos unused]
  exact ⟨_, h''.record _ _⟩

theorem letGo (here : At g c p pc) (child : pc.copies = some np ∨ pc.publishes = some np)
    (keeps : pc.Keeps guard (.kernel [])) :
    Situated guard (g.goto p (.kernel [])) sit ∧
      (∀ r, ((g.goto p (.kernel [])).thread r).pc.copies ≠ some np) ∧
      ∀ r, ((g.goto p (.kernel [])).thread r).pc.publishes ≠ some np := by
  have hmaker : (sit np).maker = some p := by
    rcases child with hchild | hchild
    · exact h.maker_of_copies (by rw [here.thread]; exact hchild)
    · exact h.maker_of_publishes (by rw [here.thread]; exact hchild)
  have h' : Situated guard (g.goto p (.kernel [])) sit := by
    refine h.goto (h.on_of_at here)
      ((h.fits_of_at here).moved keeps.zombie keeps.ownLock nofun) nofun nofun ?_ ?_
    · rw [here.thread]
      exact keeps.waitLock
    · rw [here.thread]
      exact keeps.held
  have hself : (g.goto p (.kernel [])).thread p = { pc := .kernel [] } := update_self ..
  refine ⟨h', fun r hr => ?_, fun r hr => ?_⟩
  · obtain rfl : p = r := Option.some.inj (hmaker.symm.trans (h'.maker_of_copies hr))
    rw [hself] at hr
    cases hr
  · obtain rfl : p = r := Option.some.inj (hmaker.symm.trans (h'.maker_of_publishes hr))
    rw [hself] at hr
    cases hr

theorem forkFail (here : At g c p (.forkCopy np)) :
    ∃ sit', Situated guard ((g.setProc np { (g.proc np).free with lock := none }).goto p
      (.kernel [])) sit' := by
  obtain ⟨h', hcopies, hpublishes⟩ :=
    h.letGo here (.inl rfl) ⟨rfl, rfl, rfl, rfl, rfl, rfl, nofun⟩
  obtain ⟨c', -, hcopied⟩ := h.copies p np (by rw [here.thread]; rfl)
  have hfits := h'.fits np
  rw [hcopied] at hfits
  have hfree : Fits ({ (g.proc np).free with lock := none } : Proc C K)
      ((g.goto p (.kernel [])).thread np) .free :=
    ⟨rfl, rfl, by rw [hfits.2.2], .inr (by rw [hfits.2.2])⟩
  exact ⟨_, h'.become rfl (update_eq_self np _).symm rfl rfl rfl hfree
    (by rw [hcopied]; rfl) rfl hcopies hpublishes fun _ hr => hr⟩

theorem forkCopy (here : At g c p (.forkCopy np)) (pid : UInt32) :
    ∃ sit', Situated guard ((g.releaseProc np).goto p (.forkParent np pid)) sit' := by
  obtain ⟨h', hcopies, hpublishes⟩ :=
    h.letGo here (.inl rfl) ⟨rfl, rfl, rfl, rfl, rfl, rfl, nofun⟩
  obtain ⟨c', hon, hcopied⟩ := h.copies p np (by rw [here.thread]; rfl)
  have hfits := h'.fits np
  rw [hcopied] at hfits
  have hembryo : Fits ({ g.proc np with lock := none } : Proc C K)
      ((g.goto p (.kernel [])).thread np) (.embryo p) := ⟨hfits.1, rfl, hfits.2.2⟩
  have h'' : Situated guard ((g.goto p (.kernel [])).releaseProc np)
      (update sit np (.embryo p)) :=
    h'.become rfl (update_eq_self np _).symm rfl rfl rfl hembryo
      (by rw [hcopied]; rfl) rfl hcopies hpublishes fun _ hr => hr
  have here'' : At ((g.goto p (.kernel [])).releaseProc np) c p (.kernel []) :=
    ⟨here.runs, update_self ..⟩
  have hchild : ∀ r, (Pc.forkParent np pid : Pc L K).publishes = some r →
      update sit np (.embryo p) r = .embryo p := by
    rintro r ⟨⟩
    exact update_self ..
  have hlast : Situated guard (((g.goto p (.kernel [])).releaseProc np).goto p
      (.forkParent np pid)) _ :=
    h''.goto (h''.on_of_at here'') ((h''.fits_of_at here'').moved rfl rfl nofun) nofun hchild
      (by rw [here''.thread]; rfl) (by rw [here''.thread]; rfl)
  have hcomm : ((g.goto p (.kernel [])).releaseProc np).goto p (.forkParent np pid) =
      (g.releaseProc np).goto p (.forkParent np pid) :=
    State.goto_goto (g.releaseProc np) p (.kernel []) (.forkParent np pid)
  rw [hcomm] at hlast
  exact ⟨_, hlast⟩

theorem forkParent (here : At g c p (.forkParent np pid)) :
    Situated guard ((g.setProc np { g.proc np with parent := some p }).goto p
      (.forkRunnable np pid)) sit := by
  have hembryo := h.publishes p np (by rw [here.thread]; rfl)
  have hfits := h.fits np
  rw [hembryo] at hfits
  have h' : Situated guard (g.setProc np { g.proc np with parent := some p }) sit :=
    h.setProc (by rw [hembryo]; exact ⟨hfits.1, hfits.2.1, hfits.2.2⟩)
  have here' : At (g.setProc np { g.proc np with parent := some p }) c p (.forkParent np pid) :=
    ⟨here.runs, here.thread⟩
  refine h'.goto (h'.on_of_at here') ((h'.fits_of_at here').moved rfl rfl nofun) nofun ?_
    (by rw [here'.thread]; rfl) (by rw [here'.thread]; rfl)
  rintro r ⟨⟩
  exact hembryo

theorem forkRunnable (here : At g c p (.forkRunnable np pid)) (lock : (g.proc np).lock = none) :
    ∃ sit', Situated guard ((g.setProc np { g.proc np with state := .runnable }).goto p
      (.kernel [])) sit' := by
  obtain ⟨h', hcopies, hpublishes⟩ :=
    h.letGo here (.inr rfl) ⟨rfl, rfl, rfl, rfl, rfl, rfl, nofun⟩
  have hembryo := h.publishes p np (by rw [here.thread]; rfl)
  have hfits := h'.fits np
  rw [hembryo] at hfits
  have hready : Fits ({ g.proc np with state := .runnable } : Proc C K)
      ((g.goto p (.kernel [])).thread np) .ready :=
    ⟨rfl, lock, by rw [hfits.2.2]; exact .inr ⟨rfl, .inl rfl⟩⟩
  exact ⟨_, h'.become rfl (update_eq_self np _).symm rfl rfl rfl hready
    (by rw [hembryo]; rfl) rfl hcopies hpublishes fun _ hr => hr⟩

theorem reparentChild {status : Int} (here : At g c p (.reparent q.val status)) :
    Situated guard ((g.setProc q { g.proc q with parent := some initproc }).goto p
      (.wakeup (.proc initproc) 0 (.reparent (q.val + 1) status))) sit := by
  have h' : Situated guard (g.setProc q { g.proc q with parent := some initproc }) sit :=
    h.setProc (h.fits q)
  have here' : At (g.setProc q { g.proc q with parent := some initproc }) c p
      (.reparent q.val status) := ⟨here.runs, here.thread⟩
  exact h'.goto (h'.on_of_at here') ((h'.fits_of_at here').moved rfl rfl nofun) nofun nofun
    (by rw [here'.thread]; rfl) (by rw [here'.thread]; rfl)

theorem reap {havekids : Bool} (here : At g c p (.waitScan q.val havekids))
    (lock : (g.proc q).lock = none) (zombie : (g.proc q).state = .zombie) :
    ∃ sit', Situated guard (g.reap p q).1 sit' := by
  have hdead := (h.fits q).zombie zombie lock
  have hfits := h.fits q
  rw [hdead] at hfits
  have hmaker : (sit q).maker = none := by rw [hdead]; rfl
  have hfree : Fits (g.proc q).free (g.thread q) .free :=
    ⟨rfl, lock, by rw [hfits.2.2], .inl (by rw [hfits.2.2])⟩
  have h' : Situated guard (g.setProc q (g.proc q).free) (update sit q .free) :=
    h.become rfl (update_eq_self q _).symm rfl rfl rfl hfree (by rw [hdead]; rfl) rfl
      (h.not_copies hmaker) (h.not_publishes hmaker) fun _ hr => hr
  have here' : At (g.setProc q (g.proc q).free) c p (.waitScan q.val havekids) :=
    ⟨here.runs, here.thread⟩
  have h'' : Situated guard ({ g.setProc q (g.proc q).free with waitLock := none }.goto p
      (.kernel [])) _ :=
    h'.setWait here' (.kernel []) rfl rfl nofun rfl rfl rfl (.inr ⟨rfl, rfl, rfl⟩)
  exact ⟨_, h''.record g.nextpid _⟩

theorem step [DecidableEq C] [DecidableEq L] [DecidableEq K]
    (hstep : Step guard g event next result) : ∃ sit', Situated guard next sit' := by
  cases hstep with
  | look c p => exact ⟨sit, h⟩
  | pick c p idle lock runnable => exact h.pick idle lock runnable
  | resched c p back => exact h.resched back
  | interrupt q k lock =>
    have hwake := (g.proc q).wake_spec (.other k)
    obtain ⟨sit', h', -⟩ := h.rouse (p := q) lock hwake.1 hwake.2.1 hwake.2.2
    exact ⟨sit', h'⟩
  | yield c p pc here on lock =>
    obtain ⟨-, hwait, hheld, hcopies⟩ := Pc.interruptible_spec guard on
    exact h.swtch here ⟨rfl, .inl ⟨rfl, .inl ⟨rfl, on⟩⟩⟩ ⟨hwait, hheld, hcopies⟩ fun _ hr => hr
  | yieldReturn c p runs yielding => exact ⟨sit, h.yieldReturn runs yielding⟩
  | move c p act pc pc' result here moves => exact ⟨sit, h.move here moves⟩
  | callExit c p status here user =>
    have h' : Situated guard (g.goto p (.exit status)) sit :=
      h.goto (h.on_of_at here) ((h.fits_of_at here).moved rfl rfl (by simp))
        (by rintro _ ⟨⟩) (by rintro _ ⟨⟩)
        (by rw [here.thread]; rfl) (by rw [here.thread]; rfl)
    exact ⟨sit, h'.record g.nextpid _⟩
  | fault c p here => exact ⟨sit, h.setProc (h.fits p)⟩
  | acquire c p held l here lock => exact ⟨sit, h.acquire here lock rfl rfl rfl⟩
  | release c p held l here holds =>
    exact ⟨sit, h.release here holds rfl ((h.fits_of_at here).moved rfl rfl (by simp)) rfl rfl rfl⟩
  | forkret c p here =>
    exact ⟨sit, h.self here ⟨(h.fits_of_at here).1, rfl, (by simp), (by simp)⟩ rfl rfl rfl rfl⟩
  | sleepAcquire c p chan here lock =>
    refine ⟨sit, h.self here ⟨(h.fits_of_at here).1, rfl, (by simp), (by simp)⟩ rfl rfl ?_ ?_⟩
    · cases chan <;> rfl
    · cases chan <;> rfl
  | sleepReleaseWait c p q here =>
    exact ⟨sit, h.setWait here (.sleepSched (.proc q)) rfl rfl (by simp) rfl rfl rfl
      (.inr ⟨rfl, rfl, rfl⟩)⟩
  | sleepRelease c p k here =>
    exact ⟨sit, h.release here (List.mem_singleton_self _) (by simp [Pc.held])
      ((h.fits_of_at here).moved rfl rfl (by simp)) rfl rfl rfl⟩
  | sleepSched c p chan here =>
    exact h.swtch here ⟨(h.fits_of_at here).2.1, .inr (.inl ⟨rfl, chan, rfl, rfl⟩)⟩
      ⟨rfl, rfl, rfl⟩ (by rintro _ ⟨⟩)
  | sleepTidy c p chan here =>
    exact ⟨sit, h.self here ⟨(h.fits_of_at here).1, rfl, (by simp), (by simp)⟩ rfl rfl rfl rfl⟩
  | sleepReacquireWait c p q here lock =>
    exact ⟨sit, h.setWait here (.waitScan 0 false) rfl rfl (by simp) rfl rfl rfl
      (.inl ⟨rfl, lock, rfl⟩)⟩
  | sleepReacquire c p k here lock => exact ⟨sit, h.acquire here lock rfl rfl rfl⟩
  | wakeupVisit c p q chan after here other lock => exact h.wakeupVisit here other lock
  | killHit c p q pid here lock found =>
    obtain ⟨sit', h'⟩ := h.killHit here lock
    exact ⟨sit', h'.record g.nextpid _⟩
  | allocFound c p q here lock unused => exact h.allocFound here unused
  | forkFail c p np here => exact h.forkFail here
  | forkCopy c p np here => exact h.forkCopy here _
  | forkParent c p np pid here lock => exact ⟨sit, h.forkParent here⟩
  | forkRunnable c p np pid here lock => exact h.forkRunnable here lock
  | exitAcquire c p status here lock =>
    exact ⟨sit, h.setWait here (.reparent 0 status) rfl rfl (by simp) rfl rfl rfl
      (.inl ⟨rfl, lock, rfl⟩)⟩
  | reparentChild c p q status here child => exact ⟨sit, h.reparentChild here⟩
  | exitZombie c p status here lock =>
    have h' : Situated guard ((g.setProc p
        { g.proc p with xstate := status, state := .zombie, lock := some c }).goto p .exitRelease)
        sit := h.self here ⟨rfl, rfl, (by simp), (by simp)⟩ rfl rfl rfl rfl
    exact ⟨sit, h'.record g.nextpid _⟩
  | exitRelease c p here =>
    exact ⟨sit, h.setWait here .exitSched rfl rfl (by simp) rfl rfl rfl
      (.inr ⟨rfl, rfl, rfl⟩)⟩
  | exitSched c p here =>
    obtain ⟨sit', h'⟩ := h.swtch (x := g.proc p) (t := { pc := .exited }) here
      ⟨(h.fits_of_at here).2.1, .inr (.inr ⟨(h.fits_of_at here).1, rfl⟩)⟩
        ⟨rfl, rfl, rfl⟩ (by rintro _ ⟨⟩)
    have hsame : g.setProc p (g.proc p) = g := by
      simp [State.setProc]
    rw [hsame] at h'
    exact ⟨sit', h'⟩
  | waitAcquire c p here lock =>
    exact ⟨sit, h.setWait here (.waitScan 0 false) rfl rfl (by simp) rfl rfl rfl
      (.inl ⟨rfl, lock, rfl⟩)⟩
  | reap c p q havekids here child lock zombie => exact h.reap here lock zombie
  | waitFails c p act i havekids result here fails =>
    exact ⟨sit, h.setWait here (.kernel []) rfl rfl (by simp) rfl rfl rfl
      (.inr ⟨rfl, rfl, rfl⟩)⟩

end

theorem boot : Situated guard (State.boot : State C L K) Situation.boot := by
  have hthread : ∀ p, ((State.boot : State C L K).thread p).Lockless guard := by
    intro p
    obtain rfl | hp := eq_or_ne p initproc
    · exact ⟨rfl, rfl, rfl⟩
    · simp only [State.boot, update_of_ne hp]
      exact ⟨rfl, rfl, rfl⟩
  have hpublishes : ∀ p, ((State.boot : State C L K).thread p).pc.publishes = none := by
    intro p
    obtain rfl | hp := eq_or_ne p initproc
    · rfl
    · simp only [State.boot, update_of_ne hp]
      rfl
  have hsit : ∀ p, (Situation.boot p : Situation C).cpu = none := by
    intro p
    obtain rfl | hp := eq_or_ne p initproc
    · rfl
    · rw [Situation.boot, update_of_ne hp]
      rfl
  have hon : ∀ p c, (Situation.boot p : Situation C) ≠ .on c := by
    intro p c hp
    have hcpu := hsit p
    rw [hp] at hcpu
    cases hcpu
  refine ⟨?_, ?_, ?_, fun _ => rfl, ?_, ?_, ?_, ?_, ?_⟩
  · intro p
    obtain rfl | hp := eq_or_ne p initproc
    · exact ⟨rfl, rfl, .inr ⟨rfl, .inl rfl⟩⟩
    · rw [Situation.boot, update_of_ne hp]
      simp only [State.boot, update_of_ne hp]
      exact ⟨rfl, rfl, rfl, .inl rfl⟩
  · intro c p
    exact ⟨nofun, fun hp => absurd hp (hon p c)⟩
  · intro c p
    refine ⟨nofun, fun hp => ?_⟩
    have hcpu := hsit p
    rw [hp] at hcpu
    cases hcpu
  · intro p q hq
    rw [(hthread p).copies] at hq
    cases hq
  · intro p q hq
    rw [hpublishes p] at hq
    cases hq
  · intro c
    refine ⟨nofun, ?_⟩
    rintro ⟨p, hp, -⟩
    exact absurd hp (hon p c)
  · intro l c
    refine ⟨nofun, ?_⟩
    rintro ⟨p, hp, -⟩
    exact absurd hp (hon p c)
  · intro p
    rw [(hthread p).held]
    exact List.nodup_nil

end Situated

inductive ProcState.Follows : ProcState → ProcState → Prop where
  | alloc : Follows .unused .used
  | publish : Follows .used .runnable
  | abandon : Follows .used .unused
  | run : Follows .runnable .running
  | yield : Follows .running .runnable
  | sleep : Follows .running .sleeping
  | exit : Follows .running .zombie
  | wake : Follows .sleeping .runnable
  | reap : Follows .zombie .unused

namespace Situated

theorem cpuProc_iff (h : Situated guard g sit) : (g.cpu c).proc = some p ↔ (sit p).cpu = some c := by
  rw [h.cpuProc c]
  constructor
  · intro hslot
    cases hruns : (g.cpu c).runs with
    | idle =>
      rw [hruns] at hslot
      cases hslot
    | process q =>
      rw [hruns] at hslot
      cases hslot
      rw [(h.process c p).mp hruns]
      rfl
    | back q =>
      rw [hruns] at hslot
      cases hslot
      rw [(h.back c p).mp hruns]
      rfl
  · intro hcpu
    cases hsit : sit p with
    | on c' =>
      rw [hsit] at hcpu
      cases hcpu
      rw [(h.process c p).mpr hsit]
      rfl
    | leaving c' =>
      rw [hsit] at hcpu
      cases hcpu
      rw [(h.back c p).mpr hsit]
      rfl
    | _ =>
      rw [hsit] at hcpu
      cases hcpu

theorem cpu_unique (h : Situated guard g sit) {c' : C} (hc : (g.cpu c).proc = some p)
    (hc' : (g.cpu c').proc = some p) : c = c' := by
  have hcpu := h.cpuProc_iff.mp hc
  rw [h.cpuProc_iff.mp hc'] at hcpu
  exact (Option.some.inj hcpu).symm

theorem running_iff (h : Situated guard g sit) (lock : (g.proc p).lock = none) :
    (g.proc p).state = .running ↔ ∃ c, (g.cpu c).proc = some p := by
  have hfits := h.fits p
  constructor
  · intro hstate
    cases hsit : sit p with
    | on c => exact ⟨c, h.cpuProc_iff.mpr (by rw [hsit]; rfl)⟩
    | leaving c =>
      rw [hsit] at hfits
      cases lock.symm.trans hfits.1
    | _ =>
      rw [hsit] at hfits
      cases hstate.symm.trans hfits.1
  · rintro ⟨c, hc⟩
    have hcpu := h.cpuProc_iff.mp hc
    cases hsit : sit p with
    | on c =>
      -- with its lock free it has not become a zombie
      rw [hsit] at hfits
      by_cases hzombie : (g.thread p).pc.zombie = true
      · have hdead := (h.fits p).zombie (by rw [hfits.1, if_pos hzombie]) lock
        rw [hsit] at hdead
        cases hdead
      · rw [hfits.1, if_neg hzombie]
    | leaving c =>
      rw [hsit] at hfits
      cases lock.symm.trans hfits.1
    | _ =>
      rw [hsit] at hcpu
      cases hcpu

theorem running_of_at (h : Situated guard g sit) (here : At g c p pc) (alive : pc.zombie = false) :
    (g.proc p).state = .running := by
  rw [(h.fits_of_at here).1, alive]
  rfl

theorem used_of_copies (h : Situated guard g sit) (hq : (g.thread p).pc.copies = some q) :
    (g.proc q).state = .used := by
  obtain ⟨c, -, hcopied⟩ := h.copies p q hq
  have hfits := h.fits q
  rw [hcopied] at hfits
  exact hfits.1

theorem used_of_publishes (h : Situated guard g sit) (hq : (g.thread p).pc.publishes = some q) :
    (g.proc q).state = .used := by
  have hfits := h.fits q
  rw [h.publishes p q hq] at hfits
  exact hfits.1

end Situated

theorem follows_of_setProc (hproc : next.proc = update g.proc q x)
    (hstate : x.state = (g.proc q).state ∨ (g.proc q).state.Follows x.state) (p : Slot) :
    (next.proc p).state = (g.proc p).state ∨ (g.proc p).state.Follows (next.proc p).state := by
  rw [hproc]
  obtain rfl | hp := eq_or_ne p q
  · rw [update_self]
    exact hstate
  · rw [update_of_ne hp]
    exact .inl rfl

theorem ProcState.follows_of_rouse {s s' : ProcState}
    (h : s' = s ∨ (s = .sleeping ∧ s' = .runnable)) : s' = s ∨ s.Follows s' := by
  rcases h with hsame | ⟨rfl, rfl⟩
  · exact .inl hsame
  · exact .inr .wake

variable [DecidableEq C] [DecidableEq L] [DecidableEq K]

theorem exists_situated (h : State.Reachable guard g) : ∃ sit, Situated guard g sit := by
  induction h with
  | boot => exact ⟨_, Situated.boot⟩
  | step _ _ hstep ih =>
    obtain ⟨sit, hsit⟩ := ih
    exact hsit.step (step_of_event hstep)

theorem Situated.follows (h : Situated guard g sit) (hstep : Step guard g event next result)
    (r : Slot) :
    (next.proc r).state = (g.proc r).state ∨ (g.proc r).state.Follows (next.proc r).state := by
  cases hstep with
  | pick c p idle lock runnable =>
    exact follows_of_setProc rfl (.inr (by rw [runnable]; exact .run)) r
  | interrupt q k lock =>
    exact follows_of_setProc rfl
      (ProcState.follows_of_rouse ((g.proc q).wake_spec (.other k)).2.2) r
  | yield c p pc here on lock =>
    have hrunning := h.running_of_at here (Pc.interruptible_alive on).1
    exact follows_of_setProc rfl (.inr (by rw [hrunning]; exact .yield)) r
  | sleepSched c p chan here =>
    have hrunning := h.running_of_at here rfl
    exact follows_of_setProc rfl (.inr (by rw [hrunning]; exact .sleep)) r
  | wakeupVisit c p q chan after here other lock =>
    exact follows_of_setProc rfl (ProcState.follows_of_rouse ((g.proc q).wake_spec chan).2.2) r
  | killHit c p q pid here lock found =>
    exact follows_of_setProc rfl (ProcState.follows_of_rouse (g.proc q).kill_state) r
  | allocFound c p q here lock unused =>
    rw [State.allocproc, if_pos unused]
    exact follows_of_setProc rfl (.inr (by rw [unused]; exact .alloc)) r
  | forkFail c p np here =>
    have hused := h.used_of_copies (p := p) (q := np) (by rw [here.thread]; rfl)
    exact follows_of_setProc rfl (.inr (by rw [hused]; exact .abandon)) r
  | forkRunnable c p np pid here lock =>
    have hused := h.used_of_publishes (p := p) (q := np) (by rw [here.thread]; rfl)
    exact follows_of_setProc rfl (.inr (by rw [hused]; exact .publish)) r
  | exitZombie c p status here lock =>
    have hrunning := h.running_of_at here rfl
    exact follows_of_setProc rfl (.inr (by rw [hrunning]; exact .exit)) r
  | reap c p q havekids here child lock zombie =>
    exact follows_of_setProc rfl (.inr (by rw [zombie]; exact .reap)) r
  -- the other steps leave all states alone, or write another field of one slot
  | resched c p | yieldReturn c p | fault c p | forkret c p | sleepAcquire c p | sleepTidy c p
  | forkCopy c _ p | forkParent c _ p | reparentChild c _ p =>
    refine follows_of_setProc (q := p) rfl (.inl ?_) r
    rfl
  | _ => exact .inl rfl

/-- With its lock free a process is `RUNNING` exactly when one CPU has it; no two ever do, and
states change along the arrows. -/
theorem one_cpu_of_reachable (h : State.Reachable guard g) :
    (∀ p, (g.proc p).lock = none →
      ((g.proc p).state = .running ↔ ∃! c, (g.cpu c).proc = some p)) ∧
    (∀ p c c', (g.cpu c).proc = some p → (g.cpu c').proc = some p → c = c') ∧
    ∀ event next result, g.step guard event = some (next, result) → ∀ p,
      (next.proc p).state = (g.proc p).state ∨
        (g.proc p).state.Follows (next.proc p).state := by
  obtain ⟨sit, hsit⟩ := exists_situated h
  refine ⟨fun p hlock => ?_, fun p c c' => hsit.cpu_unique, ?_⟩
  · rw [hsit.running_iff hlock]
    constructor
    · rintro ⟨c, hc⟩
      exact ⟨c, hc, fun c' hc' => hsit.cpu_unique hc' hc⟩
    · rintro ⟨c, hc, -⟩
      exact ⟨c, hc⟩
  · intro event next result hstep
    exact hsit.follows (step_of_event hstep)

theorem one_cpu_of_reachable_start : ∃ g results,
    State.run (fun _ => ()) (State.boot : State Bool Unit Unit)
      [.schedule true initproc, .run true .next] = some (g, results) ∧
    (g.proc initproc).lock = none ∧ (g.proc initproc).state = .running ∧
    ∃! c, (g.cpu c).proc = some initproc := by
  have hrun : State.run (fun _ => ()) (State.boot : State Bool Unit Unit)
      [.schedule true initproc, .run true .next] = some (_, _) := rfl
  exact ⟨_, _, hrun, rfl, rfl,
    ((one_cpu_of_reachable (State.Reachable.of_run hrun)).1 initproc rfl).mp rfl⟩

end Xv6.Machine
