import Mathlib.Data.List.Nodup
import Xv6.Proc.Steps

/-! The situation of each process: what a slot means while locks are handed over. -/
namespace Xv6.Machine

open Function (update update_eq_self update_of_ne update_self)

variable {C L K : Type}

namespace Pc

def zombie : Pc L K → Bool
  | .exitRelease | .exitSched => true
  | _ => false

/-- Holds its own lock, outside of `yield`. -/
def ownLock : Pc L K → Bool
  | .forkret | .sleepRelease _ | .sleepSched _ | .sleepTidy _ | .exitRelease | .exitSched => true
  | _ => false

def waitLock : Pc L K → Bool
  | .sleepAcquire (.proc _) | .sleepRelease (.proc _) | .wakeup _ _ (.reparent ..)
  | .wakeup _ _ (.exitZombie _) | .reparent .. | .exitZombie _ | .exitRelease
  | .waitScan .. => true
  | _ => false

def held (guard : K → L) : Pc L K → List L
  | .kernel held | .wakeup _ _ (.kernel held) => held
  | .sleepAcquire (.other k) | .sleepRelease (.other k) => [guard k]
  | _ => []

def copies : Pc L K → Option Slot
  | .forkCopy np => some np
  | _ => none

def publishes : Pc L K → Option Slot
  | .forkParent np _ | .forkRunnable np _ => some np
  | _ => none

end Pc

def Thread.ownLock (t : Thread L K) : Bool := t.yielding || t.pc.ownLock

/-- Switched out holding its own lock. -/
def Thread.Resumable (t : Thread L K) : Prop :=
  (t.yielding = true ∧ t.pc.interruptible = true) ∨
    (t.yielding = false ∧ (t.pc = .forkret ∨ ∃ chan, t.pc = .sleepTidy chan))

def Runs.slot : Runs → Option Slot
  | .idle => none
  | .process p | .back p => some p

inductive Situation (C : Type) where
  | free
  /-- Filled in by a `fork` on a CPU, which holds the lock. -/
  | copied (parent : Slot) (c : C)
  /-- Known only to its `fork`. -/
  | embryo (parent : Slot)
  | ready
  | on (c : C)
  /-- Switched out, the lock still held by the scheduler. -/
  | leaving (c : C)
  | asleep
  | dead

/-- State, lock and thread of a process in a situation. -/
def Fits (x : Proc C K) (t : Thread L K) : Situation C → Prop
  | .free => x.state = .unused ∧ x.lock = none ∧ t.yielding = false ∧
      (t.pc = .exited ∨ t.pc = .forkret)
  | .copied _ c => x.state = .used ∧ x.lock = some c ∧ t = { pc := .forkret }
  | .embryo _ => x.state = .used ∧ x.lock = none ∧ t = { pc := .forkret }
  | .ready => x.state = .runnable ∧ x.lock = none ∧ t.Resumable
  | .on c => x.state = (if t.pc.zombie then .zombie else .running) ∧
      x.lock = (if t.ownLock then some c else none) ∧ t.pc ≠ .exited ∧
      (t.yielding = true → t.pc.interruptible = true)
  | .leaving c => x.lock = some c ∧
      ((x.state = .runnable ∧ t.Resumable) ∨
        (x.state = .sleeping ∧ ∃ chan, t = { pc := .sleepTidy chan } ∧ x.chan = some chan) ∨
        (x.state = .zombie ∧ t = { pc := .exited }))
  | .asleep => x.state = .sleeping ∧ x.lock = none ∧
      ∃ chan, t = { pc := .sleepTidy chan } ∧ x.chan = some chan
  | .dead => x.state = .zombie ∧ x.lock = none ∧ t = { pc := .exited }

structure Situated (guard : K → L) (g : State C L K) (sit : Slot → Situation C) : Prop where
  fits : ∀ p, Fits (g.proc p) (g.thread p) (sit p)
  process : ∀ c p, (g.cpu c).runs = .process p ↔ sit p = .on c
  back : ∀ c p, (g.cpu c).runs = .back p ↔ sit p = .leaving c
  cpuProc : ∀ c, (g.cpu c).proc = (g.cpu c).runs.slot
  copies : ∀ p q, (g.thread p).pc.copies = some q → ∃ c, sit p = .on c ∧ sit q = .copied p c
  publishes : ∀ p q, (g.thread p).pc.publishes = some q → sit q = .embryo p
  wait : ∀ c, g.waitLock = some c ↔ ∃ p, sit p = .on c ∧ (g.thread p).pc.waitLock = true
  locks : ∀ l c, g.lock l = some c ↔ ∃ p, sit p = .on c ∧ l ∈ (g.thread p).pc.held guard
  nodup : ∀ p, ((g.thread p).pc.held guard).Nodup

/-- The CPU whose scheduler has switched to it. -/
def Situation.cpu : Situation C → Option C
  | .on c | .leaving c => some c
  | _ => none

def Situation.maker : Situation C → Option Slot
  | .copied parent _ | .embryo parent => some parent
  | _ => none

theorem Pc.interruptible_alive {pc : Pc L K} (h : pc.interruptible = true) :
    pc.zombie = false ∧ pc ≠ .exited := by
  refine ⟨?_, ?_⟩
  · cases pc <;> first | rfl | cases h
  · rintro rfl
    cases h

/-- Interrupts are off while a lock is held. -/
theorem Pc.interruptible_spec {pc : Pc L K} (guard : K → L) (h : pc.interruptible = true) :
    pc.ownLock = false ∧ pc.waitLock = false ∧ pc.held guard = [] ∧ pc.copies = none := by
  cases pc with
  | kernel held =>
    have hheld : held = [] := List.isEmpty_iff.mp h
    subst hheld
    exact ⟨rfl, rfl, rfl, rfl⟩
  | _ => first | exact ⟨rfl, rfl, rfl, rfl⟩ | cases h

/-- Nothing is locked but `p->lock`. -/
structure Thread.Lockless (guard : K → L) (t : Thread L K) : Prop where
  waitLock : t.pc.waitLock = false
  held : t.pc.held guard = []
  copies : t.pc.copies = none

theorem Thread.Resumable.lockless {t : Thread L K} (guard : K → L) (h : t.Resumable) :
    t.Lockless guard := by
  rcases h with ⟨-, hon⟩ | ⟨-, hpc | ⟨chan, hpc⟩⟩
  · obtain ⟨-, hwait, hheld, hcopies⟩ := Pc.interruptible_spec guard hon
    exact ⟨hwait, hheld, hcopies⟩
  · exact ⟨by rw [hpc]; rfl, by rw [hpc]; rfl, by rw [hpc]; rfl⟩
  · exact ⟨by rw [hpc]; rfl, by rw [hpc]; rfl, by rw [hpc]; rfl⟩

variable {guard : K → L} {g next : State C L K} {sit : Slot → Situation C} {c : C} {p q : Slot}
  {x : Proc C K} {t : Thread L K} {s : Situation C}

theorem Thread.Resumable.fits (h : t.Resumable) (hstate : x.state = .running)
    (hlock : x.lock = some c) : Fits x t (.on c) := by
  have hplace : t.ownLock = true ∧ t.pc.zombie = false ∧ t.pc ≠ .exited := by
    unfold Thread.ownLock
    rcases h with ⟨hyielding, hon⟩ | ⟨-, hpc | ⟨chan, hpc⟩⟩
    · rw [hyielding]
      exact ⟨rfl, Pc.interruptible_alive hon⟩
    · rw [hpc]
      exact ⟨Bool.or_true _, rfl, nofun⟩
    · rw [hpc]
      exact ⟨Bool.or_true _, rfl, nofun⟩
  obtain ⟨hown, hzombie, hexited⟩ := hplace
  refine ⟨by rw [hstate, hzombie]; rfl, by rw [hlock, if_pos hown], hexited, fun hyielding => ?_⟩
  rcases h with ⟨-, hon⟩ | ⟨hno, -⟩
  · exact hon
  · cases hno.symm.trans hyielding

/-- Off the CPUs, a process holds no other lock. -/
theorem Fits.lockless (h : Fits x t s) (off : ∀ c, s ≠ .on c) : t.Lockless guard := by
  have hpc : ∀ pc : Pc L K, t = { pc := pc } → pc.waitLock = false → pc.held guard = [] →
      pc.copies = none → t.Lockless guard := by
    rintro pc rfl hwait hheld hcopies
    exact ⟨hwait, hheld, hcopies⟩
  cases s with
  | free =>
    obtain ⟨-, -, -, hpc | hpc⟩ := h
    · exact ⟨by rw [hpc]; rfl, by rw [hpc]; rfl, by rw [hpc]; rfl⟩
    · exact ⟨by rw [hpc]; rfl, by rw [hpc]; rfl, by rw [hpc]; rfl⟩
  | copied parent c => exact hpc _ h.2.2 rfl rfl rfl
  | embryo parent => exact hpc _ h.2.2 rfl rfl rfl
  | ready => exact h.2.2.lockless guard
  | on c => exact absurd rfl (off c)
  | leaving c =>
    rcases h.2 with ⟨-, hres⟩ | ⟨-, chan, ht, -⟩ | ⟨-, ht⟩
    · exact hres.lockless guard
    · exact hpc _ ht rfl rfl rfl
    · exact hpc _ ht rfl rfl rfl
  | asleep =>
    obtain ⟨-, -, chan, ht, -⟩ := h
    exact hpc _ ht rfl rfl rfl
  | dead => exact hpc _ h.2.2 rfl rfl rfl

namespace Fits

theorem on_state (h : Fits x t (.on c)) : x.state = .running ∨ x.state = .zombie := by
  rw [h.1]
  split
  · exact .inr rfl
  · exact .inl rfl

theorem unused (h : Fits x t s) (hstate : x.state = .unused) : s = .free := by
  cases s with
  | free => rfl
  | on c => rcases h.on_state with hs | hs <;> cases hstate.symm.trans hs
  | leaving c => rcases h.2 with ⟨hs, -⟩ | ⟨hs, -⟩ | ⟨hs, -⟩ <;> cases hstate.symm.trans hs
  | _ => cases hstate.symm.trans h.1

theorem runnable (h : Fits x t s) (hstate : x.state = .runnable) (hlock : x.lock = none) :
    s = .ready := by
  cases s with
  | ready => rfl
  | on c => rcases h.on_state with hs | hs <;> cases hstate.symm.trans hs
  | leaving c => cases hlock.symm.trans h.1
  | _ => cases hstate.symm.trans h.1

theorem sleeping (h : Fits x t s) (hstate : x.state = .sleeping) (hlock : x.lock = none) :
    s = .asleep := by
  cases s with
  | asleep => rfl
  | on c => rcases h.on_state with hs | hs <;> cases hstate.symm.trans hs
  | leaving c => cases hlock.symm.trans h.1
  | _ => cases hstate.symm.trans h.1

theorem zombie (h : Fits x t s) (hstate : x.state = .zombie) (hlock : x.lock = none) :
    s = .dead := by
  cases s with
  | dead => rfl
  | on c =>
    have hon := hstate.symm.trans h.1
    have hown := hlock.symm.trans h.2.1
    have hzombie : t.pc.zombie = true := by
      by_contra hfalse
      rw [if_neg hfalse] at hon
      cases hon
    have hlocked : t.ownLock = true := by
      cases hpc : t.pc <;> rw [hpc] at hzombie <;> first
        | (cases hzombie; done)
        | (rw [Thread.ownLock, hpc]; exact Bool.or_true _)
    rw [if_pos hlocked] at hown
    cases hown
  | leaving c => cases hlock.symm.trans h.1
  | _ => cases hstate.symm.trans h.1

end Fits

/-- The lock is held by the CPU of who needs it. -/
def Holder (sit : Slot → Situation C) (needs : Slot → Prop) (lock : Option C) : Prop :=
  ∀ c, lock = some c ↔ ∃ p, sit p = .on c ∧ needs p

/-- A CPU takes, keeps or gives up a lock as its process needs it. -/
def Hands (c : C) (needed : Prop) (lock lock' : Option C) : Prop :=
  ∀ c', lock' = some c' ↔ (c' = c ∧ needed) ∨ (c' ≠ c ∧ lock = some c')

section Locks

variable {needs needs' : Slot → Prop} {needed : Prop} {lock lock' : Option C}

theorem Hands.unchanged (h : lock = some c ↔ needed) : Hands c needed lock lock := by
  intro c'
  obtain rfl | hc := eq_or_ne c' c
  · simp [h]
  · simp [hc]

theorem Hands.acquired (hneeded : needed) : Hands c needed none (some c) := by
  intro c'
  simp [hneeded, eq_comm]

theorem Hands.released (hneeded : ¬needed) : Hands c needed (some c) none := by
  intro c'
  simp [hneeded, eq_comm]

theorem Holder.hands (h : Holder sit needs lock)
    (inj : ∀ p q c, sit p = .on c → sit q = .on c → p = q) (hon : sit p = .on c)
    (others : ∀ q, q ≠ p → (needs' q ↔ needs q)) (hands : Hands c (needs' p) lock lock') :
    Holder sit needs' lock' := by
  intro c'
  rw [hands c']
  constructor
  · rintro (⟨rfl, hneeds⟩ | ⟨hc, hheld⟩)
    · exact ⟨p, hon, hneeds⟩
    · obtain ⟨q, hq, hneeds⟩ := (h c').mp hheld
      have hqp : q ≠ p := by
        rintro rfl
        exact hc (Situation.on.inj (hq.symm.trans hon))
      exact ⟨q, hq, (others q hqp).mpr hneeds⟩
  · rintro ⟨q, hq, hneeds⟩
    obtain rfl | hqp := eq_or_ne q p
    · exact .inl ⟨Situation.on.inj (hq.symm.trans hon), hneeds⟩
    · refine .inr ⟨?_, (h c').mpr ⟨q, hq, (others q hqp).mp hneeds⟩⟩
      rintro rfl
      exact hqp (inj q p c' hq hon)

theorem Holder.update (h : Holder sit needs lock) (before : ¬needs p) (after : ¬needs' p)
    (others : ∀ q, q ≠ p → (needs' q ↔ needs q)) :
    Holder (update sit p s) needs' lock := by
  intro c
  refine (h c).trans (exists_congr fun q => ?_)
  obtain rfl | hq := eq_or_ne q p
  · exact iff_of_false (fun hneeds => before hneeds.2) fun hneeds => after hneeds.2
  · rw [update_of_ne hq, others q hq]

end Locks

namespace Situated

section

variable (h : Situated guard g sit)

include h

theorem on_inj (hp : sit p = .on c) (hq : sit q = .on c) : p = q := by
  have hruns := (h.process c p).mpr hp
  rw [(h.process c q).mpr hq] at hruns
  exact (Runs.process.inj hruns).symm

theorem holder_iff {needs : Slot → Prop} {lock : Option C} (holder : Holder sit needs lock)
    (hon : sit p = .on c) : lock = some c ↔ needs p := by
  rw [holder c]
  constructor
  · rintro ⟨q, hq, hneeds⟩
    rw [h.on_inj hon hq]
    exact hneeds
  · exact fun hneeds => ⟨p, hon, hneeds⟩

theorem waitLock_iff (hon : sit p = .on c) :
    g.waitLock = some c ↔ (g.thread p).pc.waitLock = true :=
  h.holder_iff h.wait hon

theorem lock_iff (hon : sit p = .on c) (l : L) :
    g.lock l = some c ↔ l ∈ (g.thread p).pc.held guard :=
  h.holder_iff (h.locks l) hon

theorem on_of_locked (locked : ¬(g.thread p).Lockless guard) : ∃ c, sit p = .on c := by
  by_contra hoff
  exact locked ((h.fits p).lockless fun c hc => hoff ⟨c, hc⟩)

theorem on_of_waitLock (hwait : (g.thread p).pc.waitLock = true) :
    ∃ c, sit p = .on c ∧ g.waitLock = some c := by
  obtain ⟨c, hc⟩ := h.on_of_locked fun hoff => Bool.false_ne_true (hoff.waitLock.symm.trans hwait)
  exact ⟨c, hc, (h.waitLock_iff hc).mpr hwait⟩

theorem holder_unique {needs : Slot → Prop} {lock : Option C} (holder : Holder sit needs lock)
    (locked : ∀ p, needs p → ¬(g.thread p).Lockless guard) (hp : needs p) (hq : needs q) :
    p = q := by
  obtain ⟨c, hon⟩ := h.on_of_locked (locked p hp)
  obtain ⟨c', hon'⟩ := h.on_of_locked (locked q hq)
  have hlock := (h.holder_iff holder hon).mpr hp
  rw [(h.holder_iff holder hon').mpr hq] at hlock
  cases hlock
  exact h.on_inj hon hon'

theorem waitLock_unique (hp : (g.thread p).pc.waitLock = true)
    (hq : (g.thread q).pc.waitLock = true) : p = q :=
  h.holder_unique h.wait
    (fun _ hwait hoff => Bool.false_ne_true (hoff.waitLock.symm.trans hwait)) hp hq

theorem held_unique {l : L} (hp : l ∈ (g.thread p).pc.held guard)
    (hq : l ∈ (g.thread q).pc.held guard) : p = q :=
  h.holder_unique (h.locks l)
    (fun _ hheld hoff => List.not_mem_nil (hoff.held ▸ hheld)) hp hq

/-- Only slots that `fork` fills in are copied to. -/
theorem maker_of_copies (hr : (g.thread p).pc.copies = some q) : (sit q).maker = some p := by
  obtain ⟨c, -, hq⟩ := h.copies p q hr
  rw [hq]
  rfl

theorem maker_of_publishes (hr : (g.thread p).pc.publishes = some q) : (sit q).maker = some p := by
  rw [h.publishes p q hr]
  rfl

theorem own (hon : sit p = .on c) (hproc : next.proc = update g.proc p x)
    (hthread : next.thread = update g.thread p t) (hcpu : next.cpu = g.cpu)
    (fits : Fits x t (.on c)) (copies : ∀ q, t.pc.copies = some q → sit q = .copied p c)
    (publishes : ∀ q, t.pc.publishes = some q → sit q = .embryo p)
    (wait : Hands c (t.pc.waitLock = true) g.waitLock next.waitLock)
    (locks : ∀ l, Hands c (l ∈ t.pc.held guard) (g.lock l) (next.lock l))
    (nodup : (t.pc.held guard).Nodup) : Situated guard next sit := by
  have hself : next.thread p = t := by rw [hthread, update_self]
  have hother : ∀ q, q ≠ p → next.thread q = g.thread q := fun q hq => by
    rw [hthread, update_of_ne hq]
  refine ⟨?_, by rw [hcpu]; exact h.process, by rw [hcpu]; exact h.back,
    by rw [hcpu]; exact h.cpuProc, ?_, ?_, ?_, fun l => ?_, ?_⟩
  · intro q
    obtain rfl | hq := eq_or_ne q p
    · rw [hself, hproc, update_self, hon]
      exact fits
    · rw [hother q hq, hproc, update_of_ne hq]
      exact h.fits q
  · intro q r hr
    obtain rfl | hq := eq_or_ne q p
    · rw [hself] at hr
      exact ⟨c, hon, copies r hr⟩
    · rw [hother q hq] at hr
      exact h.copies q r hr
  · intro q r hr
    obtain rfl | hq := eq_or_ne q p
    · rw [hself] at hr
      exact publishes r hr
    · rw [hother q hq] at hr
      exact h.publishes q r hr
  · exact Holder.hands h.wait (fun _ _ _ => h.on_inj) hon
      (fun q hq => by rw [hother q hq]) (by rw [hself]; exact wait)
  · exact Holder.hands (h.locks l) (fun _ _ _ => h.on_inj) hon
      (fun q hq => by rw [hother q hq]) (by rw [hself]; exact locks l)
  · intro q
    obtain rfl | hq := eq_or_ne q p
    · rw [hself]
      exact nodup
    · rw [hother q hq]
      exact h.nodup q

section Locks

variable {pc : Pc L K} {l : L} {held : List L}

theorem wait_unchanged (hon : sit p = .on c) (hwait : pc.waitLock = (g.thread p).pc.waitLock) :
    Hands c (pc.waitLock = true) g.waitLock g.waitLock :=
  .unchanged (by rw [hwait]; exact h.waitLock_iff hon)

theorem locks_unchanged (hon : sit p = .on c) (hheld : pc.held guard = (g.thread p).pc.held guard)
    (l : L) : Hands c (l ∈ pc.held guard) (g.lock l) (g.lock l) :=
  .unchanged (by rw [hheld]; exact h.lock_iff hon l)

theorem locks_acquired [DecidableEq L] (hon : sit p = .on c) (hlock : g.lock l = none)
    (hheld : pc.held guard = l :: (g.thread p).pc.held guard) (l' : L) :
    Hands c (l' ∈ pc.held guard) (g.lock l') (update g.lock l (some c) l') := by
  rw [hheld]
  obtain rfl | hl := eq_or_ne l' l
  · rw [update_self, hlock]
    exact .acquired List.mem_cons_self
  · rw [update_of_ne hl, List.mem_cons, or_iff_right hl]
    exact h.locks_unchanged hon rfl l'

theorem locks_released [DecidableEq L] (hon : sit p = .on c) (hl : l ∈ (g.thread p).pc.held guard)
    (hheld : pc.held guard = ((g.thread p).pc.held guard).erase l) (l' : L) :
    Hands c (l' ∈ pc.held guard) (g.lock l') (update g.lock l none l') := by
  rw [hheld, (h.nodup p).mem_erase_iff]
  obtain rfl | hl' := eq_or_ne l' l
  · rw [update_self, (h.lock_iff hon l').mpr hl]
    exact .released fun hneeded => hneeded.1 rfl
  · rw [update_of_ne hl', and_iff_right hl']
    exact h.locks_unchanged hon rfl l'

end Locks

theorem goto (hon : sit p = .on c) {pc : Pc L K} (fits : Fits (g.proc p) { pc := pc } (.on c))
    (copies : ∀ q, pc.copies = some q → sit q = .copied p c)
    (publishes : ∀ q, pc.publishes = some q → sit q = .embryo p)
    (hwait : pc.waitLock = (g.thread p).pc.waitLock)
    (hheld : pc.held guard = (g.thread p).pc.held guard) : Situated guard (g.goto p pc) sit :=
  h.own hon (update_eq_self p g.proc).symm rfl rfl fits copies publishes
    (h.wait_unchanged hon hwait) (h.locks_unchanged hon hheld) (by rw [hheld]; exact h.nodup p)

theorem setProc (fits : Fits x (g.thread q) (sit q)) : Situated guard (g.setProc q x) sit := by
  refine ⟨?_, h.process, h.back, h.cpuProc, h.copies, h.publishes, h.wait, h.locks, h.nodup⟩
  intro r
  obtain rfl | hr := eq_or_ne r q
  · simpa [State.setProc] using fits
  · simpa [State.setProc, update_of_ne hr] using h.fits r

theorem replace (hproc : next.proc = update g.proc p x)
    (hthread : next.thread = update g.thread p t) (hwait : next.waitLock = g.waitLock)
    (hlock : next.lock = g.lock) (fits : Fits x t s)
    (process : ∀ c q, (next.cpu c).runs = .process q ↔ update sit p s q = .on c)
    (back : ∀ c q, (next.cpu c).runs = .back q ↔ update sit p s q = .leaving c)
    (cpuProc : ∀ c, (next.cpu c).proc = (next.cpu c).runs.slot)
    (copies : ∀ q, (g.thread q).pc.copies ≠ some p)
    (publishes : ∀ q, (g.thread q).pc.publishes ≠ some p) (before : (g.thread p).Lockless guard)
    (after : t.Lockless guard)
    (children : ∀ q, t.pc.publishes = some q → (g.thread p).pc.publishes = some q) :
    Situated guard next (update sit p s) := by
  have hself : next.thread p = t := by rw [hthread, update_self]
  have hother : ∀ q, q ≠ p → next.thread q = g.thread q := fun q hq => by
    rw [hthread, update_of_ne hq]
  refine ⟨?_, process, back, cpuProc, ?_, ?_, ?_, fun l => ?_, ?_⟩
  · intro q
    obtain rfl | hq := eq_or_ne q p
    · rw [hself, hproc, update_self, update_self]
      exact fits
    · rw [hother q hq, hproc, update_of_ne hq, update_of_ne hq]
      exact h.fits q
  · intro q r hr
    obtain rfl | hq := eq_or_ne q p
    · rw [hself, after.copies] at hr
      cases hr
    · rw [hother q hq] at hr
      have hrp : r ≠ p := fun heq => copies q (heq ▸ hr)
      rw [update_of_ne hq, update_of_ne hrp]
      exact h.copies q r hr
  · intro q r hr
    have hold : (g.thread q).pc.publishes = some r := by
      obtain rfl | hq := eq_or_ne q p
      · rw [hself] at hr
        exact children r hr
      · rwa [hother q hq] at hr
    have hrp : r ≠ p := fun heq => publishes q (heq ▸ hold)
    rw [update_of_ne hrp]
    exact h.publishes q r hold
  · rw [hwait]
    refine Holder.update h.wait ?_ ?_ fun q hq => by rw [hother q hq]
    · rw [before.waitLock]
      exact Bool.false_ne_true
    · rw [hself, after.waitLock]
      exact Bool.false_ne_true
  · rw [hlock]
    refine Holder.update (h.locks l) ?_ ?_ fun q hq => by rw [hother q hq]
    · rw [before.held]
      exact List.not_mem_nil
    · rw [hself, after.held]
      exact List.not_mem_nil
  · intro q
    obtain rfl | hq := eq_or_ne q p
    · rw [hself, after.held]
      exact List.nodup_nil
    · rw [hother q hq]
      exact h.nodup q

theorem become (hproc : next.proc = update g.proc q x) (hthread : next.thread = update g.thread q t)
    (hcpu : next.cpu = g.cpu) (hwait : next.waitLock = g.waitLock) (hlock : next.lock = g.lock)
    (fits : Fits x t s) (old : (sit q).cpu = none) (new : s.cpu = none)
    (copies : ∀ r, (g.thread r).pc.copies ≠ some q)
    (publishes : ∀ r, (g.thread r).pc.publishes ≠ some q)
    (children : ∀ r, t.pc.publishes = some r → (g.thread q).pc.publishes = some r) :
    Situated guard next (update sit q s) := by
  have hsit : ∀ r s', s'.cpu ≠ none → (update sit q s r = s' ↔ sit r = s') := by
    intro r s' hs'
    obtain rfl | hr := eq_or_ne r q
    · rw [update_self]
      exact iff_of_false (fun heq => hs' (heq ▸ new)) fun heq => hs' (heq ▸ old)
    · rw [update_of_ne hr]
  refine h.replace hproc hthread hwait hlock fits ?_ ?_ (by rw [hcpu]; exact h.cpuProc) copies
    publishes ((h.fits q).lockless ?_) (fits.lockless ?_) children
  · intro c r
    rw [hcpu, hsit r (.on c) nofun]
    exact h.process c r
  · intro c r
    rw [hcpu, hsit r (.leaving c) nofun]
    exact h.back c r
  · intro c hc
    rw [hc] at old
    cases old
  · intro c hc
    rw [hc] at new
    cases new

theorem slot_of_cpu (hcpu : (sit q).cpu = some c) : (g.cpu c).runs.slot = some q := by
  cases hs : sit q with
  | on c' =>
    rw [hs] at hcpu
    cases hcpu
    rw [(h.process c q).mpr hs]
    rfl
  | leaving c' =>
    rw [hs] at hcpu
    cases hcpu
    rw [(h.back c q).mpr hs]
    rfl
  | _ =>
    rw [hs] at hcpu
    cases hcpu

omit h in
/-- CPU and situation go on matching when the CPU switches. -/
theorem matches_switch [DecidableEq C] {y : Cpu} {runs : Slot → Runs} {tag : C → Situation C}
    (hold : ∀ c q, (g.cpu c).runs = runs q ↔ sit q = tag c)
    (hcpu : next.cpu = update g.cpu c y) (tagged : ∀ c', (tag c').cpu = some c')
    (only : ∀ q, q ≠ p → (sit q).cpu ≠ some c)
    (far : ∀ c', c' ≠ c → (sit p).cpu ≠ some c' ∧ s.cpu ≠ some c')
    (new : y.runs = runs p ↔ s = tag c) (others : ∀ q, q ≠ p → y.runs ≠ runs q) (c' : C)
    (q : Slot) : (next.cpu c').runs = runs q ↔ update sit p s q = tag c' := by
  rw [hcpu]
  obtain rfl | hc := eq_or_ne c' c
  · rw [update_self]
    obtain rfl | hq := eq_or_ne q p
    · rw [update_self]
      exact new
    · rw [update_of_ne hq]
      exact iff_of_false (others q hq) fun hs => only q hq (hs ▸ tagged c')
  · rw [update_of_ne hc]
    obtain rfl | hq := eq_or_ne q p
    · rw [update_self, hold]
      exact iff_of_false (fun hs => (far c' hc).1 (hs ▸ tagged c'))
        fun hs => (far c' hc).2 (hs ▸ tagged c')
    · rw [update_of_ne hq]
      exact hold c' q

theorem switch [DecidableEq C] {y : Cpu} (hproc : next.proc = update g.proc p x)
    (hthread : next.thread = update g.thread p t) (hcpu : next.cpu = update g.cpu c y)
    (hwait : next.waitLock = g.waitLock) (hlock : next.lock = g.lock) (fits : Fits x t s)
    (slot : y.proc = y.runs.slot)
    (old : (sit p).cpu = some c ∨ ((sit p).cpu = none ∧ (g.cpu c).runs = .idle))
    (new : (y.runs = .process p ∧ s = .on c) ∨ (y.runs = .back p ∧ s = .leaving c) ∨
      (y.runs = .idle ∧ s.cpu = none)) (maker : (sit p).maker = none)
    (before : (g.thread p).Lockless guard) (after : t.Lockless guard)
    (children : ∀ r, t.pc.publishes = some r → (g.thread p).pc.publishes = some r) :
    Situated guard next (update sit p s) := by
  -- no other process is, or was, on this CPU
  have honly : ∀ q, q ≠ p → (sit q).cpu ≠ some c := by
    intro q hq hsit
    have hruns := h.slot_of_cpu hsit
    rcases old with hold | ⟨-, hidle⟩
    · exact hq (Option.some.inj (hruns.symm.trans (h.slot_of_cpu hold)))
    · rw [hidle] at hruns
      cases hruns
  have hfar : ∀ c', c' ≠ c → (sit p).cpu ≠ some c' ∧ s.cpu ≠ some c' := by
    intro c' hc
    have hne : some c ≠ some c' := fun heq => hc (Option.some.inj heq).symm
    constructor
    · rcases old with hold | ⟨hold, -⟩ <;> rw [hold]
      · exact hne
      · exact nofun
    · rcases new with ⟨-, rfl⟩ | ⟨-, rfl⟩ | ⟨-, hs⟩
      · exact hne
      · exact hne
      · rw [hs]
        exact nofun
  have hidle : s.cpu = none → s ≠ .on c ∧ s ≠ .leaving c := by
    intro hs
    constructor <;> rintro rfl <;> cases hs
  refine h.replace hproc hthread hwait hlock fits
    (matches_switch h.process hcpu (fun _ => rfl) honly hfar ?_ fun q hq => ?_)
    (matches_switch h.back hcpu (fun _ => rfl) honly hfar ?_ fun q hq => ?_) ?_ ?_ ?_ before after
    children
  · rcases new with ⟨hruns, rfl⟩ | ⟨hruns, rfl⟩ | ⟨hruns, hs⟩ <;> rw [hruns]
    · exact iff_of_true rfl rfl
    · exact iff_of_false nofun nofun
    · exact iff_of_false nofun (hidle hs).1
  · rcases new with ⟨hruns, -⟩ | ⟨hruns, -⟩ | ⟨hruns, -⟩ <;> rw [hruns]
    · exact fun heq => hq (Runs.process.inj heq).symm
    · exact nofun
    · exact nofun
  · rcases new with ⟨hruns, rfl⟩ | ⟨hruns, rfl⟩ | ⟨hruns, hs⟩ <;> rw [hruns]
    · exact iff_of_false nofun nofun
    · exact iff_of_true rfl rfl
    · exact iff_of_false nofun (hidle hs).2
  · rcases new with ⟨hruns, -⟩ | ⟨hruns, -⟩ | ⟨hruns, -⟩ <;> rw [hruns]
    · exact nofun
    · exact fun heq => hq (Runs.back.inj heq).symm
    · exact nofun
  · intro c'
    rw [hcpu]
    obtain rfl | hc := eq_or_ne c' c
    · rw [update_self]
      exact slot
    · rw [update_of_ne hc]
      exact h.cpuProc c'
  · intro q hq
    rw [h.maker_of_copies hq] at maker
    cases maker
  · intro q hq
    rw [h.maker_of_publishes hq] at maker
    cases maker

end

end Situated

end Xv6.Machine
