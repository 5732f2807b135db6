import Mathlib.Algebra.Order.Ring.Nat

/-! `push_off` and `pop_off` while threads move between CPUs. -/
namespace Xv6.Interrupts

open Function (update update_eq_self update_self update_of_ne)

structure Cpu where
  noff : Int := 0
  intena : Bool := false
  intr : Bool := false

inductive Panic where
  | interruptible -- "pop_off - interruptible"
  | popOff -- "pop_off"

/-- `push_off` once it has read `old`; interrupts are off. -/
def pushOff (cpu : Cpu) (old : Bool) : Cpu where
  noff := cpu.noff + 1
  intena := if cpu.noff = 0 then old else cpu.intena
  intr := false

def popOff (cpu : Cpu) : Except Panic Cpu :=
  if cpu.intr then .error .interruptible
  else if cpu.noff < 1 then .error .popOff
  else .ok { cpu with
    noff := cpu.noff - 1
    intr := cpu.noff - 1 = 0 ∧ cpu.intena }

structure Context where
  /-- Activations, the last trap's first, with what an unfinished `push_off` has read. -/
  reads : List (Option Bool) := [none]
  /-- The local variable of `sched`. -/
  intena : Option Bool := none
  /-- Open `push_off`s, and whether interrupts were on before the outermost. Never read by the
  code. -/
  depth : Nat := 0
  before : Option Bool := none

/-- In `forkret`, which closes the `push_off` of a scheduler. -/
def Context.forkret : Context := { depth := 1 }

/-- CPUs, and the threads of schedulers and processes. -/
structure State (C P : Type) where
  cpu : C → Cpu := fun _ => {}
  runs : C → Option P := fun _ => none
  context : C ⊕ P → Context := Sum.elim (fun _ => {}) fun _ => .forkret

namespace State

variable {C P : Type} [DecidableEq C] [DecidableEq P]

def who (g : State C P) (c : C) : C ⊕ P := (g.runs c).elim (.inl c) .inr

def on (g : State C P) (c : C) : Context := g.context (g.who c)

def set (g : State C P) (c : C) (cpu : Cpu) (x : Context) : State C P :=
  { g with cpu := update g.cpu c cpu, context := update g.context (g.who c) x }

inductive Step (g : State C P) : State C P → Prop where
  /-- `push_off` calls `intr_get`. -/
  | read (c : C) (rest : List (Option Bool)) (reads : (g.on c).reads = none :: rest)
      (plain : (g.on c).intena = none) :
      Step g (g.set c (g.cpu c) { g.on c with reads := some (g.cpu c).intr :: rest })
  /-- Nested so deep that `noff`, an `int`, would overflow, it is undefined. -/
  | pushOff (c : C) (old : Bool) (rest : List (Option Bool))
      (reads : (g.on c).reads = some old :: rest) (room : (g.cpu c).noff + 1 < 2 ^ 31) :
      Step g (g.set c (pushOff (g.cpu c) old) { g.on c with
        reads := none :: rest
        depth := (g.on c).depth + 1
        before := if (g.on c).depth = 0 then some old else (g.on c).before })
  | popOff (c : C) (depth : Nat) (cpu : Cpu) (rest : List (Option Bool))
      (reads : (g.on c).reads = none :: rest) (plain : (g.on c).intena = none)
      (nested : (g.on c).depth = depth + 1) (pops : popOff (g.cpu c) = .ok cpu) :
      Step g (g.set c cpu { g.on c with depth := depth })
  /-- `intr_on` and `intr_off`, and traps from and returns to user space. -/
  | intr (c : C) (intr : Bool) (rest : List (Option Bool)) (reads : (g.on c).reads = none :: rest)
      (plain : (g.on c).intena = none) (outside : (g.on c).depth = 0) :
      Step g (g.set c { g.cpu c with intr := intr } (g.on c))
  /-- An interrupt while in the kernel. -/
  | trap (c : C) (enabled : (g.cpu c).intr = true) :
      Step g (g.set c { g.cpu c with intr := false }
        { g.on c with reads := none :: (g.on c).reads })
  /-- The handler returns. -/
  | sret (c : C) (read : Option Bool) (rest : List (Option Bool))
      (reads : (g.on c).reads = none :: read :: rest) (plain : (g.on c).intena = none)
      (outside : (g.on c).depth = 0) :
      Step g (g.set c { g.cpu c with intr := true } { g.on c with reads := read :: rest })
  /-- A process switches to the scheduler. -/
  | sched (c : C) (p : P) (rest : List (Option Bool)) (runs : g.runs c = some p)
      (reads : (g.on c).reads = none :: rest) (plain : (g.on c).intena = none)
      (noff : (g.cpu c).noff = 1) :
      Step g { g.set c (g.cpu c) { g.on c with intena := some (g.cpu c).intena } with
        runs := update g.runs c none }
  /-- `sched` goes on. -/
  | schedReturn (c : C) (intena : Bool) (saved : (g.on c).intena = some intena) :
      Step g (g.set c { g.cpu c with intena := intena } { g.on c with intena := none })
  /-- `scheduler` switches to a process, with its lock alone. -/
  | swtch (c : C) (p : P) (idle : g.runs c = none) (reads : (g.on c).reads = [none])
      (noff : (g.cpu c).noff = 1) (parked : ∀ c', g.runs c' ≠ some p) :
      Step g { g.set c (g.cpu c) { g.on c with before := none } with
        runs := update g.runs c (some p) }
  /-- `allocproc` sets up a thread. -/
  | allocproc (p : P) (parked : ∀ c, g.runs c ≠ some p) :
      Step g { g with context := update g.context (.inr p) .forkret }

inductive Reachable : State C P → Prop where
  | boot : Reachable {}
  | step {g next : State C P} (h : Reachable g) (step : g.Step next) : Reachable next

end State

/-- An unfinished `push_off` below a trap has found interrupts on. -/
def Context.Under (x : Context) : Prop := ∀ old, some old ∈ x.reads.tail → old = true

structure Fits (cpu : Cpu) (x : Context) : Prop where
  noff : cpu.noff = x.depth
  noff_lt : cpu.noff < 2 ^ 31
  off : 0 < x.depth → cpu.intr = false
  read : ∀ old, x.reads.head? = some (some old) → cpu.intr = old ∧ x.intena = none
  under : x.Under
  intena : ∀ b, x.intena = none → 0 < x.depth → x.before = some b → cpu.intena = b
  saved : ∀ i, x.intena = some i → x.depth = 1 ∧ ∀ b, x.before = some b → i = b

structure Parked (x : Context) : Prop where
  depth : x.depth = 1
  read : ∀ old, x.reads.head? ≠ some (some old)
  under : x.Under
  intena : x.intena = none → x.before = none
  saved : ∀ i b, x.intena = some i → x.before = some b → i = b

variable {C P : Type} {g next : State C P} {c : C} {p : P} {cpu : Cpu} {x : Context}

structure Inv (g : State C P) : Prop where
  fits : ∀ c, Fits (g.cpu c) (g.on c)
  process : ∀ p, (∀ c, g.runs c ≠ some p) → Parked (g.context (.inr p))
  scheduler : ∀ c, g.runs c ≠ none → Parked (g.context (.inl c))
  unique : ∀ c c' p, g.runs c = some p → g.runs c' = some p → c = c'

theorem who_of_process (h : g.runs c = some p) : g.who c = .inr p := by simp [State.who, h]

theorem who_of_scheduler (h : g.runs c = none) : g.who c = .inl c := by simp [State.who, h]

theorem who_eq_inr (h : g.who c = .inr p) : g.runs c = some p := by
  cases hc : g.runs c <;> simp_all [State.who]

theorem who_eq_inl {c' : C} (h : g.who c = .inl c') : c = c' ∧ g.runs c = none := by
  cases hc : g.runs c <;> simp_all [State.who]

theorem Fits.parked (h : Fits cpu x) (hnoff : cpu.noff = 1) (reads : x.reads.head? = some none)
    (plain : x.intena = none) : Parked { x with intena := some cpu.intena } := by
  have hdepth : x.depth = 1 := by
    have := h.noff
    omega
  refine ⟨hdepth, fun old => by simp [reads], h.under, nofun, fun i b hi hb => ?_⟩
  rw [← Option.some.inj hi]
  exact h.intena b plain (by omega) hb

theorem Parked.fits (h : Parked x) (hnoff : cpu.noff = 1) (hintr : cpu.intr = false) :
    Fits cpu x where
  noff := by simp [hnoff, h.depth]
  noff_lt := by omega
  off _ := hintr
  read old hold := absurd hold (h.read old)
  under := h.under
  intena b hplain _ hb := by simp [h.intena hplain] at hb
  saved i hi := ⟨h.depth, fun b => h.saved i b hi⟩

theorem Fits.intr_off (h : Fits cpu x) (hnoff : 0 < cpu.noff) : cpu.intr = false := by
  apply h.off
  have := h.noff
  omega

theorem Fits.pushOff {old : Bool} {rest : List (Option Bool)} (h : Fits cpu x)
    (reads : x.reads = some old :: rest) (room : cpu.noff + 1 < 2 ^ 31) :
    Fits (pushOff cpu old) { x with
      reads := none :: rest
      depth := x.depth + 1
      before := if x.depth = 0 then some old else x.before } := by
  have hplain := (h.read old (by simp [reads])).2
  refine ⟨by simp [Interrupts.pushOff, h.noff], room, fun _ => rfl, nofun,
    fun old' hold => h.under old' (by simpa [reads] using hold), fun b _ _ hb => ?_, by simp [hplain]⟩
  by_cases hdepth : x.depth = 0
  · simpa [Interrupts.pushOff, h.noff, hdepth] using hb
  · simp only [Interrupts.pushOff, h.noff, hdepth, if_false, Int.natCast_eq_zero] at hb ⊢
    exact h.intena b hplain (by omega) hb

theorem Fits.popOff_eq (h : Fits cpu x) {depth : Nat} (nested : x.depth = depth + 1) :
    popOff cpu = .ok { cpu with noff := depth, intr := depth = 0 ∧ cpu.intena } := by
  have hnoff : cpu.noff = depth + 1 := by simp [h.noff, nested]
  have hoff := h.off (by omega)
  rw [popOff, hoff, hnoff, if_neg nofun, if_neg (by omega)]
  simp

theorem Fits.popOff {depth : Nat} (h : Fits cpu x) (nested : x.depth = depth + 1)
    (reads : x.reads.head? = some none) (plain : x.intena = none) :
    Fits { cpu with noff := depth, intr := depth = 0 ∧ cpu.intena } { x with depth := depth } where
  noff := rfl
  noff_lt := by
    have hlt := h.noff_lt
    rw [h.noff] at hlt
    simp only
    omega
  off hdepth := by simp [Nat.ne_of_gt hdepth]
  read old hold := by simp [reads] at hold
  under := h.under
  intena b _ hdepth hb := h.intena b plain (by omega) hb
  saved i hi := by simp [plain] at hi

theorem Fits.outside (h : Fits cpu x) (outside : x.depth = 0) {intr : Bool}
    {reads : List (Option Bool)}
    (read : ∀ old, reads.head? = some (some old) → intr = old ∧ x.intena = none)
    (under : ∀ old, some old ∈ reads.tail → old = true) :
    Fits { cpu with intr := intr } { x with reads := reads } where
  noff := h.noff
  noff_lt := h.noff_lt
  off hdepth := by simp [outside] at hdepth
  read := read
  under := under
  intena := h.intena
  saved := h.saved

namespace Inv

theorem who_injective (h : Inv g) {c c' : C} (heq : g.who c = g.who c') : c = c' := by
  cases hc : g.runs c with
  | none =>
    rw [who_of_scheduler hc] at heq
    exact (who_eq_inl heq.symm).1.symm
  | some p =>
    rw [who_of_process hc] at heq
    exact h.unique c c' p hc (who_eq_inr heq.symm)

variable [DecidableEq C] [DecidableEq P]

theorem set (h : Inv g) (hfits : Fits cpu x) : Inv (g.set c cpu x) where
  fits c' := by
    change Fits (update g.cpu c cpu c') (update g.context (g.who c) x (g.who c'))
    by_cases hc : c' = c
    · simpa [hc] using hfits
    · have hne : g.who c' ≠ g.who c := fun heq => hc (h.who_injective heq)
      rw [update_of_ne hc, update_of_ne hne]
      exact h.fits c'
  process p hp := by
    have hne : .inr p ≠ g.who c := fun heq => hp c (who_eq_inr heq.symm)
    simpa only [State.set, update_of_ne hne] using h.process p hp
  scheduler c' hc' := by
    have hne : .inl c' ≠ g.who c := fun heq => by
      obtain ⟨rfl, hnone⟩ := who_eq_inl heq.symm
      exact hc' hnone
    simpa only [State.set, update_of_ne hne] using h.scheduler c' hc'
  unique := h.unique

theorem switch (h : Inv g) {r : Option P} (hx : Parked x) (noff : (g.cpu c).noff = 1)
    (idle : r = none → g.runs c ≠ none) (parked : ∀ p, r = some p → ∀ c', g.runs c' ≠ some p) :
    Inv { g.set c (g.cpu c) x with runs := update g.runs c r } := by
  have hparked (t : C ⊕ P) (ht : g.who c ≠ t → Parked (g.context t)) :
      Parked (update g.context (g.who c) x t) := by
    by_cases hwho : t = g.who c
    · rwa [hwho, update_self]
    · rw [update_of_ne hwho]
      exact ht (Ne.symm hwho)
  constructor
  · intro c'
    change Fits (update g.cpu c (g.cpu c) c')
      (update g.context (g.who c) x ((update g.runs c r c').elim (.inl c') .inr))
    rw [update_eq_self]
    by_cases hc : c' = c
    · have hintr := (h.fits c).intr_off (by omega)
      rw [hc, update_self]
      refine Parked.fits (hparked _ fun _ => ?_) noff hintr
      cases r with
      | none => exact h.scheduler c (idle rfl)
      | some p => exact h.process p (parked p rfl)
    · have hwho : g.who c' ≠ g.who c := fun heq => hc (h.who_injective heq)
      rw [update_of_ne hc]
      exact (update_of_ne hwho x g.context).symm ▸ h.fits c'
  · intro p hp
    refine hparked _ fun hwho => h.process p fun c' hc' => ?_
    by_cases hc : c' = c
    · exact hwho (who_of_process (hc ▸ hc'))
    · exact hp c' ((update_of_ne hc _ _).trans hc')
  · intro c' hc'
    refine hparked _ fun hwho => h.scheduler c' fun hnone => ?_
    by_cases hc : c' = c
    · exact hwho (hc ▸ who_of_scheduler (hc ▸ hnone))
    · exact hc' ((update_of_ne hc _ _).trans hnone)
  · intro c₁ c₂ p h₁ h₂
    simp only [Function.update_apply] at h₁ h₂
    split at h₁ <;> split at h₂
    · simp_all
    · exact absurd h₂ (parked p h₁ c₂)
    · exact absurd h₁ (parked p h₂ c₁)
    · exact h.unique c₁ c₂ p h₁ h₂

theorem allocproc (h : Inv g) (parked : ∀ c, g.runs c ≠ some p) :
    Inv { g with context := update g.context (.inr p) .forkret } := by
  have hforkret : Parked .forkret := ⟨rfl, nofun, nofun, fun _ => rfl, nofun⟩
  refine ⟨fun c => ?_, fun q hq => ?_, fun c hc => ?_, h.unique⟩
  · have hwho : g.who c ≠ .inr p := fun heq => parked c (who_eq_inr heq)
    change Fits (g.cpu c) (update g.context (.inr p) .forkret (g.who c))
    rw [update_of_ne hwho]
    exact h.fits c
  · by_cases hqp : q = p
    · simpa [hqp] using hforkret
    · simpa [hqp] using h.process q hq
  · simpa using h.scheduler c hc

theorem step (h : Inv g) (hstep : g.Step next) : Inv next := by
  cases hstep with
  | read c rest reads plain =>
    have hfits := h.fits c
    have hunder : ∀ old, some old ∈ rest → old = true := by
      simpa [Context.Under, reads] using hfits.under
    exact h.set { hfits with read := by simp [plain], under := hunder }
  | pushOff c old rest reads room => exact h.set ((h.fits c).pushOff reads room)
  | popOff c depth cpu rest reads plain nested pops =>
    rw [(h.fits c).popOff_eq nested] at pops
    cases pops
    exact h.set ((h.fits c).popOff nested (by simp [reads]) plain)
  | intr c intr rest reads plain outside =>
    have hread : ∀ old, (g.on c).reads.head? = some (some old) → intr = old ∧
        (g.on c).intena = none := by
      rw [reads]
      nofun
    exact h.set ((h.fits c).outside outside hread (h.fits c).under)
  | trap c enabled =>
    have hfits := h.fits c
    have houtside : (g.on c).depth = 0 := by
      by_contra hne
      simp [hfits.off (by omega)] at enabled
    refine h.set (hfits.outside houtside nofun fun old hold => ?_)
    cases hreads : (g.on c).reads with
    | nil => simp [hreads] at hold
    | cons read rest =>
      rcases List.mem_cons.mp (hreads ▸ hold) with rfl | hrest
      · rw [← (hfits.read old (by rw [hreads]; rfl)).1, enabled]
      · exact hfits.under old (by rwa [hreads])
  | sret c read rest reads plain outside =>
    have hunder : ∀ old, some old ∈ read :: rest → old = true := by
      simpa [Context.Under, reads] using (h.fits c).under
    refine h.set ((h.fits c).outside outside (fun old hold => ?_) fun old hold => ?_)
    · exact ⟨(hunder old (by simp_all)).symm, plain⟩
    · exact hunder old (List.mem_cons_of_mem _ hold)
  | sched c p rest runs reads plain noff =>
    exact h.switch ((h.fits c).parked noff (by simp [reads]) plain) noff (by simp [runs]) nofun
  | schedReturn c intena saved =>
    have hfits := h.fits c
    obtain ⟨hdepth, hbefore⟩ := hfits.saved intena saved
    refine h.set ⟨hfits.noff, hfits.noff_lt, hfits.off, fun old hold => ?_, hfits.under,
      fun b _ _ hb => hbefore b hb, nofun⟩
    simpa [saved] using hfits.read old hold
  | swtch c p idle reads noff parked =>
    have hdepth : (g.on c).depth = 1 := by
      have := (h.fits c).noff
      omega
    refine h.switch ⟨hdepth, by simp [reads], (h.fits c).under, fun _ => rfl, nofun⟩ noff nofun ?_
    rintro q ⟨⟩
    exact parked
  | allocproc p parked => exact h.allocproc parked

theorem of_reachable (h : g.Reachable) : Inv g := by
  induction h with
  | boot =>
    have hforkret : Parked .forkret := ⟨rfl, nofun, nofun, fun _ => rfl, nofun⟩
    exact ⟨fun c => ⟨rfl, by simp, nofun, nofun, nofun, nofun, nofun⟩, fun p _ => hforkret,
      fun c hc => absurd rfl hc, nofun⟩
  | step _ hstep ih => exact ih.step hstep

end Inv

variable [DecidableEq C] [DecidableEq P]

/-- Interrupts are off inside every `push_off`, `pop_off` does not panic, and the outermost
leaves interrupts as they were, on whatever CPU. -/
theorem nesting_survives_switches (h : g.Reachable) (c : C) :
    0 ≤ (g.cpu c).noff ∧ (g.cpu c).noff < 2 ^ 31 ∧
    (0 < (g.cpu c).noff → (g.cpu c).intr = false) ∧
    (0 < (g.on c).depth → ∃ cpu, popOff (g.cpu c) = .ok cpu ∧ 0 ≤ cpu.noff) ∧
    ∀ b cpu, (g.on c).depth = 1 → (g.on c).before = some b → (g.on c).intena = none →
      popOff (g.cpu c) = .ok cpu → cpu.intr = b := by
  have hfits := (Inv.of_reachable h).fits c
  refine ⟨by simp [hfits.noff], hfits.noff_lt, hfits.intr_off, fun hdepth => ?_,
    fun b cpu hdepth hb hplain hpop => ?_⟩
  · obtain ⟨depth, hdepth⟩ := Nat.exists_eq_add_of_lt hdepth
    exact ⟨_, hfits.popOff_eq (by omega), by simp⟩
  · rw [hfits.popOff_eq hdepth] at hpop
    cases hpop
    simpa using hfits.intena b hplain (by omega) hb

/-- A process with interrupts on moves to a CPU whose scheduler had them off. -/
theorem nesting_survives_move : ∃ g : State Bool Unit, g.Reachable ∧ g.runs true = some () ∧
    (g.on true).before = some true ∧ (g.cpu true).intr = false ∧
    ∃ cpu, popOff (g.cpu true) = .ok cpu ∧ cpu.intr = true := by
  have hpicked : State.Reachable _ := ((State.Reachable.boot (C := Bool) (P := Unit)).step
    (.read false [] rfl rfl)).step (.pushOff false false [] rfl (by decide)) |>.step
    (.swtch false () rfl rfl rfl nofun)
  have hlocked := hpicked.step (.popOff false 0 _ [] rfl rfl rfl rfl) |>.step
    (.intr false true [] rfl rfl rfl) |>.step (.read false [] rfl rfl) |>.step
    (.pushOff false true [] rfl (by decide))
  have hslept := hlocked.step (.sched false () [] rfl rfl rfl rfl)
  have hmoved := hslept.step (.read true [] rfl rfl)
    |>.step (.pushOff true false [] rfl (by decide)) |>.step
    (.swtch true () rfl rfl rfl (by simp [State.set])) |>.step (.schedReturn true true rfl)
  exact ⟨_, hmoved, rfl, rfl, rfl, _, rfl,
    (nesting_survives_switches hmoved true).2.2.2.2 true _ rfl rfl rfl rfl⟩

end Xv6.Interrupts
