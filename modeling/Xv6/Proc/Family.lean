import Mathlib.Data.List.Nodup
import Mathlib.Logic.Function.Basic
import Xv6.Proc.Machine

/-! Parents and children, apart from how processes are scheduled. -/
namespace Xv6.Machine

open Function List

inductive Role where
  | plain
  /-- In `fork`, the child without a parent yet. -/
  | making (np : Slot)
  /-- In `fork`, the child not yet alive. -/
  | made (np : Slot)
  /-- In `exit`, with no child below `i`. -/
  | giving (i : Nat) (status : Int)
  | gone
  /-- In `wait`, having met no child below `i`. -/
  | scanning (i : Nat)

inductive Life where
  | free
  | made
  | alive
  | dead
  deriving DecidableEq

structure Family where
  parent : Slot → Option Slot
  life : Slot → Life
  role : Slot → Role
  pid : Slot → UInt32
  xstate : Slot → Int
  uid : Slot → Nat
  creator : Slot → Nat
  count : Nat
  exiting : List (Nat × Int)
  exited : List Ending
  reaped : List (Ending × Nat)

namespace Family

variable {f f' : Family}

def ending (f : Family) (q : Slot) : Ending := ⟨f.uid q, f.pid q, f.xstate q⟩

def setRole (f : Family) (p : Slot) (role : Role) : Family :=
  { f with role := update f.role p role }

inductive Step (f : Family) : Family → Prop where
  | rest : Step f f
  | plain (p : Slot) : Step f (f.setRole p .plain)
  | scan (p : Slot) : Step f (f.setRole p (.scanning 0))
  | pass (p q : Slot) (role : f.role p = .scanning q.val) (other : f.parent q ≠ some p) :
      Step f (f.setRole p (.scanning (q.val + 1)))
  | leave (p : Slot) (status : Int) (user : p ≠ initproc) :
      Step f { f.setRole p (.giving 0 status) with exiting := (f.uid p, status) :: f.exiting }
  | skip (p q : Slot) (status : Int) (role : f.role p = .giving q.val status)
      (alive : f.life p = .alive) (other : f.parent q ≠ some p) :
      Step f (f.setRole p (.giving (q.val + 1) status))
  | give (p q : Slot) (status : Int) (role : f.role p = .giving q.val status)
      (alive : f.life p = .alive) (child : f.parent q = some p)
      (init : ∀ i, f.role initproc ≠ .scanning i) :
      Step f { f.setRole p (.giving (q.val + 1) status) with
        parent := update f.parent q (some initproc) }
  | given (p : Slot) (i : Nat) (status : Int) (role : f.role p = .giving i status)
      (alive : f.life p = .alive) (done : NPROC ≤ i) :
      Step f (f.setRole p (.giving NPROC status))
  | die (p : Slot) (status : Int) (role : f.role p = .giving NPROC status)
      (alive : f.life p = .alive) :
      Step f { f.setRole p .gone with
        life := update f.life p .dead
        xstate := update f.xstate p status
        exited := f.exited ++ [⟨f.uid p, f.pid p, status⟩] }
  | alloc (p q : Slot) (pid : UInt32) (free : f.life q = .free) (alive : f.life p = .alive) :
      Step f { f with
        life := update f.life q .made
        role := update (update f.role q .plain) p (.making q)
        pid := update f.pid q pid
        uid := update f.uid q f.count
        creator := update f.creator q (f.uid p)
        count := f.count + 1 }
  | abandon (p np : Slot) (role : f.role p = .making np) :
      Step f { f.setRole p .plain with
        parent := update f.parent np none
        life := update f.life np .free
        pid := update f.pid np 0
        xstate := update f.xstate np 0 }
  | adopt (p np : Slot) (role : f.role p = .making np) :
      Step f { f.setRole p (.made np) with parent := update f.parent np (some p) }
  | publish (p np : Slot) (role : f.role p = .made np) :
      Step f { f.setRole p .plain with life := update f.life np .alive }
  | reap (p q : Slot) (child : f.parent q = some p) (dead : f.life q = .dead) :
      Step f { f.setRole p .plain with
        parent := update f.parent q none
        life := update f.life q .free
        pid := update f.pid q 0
        xstate := update f.xstate q 0
        reaped := f.reaped ++ [(f.ending q, f.uid p)] }

def Makes (f : Family) (p np : Slot) : Prop := f.role p = .making np ∨ f.role p = .made np

/-- Parents are alive, and known to those they wait for. -/
structure Sound (f : Family) : Prop where
  init : f.life initproc = .alive ∧ ∀ i status, f.role initproc ≠ .giving i status
  parent_alive : ∀ p q, f.parent q = some p → f.life p = .alive
  given : ∀ p q i status, f.parent q = some p → f.role p = .giving i status → i ≤ q.val
  parent_ne_none : ∀ q, q ≠ initproc → f.life q = .alive ∨ f.life q = .dead → f.parent q ≠ none
  made_parent : ∀ p np, f.role p = .made np → f.parent np = some p
  free : ∀ q, f.life q = .free → f.parent q = none
  makes : ∀ p np, f.Makes p np →
    f.life p = .alive ∧ f.life np = .made ∧ f.creator np = f.uid p
  makes_inj : ∀ p p' np, f.Makes p np → f.Makes p' np → p = p'
  kin : ∀ p q, f.parent q = some p → f.creator q = f.uid p ∨
    (p = initproc ∧ f.creator q ∈ f.exiting.map Prod.fst)
  exiting : ∀ p i status, f.role p = .giving i status → f.life p ≠ .free →
    (f.uid p, status) ∈ f.exiting
  scanned : ∀ p q i, f.role p = .scanning i → q.val < i → f.parent q ≠ some p

variable {p : Slot}

theorem setRole_role {r : Slot} {role s : Role} (h : (f.setRole p role).role r = s) :
    (r = p ∧ role = s) ∨ (r ≠ p ∧ f.role r = s) := by
  simp only [setRole] at h
  obtain rfl | hr := eq_or_ne r p
  · rw [update_self] at h
    exact .inl ⟨rfl, h⟩
  · rw [update_of_ne hr] at h
    exact .inr ⟨hr, h⟩

theorem setRole_makes {r np : Slot} {role : Role} (h : (f.setRole p role).Makes r np) :
    (r = p ∧ (role = .making np ∨ role = .made np)) ∨ (r ≠ p ∧ f.Makes r np) := by
  rcases h with h | h
  · exact (setRole_role h).imp (And.imp_right .inl) (And.imp_right .inl)
  · exact (setRole_role h).imp (And.imp_right .inr) (And.imp_right .inr)

namespace Sound

section

variable (h : f.Sound)

include h

theorem setRole {role : Role}
    (making : ∀ np, role = .making np ∨ role = .made np → f.life p = .alive ∧
      f.life np = .made ∧ f.creator np = f.uid p ∧ ∀ r, f.Makes r np → r = p)
    (made : ∀ np, role = .made np → f.parent np = some p)
    (giving : ∀ i status, role = .giving i status → p ≠ initproc ∧
      (f.uid p, status) ∈ f.exiting ∧ ∀ q, f.parent q = some p → i ≤ q.val)
    (scanning : ∀ i, role = .scanning i → ∀ q : Slot, q.val < i → f.parent q ≠ some p) :
    (f.setRole p role).Sound := by
  refine ⟨⟨h.init.1, ?_⟩, h.parent_alive, ?_, h.parent_ne_none, ?_, h.free, ?_, ?_, h.kin, ?_, ?_⟩
  · intro i status hi
    rcases setRole_role hi with ⟨hp, hrole⟩ | ⟨-, hold⟩
    · exact (giving i status hrole).1 hp.symm
    · exact h.init.2 i status hold
  · intro r q i status hq hr
    rcases setRole_role hr with ⟨rfl, hrole⟩ | ⟨-, hold⟩
    · exact (giving i status hrole).2.2 q hq
    · exact h.given r q i status hq hold
  · intro r np hr
    rcases setRole_role hr with ⟨rfl, hrole⟩ | ⟨-, hold⟩
    · exact made np hrole
    · exact h.made_parent r np hold
  · intro r np hr
    rcases setRole_makes hr with ⟨rfl, hrole⟩ | ⟨-, hold⟩
    · obtain ⟨halive, hmade, hcreator, -⟩ := making np hrole
      exact ⟨halive, hmade, hcreator⟩
    · exact h.makes r np hold
  · intro r r' np hr hr'
    rcases setRole_makes hr with ⟨rfl, hrole⟩ | ⟨hne, hold⟩ <;>
      rcases setRole_makes hr' with ⟨rfl, hrole'⟩ | ⟨hne', hold'⟩
    · rfl
    · exact ((making np hrole).2.2.2 r' hold').symm
    · exact (making np hrole').2.2.2 r hold
    · exact h.makes_inj r r' np hold hold'
  · intro r i status hr hlife
    rcases setRole_role hr with ⟨rfl, hrole⟩ | ⟨-, hold⟩
    · exact (giving i status hrole).2.1
    · exact h.exiting r i status hold hlife
  · intro r q i hr
    rcases setRole_role hr with ⟨rfl, hrole⟩ | ⟨-, hold⟩
    · exact scanning i hrole q
    · exact h.scanned r q i hold

theorem plain (p : Slot) : (f.setRole p .plain).Sound :=
  h.setRole nofun nofun nofun nofun

variable {status : Int} {q : Slot}

theorem of_giving {i : Nat} (role : f.role p = .giving i status) (alive : f.life p = .alive) :
    p ≠ initproc ∧ (f.uid p, status) ∈ f.exiting := by
  refine ⟨?_, h.exiting p i status role (by rw [alive]; nofun)⟩
  rintro rfl
  exact h.init.2 i status role

theorem leave (user : p ≠ initproc) (status : Int) :
    ({ f.setRole p (.giving 0 status) with exiting := (f.uid p, status) :: f.exiting } :
      Family).Sound := by
  have h' : ({ f with exiting := (f.uid p, status) :: f.exiting } : Family).Sound :=
    { h with
      kin := fun r q hq => (h.kin r q hq).imp id (And.imp_right (mem_cons_of_mem _))
      exiting := fun r i status' hr hlife =>
        mem_cons_of_mem _ (h.exiting r i status' hr hlife) }
  refine h'.setRole nofun nofun ?_ nofun
  rintro i status' ⟨⟩
  exact ⟨user, mem_cons_self, fun _ _ => Nat.zero_le _⟩

theorem setParent (alive : f.life p = .alive) (used : f.life q ≠ .free)
    (kin : f.creator q = f.uid p ∨ (p = initproc ∧ f.creator q ∈ f.exiting.map Prod.fst))
    (giving : ∀ i status, f.role p ≠ .giving i status) (scanning : ∀ i, f.role p ≠ .scanning i)
    (made : ∀ r, f.role r = .made q → r = p) :
    ({ f with parent := update f.parent q (some p) } : Family).Sound := by
  have hparent : ∀ r r', update f.parent q (some p) r = some r' →
      (r = q ∧ r' = p) ∨ f.parent r = some r' := by
    intro r r' hr
    obtain rfl | hq := eq_or_ne r q
    · rw [update_self] at hr
      exact .inl ⟨rfl, (Option.some.inj hr).symm⟩
    · rw [update_of_ne hq] at hr
      exact .inr hr
  refine { h with
    parent_alive := ?_, given := ?_, parent_ne_none := ?_, made_parent := ?_, free := ?_,
    kin := ?_, scanned := ?_ }
  · intro r' r hr
    rcases hparent r r' hr with ⟨-, rfl⟩ | hold
    · exact alive
    · exact h.parent_alive r' r hold
  · intro r' r i status hr hrole
    rcases hparent r r' hr with ⟨-, rfl⟩ | hold
    · exact absurd hrole (giving i status)
    · exact h.given r' r i status hold hrole
  · intro r hr hlife
    obtain rfl | hq := eq_or_ne r q
    · simp
    · simp only [update_of_ne hq]
      exact h.parent_ne_none r hr hlife
  · intro r np hr
    obtain rfl | hq := eq_or_ne np q
    · simp [made r hr]
    · simp only [update_of_ne hq]
      exact h.made_parent r np hr
  · intro r hr
    obtain rfl | hq := eq_or_ne r q
    · exact absurd hr used
    · simp only [update_of_ne hq]
      exact h.free r hr
  · intro r' r hr
    rcases hparent r r' hr with ⟨rfl, rfl⟩ | hold
    · exact kin
    · exact h.kin r' r hold
  · intro r' r i hrole hi hr
    rcases hparent r r' hr with ⟨-, rfl⟩ | hold
    · exact scanning i hrole
    · exact h.scanned r' r i hrole hi hold

theorem give (role : f.role p = .giving q.val status) (alive : f.life p = .alive)
    (child : f.parent q = some p) (init : ∀ i, f.role initproc ≠ .scanning i) :
    ({ f.setRole p (.giving (q.val + 1) status) with
      parent := update f.parent q (some initproc) } : Family).Sound := by
  obtain ⟨huser, hexiting⟩ := h.of_giving role alive
  have hused : f.life q ≠ .free := fun hfree => by
    rw [h.free q hfree] at child
    cases child
  have hkin : f.creator q ∈ f.exiting.map Prod.fst := by
    rcases h.kin p q child with hcreator | ⟨hinit, -⟩
    · rw [hcreator]
      exact mem_map_of_mem hexiting
    · exact absurd hinit huser
  have hmade : ∀ r, f.role r = .made q → r = initproc := fun r hr => by
    -- the only one making it would be its parent, which is past that
    have hpr : some p = some r := child.symm.trans (h.made_parent r q hr)
    cases hpr
    rw [role] at hr
    cases hr
  have h' := h.setParent h.init.1 hused (.inr ⟨rfl, hkin⟩) h.init.2 init hmade
  refine h'.setRole nofun nofun ?_ nofun
  rintro i status' ⟨⟩
  refine ⟨huser, hexiting, fun r hr => ?_⟩
  obtain rfl | hrq := eq_or_ne r q
  · simp only [update_self, Option.some.injEq] at hr
    exact absurd hr.symm huser
  · simp only [update_of_ne hrq] at hr
    have hle := h.given p r q.val status hr role
    have hne : r.val ≠ q.val := fun heq => hrq (Fin.ext heq)
    omega

theorem adopt {np : Slot} (role : f.role p = .making np) :
    ({ f.setRole p (.made np) with
      parent := update f.parent np (some p) } : Family).Sound := by
  obtain ⟨halive, hmade, hcreator⟩ := h.makes p np (.inl role)
  have hused : f.life np ≠ .free := by rw [hmade]; nofun
  have hnone : ∀ r, f.role r = .made np → r = p := fun r hr =>
    h.makes_inj r p np (.inr hr) (.inl role)
  have h' := h.setParent halive hused (.inl hcreator) (by rw [role]; nofun) (by rw [role]; nofun)
    hnone
  refine h'.setRole ?_ ?_ nofun nofun
  · rintro np' (hrole | hrole) <;> cases hrole
    exact ⟨halive, hmade, hcreator, fun r hr => h.makes_inj r p np hr (.inl role)⟩
  · rintro np' ⟨⟩
    exact update_self ..

theorem not_alive (dead : f.life q ≠ .alive) :
    q ≠ initproc ∧ (∀ r, f.parent r ≠ some q) ∧ ∀ np, ¬f.Makes q np := by
  refine ⟨?_, fun r hr => dead (h.parent_alive q r hr), fun np hq => dead (h.makes q np hq).1⟩
  rintro rfl
  exact dead h.init.1

/-- A slot gets another life, and may lose its parent. -/
theorem change (life : Life) {parent : Option Slot} (pid : Slot → UInt32) (xstate : Slot → Int)
    (exited : List Ending) (reaped : List (Ending × Nat))
    (keeps : parent = f.parent q ∨ parent = none ∧ ∀ r, ¬f.Makes r q)
    (alive : life ≠ .alive → q ≠ initproc ∧ (∀ r, f.parent r ≠ some q) ∧ ∀ np, ¬f.Makes q np)
    (known : q ≠ initproc → life = .alive ∨ life = .dead → parent ≠ none)
    (free : life = .free → parent = none) (made : life ≠ .made → ∀ r, ¬f.Makes r q)
    (exiting : ∀ i status, f.role q = .giving i status → life ≠ .free →
      (f.uid q, status) ∈ f.exiting) :
    ({ f with
      parent := update f.parent q parent
      life := update f.life q life
      pid := pid, xstate := xstate, exited := exited, reaped := reaped } : Family).Sound := by
  have hparent : ∀ r r', update f.parent q parent r = some r' → f.parent r = some r' := by
    intro r r' hr
    obtain rfl | hrq := eq_or_ne r q
    · rw [update_self] at hr
      rcases keeps with rfl | ⟨rfl, -⟩
      · exact hr
      · cases hr
    · rwa [update_of_ne hrq] at hr
  have halive : ∀ r, f.life r = .alive →
      r = initproc ∨ (∃ r', f.parent r' = some r) ∨ (∃ np, f.Makes r np) →
      update f.life q life r = .alive := by
    intro r hr hneeds
    obtain rfl | hrq := eq_or_ne r q
    · rw [update_self]
      by_contra hlife
      obtain ⟨hinit, hchildless, hmaker⟩ := alive hlife
      rcases hneeds with heq | ⟨r', hr'⟩ | ⟨np, hnp⟩
      · exact hinit heq
      · exact hchildless r' hr'
      · exact hmaker np hnp
    · rwa [update_of_ne hrq]
  refine ⟨⟨halive _ h.init.1 (.inl rfl), h.init.2⟩, ?_, ?_, ?_, ?_, ?_, ?_, h.makes_inj, ?_, ?_, ?_⟩
  · intro r' r hr
    exact halive r' (h.parent_alive r' r (hparent r r' hr)) (.inr (.inl ⟨r, hparent r r' hr⟩))
  · intro r' r i status hr
    exact h.given r' r i status (hparent r r' hr)
  · intro r hr hlife
    obtain rfl | hrq := eq_or_ne r q
    · simp only [update_self] at hlife ⊢
      exact known hr hlife
    · simp only [update_of_ne hrq] at hlife ⊢
      exact h.parent_ne_none r hr hlife
  · intro r np hr
    obtain rfl | hnp := eq_or_ne np q
    · rcases keeps with rfl | ⟨-, hunmade⟩
      · simp only [update_self]
        exact h.made_parent r np hr
      · exact absurd (.inr hr) (hunmade r)
    · simp only [update_of_ne hnp]
      exact h.made_parent r np hr
  · intro r hr
    obtain rfl | hrq := eq_or_ne r q
    · simp only [update_self] at hr ⊢
      exact free hr
    · simp only [update_of_ne hrq] at hr ⊢
      exact h.free r hr
  · intro r np hr
    obtain ⟨hlife, hmade, hcreator⟩ := h.makes r np hr
    refine ⟨halive r hlife (.inr (.inr ⟨np, hr⟩)), ?_, hcreator⟩
    obtain rfl | hnp := eq_or_ne np q
    · simp only [update_self]
      by_contra hlife
      exact made hlife r hr
    · simp only [update_of_ne hnp]
      exact hmade
  · intro r' r hr
    exact h.kin r' r (hparent r r' hr)
  · intro r i status hr hlife
    obtain rfl | hrq := eq_or_ne r q
    · simp only [update_self] at hlife
      exact exiting i status hr hlife
    · simp only [update_of_ne hrq] at hlife
      exact h.exiting r i status hr hlife
  · intro r' r i hrole hi hr
    exact h.scanned r' r i hrole hi (hparent r r' hr)

theorem release (pid : Slot → UInt32) (xstate : Slot → Int) (reaped : List (Ending × Nat))
    (dead : f.life q ≠ .alive) (unmade : ∀ r, ¬f.Makes r q) :
    ({ f with
      parent := update f.parent q none
      life := update f.life q .free
      pid := pid, xstate := xstate, reaped := reaped } : Family).Sound :=
  h.change _ pid xstate f.exited reaped (.inr ⟨rfl, unmade⟩) (fun _ => h.not_alive dead) (by simp)
    (fun _ => rfl) (fun _ => unmade) fun _ _ _ hfree => absurd rfl hfree

theorem unmade_of_plain {np : Slot} (makes : f.Makes p np) (r : Slot) :
    ¬(f.setRole p .plain).Makes r np := by
  intro hr
  rcases setRole_makes hr with ⟨-, hrole⟩ | ⟨hne, hold⟩
  · rcases hrole with hrole | hrole <;> cases hrole
  · exact hne (h.makes_inj r p np hold makes)

theorem abandon {np : Slot} (role : f.role p = .making np) (pid : Slot → UInt32)
    (xstate : Slot → Int) :
    ({ f.setRole p .plain with
      parent := update f.parent np none
      life := update f.life np .free
      pid := pid, xstate := xstate } : Family).Sound := by
  refine (h.plain p).release pid xstate f.reaped ?_ (h.unmade_of_plain (.inl role))
  exact ne_of_eq_of_ne (h.makes p np (.inl role)).2.1 nofun

theorem reap (dead : f.life q = .dead) (p : Slot) (pid : Slot → UInt32) (xstate : Slot → Int)
    (reaped : List (Ending × Nat)) :
    ({ f.setRole p .plain with
      parent := update f.parent q none
      life := update f.life q .free
      pid := pid, xstate := xstate, reaped := reaped } : Family).Sound := by
  refine (h.plain p).release pid xstate reaped (ne_of_eq_of_ne dead nofun) fun r hr => ?_
  cases dead.symm.trans ((h.plain p).makes r q hr).2.1

theorem publish {np : Slot} (role : f.role p = .made np) :
    ({ f.setRole p .plain with life := update f.life np .alive } : Family).Sound := by
  have h' := h.plain p
  have hmade : f.life np = .made := (h.makes p np (.inr role)).2.1
  have hknown : f.parent np ≠ none := ne_of_eq_of_ne (h.made_parent p np role) (Option.some_ne_none p)
  have hsound := h'.change .alive f.pid f.xstate f.exited f.reaped (.inl rfl)
    (fun hne => absurd rfl hne) (fun _ _ => hknown) nofun
    (fun _ => h.unmade_of_plain (.inr role))
    fun i status hrole _ => h'.exiting np i status hrole (ne_of_eq_of_ne hmade nofun)
  rwa [update_eq_self] at hsound

theorem die (role : f.role p = .giving NPROC status) (alive : f.life p = .alive)
    (xstate : Slot → Int) (exited : List Ending) :
    ({ f.setRole p .gone with
      life := update f.life p .dead, xstate := xstate, exited := exited } :
      Family).Sound := by
  obtain ⟨huser, -⟩ := h.of_giving role alive
  have hchildless : ∀ q, f.parent q ≠ some p := by
    intro q hq
    have hle := h.given p q NPROC status hq role
    omega
  have h' : (f.setRole p .gone).Sound := h.setRole nofun nofun nofun nofun
  have hgone : (f.setRole p .gone).role p = .gone := update_self ..
  have hunmade : ∀ r, ¬(f.setRole p .gone).Makes r p := fun r hr => by
    cases alive.symm.trans (h'.makes r p hr).2.1
  have hmaker : ∀ np, ¬(f.setRole p .gone).Makes p np := by simp [Makes, hgone]
  have hsound := h'.change .dead f.pid xstate exited f.reaped (.inl rfl)
    (fun _ => ⟨huser, hchildless, hmaker⟩) (fun hne _ => h.parent_ne_none p hne (.inl alive)) nofun
    (fun _ => hunmade) (by simp [hgone])
  rwa [update_eq_self] at hsound

theorem alloc (free : f.life q = .free) (alive : f.life p = .alive) (pid : Slot → UInt32)
    (n count : Nat) :
    ({ f with
      life := update f.life q .made
      role := update (update f.role q .plain) p (.making q)
      pid := pid
      uid := update f.uid q n
      creator := update f.creator q (f.uid p)
      count := count } : Family).Sound := by
  have hpq : p ≠ q := by
    rintro rfl
    cases alive.symm.trans free
  have hplain := h.plain q
  have hdead := hplain.not_alive (q := q) (ne_of_eq_of_ne free nofun)
  have hunmade : ∀ r, ¬(f.setRole q .plain).Makes r q := fun r hr => by
    cases free.symm.trans (hplain.makes r q hr).2.1
  -- the new slot first, then what `p` does with it
  have hnew := hplain.change .made pid f.xstate f.exited f.reaped (.inl rfl) (fun _ => hdead)
    (by simp) nofun (fun hne => absurd rfl hne) (by simp [Family.setRole])
  rw [update_eq_self] at hnew
  have h' : ({ f with
      life := update f.life q .made
      role := update f.role q .plain
      pid := pid
      uid := update f.uid q n
      creator := update f.creator q (f.uid p)
      count := count } : Family).Sound := by
    refine { hnew with makes := ?_, kin := ?_, exiting := ?_ }
    · intro r np hr
      have hnp : np ≠ q := by
        rintro rfl
        exact hunmade r hr
      have hrq : r ≠ q := by
        rintro rfl
        exact hdead.2.2 np hr
      simp only [update_of_ne hnp, update_of_ne hrq]
      exact hplain.makes r np hr
    · intro r' r hr
      have hrq : r ≠ q := by
        rintro rfl
        cases (h.free r free).symm.trans hr
      have hr'q : r' ≠ q := by
        rintro rfl
        exact hdead.2.1 r hr
      simp only [update_of_ne hrq, update_of_ne hr'q]
      exact h.kin r' r hr
    · intro r i status hr hlife
      have hrq : r ≠ q := by
        rintro rfl
        simp at hr
      simp only [update_of_ne hrq] at hr hlife ⊢
      exact h.exiting r i status hr hlife
  refine h'.setRole (p := p) ?_ nofun nofun nofun
  rintro np (hrole | hrole) <;> cases hrole
  refine ⟨?_, ?_, ?_, fun r hr => absurd hr (hunmade r)⟩
  · simp only [update_of_ne hpq]
    exact alive
  · exact update_self ..
  · simp only [update_self, update_of_ne hpq]

theorem step (hstep : f.Step f') : f'.Sound := by
  cases hstep with
  | rest => exact h
  | plain p => exact h.plain p
  | scan p =>
    refine h.setRole nofun nofun nofun ?_
    rintro i ⟨⟩ q hq
    exact absurd hq (Nat.not_lt_zero _)
  | pass p q role other =>
    refine h.setRole nofun nofun nofun ?_
    rintro i ⟨⟩ r hr
    obtain rfl | hrq := eq_or_ne r q
    · exact other
    · have hne : r.val ≠ q.val := fun heq => hrq (Fin.ext heq)
      exact h.scanned p r q.val role (by omega)
  | leave p status user => exact h.leave user status
  | skip p q status role alive other =>
    obtain ⟨huser, hexiting⟩ := h.of_giving role alive
    refine h.setRole nofun nofun ?_ nofun
    rintro i status' ⟨⟩
    refine ⟨huser, hexiting, fun r hr => ?_⟩
    have hle := h.given p r q.val status hr role
    have hne : r.val ≠ q.val := fun heq => other (Fin.ext heq ▸ hr)
    omega
  | give p q status role alive child init => exact h.give role alive child init
  | given p i status role alive done =>
    obtain ⟨huser, hexiting⟩ := h.of_giving role alive
    refine h.setRole nofun nofun ?_ nofun
    rintro j status' ⟨⟩
    refine ⟨huser, hexiting, fun r hr => ?_⟩
    have hle := h.given p r i status hr role
    omega
  | die p status role alive => exact h.die role alive _ _
  | alloc p q pid free alive => exact h.alloc free alive _ _ _
  | abandon p np role => exact h.abandon role _ _
  | adopt p np role => exact h.adopt role
  | publish p np role => exact h.publish role
  | reap p q child dead => exact h.reap dead p _ _ _

end

end Sound

theorem Sound.dead_stays (h : f.Sound) (hstep : f.Step f') (hreaped : f'.reaped = f.reaped)
    {q : Slot} (dead : f.life q = .dead) : f'.life q = .dead := by
  have hother : ∀ r life, f.life r ≠ .dead → update f.life r life q = .dead := by
    intro r life hr
    rw [update_of_ne]
    · exact dead
    · rintro rfl
      exact hr dead
  cases hstep with
  | die p status role alive => exact hother p _ (by rw [alive]; nofun)
  | alloc p r pid free alive => exact hother r _ (by rw [free]; nofun)
  | abandon p np role => exact hother np _ (by rw [(h.makes p np (.inl role)).2.1]; nofun)
  | publish p np role => exact hother np _ (by rw [(h.makes p np (.inr role)).2.1]; nofun)
  | reap p r child dead => simp at hreaped
  | _ => exact dead

/-- Ends are recorded once, and reported at most once. -/
structure Recorded (f : Family) : Prop where
  uid_lt : ∀ q, f.life q ≠ .free → f.uid q < f.count
  uid_inj : ∀ p q, f.life p ≠ .free → f.life q ≠ .free → f.uid p = f.uid q → p = q
  exited_lt : ∀ e ∈ f.exited, e.uid < f.count
  exited_nodup : (f.exited.map Ending.uid).Nodup
  exited_exiting : ∀ e ∈ f.exited, (e.uid, e.status) ∈ f.exiting
  dead : ∀ q, f.life q = .dead → f.ending q ∈ f.exited
  dead_of_exited : ∀ q, f.life q ≠ .free → f.uid q ∈ f.exited.map Ending.uid → f.life q = .dead
  reaped_exited : ∀ r ∈ f.reaped, r.1 ∈ f.exited
  reaped_nodup : (f.reaped.map fun r => r.1.uid).Nodup
  unreaped : ∀ q, f.life q ≠ .free → f.uid q ∉ f.reaped.map fun r => r.1.uid

namespace Recorded

theorem congr (h : f.Recorded) (hlife : f'.life = f.life) (huid : f'.uid = f.uid)
    (hending : f'.ending = f.ending) (hcount : f'.count = f.count) (hexited : f'.exited = f.exited)
    (hexiting : ∀ e ∈ f.exiting, e ∈ f'.exiting) (hreaped : f'.reaped = f.reaped) :
    f'.Recorded := by
  refine ⟨?_, ?_, ?_, ?_, ?_, ?_, ?_, ?_, ?_, ?_⟩
  · rw [hlife, huid, hcount]
    exact h.uid_lt
  · rw [hlife, huid]
    exact h.uid_inj
  · rw [hexited, hcount]
    exact h.exited_lt
  · rw [hexited]
    exact h.exited_nodup
  · rw [hexited]
    exact fun e he => hexiting _ (h.exited_exiting e he)
  · rw [hlife, hending, hexited]
    exact h.dead
  · rw [hlife, huid, hexited]
    exact h.dead_of_exited
  · rw [hreaped, hexited]
    exact h.reaped_exited
  · rw [hreaped]
    exact h.reaped_nodup
  · rw [hlife, huid, hreaped]
    exact h.unreaped

theorem die (h : f.Recorded) {status : Int} (alive : f.life p = .alive)
    (exiting : (f.uid p, status) ∈ f.exiting) (role : Slot → Role) :
    ({ f with
      role := role
      life := update f.life p .dead
      xstate := update f.xstate p status
      exited := f.exited ++ [⟨f.uid p, f.pid p, status⟩] } : Family).Recorded := by
  have hused : f.life p ≠ .free := by rw [alive]; nofun
  have hlife : ∀ q, update f.life p .dead q ≠ .free → f.life q ≠ .free := by
    intro q hq
    obtain rfl | hqp := eq_or_ne q p
    · exact hused
    · rwa [update_of_ne hqp] at hq
  have hnew : f.uid p ∉ f.exited.map Ending.uid := fun hmem => by
    cases alive.symm.trans (h.dead_of_exited p hused hmem)
  refine ⟨fun q hq => h.uid_lt q (hlife q hq), fun r q hr hq => h.uid_inj r q (hlife r hr) (hlife q hq),
    ?_, ?_, ?_, ?_, ?_, ?_, h.reaped_nodup, fun q hq => h.unreaped q (hlife q hq)⟩
  · intro e he
    rcases mem_append.mp he with hold | hlast
    · exact h.exited_lt e hold
    · rw [mem_singleton.mp hlast]
      exact h.uid_lt p hused
  · rw [map_append, map_singleton, nodup_append_comm, singleton_append,
      nodup_cons]
    exact ⟨hnew, h.exited_nodup⟩
  · intro e he
    rcases mem_append.mp he with hold | hlast
    · exact h.exited_exiting e hold
    · rw [mem_singleton.mp hlast]
      exact exiting
  · intro q hq
    obtain rfl | hqp := eq_or_ne q p
    · simp [ending]
    · simp only [update_of_ne hqp] at hq
      simp only [ending, update_of_ne hqp]
      exact mem_append_left _ (h.dead q hq)
  · intro q hq hmem
    obtain rfl | hqp := eq_or_ne q p
    · exact update_self ..
    · simp only [update_of_ne hqp] at hq ⊢
      simp only [map_append, map_singleton, mem_append, mem_singleton] at hmem
      rcases hmem with hold | heq
      · exact h.dead_of_exited q hq hold
      · exact absurd (h.uid_inj q p hq hused heq) hqp
  · intro r hr
    exact mem_append_left _ (h.reaped_exited r hr)

theorem alloc (h : f.Recorded) {q : Slot} (free : f.life q = .free) (role : Slot → Role)
    (pid : UInt32) (creator : Slot → Nat) :
    ({ f with
      life := update f.life q .made
      role := role
      pid := update f.pid q pid
      uid := update f.uid q f.count
      creator := creator
      count := f.count + 1 } : Family).Recorded := by
  have hlt : ∀ r, r ≠ q → update f.life q .made r ≠ .free → f.uid r < f.count := by
    intro r hr hlife
    rw [update_of_ne hr] at hlife
    exact h.uid_lt r hlife
  refine ⟨?_, ?_, ?_, h.exited_nodup, h.exited_exiting, ?_, ?_, h.reaped_exited, h.reaped_nodup, ?_⟩
  · intro r hr
    obtain rfl | hrq := eq_or_ne r q
    · simp
    · have hr' := hlt r hrq hr
      simp only [update_of_ne hrq]
      omega
  · intro r r' hr hr' heq
    by_cases hrq : r = q <;> by_cases hrq' : r' = q
    · rw [hrq, hrq']
    · subst hrq
      simp only [update_self, update_of_ne hrq'] at heq
      have hlt' := hlt r' hrq' hr'
      omega
    · subst hrq'
      simp only [update_self, update_of_ne hrq] at heq
      have hlt' := hlt r hrq hr
      omega
    · simp only [update_of_ne hrq, update_of_ne hrq'] at hr hr' heq
      exact h.uid_inj r r' hr hr' heq
  · intro e he
    have hlt' := h.exited_lt e he
    exact Nat.lt_succ_of_lt hlt'
  · intro r hr
    obtain rfl | hrq := eq_or_ne r q
    · simp at hr
    · simp only [update_of_ne hrq] at hr
      simp only [ending, update_of_ne hrq]
      exact h.dead r hr
  · intro r hr hmem
    obtain rfl | hrq := eq_or_ne r q
    · obtain ⟨e, he, huid⟩ := mem_map.mp hmem
      have hlt' := h.exited_lt e he
      simp only [update_self] at huid
      omega
    · simp only [update_of_ne hrq] at hr hmem ⊢
      exact h.dead_of_exited r hr hmem
  · intro r hr hmem
    obtain rfl | hrq := eq_or_ne r q
    · obtain ⟨e, he, huid⟩ := mem_map.mp hmem
      have hlt' := h.exited_lt e.1 (h.reaped_exited e he)
      simp only [update_self] at huid
      omega
    · simp only [update_of_ne hrq] at hr hmem
      exact h.unreaped r hr hmem

theorem release (h : f.Recorded) (q : Slot) (parent : Slot → Option Slot) (role : Slot → Role)
    (pid : UInt32) (xstate : Int) :
    ({ f with
      parent := parent, role := role
      life := update f.life q .free
      pid := update f.pid q pid
      xstate := update f.xstate q xstate } : Family).Recorded := by
  have hlife : ∀ r, update f.life q .free r ≠ .free → r ≠ q ∧ f.life r ≠ .free := by
    intro r hr
    obtain rfl | hrq := eq_or_ne r q
    · rw [update_self] at hr
      exact absurd rfl hr
    · rw [update_of_ne hrq] at hr
      exact ⟨hrq, hr⟩
  refine ⟨fun r hr => h.uid_lt r (hlife r hr).2,
    fun r r' hr hr' => h.uid_inj r r' (hlife r hr).2 (hlife r' hr').2, h.exited_lt, h.exited_nodup,
    h.exited_exiting, ?_, ?_, h.reaped_exited, h.reaped_nodup, fun r hr => h.unreaped r (hlife r hr).2⟩
  · intro r hr
    have hrq : r ≠ q := by
      rintro rfl
      simp at hr
    simp only [update_of_ne hrq] at hr
    simp only [ending, update_of_ne hrq]
    exact h.dead r hr
  · intro r hr hmem
    obtain ⟨hrq, hused⟩ := hlife r hr
    simp only [update_of_ne hrq]
    exact h.dead_of_exited r hused hmem

theorem reap (h : f.Recorded) {q : Slot} (dead : f.life q = .dead) (parent : Slot → Option Slot)
    (role : Slot → Role) (caller : Nat) :
    ({ f with
      parent := parent, role := role
      life := update f.life q .free
      pid := update f.pid q 0
      xstate := update f.xstate q 0
      reaped := f.reaped ++ [(f.ending q, caller)] } : Family).Recorded := by
  have hused : f.life q ≠ .free := by rw [dead]; nofun
  have h' := h.release q parent role 0 0
  refine { h' with reaped_exited := ?_, reaped_nodup := ?_, unreaped := ?_ }
  · intro r hr
    rcases mem_append.mp hr with hold | hlast
    · exact h.reaped_exited r hold
    · rw [mem_singleton.mp hlast]
      exact h.dead q dead
  · rw [map_append, map_singleton, nodup_append_comm, singleton_append,
      nodup_cons]
    exact ⟨h.unreaped q hused, h.reaped_nodup⟩
  · intro r hr hmem
    have hrq : r ≠ q := by
      rintro rfl
      simp at hr
    simp only [update_of_ne hrq] at hr
    simp only [map_append, map_singleton, mem_append, mem_singleton] at hmem
    rcases hmem with hold | heq
    · exact h.unreaped r hr hold
    · exact hrq (h.uid_inj r q hr hused heq)

theorem publish (h : f.Recorded) {np : Slot} (made : f.life np = .made) (role : Slot → Role) :
    ({ f with role := role, life := update f.life np .alive } : Family).Recorded := by
  have hused : f.life np ≠ .free := by rw [made]; nofun
  have hlife : ∀ q, update f.life np .alive q ≠ .free → f.life q ≠ .free := by
    intro q hq
    obtain rfl | hqnp := eq_or_ne q np
    · exact hused
    · rwa [update_of_ne hqnp] at hq
  refine ⟨fun q hq => h.uid_lt q (hlife q hq), fun r q hr hq => h.uid_inj r q (hlife r hr) (hlife q hq),
    h.exited_lt, h.exited_nodup, h.exited_exiting, ?_, ?_, h.reaped_exited, h.reaped_nodup,
    fun q hq => h.unreaped q (hlife q hq)⟩
  · intro q hq
    have hqnp : q ≠ np := by
      rintro rfl
      simp at hq
    simp only [update_of_ne hqnp] at hq
    exact h.dead q hq
  · intro q hq hmem
    have hdead := h.dead_of_exited q (hlife q hq) hmem
    have hqnp : q ≠ np := by
      rintro rfl
      cases made.symm.trans hdead
    simp only [update_of_ne hqnp]
    exact hdead

theorem step (h : f.Recorded) (hsound : f.Sound) (hstep : f.Step f') : f'.Recorded := by
  cases hstep with
  | die p status role alive => exact h.die alive (hsound.of_giving role alive).2 _
  | alloc p q pid free alive => exact h.alloc free _ pid _
  | abandon p np role => exact h.release np _ _ 0 0
  | publish p np role => exact h.publish (hsound.makes p np (.inr role)).2.1 _
  | reap p q child dead => exact h.reap dead _ _ _
  | leave p status user =>
    exact h.congr rfl rfl rfl rfl rfl (fun _ => mem_cons_of_mem _) rfl
  | _ => exact h.congr rfl rfl rfl rfl rfl (fun _ he => he) rfl

end Recorded

end Family

end Xv6.Machine
