import Mathlib.Algebra.Order.Ring.Nat
import Mathlib.Data.List.Basic

/-! Machines that answer events, and how one is shown to answer as another does. -/
namespace Xv6.Lib

variable {σ τ ε ρ : Type}

/-- The state and the replies, if every event can happen. -/
def replay (step : σ → ε → Option (σ × ρ)) : σ → List ε → Option (σ × List ρ)
  | s, [] => some (s, [])
  | s, event :: events =>
    (step s event).bind fun (next, reply) =>
      (replay step next events).map fun (last, replies) => (last, reply :: replies)

variable {events : List ε} {replies : List ρ} {step : σ → ε → Option (σ × ρ)}

theorem replay_cons_eq_some {s last : σ} {event : ε} :
    replay step s (event :: events) = some (last, replies) ↔
      ∃ next reply rest, step s event = some (next, reply) ∧
        replay step next events = some (last, rest) ∧ replies = reply :: rest := by
  rw [replay]
  constructor
  · intro h
    obtain ⟨⟨next, reply⟩, hstep, hmap⟩ := Option.bind_eq_some_iff.mp h
    obtain ⟨⟨last', rest⟩, hrun, heq⟩ := Option.map_eq_some_iff.mp hmap
    obtain ⟨rfl, rfl⟩ := Prod.mk.inj heq
    exact ⟨next, reply, rest, hstep, hrun, rfl⟩
  · rintro ⟨next, reply, rest, hstep, hrun, rfl⟩
    rw [hstep, Option.bind_some]
    dsimp only
    rw [hrun]
    rfl

/-- A relation that steps keep, with equal replies, is kept by runs. -/
theorem replay_refines {step' : τ → ε → Option (τ × ρ)} {R : σ → τ → Prop} {s : σ} {t : τ}
    {last : σ} (run : replay step s events = some (last, replies)) (hrel : R s t)
    (simulates : ∀ {s t event next reply}, R s t → step s event = some (next, reply) →
      ∃ next', step' t event = some (next', reply) ∧ R next next') :
    ∃ last', replay step' t events = some (last', replies) ∧ R last last' := by
  induction events generalizing s t replies with
  | nil =>
    cases run
    exact ⟨t, rfl, hrel⟩
  | cons event events ih =>
    obtain ⟨next, reply, rest, hstep, hrun, rfl⟩ := replay_cons_eq_some.mp run
    obtain ⟨next', hstep', hrel'⟩ := simulates hrel hstep
    obtain ⟨last', hrun', hlast⟩ := ih hrun hrel'
    exact ⟨last', replay_cons_eq_some.mpr ⟨next', reply, rest, hstep', hrun', rfl⟩, hlast⟩

theorem forall_replies {I : σ → Prop} {Q : ρ → Prop} {s last : σ}
    (run : replay step s events = some (last, replies)) (hinv : I s)
    (keeps : ∀ {s event next reply}, I s → step s event = some (next, reply) → I next ∧ Q reply) :
    ∀ reply ∈ replies, Q reply := by
  induction events generalizing s replies with
  | nil =>
    cases run
    intro reply hmem
    cases hmem
  | cons event events ih =>
    obtain ⟨next, reply, rest, hstep, hrun, rfl⟩ := replay_cons_eq_some.mp run
    obtain ⟨hnext, hreply⟩ := keeps hinv hstep
    exact List.forall_mem_cons.mpr ⟨hreply, ih hrun hnext⟩

end Xv6.Lib
