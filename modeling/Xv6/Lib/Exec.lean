import Mathlib.Algebra.Order.Ring.Nat

/-! Sequential programs that may stop with an error. `wp m Q E s`: `m` run from `s` returns
with `Q` or stops with `E`. -/
namespace Xv6.Lib

abbrev Exec (σ ε α : Type) := StateT σ (Except ε) α

namespace Exec

variable {σ τ ε δ α β : Type}

def wp (m : Exec σ ε α) (Q : α → σ → Prop) (E : ε → Prop) (s : σ) : Prop :=
  match m s with
  | .ok (a, s') => Q a s'
  | .error e => E e

def stopOf (m : Exec σ ε α) (s : σ) : Option ε :=
  match m s with
  | .ok _ => none
  | .error e => some e

def after (m : Exec σ ε α) (s : σ) : σ :=
  match m s with
  | .ok (_, s') => s'
  | .error _ => s

def resultOf (m : Exec σ ε α) (s : σ) : Option α :=
  match m s with
  | .ok (a, _) => some a
  | .error _ => none

variable {m : Exec σ ε α} {s : σ} {E : ε → Prop} {Q : α → σ → Prop}

theorem exists_of_resultOf {a : α} (h : resultOf m s = some a) : ∃ s', m s = .ok (a, s') := by
  unfold resultOf at h
  split at h
  · rename_i s' hrun
    cases h
    exact ⟨s', hrun⟩
  · cases h

theorem run_eq_after {m : Exec σ ε PUnit} (h : stopOf m s = none) : m s = .ok (⟨⟩, after m s) := by
  unfold stopOf at h
  unfold after
  split at h
  · rename_i heq
    rw [heq]
  · cases h

@[simp] theorem wp_pure (a : α) (Q : α → σ → Prop) (E : ε → Prop) (s : σ) :
    wp (pure a : Exec σ ε α) Q E s ↔ Q a s := Iff.rfl

@[simp] theorem wp_bind (m : Exec σ ε α) (f : α → Exec σ ε β) (Q : β → σ → Prop)
    (E : ε → Prop) (s : σ) :
    wp (m >>= f) Q E s ↔ wp m (fun a s' => wp (f a) Q E s') E s := by
  unfold wp
  change (match (m s >>= fun p => f p.1 p.2) with
    | .ok (a, s') => Q a s'
    | .error e => E e) ↔ _
  cases hm : m s with
  | error e => simp [bind, Except.bind]
  | ok p => simp [bind, Except.bind]

@[simp] theorem wp_get (Q : σ → σ → Prop) (E : ε → Prop) (s : σ) :
    wp (get : Exec σ ε σ) Q E s ↔ Q s s := Iff.rfl

@[simp] theorem wp_set (s' : σ) (Q : PUnit → σ → Prop) (E : ε → Prop) (s : σ) :
    wp (set s' : Exec σ ε PUnit) Q E s ↔ Q ⟨⟩ s' := Iff.rfl

@[simp] theorem wp_modify (f : σ → σ) (Q : PUnit → σ → Prop) (E : ε → Prop) (s : σ) :
    wp (modify f : Exec σ ε PUnit) Q E s ↔ Q ⟨⟩ (f s) := Iff.rfl

@[simp] theorem wp_throw (e : ε) (Q : α → σ → Prop) (E : ε → Prop) (s : σ) :
    wp (throw e : Exec σ ε α) Q E s ↔ E e := Iff.rfl

theorem wp_ite (c : Prop) [Decidable c] (m n : Exec σ ε α) (Q : α → σ → Prop) (E : ε → Prop)
    (s : σ) : wp (if c then m else n) Q E s ↔ if c then wp m Q E s else wp n Q E s := by
  split <;> rfl

theorem wp_then {c : Prop} [Decidable c] {n : Exec σ ε α} (h : c) :
    wp (if c then m else n) Q E s ↔ wp m Q E s := by
  rw [if_pos h]

theorem wp_else {c : Prop} [Decidable c] {n : Exec σ ε α} (h : ¬ c) :
    wp (if c then n else m) Q E s ↔ wp m Q E s := by
  rw [if_neg h]

theorem wp_mono {Q' : α → σ → Prop} {E' : ε → Prop} (h : wp m Q E s)
    (post : ∀ a s', Q a s' → Q' a s') (stop : ∀ e, E e → E' e) : wp m Q' E' s := by
  unfold wp at h ⊢
  split at h
  · exact post _ _ h
  · exact stop _ h

theorem wp_post {Q' : α → σ → Prop} (h : wp m Q E s) (post : ∀ a s', Q a s' → Q' a s') :
    wp m Q' E s := wp_mono h post fun _ => id

theorem post_of_wp {s' : σ} {a : α} (h : wp m Q E s) (run : m s = .ok (a, s')) : Q a s' := by
  simpa [wp, run] using h

theorem stop_of_wp {e : ε} (h : wp m Q E s) (run : m s = .error e) : E e := by
  simpa [wp, run] using h

theorem returns_of_wp (h : wp m Q E s) (live : ∀ e, ¬ E e) :
    ∃ a s', m s = .ok (a, s') ∧ Q a s' := by
  unfold wp at h
  split at h
  · exact ⟨_, _, by assumption, h⟩
  · exact absurd h (live _)

theorem wp_of_run {s' : σ} {a : α} (run : m s = .ok (a, s')) (post : Q a s') : wp m Q E s := by
  unfold wp
  rwa [run]

theorem run_of_wp {s' : σ} {a : α} (h : wp m (fun b t => b = a ∧ t = s') (fun _ => False) s) :
    m s = .ok (a, s') := by
  obtain ⟨b, t, hrun, rfl, rfl⟩ := returns_of_wp h fun _ => id
  exact hrun

theorem stops_of_wp {e : ε} (h : wp m (fun _ _ => False) (fun e' => e' = e) s) :
    m s = .error e := by
  unfold wp at h
  split at h
  · exact h.elim
  · rename_i hrun
    rw [hrun, h]

/-- `m'` returns wherever `m` does, and the same. -/
def Follows (m m' : Exec σ ε α) : Prop := ∀ s r, m s = .ok r → m' s = .ok r

theorem Follows.refl (m : Exec σ ε α) : Follows m m := fun _ _ => id

theorem Follows.bind {m' : Exec σ ε α} {f f' : α → Exec σ ε β} (h : Follows m m')
    (hf : ∀ a, Follows (f a) (f' a)) : Follows (m >>= f) (m' >>= f') := by
  intro s r hrun
  change (m s >>= fun p => f p.1 p.2) = .ok r at hrun
  change (m' s >>= fun p => f' p.1 p.2) = .ok r
  cases hm : m s with
  | error e =>
    rw [hm] at hrun
    cases hrun
  | ok p =>
    rw [hm] at hrun
    rw [h s p hm]
    exact hf p.1 p.2 r hrun

/-- `for (i = 0; i < count; i++)` with a loop-carried value. -/
@[irreducible] def forUpTo (count : Nat) (body : Nat → β → Exec σ ε β) (init : β) : Exec σ ε β :=
  (List.range count).foldlM (fun b i => body i b) init

theorem wp_forUpTo {count : Nat} {body : Nat → β → Exec σ ε β} {init : β} {Q : β → σ → Prop}
    (I : Nat → β → σ → Prop) (start : I 0 init s)
    (step : ∀ i, i < count → ∀ b s', I i b s' → wp (body i b) (I (i + 1)) E s')
    (post : ∀ b s', I count b s' → Q b s') : wp (forUpTo count body init) Q E s := by
  unfold forUpTo
  induction count generalizing Q with
  | zero => exact post init s start
  | succ count ih =>
    rw [List.range_succ, List.foldlM_append, wp_bind]
    refine ih (fun i hi => step i (by omega)) ?_
    intro b s' hb
    simp only [List.foldlM_cons, List.foldlM_nil, wp_bind]
    refine wp_mono (step count (by omega) b s' hb) ?_ (fun _ he => he)
    intro b' s'' hb'
    exact post b' s'' hb'

def zoom (read : τ → σ) (write : τ → σ → τ) (m : Exec σ ε α) : Exec τ ε α := fun t =>
  match m (read t) with
  | .ok (a, s) => .ok (a, write t s)
  | .error e => .error e

@[simp] theorem wp_zoom (read : τ → σ) (write : τ → σ → τ) (m : Exec σ ε α)
    (Q : α → τ → Prop) (E : ε → Prop) (t : τ) :
    wp (zoom read write m) Q E t ↔ wp m (fun a s => Q a (write t s)) E (read t) := by
  unfold wp zoom
  cases m (read t) with
  | error e => exact Iff.rfl
  | ok p => exact Iff.rfl

/-- Run a program on a component of a larger state with more errors. -/
def embed (read : τ → σ) (write : τ → σ → τ) (err : ε → δ) (m : Exec σ ε α) : Exec τ δ α := fun t =>
  match m (read t) with
  | .ok (a, s) => .ok (a, write t s)
  | .error e => .error (err e)

@[simp] theorem wp_embed (read : τ → σ) (write : τ → σ → τ) (err : ε → δ) (m : Exec σ ε α)
    (Q : α → τ → Prop) (E : δ → Prop) (t : τ) :
    wp (embed read write err m) Q E t ↔
      wp m (fun a s => Q a (write t s)) (fun e => E (err e)) (read t) := by
  unfold wp embed
  cases m (read t) with
  | error e => exact Iff.rfl
  | ok p => exact Iff.rfl

end Exec

end Xv6.Lib
