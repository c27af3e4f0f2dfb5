import TorrentClient.Base.Outcome

/-!
# Readers

A reader fills an object from tokens it takes one at a time. What it does with
a token depends on the mode the tokens before have left it in, so a run on
tokens one behind the other is a run on the ones and then a run on the others.
-/

namespace TorrentClient

structure Reader (ε σ μ τ : Type) where
  step : μ → τ → σ → Outcome ε σ μ
  /-- What is done when there are no more tokens. -/
  finish : μ → σ → Outcome ε σ Unit

namespace Reader

variable {ε σ μ τ : Type} (R : Reader ε σ μ τ)

def run : List τ → μ → σ → Outcome ε σ μ
  | [], m, s => .done m s
  | t :: ts, m, s => (R.step m t s).bind (run ts)

def complete (ts : List τ) (m : μ) (s : σ) : Outcome ε σ Unit := (R.run ts m s).bind R.finish

variable {R} {m : μ} {s : σ} {t : τ} {ts xs ys : List τ}

theorem run_cons : R.run (t :: ts) m s = (R.step m t s).bind (R.run ts) := rfl

theorem run_append : R.run (xs ++ ys) m s = (R.run xs m s).bind (R.run ys) := by
  induction xs generalizing m s with
  | nil => rfl
  | cons x xs ih =>
    rw [List.cons_append, run_cons, run_cons, Outcome.bind_assoc]
    congr 1
    funext m' s'
    exact ih

@[simp] theorem complete_nil : R.complete [] m s = R.finish m s := rfl

theorem complete_cons : R.complete (t :: ts) m s = (R.step m t s).bind (R.complete ts) := by
  rw [complete, run_cons, Outcome.bind_assoc]
  rfl

theorem complete_append : R.complete (xs ++ ys) m s = (R.run xs m s).bind (R.complete ys) := by
  rw [complete, run_append, Outcome.bind_assoc]
  rfl

/-- Tokens that leave out what no step looks at, but for steps that throw. -/
theorem complete_map {f : τ → τ} {e : ε}
    (same : ∀ m t s, R.step m (f t) s = R.step m t s ∨ ∃ s', R.step m (f t) s = .thrown e s')
    (ts : List τ) (m : μ) (s : σ) :
    R.complete (ts.map f) m s = R.complete ts m s ∨
      ∃ s', R.complete (ts.map f) m s = .thrown e s' := by
  induction ts generalizing m s with
  | nil => exact Or.inl rfl
  | cons t ts ih =>
    rw [List.map_cons, complete_cons, complete_cons]
    cases same m t s with
    | inl eq =>
      rw [eq]
      cases R.step m t s with
      | done m' s' => exact ih m' s'
      | thrown e' s' => exact Or.inl rfl
      | fault r s' => exact Or.inl rfl
    | inr thrown =>
      obtain ⟨s', eq⟩ := thrown
      rw [eq]
      exact Or.inr ⟨s', rfl⟩

/-- When each step that is taken on the one reading of the tokens is taken on the other. -/
theorem complete_map_done {α : Type} {f g : α → τ} {xs : List α} {s' : σ}
    (same : ∀ x m s m' s', R.step m (f x) s = .done m' s' → R.step m (g x) s = .done m' s')
    (done : R.complete (xs.map f) m s = .done () s') :
    R.complete (xs.map g) m s = .done () s' := by
  induction xs generalizing m s with
  | nil => exact done
  | cons x xs ih =>
    rw [List.map_cons, complete_cons] at done ⊢
    obtain ⟨m', s₁, stepped, later⟩ := Outcome.bind_eq_done done
    rw [same x m s m' s₁ stepped, Outcome.bind_done]
    exact ih later

end Reader

end TorrentClient
