import TorrentClient.Base.System

/-!
# Runs, and one system in the terms of another

`Steps` is a run between two states, and `Run` one from a start state together with
the actions that were taken. A system whose every step is matched by steps of another
one reaches nothing that the other one does not reach.
-/

namespace TorrentClient

variable {S A : Type} {start : S → Prop} {step : S → A → Option S} {ok : S → A → Prop}

inductive Steps (step : S → A → Option S) (ok : S → A → Prop) : S → S → Prop
  | refl (s : S) : Steps step ok s s
  | next {s t u : S} {a : A} : Steps step ok s t → ok t a → step t a = some u →
      Steps step ok s u

theorem Steps.trans {s t u : S} (h : Steps step ok s t) (h' : Steps step ok t u) :
    Steps step ok s u := by
  induction h' with
  | refl => exact h
  | next _ met stepped ih => exact .next ih met stepped

theorem Reach.steps {s t : S} (h : Reach start step ok s) (run : Steps step ok s t) :
    Reach start step ok t := by
  induction run with
  | refl => exact h
  | next _ met stepped ih => exact .next ih met stepped

inductive Run (start : S → Prop) (step : S → A → Option S) (ok : S → A → Prop) :
    List A → S → Prop
  | start {s : S} : start s → Run start step ok [] s
  | next {actions : List A} {s s' : S} {a : A} : Run start step ok actions s → ok s a →
      step s a = some s' → Run start step ok (actions ++ [a]) s'

theorem Run.reach {actions : List A} {s : S} (h : Run start step ok actions s) :
    Reach start step ok s := by
  induction h with
  | start h => exact .start h
  | next _ met stepped ih => exact .next ih met stepped

theorem Reach.run {s : S} (h : Reach start step ok s) : ∃ actions, Run start step ok actions s := by
  induction h with
  | start h => exact ⟨[], .start h⟩
  | next _ met stepped ih =>
    obtain ⟨actions, run⟩ := ih
    exact ⟨_, .next run met stepped⟩

theorem Run.replay [∀ s a, Decidable (ok s a)] {before : List A} {s s' : S}
    (h : Run start step ok before s) {actions : List A}
    (replayed : TorrentClient.replay step ok s actions = some s') :
    Run start step ok (before ++ actions) s' := by
  induction actions generalizing before s with
  | nil =>
    cases replayed
    rwa [List.append_nil]
  | cons a actions ih =>
    obtain ⟨t, stepped, later⟩ := Option.bind_eq_some_iff.1 replayed
    dsimp only at stepped
    split at stepped
    · rename_i met
      have run := ih (.next h met stepped) later
      rwa [List.append_assoc] at run
    · cases stepped

/-- What holds of the state may look back on the actions. -/
theorem Run.invariant {P : List A → S → Prop} (initial : ∀ s, start s → P [] s)
    (kept : ∀ actions s a s', P actions s → ok s a → step s a = some s' →
      P (actions ++ [a]) s')
    {actions : List A} {s : S} (h : Run start step ok actions s) : P actions s := by
  induction h with
  | start h => exact initial _ h
  | next _ met stepped ih => exact kept _ _ _ _ ih met stepped

section
variable {T B : Type} {start' : T → Prop} {step' : T → B → Option T} {ok' : T → B → Prop}

/-- **Simulation.** `R` relates a state to one that the other system is in meanwhile. -/
theorem Reach.simulated {R : S → T → Prop} (initial : ∀ s, start s → ∃ t, start' t ∧ R s t)
    (matched : ∀ s t a s', R s t → ok s a → step s a = some s' →
      ∃ t', Steps step' ok' t t' ∧ R s' t')
    {s : S} (h : Reach start step ok s) : ∃ t, Reach start' step' ok' t ∧ R s t := by
  induction h with
  | start h =>
    obtain ⟨t, started, related⟩ := initial _ h
    exact ⟨t, .start started, related⟩
  | next _ met stepped ih =>
    obtain ⟨t, reached, related⟩ := ih
    obtain ⟨t', run, related'⟩ := matched _ t _ _ related met stepped
    exact ⟨t', reached.steps run, related'⟩

end

end TorrentClient
