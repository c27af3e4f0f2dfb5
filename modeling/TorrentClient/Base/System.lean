/-!
# Runs of a guarded step function

`step s a` is the state after the action `a`, `none` where it is not enabled.
`Reach start step ok` holds of the states at the end of the runs from a start
state in which every action meets `ok` in the state it is taken in.
-/

namespace TorrentClient

variable {S A : Type} {start : S → Prop} {step : S → A → Option S} {ok ok' : S → A → Prop}

inductive Reach (start : S → Prop) (step : S → A → Option S) (ok : S → A → Prop) : S → Prop
  | start {s : S} : start s → Reach start step ok s
  | next {s s' : S} {a : A} : Reach start step ok s → ok s a → step s a = some s' →
      Reach start step ok s'

/-- The action need not meet any condition. -/
def anyStep (_ : S) (_ : A) : Prop := True

theorem Reach.invariant {P : S → Prop} (initial : ∀ s, start s → P s)
    (kept : ∀ s a s', P s → ok s a → step s a = some s' → P s') {s : S}
    (h : Reach start step ok s) : P s := by
  induction h with
  | start h => exact initial _ h
  | next _ met stepped ih => exact kept _ _ _ ih met stepped

theorem Reach.mono (weaker : ∀ s a, ok s a → ok' s a) {s : S} (h : Reach start step ok s) :
    Reach start step ok' s := by
  induction h with
  | start h => exact .start h
  | next _ met stepped ih => exact .next ih (weaker _ _ met) stepped

instance (s : S) (a : A) : Decidable (anyStep s a) := inferInstanceAs (Decidable True)

/-- Take actions one after another, as long as each is enabled and meets `ok`. -/
def replay (step : S → A → Option S) (ok : S → A → Prop) [∀ s a, Decidable (ok s a)] (s : S)
    (actions : List A) : Option S :=
  actions.foldlM (fun s a => if ok s a then step s a else none) s

theorem replay_cons [∀ s a, Decidable (ok s a)] {s s' : S} {a : A} (met : ok s a)
    (stepped : step s a = some s') (actions : List A) :
    replay step ok s (a :: actions) = replay step ok s' actions := by
  rw [replay, List.foldlM_cons, if_pos met, stepped]
  rfl

theorem Reach.replay [∀ s a, Decidable (ok s a)] {s s' : S} (h : Reach start step ok s)
    {actions : List A} (replayed : replay step ok s actions = some s') :
    Reach start step ok s' := by
  induction actions generalizing s with
  | nil =>
    cases replayed
    exact h
  | cons a actions ih =>
    obtain ⟨t, stepped, later⟩ := Option.bind_eq_some_iff.1 replayed
    dsimp only at stepped
    split at stepped
    · rename_i met
      exact ih (.next h met stepped) later
    · cases stepped

end TorrentClient
