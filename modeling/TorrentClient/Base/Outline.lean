import TorrentClient.Base.Reader

/-!
# Outlines

Whether a reader returns, throws or faults often depends on little of the object
it fills. An outline of a reader is a function of the tokens that follows this
little, its place, and tells at which tokens the reader throws or faults.
-/

namespace TorrentClient

structure Outline {ε σ μ τ : Type} (R : Reader ε σ μ τ) (π : Type) where
  place : μ → σ → π
  /-- The place behind a token that is taken. -/
  next : π → τ → π
  Throws : π → τ → Prop
  Faults : π → τ → Prop
  /-- Places where the tokens may end. -/
  Ends : π → Prop
  /-- What holds of the object wherever the reader is. -/
  Kept : μ → σ → Prop
  fault {m : μ} {s : σ} {t : τ} : Kept m s → Faults (place m s) t → ¬ (R.step m t s).Safe
  thrown {m : μ} {s : σ} {t : τ} : Kept m s → ¬ Faults (place m s) t → Throws (place m s) t →
    ∃ e s', R.step m t s = .thrown e s'
  done {m : μ} {s : σ} {t : τ} : Kept m s → ¬ Faults (place m s) t → ¬ Throws (place m s) t →
    ∃ m' s', R.step m t s = .done m' s' ∧ Kept m' s' ∧ place m' s' = next (place m s) t
  ends {m : μ} {s : σ} : Kept m s → ((R.finish m s).Safe ↔ Ends (place m s))

namespace Outline

variable {ε σ μ τ π : Type} {R : Reader ε σ μ τ} (O : Outline R π)

/-- The place behind the tokens. -/
def after (ts : List τ) (p : π) : π := ts.foldl O.next p

/-- None of the tokens throws. -/
def Passes (ts : List τ) (p : π) : Prop :=
  ∀ front t back, ts = front ++ t :: back → ¬ O.Throws (O.after front p) t

/-- No token faults, unless one in front of it throws, and the tokens end
where they may. -/
structure Calm (ts : List τ) (p : π) : Prop where
  steps : ∀ front t back, ts = front ++ t :: back → O.Passes front p →
    ¬ O.Faults (O.after front p) t
  stops : O.Passes ts p → O.Ends (O.after ts p)

variable {O} {p : π} {t : τ} {ts : List τ} {m : μ} {s : σ}

@[simp] theorem after_nil : O.after [] p = p := rfl

@[simp] theorem after_cons : O.after (t :: ts) p = O.after ts (O.next p t) := rfl

theorem passes_nil : O.Passes [] p := by
  intro front t back eq
  exact absurd eq (by simp)

/-- What holds at every token, where it is met. -/
theorem forall_split_cons {Q : π → τ → Prop} :
    (∀ front x back, t :: ts = front ++ x :: back → Q (O.after front p) x) ↔
      Q p t ∧ ∀ front x back, ts = front ++ x :: back → Q (O.after front (O.next p t)) x := by
  constructor
  · intro h
    refine ⟨h [] t ts rfl, fun front x back eq => ?_⟩
    exact h (t :: front) x back (by rw [eq]; rfl)
  · rintro ⟨first, later⟩ front x back eq
    cases front with
    | nil =>
      cases eq
      exact first
    | cons y front =>
      cases eq
      exact later front x back rfl

theorem passes_cons : O.Passes (t :: ts) p ↔ ¬ O.Throws p t ∧ O.Passes ts (O.next p t) :=
  forall_split_cons (Q := fun p t => ¬ O.Throws p t)

theorem calm_nil : O.Calm [] p ↔ O.Ends p := by
  constructor
  · exact fun h => h.stops passes_nil
  · refine fun h => ⟨?_, fun _ => h⟩
    intro front t back eq
    exact absurd eq (by simp)

theorem calm_cons : O.Calm (t :: ts) p ↔
    ¬ O.Faults p t ∧ (¬ O.Throws p t → O.Calm ts (O.next p t)) := by
  constructor
  · intro h
    refine ⟨h.steps [] t ts rfl passes_nil, fun taken => ⟨?_, ?_⟩⟩
    · intro front x back eq passes
      exact h.steps (t :: front) x back (by rw [eq]; rfl) (passes_cons.2 ⟨taken, passes⟩)
    · exact fun passes => h.stops (passes_cons.2 ⟨taken, passes⟩)
  · rintro ⟨first, later⟩
    constructor
    · intro front x back eq passes
      cases front with
      | nil =>
        cases eq
        exact first
      | cons y front =>
        cases eq
        obtain ⟨taken, passes⟩ := passes_cons.1 passes
        exact (later taken).steps front x back rfl passes
    · intro passes
      obtain ⟨taken, passes⟩ := passes_cons.1 passes
      exact (later taken).stops passes

/-- **When a reader returns or throws.** -/
theorem complete_safe_iff (kept : O.Kept m s) :
    (R.complete ts m s).Safe ↔ O.Calm ts (O.place m s) := by
  induction ts generalizing m s with
  | nil =>
    rw [Reader.complete_nil, calm_nil]
    exact O.ends kept
  | cons t ts ih =>
    rw [Reader.complete_cons, Outcome.bind_safe, calm_cons]
    by_cases faults : O.Faults (O.place m s) t
    · exact iff_of_false (fun h => O.fault kept faults h.1) fun h => h.1 faults
    · by_cases throws : O.Throws (O.place m s) t
      · obtain ⟨e, s', step⟩ := O.thrown kept faults throws
        rw [step]
        exact iff_of_true ⟨Outcome.safe_thrown, fun _ _ h => nomatch h⟩
          ⟨faults, fun h => absurd throws h⟩
      · obtain ⟨m', s', step, kept', at_next⟩ := O.done kept faults throws
        rw [step, Outcome.forall_eq_done, ih kept', at_next]
        exact and_congr ⟨fun _ => faults, fun _ => Outcome.safe_done⟩
          ⟨fun h _ => h, fun h => h throws⟩

/-- What a run that returns has gone through. -/
theorem run_done {m' : μ} {s' : σ} (kept : O.Kept m s) (run : R.run ts m s = .done m' s') :
    O.Passes ts (O.place m s) ∧ O.Kept m' s' ∧ O.place m' s' = O.after ts (O.place m s) := by
  induction ts generalizing m s with
  | nil =>
    cases run
    exact ⟨passes_nil, kept, rfl⟩
  | cons t ts ih =>
    rw [Reader.run_cons] at run
    obtain ⟨m₁, s₁, step, run⟩ := Outcome.bind_eq_done run
    have faults : ¬ O.Faults (O.place m s) t := by
      intro faults
      apply O.fault kept faults
      rw [step]
      exact Outcome.safe_done
    have throws : ¬ O.Throws (O.place m s) t := by
      intro throws
      obtain ⟨e, s₂, thrown⟩ := O.thrown kept faults throws
      rw [step] at thrown
      cases thrown
    obtain ⟨m₂, s₂, step', kept₁, at_next⟩ := O.done kept faults throws
    rw [step] at step'
    cases step'
    obtain ⟨passes, kept', at_end⟩ := ih kept₁ run
    rw [passes_cons, after_cons, ← at_next]
    exact ⟨⟨throws, passes⟩, kept', at_end⟩

/-- Tokens that none of throws are gone through, where none ever faults. -/
theorem run_passes (sound : ∀ p t, ¬ O.Faults p t) (kept : O.Kept m s)
    (passes : O.Passes ts (O.place m s)) :
    ∃ m' s', R.run ts m s = .done m' s' ∧ O.Kept m' s' ∧
      O.place m' s' = O.after ts (O.place m s) := by
  induction ts generalizing m s with
  | nil => exact ⟨m, s, rfl, kept, rfl⟩
  | cons t ts ih =>
    obtain ⟨taken, later⟩ := passes_cons.1 passes
    obtain ⟨m₁, s₁, step, kept₁, at_next⟩ := O.done kept (sound _ t) taken
    rw [← at_next] at later
    obtain ⟨m', s', run, kept', at_end⟩ := ih kept₁ later
    refine ⟨m', s', ?_, kept', ?_⟩
    · rw [Reader.run_cons, step]
      exact run
    · rw [at_end, at_next, after_cons]

/-! ### Tokens that are left out -/

/-- The tokens leave the reader and the object at the place as they are. -/
def Idle (p : π) (ts : List τ) : Prop :=
  ∀ m s, O.Kept m s → O.place m s = p → R.run ts m s = .done m s

/-- In front of `rest`, the tokens make no difference at the place. -/
def Silent (p : π) (ts rest : List τ) : Prop :=
  ∀ m s, O.Kept m s → O.place m s = p → R.complete (ts ++ rest) m s = R.complete rest m s

variable {α : Type} (f : α → List τ) (keep : α → Bool) (rest : List τ)

/-- Whatever is not kept is idle where it stands, up to where nothing more is kept
and all the tokens make no difference. -/
def Spares : π → List α → Prop
  | _, [] => True
  | p, x :: xs =>
    ((keep x = true ∨ O.Idle p (f x)) ∧ Spares (O.after (f x) p) xs) ∨
      ((∀ y ∈ x :: xs, keep y = false) ∧ O.Silent p ((x :: xs).flatMap f) rest)

variable {f keep rest}

/-- **A run on what is kept.** -/
theorem complete_filter {xs : List α} (kept : O.Kept m s)
    (spares : O.Spares f keep rest (O.place m s) xs) :
    R.complete (xs.flatMap f ++ rest) m s =
      R.complete ((xs.filter keep).flatMap f ++ rest) m s := by
  induction xs generalizing m s with
  | nil => rfl
  | cons x xs ih =>
    rcases spares with ⟨first, later⟩ | ⟨dropped, silent⟩
    · cases keeps : keep x with
      | true =>
        rw [List.filter_cons_of_pos keeps, List.flatMap_cons, List.flatMap_cons,
          List.append_assoc, List.append_assoc, Reader.complete_append, Reader.complete_append]
        cases run : R.run (f x) m s with
        | done m' s' =>
          obtain ⟨-, kept', at_end⟩ := O.run_done kept run
          rw [← at_end] at later
          exact ih kept' later
        | thrown e s' => rfl
        | fault r s' => rfl
      | false =>
        have idle := first.resolve_left (by simp [keeps]) m s kept rfl
        obtain ⟨-, -, at_end⟩ := O.run_done kept idle
        rw [← at_end] at later
        rw [List.filter_cons_of_neg (by simp [keeps]), List.flatMap_cons, List.append_assoc,
          Reader.complete_append, idle, Outcome.bind_done]
        exact ih kept later
    · have none : (x :: xs).filter keep = [] := by
        rw [List.filter_eq_nil_iff]
        intro y mem
        simp [dropped y mem]
      rw [none]
      exact silent m s kept rfl

/-- Tokens that leave out what no step looks at. -/
theorem complete_map {f : τ → τ} (Good : π → τ → Prop)
    (same : ∀ m t s, Good (O.place m s) (f t) → R.step m (f t) s = R.step m t s)
    (kept : O.Kept m s)
    (good : ∀ front t back, ts.map f = front ++ t :: back → Good (O.after front (O.place m s)) t) :
    R.complete (ts.map f) m s = R.complete ts m s := by
  induction ts generalizing m s with
  | nil => rfl
  | cons t ts ih =>
    have eq := same m t s (good [] (f t) (ts.map f) rfl)
    rw [List.map_cons, Reader.complete_cons, Reader.complete_cons, eq]
    cases step : R.step m t s with
    | done m' s' =>
      have run : R.run [f t] m s = .done m' s' := by
        rw [Reader.run_cons, eq, step]
        rfl
      obtain ⟨-, kept', at_next⟩ := O.run_done kept run
      refine ih kept' fun front x back split => ?_
      rw [at_next]
      exact good (f t :: front) x back (by rw [List.map_cons, split]; rfl)
    | thrown e s' => rfl
    | fault r s' => rfl

end Outline

end TorrentClient
