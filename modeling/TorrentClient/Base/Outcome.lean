import Mathlib.Tactic.Common

/-!
# Outcomes of a call

A call on an object returns, throws or faults. The object keeps the state it
was left in by every statement that ran, also when an exception ends the call,
so each outcome carries a state.
-/

namespace TorrentClient

/-- Why a call has no defined continuation. -/
inductive Fault where
  | outOfBounds
  | divisionByZero
  | diverges
  deriving DecidableEq, Repr

inductive Outcome (ε σ α : Type) where
  | done (value : α) (state : σ)
  | thrown (error : ε) (state : σ)
  | fault (reason : Fault) (state : σ)
  deriving DecidableEq, Repr

namespace Outcome

variable {ε σ τ α β γ : Type}

/-- The state the call leaves behind. -/
def state : Outcome ε σ α → σ
  | done _ s => s
  | thrown _ s => s
  | fault _ s => s

/-- Run the rest of a body after a call that returned. -/
def bind (o : Outcome ε σ α) (f : α → σ → Outcome ε σ β) : Outcome ε σ β :=
  match o with
  | done a s => f a s
  | thrown e s => thrown e s
  | fault r s => fault r s

/-- `bind`, where the rest of the body may use how the call returned. -/
def bindWith (o : Outcome ε σ α) (f : ∀ a s, o = done a s → Outcome ε σ β) : Outcome ε σ β :=
  match o, f with
  | done a s, f => f a s rfl
  | thrown e s, _ => thrown e s
  | fault r s, _ => fault r s

def map (f : α → β) (o : Outcome ε σ α) : Outcome ε σ β :=
  o.bind fun a s => done (f a) s

/-- A call on no object, made while an object is in some state. -/
def ofExcept (r : Except ε α) (s : σ) : Outcome ε σ α :=
  match r with
  | .ok a => done a s
  | .error e => thrown e s

/-- The call returns or throws. -/
def Safe (o : Outcome ε σ α) : Prop := ∀ r s, o ≠ fault r s

/-- The call returns. -/
def Returns (o : Outcome ε σ α) : Prop := ∃ a s, o = done a s

instance (o : Outcome ε σ α) : Decidable o.Returns :=
  match o with
  | done a s => .isTrue ⟨a, s, rfl⟩
  | thrown _ _ => .isFalse (by rintro ⟨_, _, ⟨⟩⟩)
  | fault _ _ => .isFalse (by rintro ⟨_, _, ⟨⟩⟩)

/-- The call returns, with a value and in a state that pass the test. -/
def any (o : Outcome ε σ α) (p : α → σ → Bool) : Bool :=
  match o with
  | done a s => p a s
  | thrown _ _ | fault _ _ => false

theorem any_eq_true {o : Outcome ε σ α} {p : α → σ → Bool} (h : o.any p = true) :
    ∃ a s, o = done a s ∧ p a s = true := by
  cases o with
  | done a s => exact ⟨a, s, rfl, h⟩
  | thrown _ _ => cases h
  | fault _ _ => cases h

/-- The exceptions that leave the call. -/
def throws : Outcome ε σ α → Nat
  | thrown _ _ => 1
  | done _ _ | fault _ _ => 0

/-- A call on a member, seen from the object that owns it. -/
def lift (g : σ → τ) : Outcome ε σ α → Outcome ε τ α
  | done a s => done a (g s)
  | thrown e s => thrown e (g s)
  | fault r s => fault r (g s)

@[simp] theorem state_done (a : α) (s : σ) : (done a s : Outcome ε σ α).state = s := rfl
@[simp] theorem state_thrown (e : ε) (s : σ) : (thrown e s : Outcome ε σ α).state = s := rfl
@[simp] theorem state_fault (r : Fault) (s : σ) : (fault r s : Outcome ε σ α).state = s := rfl

@[simp] theorem bind_done (a : α) (s : σ) (f : α → σ → Outcome ε σ β) :
    (done a s).bind f = f a s := rfl
@[simp] theorem bind_thrown (e : ε) (s : σ) (f : α → σ → Outcome ε σ β) :
    (thrown e s).bind f = thrown e s := rfl
@[simp] theorem bind_fault (r : Fault) (s : σ) (f : α → σ → Outcome ε σ β) :
    (fault r s).bind f = fault r s := rfl

@[simp] theorem ofExcept_ok (a : α) (s : σ) :
    (ofExcept (.ok a) s : Outcome ε σ α) = done a s := rfl
@[simp] theorem ofExcept_error (e : ε) (s : σ) :
    (ofExcept (.error e) s : Outcome ε σ α) = thrown e s := rfl

@[simp] theorem map_done (f : α → β) (a : α) (s : σ) :
    (done a s : Outcome ε σ α).map f = done (f a) s := rfl
@[simp] theorem map_thrown (f : α → β) (e : ε) (s : σ) :
    (thrown e s : Outcome ε σ α).map f = thrown e s := rfl
@[simp] theorem map_fault (f : α → β) (r : Fault) (s : σ) :
    (fault r s : Outcome ε σ α).map f = fault r s := rfl

@[simp] theorem lift_done (g : σ → τ) (a : α) (s : σ) :
    (done a s : Outcome ε σ α).lift g = done a (g s) := rfl
@[simp] theorem lift_thrown (g : σ → τ) (e : ε) (s : σ) :
    (thrown e s : Outcome ε σ α).lift g = thrown e (g s) := rfl
@[simp] theorem lift_fault (g : σ → τ) (r : Fault) (s : σ) :
    (fault r s : Outcome ε σ α).lift g = fault r (g s) := rfl

@[simp] theorem lift_state (g : σ → τ) (o : Outcome ε σ α) : (o.lift g).state = g o.state := by
  cases o <;> rfl

@[simp] theorem map_state (f : α → β) (o : Outcome ε σ α) : (o.map f).state = o.state := by
  cases o <;> rfl

@[simp] theorem bindWith_eq (o : Outcome ε σ α) (f : α → σ → Outcome ε σ β) :
    (o.bindWith fun a s _ => f a s) = o.bind f := by
  cases o <;> rfl

theorem bind_assoc (o : Outcome ε σ α) (f : α → σ → Outcome ε σ β)
    (g : β → σ → Outcome ε σ γ) :
    (o.bind f).bind g = o.bind fun a s => (f a s).bind g := by
  cases o <;> rfl

theorem map_bind (o : Outcome ε σ α) (f : α → σ → Outcome ε σ β) (g : β → γ) :
    (o.bind f).map g = o.bind fun a s => (f a s).map g := by
  cases o <;> rfl

theorem bind_congr {o : Outcome ε σ α} {f g : α → σ → Outcome ε σ β}
    (same : ∀ a s, o = done a s → f a s = g a s) : o.bind f = o.bind g := by
  cases o with
  | done a s => exact same a s rfl
  | thrown e s => rfl
  | fault r s => rfl

theorem bind_map (o : Outcome ε σ α) (f : α → β) (g : β → σ → Outcome ε σ γ) :
    (o.map f).bind g = o.bind fun a s => g (f a) s := by
  cases o <;> rfl

theorem map_map (o : Outcome ε σ α) (f : α → β) (g : β → γ) :
    (o.map f).map g = o.map (g ∘ f) := by
  cases o <;> rfl

/-- What comes after a call that is seen from outside is seen from there as well. -/
theorem lift_bind (o : Outcome ε σ α) {g : σ → τ} {f : α → τ → Outcome ε τ β}
    {f' : α → σ → Outcome ε σ β} (inside : ∀ a s, f a (g s) = (f' a s).lift g) :
    (o.lift g).bind f = (o.bind f').lift g := by
  cases o with
  | done a s => exact inside a s
  | thrown e s => rfl
  | fault r s => rfl

theorem map_lift_ne_fault {g : σ → τ} {f : α → β} {o : Outcome ε σ α} :
    (∀ r t, (o.lift g).map f ≠ fault r t) ↔ ∀ r s, o ≠ fault r s := by
  cases o with
  | done a s => exact iff_of_true nofun nofun
  | thrown e s => exact iff_of_true nofun nofun
  | fault r s => exact iff_of_false (fun h => h r (g s) rfl) fun h => h r s rfl

theorem bind_eq_done {o : Outcome ε σ α} {f : α → σ → Outcome ε σ β} {b : β} {t : σ}
    (h : o.bind f = done b t) : ∃ a s, o = done a s ∧ f a s = done b t := by
  cases o with
  | done a s => exact ⟨a, s, rfl, h⟩
  | thrown e s => cases h
  | fault r s => cases h

theorem ofExcept_bind_eq_done {r : Except ε α} {s t : σ} {f : α → σ → Outcome ε σ β} {b : β}
    (h : (ofExcept r s).bind f = done b t) : ∃ a, r = .ok a ∧ f a s = done b t := by
  cases r with
  | ok a => exact ⟨a, rfl, h⟩
  | error e => cases h

theorem map_eq_done {o : Outcome ε σ α} {f : α → β} {b : β} {t : σ}
    (h : o.map f = done b t) : ∃ a, o = done a t ∧ f a = b := by
  cases o with
  | done a s =>
    cases h
    exact ⟨a, rfl, rfl⟩
  | thrown e s => cases h
  | fault r s => cases h

theorem lift_eq_done {o : Outcome ε σ α} {g : σ → τ} {a : α} {t : τ}
    (h : o.lift g = done a t) : ∃ s, o = done a s ∧ g s = t := by
  cases o with
  | done a' s =>
    cases h
    exact ⟨s, rfl, rfl⟩
  | thrown e s => cases h
  | fault r s => cases h

theorem safe_done {a : α} {s : σ} : (done a s : Outcome ε σ α).Safe := by
  intro r s' h
  cases h

theorem safe_thrown {e : ε} {s : σ} : (thrown e s : Outcome ε σ α).Safe := by
  intro r s' h
  cases h

theorem not_safe_fault {r : Fault} {s : σ} : ¬ (fault r s : Outcome ε σ α).Safe :=
  fun h => h r s rfl

theorem bind_safe {o : Outcome ε σ α} {f : α → σ → Outcome ε σ β} :
    (o.bind f).Safe ↔ o.Safe ∧ ∀ a s, o = done a s → (f a s).Safe := by
  cases o with
  | done a s =>
    constructor
    · refine fun h => ⟨safe_done, ?_⟩
      rintro _ _ ⟨⟩
      exact h
    · exact fun h => h.2 a s rfl
  | thrown e s => exact iff_of_true safe_thrown ⟨safe_thrown, fun _ _ h => nomatch h⟩
  | fault r s => exact iff_of_false not_safe_fault fun h => not_safe_fault h.1

theorem lift_safe {g : σ → τ} {o : Outcome ε σ α} : (o.lift g).Safe ↔ o.Safe := by
  cases o with
  | done a s => exact iff_of_true safe_done safe_done
  | thrown e s => exact iff_of_true safe_thrown safe_thrown
  | fault r s => exact iff_of_false not_safe_fault not_safe_fault

theorem map_safe {f : α → β} {o : Outcome ε σ α} : (o.map f).Safe ↔ o.Safe := by
  cases o with
  | done a s => exact iff_of_true safe_done safe_done
  | thrown e s => exact iff_of_true safe_thrown safe_thrown
  | fault r s => exact iff_of_false not_safe_fault not_safe_fault

theorem forall_eq_done {a : α} {s : σ} {P : α → σ → Prop} :
    (∀ b t, (done a s : Outcome ε σ α) = done b t → P b t) ↔ P a s := by
  constructor
  · exact fun h => h a s rfl
  · rintro h _ _ ⟨⟩
    exact h

/-- An exception ends the body. -/
theorem throws_le_bind (o : Outcome ε σ α) (f : α → σ → Outcome ε σ β) :
    o.throws ≤ (o.bind f).throws := by
  cases o with
  | done a s => exact Nat.zero_le _
  | thrown e s => exact Nat.le_refl _
  | fault r s => exact Nat.zero_le _

/-- A relation to the starting state that every part of a body keeps is kept
by the body, however it ends. -/
theorem bind_keeps {P : σ → Prop} {o : Outcome ε σ α} {f : α → σ → Outcome ε σ β}
    (ho : P o.state) (hf : ∀ a s, o = done a s → P (f a s).state) : P (o.bind f).state := by
  cases h : o with
  | done a s => exact hf a s h
  | thrown e s => rw [h] at ho; exact ho
  | fault r s => rw [h] at ho; exact ho

theorem ofExcept_keeps {P : σ → Prop} {r : Except ε α} {s : σ} {f : α → σ → Outcome ε σ β}
    (hs : P s) (hf : ∀ a, P (f a s).state) : P ((ofExcept r s).bind f).state := by
  cases r with
  | ok a => exact hf a
  | error e => exact hs

end Outcome

end TorrentClient
