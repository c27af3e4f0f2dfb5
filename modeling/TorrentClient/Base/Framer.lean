import TorrentClient.Base.Outcome

/-!
# Cutting a stream into units

A framer looks at the start of the bytes that are there and waits for more of
them, takes the first unit, or rejects the stream. What it takes or rejects
must not depend on the bytes that follow. Then the cuts at which a stream
arrives do not matter: `feed_eq` says that running the framer after every
chunk, on what the run before has left and the chunk, is one run on the stream.
-/

namespace TorrentClient

inductive Verdict (μ ι ε : Type) where
  | wait
  | take (length : Nat) (mode : μ) (unit : ι)
  | reject (error : ε)
  deriving DecidableEq, Repr

structure Framer (α μ ι ε : Type) where
  next : μ → List α → Verdict μ ι ε
  nonempty : ∀ {m bytes n m' u}, next m bytes = .take n m' u → 0 < n
  within : ∀ {m bytes n m' u}, next m bytes = .take n m' u → n ≤ bytes.length
  take_append : ∀ {m bytes n m' u} more, next m bytes = .take n m' u →
    next m (bytes ++ more) = .take n m' u
  reject_append : ∀ {m bytes e} more, next m bytes = .reject e →
    next m (bytes ++ more) = .reject e

namespace Framer

variable {α μ ι ε σ : Type} (framer : Framer α μ ι ε) (act : ι → σ → Outcome ε σ Unit)

/-- Take units until one is not complete, and hand each to `act`. What is left
is returned. -/
def run (m : μ) (s : σ) (bytes : List α) : Outcome ε (μ × σ) (List α) :=
  match h : framer.next m bytes with
  | .wait => .done bytes (m, s)
  | .reject e => .thrown e (m, s)
  | .take n m' u =>
    have : bytes.length - n < bytes.length := by
      have := framer.nonempty h
      have := framer.within h
      omega
    match act u s with
    | .done _ s => run m' s (bytes.drop n)
    | .thrown e s => .thrown e (m, s)
    | .fault r s => .fault r (m, s)
  termination_by bytes.length
  decreasing_by rwa [List.length_drop]

/-- Run after every chunk, on what is pending and the chunk. -/
def feed (m : μ) (s : σ) (pending : List α) : List (List α) → Outcome ε (μ × σ) (List α)
  | [] => .done pending (m, s)
  | chunk :: chunks =>
    (framer.run act m s (pending ++ chunk)).bind fun rest t => feed t.1 t.2 rest chunks

/-- Every unit of the stream, and what is left behind the last, is shorter than
`limit`. -/
inductive Below (limit : Nat) : μ → List α → Prop
  | wait {m : μ} {bytes : List α} : framer.next m bytes = .wait → bytes.length < limit →
      Below limit m bytes
  | take {m m' : μ} {bytes : List α} {n : Nat} {u : ι} : framer.next m bytes = .take n m' u →
      n < limit → Below limit m' (bytes.drop n) → Below limit m bytes

variable {framer act} {m m' : μ} {s s' : σ} {bytes more : List α} {n : Nat} {u : ι} {e : ε}

theorem run_wait (h : framer.next m bytes = .wait) :
    framer.run act m s bytes = .done bytes (m, s) := by
  rw [run]
  split <;> simp_all

theorem run_reject (h : framer.next m bytes = .reject e) :
    framer.run act m s bytes = .thrown e (m, s) := by
  rw [run]
  split <;> simp_all

theorem run_take (h : framer.next m bytes = .take n m' u) :
    framer.run act m s bytes =
      match act u s with
      | .done _ s => framer.run act m' s (bytes.drop n)
      | .thrown e s => .thrown e (m, s)
      | .fault r s => .fault r (m, s) := by
  rw [run]
  split <;> simp_all

/-- What a run leaves is waiting for more. -/
theorem run_done (h : framer.run act m s bytes = .done more (m', s')) :
    framer.next m' more = .wait ∧ more <:+ bytes := by
  induction hn : bytes.length using Nat.strongRecOn generalizing m s bytes with
  | ind k ih =>
    cases hv : framer.next m bytes with
    | wait =>
      rw [run_wait hv] at h
      cases h
      exact ⟨hv, List.suffix_refl _⟩
    | reject e =>
      rw [run_reject hv] at h
      cases h
    | take n m₁ u =>
      rw [run_take hv] at h
      have pos := framer.nonempty hv
      have le := framer.within hv
      split at h
      · have shorter : (bytes.drop n).length < k := by
          rw [List.length_drop]
          omega
        obtain ⟨waits, suffix⟩ := ih _ shorter h rfl
        exact ⟨waits, suffix.trans (List.drop_suffix n bytes)⟩
      · cases h
      · cases h

/-- A run that does not wait at once takes something. -/
theorem run_shorter (h : framer.run act m s bytes = .done more (m', s'))
    (moves : framer.next m bytes ≠ .wait) : more.length < bytes.length := by
  cases hv : framer.next m bytes with
  | wait => exact absurd hv moves
  | reject e =>
    rw [run_reject hv] at h
    cases h
  | take n m₁ u =>
    have pos := framer.nonempty hv
    have le := framer.within hv
    rw [run_take hv] at h
    split at h
    · have := (run_done h).2.length_le
      rw [List.length_drop] at this
      omega
    · cases h
    · cases h

/-- A run on more bytes first makes the run on the bytes before them. -/
theorem run_append (bytes more : List α) :
    framer.run act m s (bytes ++ more) =
      (framer.run act m s bytes).bind fun rest t => framer.run act t.1 t.2 (rest ++ more) := by
  induction hn : bytes.length using Nat.strongRecOn generalizing m s bytes with
  | ind k ih =>
    cases hv : framer.next m bytes with
    | wait => rw [run_wait hv, Outcome.bind_done]
    | reject e => rw [run_reject hv, run_reject (framer.reject_append more hv), Outcome.bind_thrown]
    | take n m₁ u =>
      have pos := framer.nonempty hv
      have le := framer.within hv
      rw [run_take hv, run_take (framer.take_append more hv)]
      cases act u s with
      | done _ s₁ =>
        have shorter : (bytes.drop n).length < k := by
          rw [List.length_drop]
          omega
        simp only [List.drop_append_of_le_length le]
        exact ih _ shorter _ rfl
      | thrown e s₁ => rfl
      | fault r s₁ => rfl

/-- **Chunks do not matter.** -/
theorem feed_eq {pending : List α} (h : framer.next m pending = .wait) (chunks : List (List α)) :
    framer.feed act m s pending chunks = framer.run act m s (pending ++ chunks.flatten) := by
  induction chunks generalizing m s pending with
  | nil => rw [feed, List.flatten_nil, List.append_nil, run_wait h]
  | cons chunk chunks ih =>
    rw [feed, List.flatten_cons, ← List.append_assoc, run_append (pending ++ chunk)]
    cases hr : framer.run act m s (pending ++ chunk) with
    | done rest t => exact ih (run_done hr).1
    | thrown e t => rfl
    | fault r t => rfl

/-! ## What is pending -/

theorem Below.after_run {limit : Nat} (h : framer.Below limit m (bytes ++ more))
    {rest : List α} (hr : framer.run act m s bytes = .done rest (m', s')) :
    framer.Below limit m' (rest ++ more) := by
  induction hn : bytes.length using Nat.strongRecOn generalizing m s bytes with
  | ind k ih =>
    cases hv : framer.next m bytes with
    | wait =>
      rw [run_wait hv] at hr
      cases hr
      exact h
    | reject e =>
      rw [run_reject hv] at hr
      cases hr
    | take n m₁ u =>
      have pos := framer.nonempty hv
      have le := framer.within hv
      have same := framer.take_append more hv
      rw [run_take hv] at hr
      cases h with
      | wait waits _ => rw [waits] at same; cases same
      | take takes _ rest_below =>
        rw [takes] at same
        cases same
        rw [List.drop_append_of_le_length le] at rest_below
        split at hr
        · exact ih _ (by rw [List.length_drop]; omega) rest_below hr rfl
        · cases hr
        · cases hr

/-- What waits for more is shorter than the limit, where no more waits than the
unit it becomes a part of. -/
theorem Below.length_lt {limit : Nat} (h : framer.Below limit m (bytes ++ more))
    (tight : ∀ {n m' u}, framer.next m (bytes ++ more) = .take n m' u → bytes.length ≤ n) :
    bytes.length < limit := by
  cases h with
  | wait _ lt =>
    rw [List.length_append] at lt
    omega
  | take takes lt _ => exact Nat.lt_of_le_of_lt (tight takes) lt

end Framer

end TorrentClient
