import TorrentClient.Piece
import TorrentClient.Base.Spans

/-!
# The set of blocks

The blocks of a piece are a separated family of spans. `fit_ok` says what is
left of a new block after the trims, `link_joined` that putting it into the set
merges it with the blocks it touches and with no other.
-/

namespace TorrentClient

namespace Blocks

def Apart (s : Blocks) : Prop := Spans.Separated Block.offset Block.stop {b | b ∈ s}

/-- The positions of the bytes that have arrived. -/
def covered (s : Blocks) : Set Nat := Spans.cover Block.offset Block.stop {b | b ∈ s}

theorem ordered (s : Blocks) : ∀ b ∈ {b | b ∈ s}, Block.offset b ≤ Block.stop b :=
  fun _ _ => Nat.le_add_right _ _

theorem mem_covered {s : Blocks} {x : Nat} :
    x ∈ s.covered ↔ ∃ b ∈ s, b.offset ≤ x ∧ x < b.stop := Iff.rfl

variable {s : Blocks} {b : Block} {k : Nat}

/-- Every block that starts at or before `k` is the one before the upper bound
of `k`, or ends before that one starts. -/
theorem Apart.lastUpTo (hs : s.Apart) (hb : b ∈ s) (h : b.offset ≤ k) :
    ∃ p, s.lastUpTo k = some p ∧ (b = p ∨ b.stop < p.offset) := by
  cases hp : s.lastUpTo k with
  | none =>
    have := OrderedSet.lastUpTo_none hp b hb
    omega
  | some p =>
    obtain ⟨mem, _, last⟩ := OrderedSet.lastUpTo_some hp
    refine ⟨p, rfl, ?_⟩
    by_cases hbp : b = p
    · exact Or.inl hbp
    · have below := last b hb h
      cases hs hb mem hbp with
      | inl apart => exact Or.inr apart
      | inr apart =>
        simp only [Block.stop] at apart
        omega

theorem Apart.upperBound (hs : s.Apart) (hb : b ∈ s) (h : k < b.offset) :
    ∃ q, s.upperBound k = some q ∧ (b = q ∨ q.stop < b.offset) := by
  cases hq : s.upperBound k with
  | none =>
    have := OrderedSet.upperBound_none hq b hb
    omega
  | some q =>
    obtain ⟨mem, _, first⟩ := OrderedSet.upperBound_some hq
    refine ⟨q, rfl, ?_⟩
    by_cases hbq : b = q
    · exact Or.inl hbq
    · have above := first b hb h
      cases hs hb mem hbq with
      | inl apart =>
        simp only [Block.stop] at apart
        omega
      | inr apart => exact Or.inr apart

end Blocks

/-! ## Trimming a new block -/

namespace Block

variable {new p q u t : Block}

theorem add64_stop {b : Block} (h : b.stop < 2 ^ 64) : add64 b.offset b.size = b.stop :=
  add64_eq h

theorem modifyOnIntersection_prev (hp : p.offset ≤ new.offset) (bn : new.stop < 2 ^ 64)
    (bp : p.stop < 2 ^ 64) :
    new.modifyOnIntersection p =
      if new.stop ≤ p.offset ∨ p.stop ≤ new.offset then .ok new
      else if new.stop < p.stop then .error .selfInRight
      else .ok ⟨p.stop, new.stop - p.stop⟩ := by
  rw [modifyOnIntersection, add64_stop bn, add64_stop bp]
  by_cases clear : new.stop ≤ p.offset ∨ p.stop ≤ new.offset
  · simp only [if_pos clear]
  · by_cases inside : new.stop < p.stop
    · simp only [if_neg clear, if_neg (Nat.not_lt.2 hp), if_pos inside]
    · have cut : sub64 p.stop new.offset = p.stop - new.offset := sub64_eq bp (by omega)
      simp only [if_neg clear, if_neg (Nat.not_lt.2 hp), if_neg inside, cut]
      simp only [stop] at *
      rw [sub64_eq (by omega) (by omega), add64_eq (by omega)]
      congr 2 <;> omega

theorem modifyOnIntersection_next (hq : new.offset < q.offset) (bn : new.stop < 2 ^ 64)
    (bq : q.stop < 2 ^ 64) :
    new.modifyOnIntersection q =
      if new.stop ≤ q.offset then .ok new
      else if q.stop < new.stop then .error .rightInSelf
      else .ok ⟨new.offset, q.offset - new.offset⟩ := by
  have above : ¬ q.stop ≤ new.offset := by
    simp only [stop]
    omega
  rw [modifyOnIntersection, add64_stop bn, add64_stop bq]
  simp only [above, or_false, if_pos hq]
  by_cases before : new.stop ≤ q.offset
  · simp only [if_pos before]
  · by_cases swallows : q.stop < new.stop
    · simp only [if_neg before, if_pos swallows]
    · simp only [if_neg before, if_neg swallows]
      simp only [stop] at *
      have cut : sub64 (new.offset + new.size) q.offset = new.offset + new.size - q.offset :=
        sub64_eq bn (by omega)
      rw [cut, sub64_eq (by omega) (by omega)]
      congr 2
      omega

end Block

namespace Piece

open Blocks

variable {s : Blocks} {new u t p q : Block}

/-- The trim against the block before leaves the end of the new block alone and
moves its start past what is covered. -/
theorem trim_prev_ok (hs : s.Apart) (bs : ∀ b ∈ s, b.stop < 2 ^ 64) (bn : new.stop < 2 ^ 64)
    (h : new.trim (s.lastUpTo new.offset) = .ok u) :
    u.stop = new.stop ∧ new.offset ≤ u.offset ∧
    (∀ b ∈ s, b.offset ≤ new.offset → 0 < u.size → b.stop ≤ u.offset) ∧
    (∀ b ∈ s, new.offset < b.offset → u.offset < b.offset) ∧
    ∀ x, new.offset ≤ x → x < u.offset → x ∈ s.covered := by
  cases hp : s.lastUpTo new.offset with
  | none =>
    rw [hp] at h
    cases h
    refine ⟨rfl, Nat.le_refl _, ?_, fun _ _ lt => lt, fun x lo hi => by omega⟩
    intro b hb below _
    have := OrderedSet.lastUpTo_none hp b hb
    omega
  | some p =>
    obtain ⟨mem, below, _⟩ := OrderedSet.lastUpTo_some hp
    -- every other block that starts below the new one ends before `p` starts
    have earlier (b : Block) (hb : b ∈ s) (hk : b.offset ≤ new.offset) :
        b = p ∨ b.stop < p.offset := by
      obtain ⟨p', hp', rest⟩ := hs.lastUpTo hb hk
      rw [hp] at hp'
      cases hp'
      exact rest
    have later (b : Block) (hb : b ∈ s) (hk : new.offset < b.offset) : p.stop < b.offset :=
      Spans.Separated.before hs s.ordered mem hb (by omega)
    rw [hp, Block.trim, Block.modifyOnIntersection_prev below bn (bs p mem)] at h
    split at h
    · rename_i clear
      cases h
      simp only [Block.stop] at *
      refine ⟨trivial, Nat.le_refl _, ?_, fun _ _ lt => lt, fun x lo hi => by omega⟩
      intro b hb hk pos
      rcases earlier b hb hk with rfl | lt <;> omega
    · split at h
      · cases h
      · cases h
        simp only [Block.stop] at *
        refine ⟨by omega, by omega, ?_, ?_, ?_⟩
        · intro b hb hk _
          rcases earlier b hb hk with rfl | lt <;> omega
        · exact later
        · intro x lo hi
          exact ⟨p, mem, by omega, hi⟩

/-- The trim against the block after leaves the start alone. -/
theorem trim_next_ok {k : Nat} (bs : ∀ b ∈ s, b.stop < 2 ^ 64) (bu : u.stop < 2 ^ 64)
    (starts : ∀ b ∈ s, k < b.offset → u.offset < b.offset)
    (h : u.trim (s.upperBound k) = .ok t) :
    t.offset = u.offset ∧ t.stop ≤ u.stop ∧
    (∀ q, s.upperBound k = some q → t.stop ≤ q.offset ∧ u.stop ≤ q.stop) ∧
    ∀ x, t.stop ≤ x → x < u.stop → x ∈ s.covered := by
  cases hq : s.upperBound k with
  | none =>
    rw [hq] at h
    cases h
    refine ⟨rfl, Nat.le_refl _, nofun, fun x lo hi => by omega⟩
  | some q =>
    obtain ⟨mem, above, _⟩ := OrderedSet.upperBound_some hq
    rw [hq, Block.trim, Block.modifyOnIntersection_next (starts q mem above) bu (bs q mem)] at h
    have := starts q mem above
    split at h
    · cases h
      refine ⟨rfl, Nat.le_refl _, ?_, fun x lo hi => by omega⟩
      rintro _ ⟨⟩
      have := s.ordered q mem
      omega
    · split at h
      · cases h
      · cases h
        simp only [Block.stop] at *
        refine ⟨trivial, by omega, ?_, ?_⟩
        · rintro _ ⟨⟩
          omega
        · intro x lo hi
          exact ⟨q, mem, by omega, by simp only [Block.stop]; omega⟩

/-- What is left of a new block: a part of it that overlaps no block, such that
the rest of it was covered already. Only the neighbours can touch it. -/
structure Fitted (s : Blocks) (new t : Block) : Prop where
  lo : new.offset ≤ t.offset
  hi : t.stop ≤ new.stop
  below : 0 < t.size → ∀ b ∈ s, b.offset ≤ new.offset → b.stop ≤ t.offset
  above : ∀ b ∈ s, new.offset < b.offset → t.stop ≤ b.offset
  rest : ∀ x, new.offset ≤ x → x < new.stop → (t.offset ≤ x ∧ x < t.stop) ∨ x ∈ s.covered
  prev : 0 < t.size → ∀ b ∈ s, b.stop = t.offset → s.lastUpTo new.offset = some b
  next : 0 < t.size → ∀ b ∈ s, b.offset = t.stop → s.upperBound new.offset = some b
  reach : ∀ q, s.upperBound new.offset = some q → new.stop ≤ q.stop

theorem fit_ok (hs : s.Apart) (bs : ∀ b ∈ s, b.stop < 2 ^ 64) (bn : new.stop < 2 ^ 64)
    (h : fit new (s.lastUpTo new.offset) (s.upperBound new.offset) = .ok t) :
    Fitted s new t := by
  unfold fit at h
  split at h
  · cases h
  · rename_i u hu
    obtain ⟨ustop, ulo, ubelow, uabove, ucov⟩ := trim_prev_ok hs bs bn hu
    obtain ⟨toff, tstop, tnext, tcov⟩ := trim_next_ok bs (ustop ▸ bn) uabove h
    have pos : 0 < t.size → 0 < u.size := by
      simp only [Block.stop] at *
      omega
    have after (b : Block) (hb : b ∈ s) (hk : new.offset < b.offset) : t.stop ≤ b.offset := by
      obtain ⟨q, hq, rfl | lt⟩ := hs.upperBound hb hk
      · exact (tnext _ hq).1
      · have := (tnext q hq).1
        simp only [Block.stop] at *
        omega
    have before (ht : 0 < t.size) (b : Block) (hb : b ∈ s) (hk : b.offset ≤ new.offset) :
        b.stop ≤ t.offset := toff ▸ ubelow b hb hk (pos ht)
    refine ⟨by omega, by omega, before, after, ?_, ?_, ?_, fun q hq => ustop ▸ (tnext q hq).2⟩
    · intro x lo hi
      by_cases below : x < u.offset
      · exact Or.inr (ucov x lo below)
      · by_cases above : t.stop ≤ x
        · exact Or.inr (tcov x above (by omega))
        · exact Or.inl ⟨by omega, by omega⟩
    · intro ht b hb touch
      by_cases hk : b.offset ≤ new.offset
      · obtain ⟨p, hp, rfl | lt⟩ := hs.lastUpTo hb hk
        · exact hp
        · obtain ⟨_, below, _⟩ := OrderedSet.lastUpTo_some hp
          omega
      · have := after b hb (by omega)
        simp only [Block.stop] at *
        omega
    · intro ht b hb touch
      by_cases hk : b.offset ≤ new.offset
      · simp only [Block.stop] at *
        omega
      · obtain ⟨q, hq, rfl | lt⟩ := hs.upperBound hb (Nat.lt_of_not_le hk)
        · exact hq
        · have := (tnext q hq).1
          simp only [Block.stop] at *
          omega

/-- A new block that is not cut back is swallowed by the block before or
swallows the block after. -/
theorem fit_error {e : Block.Error} (hs : s.Apart) (bs : ∀ b ∈ s, b.stop < 2 ^ 64)
    (bn : new.stop < 2 ^ 64)
    (h : fit new (s.lastUpTo new.offset) (s.upperBound new.offset) = .error e) :
    (e = .selfInRight ∧ ∀ x, new.offset ≤ x → x < new.stop → x ∈ s.covered) ∨
    e = .rightInSelf ∧ ∃ q, s.upperBound new.offset = some q ∧ q.stop < new.stop := by
  unfold fit at h
  split at h
  · rename_i e' hu
    cases h
    left
    cases hp : s.lastUpTo new.offset with
    | none => rw [hp] at hu; cases hu
    | some p =>
      obtain ⟨mem, below, _⟩ := OrderedSet.lastUpTo_some hp
      rw [hp, Block.trim, Block.modifyOnIntersection_prev below bn (bs p mem)] at hu
      split at hu
      · cases hu
      · split at hu
        · cases hu
          exact ⟨rfl, fun x lo hi => ⟨p, mem, by omega, by omega⟩⟩
        · cases hu
  · rename_i u hu
    right
    obtain ⟨ustop, _, _, uabove, _⟩ := trim_prev_ok hs bs bn hu
    cases hq : s.upperBound new.offset with
    | none => rw [hq] at h; cases h
    | some q =>
      obtain ⟨mem, above, _⟩ := OrderedSet.upperBound_some hq
      rw [hq, Block.trim,
        Block.modifyOnIntersection_next (uabove q mem above) (ustop ▸ bn) (bs q mem)] at h
      split at h
      · cases h
      · split at h
        · cases h
          exact ⟨rfl, q, rfl, by omega⟩
        · cases h

theorem Fitted.clear (f : Fitted s new t) (pos : 0 < t.size) :
    ∀ b ∈ {b | b ∈ s}, b.stop ≤ t.offset ∨ t.stop ≤ b.offset := by
  intro b hb
  by_cases hk : b.offset ≤ new.offset
  · exact Or.inl (f.below pos b hb hk)
  · exact Or.inr (f.above b hb (by omega))

/-- A block that starts where what is left starts is empty, and touches it. -/
theorem Fitted.key_eq (f : Fitted s new t) (pos : 0 < t.size) {b : Block} (hb : b ∈ s)
    (h : b.offset = t.offset) : b.stop = t.offset := by
  have := f.clear pos b hb
  simp only [Block.stop] at *
  omega

theorem Fitted.prev_free (f : Fitted s new t) (pos : 0 < t.size)
    (h : ∀ p, s.lastUpTo new.offset = some p → p.stop ≠ t.offset) :
    ∀ x ∈ s, x.stop ≠ t.offset := fun x hx eq => h x (f.prev pos x hx eq) eq

theorem Fitted.next_free (f : Fitted s new t) (pos : 0 < t.size)
    (h : ∀ q, s.upperBound new.offset = some q → q.offset ≠ t.stop) :
    ∀ x ∈ s, x.offset ≠ t.stop := fun x hx eq => h x (f.next pos x hx eq) eq

/-! ## Putting it into the set -/

/-- The set once the new block is in it and merged with the block before: `m`
is the block that holds it. -/
structure JoinedLeft (s s' : Blocks) (t m : Block) : Prop where
  mem : ∀ x, x ∈ s' ↔ x = m ∨ x ∈ s ∧ x.stop ≠ t.offset
  stop : m.stop = t.stop
  start : (m.offset = t.offset ∧ ∀ x ∈ s, x.stop ≠ t.offset) ∨
    ∃ p ∈ s, p.stop = t.offset ∧ m.offset = p.offset

/-- Insert what is left, merged with the block before when that one touches it. -/
theorem insert_joinedLeft (f : Fitted s new t) (pos : 0 < t.size)
    (none : ∀ x ∈ s, x.stop ≠ t.offset) : JoinedLeft s (s.insert t) t t := by
  have fresh : ∀ b ∈ s, b.offset ≠ t.offset := fun b hb eq => none b hb (f.key_eq pos hb eq)
  refine ⟨?_, rfl, Or.inl ⟨rfl, none⟩⟩
  intro x
  rw [OrderedSet.mem_insert fresh]
  exact or_congr_right ⟨fun hx => ⟨hx, none x hx⟩, And.left⟩

theorem erase_insert_joinedLeft (hs : s.Apart) (hp : p ∈ s) (touch : p.stop = t.offset) :
    JoinedLeft s ((s.erase p.offset).insert ⟨p.offset, p.size + t.size⟩) t
      ⟨p.offset, p.size + t.size⟩ := by
  have fresh : ∀ b ∈ s.erase p.offset, b.offset ≠ (⟨p.offset, p.size + t.size⟩ : Block).offset :=
    fun b hb => (OrderedSet.mem_erase.1 hb).2
  refine ⟨?_, by simp only [Block.stop] at *; omega, Or.inr ⟨p, hp, touch, rfl⟩⟩
  intro x
  rw [OrderedSet.mem_insert fresh, OrderedSet.mem_erase]
  refine or_congr_right (and_congr_right fun hx => not_congr ⟨?_, ?_⟩)
  · intro eq
    rw [OrderedSet.key_inj hx hp eq, touch]
  · intro eq
    by_contra hne
    rcases hs hx hp (fun h => hne (congrArg Block.offset h)) with apart | apart <;>
      simp only [Block.stop] at * <;> omega

/-- The second merge: the block after, when what is left reaches it. -/
theorem JoinedLeft.joined {s' s'' : Blocks} {m c : Block} (l : JoinedLeft s s' t m)
    (start : c.offset = m.offset)
    (mem : ∀ x, x ∈ s'' ↔ x = c ∨ x ∈ s ∧ x.stop ≠ t.offset ∧ x.offset ≠ t.stop)
    (right : (c.stop = t.stop ∧ ∀ x ∈ s, x.offset ≠ t.stop) ∨
      ∃ q ∈ s, q.offset = t.stop ∧ c.stop = q.stop) :
    Spans.Joined Block.offset Block.stop {b | b ∈ s} {b | b ∈ s''} t c := by
  refine ⟨mem, ?_, right⟩
  rw [start]
  exact l.start

theorem JoinedLeft.alone {s' : Blocks} {m : Block} (l : JoinedLeft s s' t m)
    (none : ∀ x ∈ s, x.offset ≠ t.stop) :
    Spans.Joined Block.offset Block.stop {b | b ∈ s} {b | b ∈ s'} t m := by
  apply l.joined rfl ?_ (Or.inl ⟨l.stop, none⟩)
  intro x
  rw [l.mem]
  exact or_congr_right ⟨fun ⟨hx, h⟩ => ⟨hx, h, none x hx⟩, fun ⟨hx, h, _⟩ => ⟨hx, h⟩⟩

/-- Both ways the source merges with the block after end in a set whose members
are the merged block and the members of `s'` that start neither where `m` nor
where `q` starts. -/
theorem JoinedLeft.with_next {s' s'' : Blocks} {m c : Block} (l : JoinedLeft s s' t m)
    (f : Fitted s new t) (pos : 0 < t.size) (hq : q ∈ s) (touch : q.offset = t.stop)
    (hc : c = ⟨m.offset, m.size + q.size⟩)
    (mem : ∀ x, x ∈ s'' ↔ x = c ∨ x ∈ s' ∧ x.offset ≠ m.offset ∧ x.offset ≠ q.offset) :
    Spans.Joined Block.offset Block.stop {b | b ∈ s} {b | b ∈ s''} t c := by
  subst hc
  have hstop := l.stop
  refine l.joined rfl ?_ (Or.inr ⟨q, hq, touch, by simp only [Block.stop] at *; omega⟩)
  intro x
  rw [mem, l.mem]
  refine or_congr_right ⟨?_, ?_⟩
  · rintro ⟨rfl | ⟨hx, hl⟩, hm, hr⟩
    · exact absurd rfl hm
    · exact ⟨hx, hl, touch ▸ hr⟩
  · rintro ⟨hx, hl, hr⟩
    refine ⟨Or.inr ⟨hx, hl⟩, ?_, touch ▸ hr⟩
    intro eq
    -- `x` would start where `m` does, so it would be the block before
    rcases l.start with ⟨start, none⟩ | ⟨p, hp, ptouch, start⟩
    · exact none x hx (f.key_eq pos hx (eq.trans start))
    · exact hl (OrderedSet.key_inj hx hp (eq.trans start) ▸ ptouch)

theorem linkNext_joined {s' : Blocks} {m : Block} (l : JoinedLeft s s' t m)
    (f : Fitted s new t) (pos : 0 < t.size) (hm : m.offset ≤ t.offset)
    (bs : ∀ b ∈ s, b.stop < 2 ^ 64) (bt : t.stop < 2 ^ 64) :
    ∃ c, Spans.Joined Block.offset Block.stop {b | b ∈ s}
      {b | b ∈ linkNext s' m (s.upperBound new.offset)} t c := by
  have sum : add64 m.offset m.size = t.stop := by
    rw [Block.add64_stop (l.stop ▸ bt), l.stop]
  cases hq : s.upperBound new.offset with
  | none => exact ⟨m, l.alone (f.next_free pos (hq ▸ nofun))⟩
  | some q =>
    obtain ⟨mem, _, _⟩ := OrderedSet.upperBound_some hq
    simp only [linkNext, sum]
    split
    · rename_i touch
      have hstop := l.stop
      have hqs := bs q mem
      have size : add64 m.size q.size = m.size + q.size := by
        apply add64_eq
        simp only [Block.stop] at *
        omega
      rw [size]
      refine ⟨⟨m.offset, m.size + q.size⟩, l.with_next f pos mem touch.symm rfl ?_⟩
      intro x
      have fresh : ∀ b ∈ s'.erase m.offset,
          b.offset ≠ (⟨m.offset, m.size + q.size⟩ : Block).offset :=
        fun b hb => (OrderedSet.mem_erase.1 hb).2
      have apart : m.offset ≠ q.offset := by
        simp only [Block.stop] at *
        omega
      rw [OrderedSet.mem_erase, OrderedSet.mem_insert fresh, OrderedSet.mem_erase]
      constructor
      · rintro ⟨rfl | ⟨hx, hxm⟩, hxq⟩
        · exact Or.inl rfl
        · exact Or.inr ⟨hx, hxm, hxq⟩
      · rintro (rfl | ⟨hx, hxm, hxq⟩)
        · exact ⟨Or.inl rfl, apart⟩
        · exact ⟨Or.inr ⟨hx, hxm⟩, hxq⟩
    · rename_i free
      refine ⟨m, l.alone (f.next_free pos ?_)⟩
      rw [hq]
      rintro _ ⟨⟩ eq
      exact free eq.symm

theorem link_joined (hs : s.Apart) (f : Fitted s new t) (pos : 0 < t.size)
    (bs : ∀ b ∈ s, b.stop < 2 ^ 64) (bt : t.stop < 2 ^ 64) :
    ∃ c, Spans.Joined Block.offset Block.stop {b | b ∈ s}
      {b | b ∈ link s (s.lastUpTo new.offset) (s.upperBound new.offset) t} t c := by
  cases hp : s.lastUpTo new.offset with
  | some p =>
    obtain ⟨mem, _, _⟩ := OrderedSet.lastUpTo_some hp
    have hps := bs p mem
    simp only [link, Block.add64_stop hps]
    split
    · rename_i touch
      have size : add64 p.size t.size = p.size + t.size := by
        apply add64_eq
        simp only [Block.stop] at *
        omega
      have fresh : ∀ b ∈ s.erase p.offset,
          b.offset ≠ (⟨p.offset, p.size + t.size⟩ : Block).offset :=
        fun b hb => (OrderedSet.mem_erase.1 hb).2
      rw [size, OrderedSet.slot_eq fresh]
      exact linkNext_joined (erase_insert_joinedLeft hs mem touch) f pos
        (by simp only [Block.stop] at *; omega) bs bt
    · rename_i free
      have none : ∀ x ∈ s, x.stop ≠ t.offset := by
        apply f.prev_free pos
        rw [hp]
        rintro _ ⟨⟩
        exact free
      rw [OrderedSet.slot_eq fun b hb eq => none b hb (f.key_eq pos hb eq)]
      exact linkNext_joined (insert_joinedLeft f pos none) f pos le_rfl bs bt
  | none =>
    have none : ∀ x ∈ s, x.stop ≠ t.offset := f.prev_free pos (hp ▸ nofun)
    have left := insert_joinedLeft f pos none
    cases hq : s.upperBound new.offset with
    | none => exact ⟨t, left.alone (f.next_free pos (hq ▸ nofun))⟩
    | some q =>
      obtain ⟨mem, _, _⟩ := OrderedSet.upperBound_some hq
      have hqs := bs q mem
      simp only [link, Block.add64_stop bt]
      split
      · rename_i touch
        have size : add64 q.size t.size = t.size + q.size := by
          rw [add64_eq, Nat.add_comm]
          simp only [Block.stop] at *
          omega
        rw [size]
        refine ⟨⟨t.offset, t.size + q.size⟩, left.with_next f pos mem touch.symm rfl ?_⟩
        intro x
        have key : ∀ b ∈ s, b.offset ≠ t.offset := fun b hb eq => none b hb (f.key_eq pos hb eq)
        have fresh : ∀ b ∈ s, b.offset ≠ (⟨t.offset, t.size + q.size⟩ : Block).offset := key
        have apart : t.offset ≠ q.offset := by
          simp only [Block.stop] at *
          omega
        rw [OrderedSet.mem_erase, OrderedSet.mem_insert fresh, OrderedSet.mem_insert key]
        constructor
        · rintro ⟨rfl | hx, hxq⟩
          · exact Or.inl rfl
          · exact Or.inr ⟨Or.inr hx, key x hx, hxq⟩
        · rintro (rfl | ⟨rfl | hx, hxt, hxq⟩)
          · exact ⟨Or.inl rfl, apart⟩
          · exact absurd rfl hxt
          · exact ⟨Or.inr hx, hxq⟩
      · rename_i free
        refine ⟨t, left.alone (f.next_free pos ?_)⟩
        rw [hq]
        rintro _ ⟨⟩ eq
        exact free eq.symm

/-! ## Storing it -/

/-- What a call that copies does to the set: it covers a part `t` of the new
block that was not covered, and with it the whole of the new block. -/
structure Stored (s s' : Blocks) (new t : Block) : Prop where
  lo : new.offset ≤ t.offset
  hi : t.stop ≤ new.stop
  apart : s'.Apart
  covered : s'.covered = s.covered ∪ Set.Ico t.offset t.stop
  fresh : ∀ x ∈ s.covered, ¬ (t.offset ≤ x ∧ x < t.stop)
  rest : ∀ x, new.offset ≤ x → x < new.stop → (t.offset ≤ x ∧ x < t.stop) ∨ x ∈ s.covered
  stops : ∀ b ∈ s', b ∈ s ∨ b.stop = t.stop ∨ ∃ q ∈ s, q.offset = t.stop ∧ b.stop = q.stop
  grown : ∀ b ∈ s', b ∈ s ∨ t.size ≤ b.size
  pos : 0 < new.size → 0 < t.size
  reach : ∀ q, s.upperBound new.offset = some q → new.stop ≤ q.stop

theorem stored_first (new : Block) : Stored .empty (OrderedSet.insert .empty new) new new := by
  have none (b : Block) : b ∉ (OrderedSet.empty : Blocks) := OrderedSet.not_mem_empty b
  have mem (b : Block) : b ∈ (OrderedSet.insert .empty new : Blocks) ↔ b = new := by
    rw [OrderedSet.mem_insert fun b hb => absurd hb (none b)]
    exact or_iff_left (none b)
  refine ⟨le_rfl, le_rfl, ?_, ?_, ?_, fun x lo hi => Or.inl ⟨lo, hi⟩, ?_, ?_,
    fun pos => pos, nofun⟩
  · intro a ha b hb hne
    exact absurd (((mem a).1 ha).trans ((mem b).1 hb).symm) hne
  · ext x
    constructor
    · rintro ⟨b, hb, hx⟩
      exact Or.inr ((mem b).1 hb ▸ hx)
    · rintro (⟨b, hb, _⟩ | hx)
      · exact absurd hb (none b)
      · exact ⟨new, (mem new).2 rfl, hx⟩
  · rintro x ⟨b, hb, _⟩
    exact absurd hb (none b)
  · exact fun b hb => Or.inr (Or.inl ((mem b).1 hb ▸ rfl))
  · exact fun b hb => Or.inr ((mem b).1 hb ▸ le_rfl)

theorem stored_link (hs : s.Apart) (f : Fitted s new t) (pos : 0 < t.size)
    (bs : ∀ b ∈ s, b.stop < 2 ^ 64) (bt : t.stop < 2 ^ 64) :
    Stored s (link s (s.lastUpTo new.offset) (s.upperBound new.offset) t) new t := by
  obtain ⟨c, j⟩ := link_joined hs f pos bs bt
  refine ⟨f.lo, f.hi, j.separated hs s.ordered (f.clear pos),
    j.cover_eq hs s.ordered (Nat.le_add_right _ _), ?_, f.rest, ?_, ?_, fun _ => pos,
    f.reach⟩
  · rintro x ⟨b, hb, blo, bhi⟩ ⟨tlo, thi⟩
    rcases f.clear pos b hb with before | after <;> omega
  · intro b hb
    rcases (j.mem b).1 hb with rfl | ⟨hb, _⟩
    · rcases j.right with ⟨eq, _⟩ | ⟨q, hq, touch, eq⟩
      · exact Or.inr (Or.inl eq)
      · exact Or.inr (Or.inr ⟨q, hq, touch, eq⟩)
    · exact Or.inl hb
  · intro b hb
    rcases (j.mem b).1 hb with rfl | ⟨hb, _⟩
    · have lo := j.left_le s.ordered
      have hi := j.right_ge s.ordered
      simp only [Block.stop] at *
      omega
    · exact Or.inl hb

end Piece

end TorrentClient
