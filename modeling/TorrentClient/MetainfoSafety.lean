import TorrentClient.InfoRange
import TorrentClient.MetainfoOutline
import TorrentClient.Readings

/-!
# Torrent files that end in an exception or in an object

The fillers look behind the last token when it is one that a value should follow,
and the layout of the files divides by a piece size that no token may have set.
-/

namespace TorrentClient.Metainfo

variable {tf : Metainfo}

theorem fillPieceOffsets_safe_iff {tf : TorrentFile} (sound : tf.files = [] → tf.pieces.val = []) :
    tf.fillPieceOffsets.Safe ↔ (tf.files = [] ∨ tf.pieceSize ≠ 0) := by
  rw [TorrentFile.fillPieceOffsets]
  by_cases zero : tf.files ≠ [] ∧ tf.pieceSize = 0
  · rw [if_pos zero]
    exact iff_of_false Outcome.not_safe_fault fun h => h.elim zero.1 fun ne => ne zero.2
  · have fine : tf.files = [] ∨ tf.pieceSize ≠ 0 := by
      rw [or_iff_not_imp_left]
      exact fun some zero' => zero ⟨some, zero'⟩
    rw [if_neg zero]
    refine iff_of_true ?_ fine
    dsimp only
    split
    · exact Outcome.safe_thrown
    · rename_i some
      have size : tf.pieceSize ≠ 0 := fine.resolve_left fun none => some (sound none)
      rw [if_neg size]
      exact Outcome.safe_done

/-! ## The hash -/

section
variable [SubStrings] {source : StringWrapper} {tokens front back : List BeToken}

/-- The first token that reads `info`, behind those of `front`. -/
structure FirstInfo (source : StringWrapper) (tokens front back : List BeToken) : Prop where
  split : ∃ t, tokens = front ++ t :: back ∧ (t.on source).str = some (ascii "info")
  others : ∀ t ∈ front, ∃ text, (t.on source).str = some text ∧ text ≠ ascii "info"

theorem findInfo_cons (t : BeToken) (tokens : List BeToken) :
    findInfo source (t :: tokens) =
      match (t.on source).str with
      | none => .error .subString
      | some text => if text = ascii "info" then .ok (some tokens) else findInfo source tokens := by
  rw [findInfo, Lexeme.text]
  cases (t.on source).str <;> rfl

theorem findInfo_some : findInfo source tokens = .ok (some back) ↔
    ∃ front, FirstInfo source tokens front back := by
  induction tokens with
  | nil =>
    refine iff_of_false nofun ?_
    rintro ⟨front, ⟨t, eq, -⟩, -⟩
    simp at eq
  | cons t tokens ih =>
    rw [findInfo_cons]
    constructor
    · intro found
      cases text : (t.on source).str with
      | none =>
        rw [text] at found
        cases found
      | some text' =>
        rw [text] at found
        dsimp only at found
        split at found
        · rename_i info
          cases found
          exact ⟨[], ⟨t, rfl, by rw [text, info]⟩, nofun⟩
        · rename_i other
          obtain ⟨front, ⟨t', eq, info⟩, others⟩ := ih.1 found
          exact ⟨t :: front, ⟨t', by rw [eq]; rfl, info⟩,
            List.forall_mem_cons.2 ⟨⟨text', text, other⟩, others⟩⟩
    · rintro ⟨front, ⟨t', eq, info⟩, others⟩
      cases front with
      | nil =>
        cases eq
        rw [info]
        exact if_pos rfl
      | cons u front =>
        cases eq
        obtain ⟨⟨text, read, other⟩, others'⟩ := List.forall_mem_cons.1 others
        rw [read]
        dsimp only
        rw [if_neg other]
        exact ih.2 ⟨front, ⟨t', rfl, info⟩, others'⟩

theorem findInfo_none : findInfo source tokens = .ok none ↔
    ∀ t ∈ tokens, ∃ text, (t.on source).str = some text ∧ text ≠ ascii "info" := by
  induction tokens with
  | nil => exact iff_of_true rfl nofun
  | cons t tokens ih =>
    rw [findInfo_cons, List.forall_mem_cons, ← ih]
    cases (t.on source).str with
    | none => exact iff_of_false nofun fun h => by simp at h
    | some text =>
      dsimp only
      split
      · rename_i info
        exact iff_of_false nofun fun h => by simp [info] at h
      · rename_i other
        constructor
        · exact fun found => ⟨⟨text, rfl, other⟩, found⟩
        · exact fun h => h.2

variable [Externals]

/-- The hash is made, or left out, without an exception: no token reads `info`, or
the value behind the first one that does starts in the source. -/
def Hashes (source : StringWrapper) (tokens : List BeToken) : Prop :=
  (∀ t ∈ tokens, ∃ text, (t.on source).str = some text ∧ text ≠ ascii "info") ∨
    ∃ front v back, FirstInfo source tokens front (v :: back) ∧
      (skipDict 0 (v :: back) ≠ [] → v.data.start ≤ source.size)

theorem calculateInfoSha1_safe_iff :
    (tf.calculateInfoSha1 tokens source).Safe ↔ ¬ ∃ front, FirstInfo source tokens front [] := by
  rw [← findInfo_some, calculateInfoSha1, infoRange]
  cases findInfo source tokens with
  | error e => exact iff_of_true Outcome.safe_thrown (by rintro ⟨⟩)
  | ok found =>
    cases found with
    | none => exact iff_of_true Outcome.safe_done (by rintro ⟨⟩)
    | some behind =>
      cases behind with
      | nil => exact iff_of_false Outcome.not_safe_fault fun h => h rfl
      | cons v back =>
        refine iff_of_true ?_ (by rintro ⟨⟩)
        rw [Outcome.ofExcept_ok, Outcome.bind_done]
        dsimp only
        split
        · exact Outcome.safe_done
        · rw [Outcome.bind_done]
          dsimp only
          split
          · exact Outcome.safe_thrown
          · exact Outcome.safe_done

theorem calculateInfoSha1_hashes (hashes : Hashes source tokens) :
    ∃ tf', tf.calculateInfoSha1 tokens source = .done () tf' ∧ tf'.extent = tf.extent := by
  rw [calculateInfoSha1, infoRange]
  rcases hashes with none | ⟨front, v, back, info, inside⟩
  · rw [findInfo_none.2 none]
    exact ⟨tf, rfl, rfl⟩
  · rw [findInfo_some.2 ⟨front, info⟩, Outcome.ofExcept_ok, Outcome.bind_done]
    dsimp only
    split
    · exact ⟨tf, rfl, rfl⟩
    · rename_i t rest eq
      have le := inside (by rw [eq]; exact List.cons_ne_nil _ _)
      rw [Outcome.bind_done]
      dsimp only
      rw [if_neg (Nat.not_lt.2 le)]
      exact ⟨_, rfl, rfl⟩

theorem hashes_of_done {tf' : Metainfo} (done : tf.calculateInfoSha1 tokens source = .done () tf') :
    Hashes source tokens := by
  rw [calculateInfoSha1, infoRange] at done
  cases found : findInfo source tokens with
  | error e =>
    rw [found] at done
    cases done
  | ok found' =>
    rw [found, Outcome.ofExcept_ok, Outcome.bind_done] at done
    cases found' with
    | none => exact Or.inl (findInfo_none.1 found)
    | some behind =>
      cases behind with
      | nil => cases done
      | cons v back =>
        obtain ⟨front, info⟩ := findInfo_some.1 found
        refine Or.inr ⟨front, v, back, info, fun some => ?_⟩
        dsimp only at done
        split at done
        · rename_i none
          exact absurd none some
        · rw [Outcome.bind_done] at done
          dsimp only at done
          split at done
          · cases done
          · rename_i inside
            exact Nat.not_lt.1 inside

/-! ## Any bytes -/

/-- The tokens of a torrent file that is not read into undefined behaviour. Unless
one of them throws, they end where they may, the first one that reads `info` is not
the last, and if it comes to the layout of files, some token has set a piece size. -/
def CalmFile (source : StringWrapper) (tokens : List BeToken) : Prop :=
  outline.Passes (tokens.map (·.on source)) start →
    ¬ Awaits (outline.after (tokens.map (·.on source)) start).mode ∧
      (¬ ∃ front, FirstInfo source tokens front []) ∧
      (Hashes source tokens →
        (outline.after (tokens.map (·.on source)) start).extent.files = 0 ∨
          (outline.after (tokens.map (·.on source)) start).extent.pieceSize ≠ 0)

/-- The constructor behind the parser. -/
theorem build_safe_iff (path : Bytes) :
    ((processLoop fillers (tokens.map (·.on source)) (opened path)).bind fun _ tf =>
      (tf.calculateInfoSha1 tokens source).bind fun _ tf =>
        (tf.toTorrentFile.fillPieceOffsets.lift fun layout =>
          { tf with toTorrentFile := layout } : Outcome Thrown Metainfo Unit)).Safe ↔
      CalmFile source tokens := by
  by_cases passes : outline.Passes (tokens.map (·.on source)) start
  · by_cases awaits : Awaits (outline.after (tokens.map (·.on source)) start).mode
    · refine iff_of_false (fun safe => ?_) fun calm => (calm passes).1 awaits
      exact processLoop_awaits passes awaits (Outcome.bind_safe.1 safe).1
    · obtain ⟨tf, processed, extent, sound⟩ := @processLoop_passes _ _ path passes awaits
      rw [processed, Outcome.bind_done, Outcome.bind_safe, calculateInfoSha1_safe_iff]
      constructor
      · rintro ⟨info, later⟩ _
        refine ⟨awaits, info, fun hashes => ?_⟩
        obtain ⟨tf', hashed, same⟩ := @calculateInfoSha1_hashes tf _ _ _ _ hashes
        have laid := later () tf' hashed
        rw [Outcome.lift_safe, fillPieceOffsets_safe_iff] at laid
        · rw [← extent, ← same]
          exact laid.imp_left extent_files.2
        · intro none
          rw [← same] at sound
          exact List.length_eq_zero_iff.1 (sound (extent_files.2 none))
      · intro calm
        obtain ⟨-, info, laid⟩ := calm passes
        refine ⟨info, fun _ tf' hashed => ?_⟩
        have hashes := hashes_of_done hashed
        obtain ⟨tf'', hashed', same⟩ := @calculateInfoSha1_hashes tf _ _ _ _ hashes
        rw [hashed] at hashed'
        cases hashed'
        rw [Outcome.lift_safe, fillPieceOffsets_safe_iff]
        · have sized := laid hashes
          rw [← extent, ← same] at sized
          exact sized.imp_left extent_files.1
        · intro none
          rw [← same] at sound
          exact List.length_eq_zero_iff.1 (sound (extent_files.2 none))
  · obtain ⟨e, tf, thrown⟩ := @processLoop_thrown _ _ path passes
    rw [thrown]
    exact iff_of_true Outcome.safe_thrown fun h => absurd h passes

/-- **When a torrent file is read without undefined behaviour.** -/
theorem new_safe_iff (path : Bytes) (source : StringWrapper) :
    (new path source).Safe ↔ ∀ f : Reading, f.Loose → f.render = source.bytes →
      CalmFile source (f.tokens 0) := by
  rw [new, Outcome.bind_safe]
  constructor
  · intro h f loose text
    have parsed := BeParser.parse_eq_ok_iff.2 ⟨f, loose, text, rfl⟩
    rw [parsed] at h
    exact (build_safe_iff path).1 (h.2 _ _ rfl)
  · intro h
    cases parsed : BeParser.parse source with
    | error e => exact ⟨Outcome.safe_thrown, by rintro _ _ ⟨⟩⟩
    | ok tokens =>
      obtain ⟨f, loose, text, rfl⟩ := BeParser.parse_eq_ok_iff.1 parsed
      refine ⟨Outcome.safe_done, ?_⟩
      rintro _ _ ⟨⟩
      exact (build_safe_iff path).2 (h f loose text)

end

/-- `7:comment`, `7:comment4:info` and `d4:infodee` -/
def brokenFiles : List StringWrapper :=
  [.ofBytes (encodeValues [.str (ascii "comment")]) (by decide),
    .ofBytes (encodeValues [.str (ascii "comment"), .str (ascii "info")]) (by decide),
    .ofBytes (encodeValues [.dict [(ascii "info", .dict [])]]) (by decide)]

/-- A key is the last token; the text `info` is; the piece size is missing. -/
theorem new_unsafe : brokenFiles.Forall fun source =>
    ¬ (@new SubStrings.cut (exactExternals id) [] source).Safe := by
  let _ := SubStrings.cut
  let _ := exactExternals id
  have parsed (values : List Value) (source : StringWrapper)
      (text : source.bytes = encodeValues values) (fault : ¬ ((processLoop fillers
        ((valuesTokens values 0).map (·.on source)) (opened [])).bind fun _ tf =>
          (tf.calculateInfoSha1 (valuesTokens values 0) source).bind fun _ tf =>
            (tf.toTorrentFile.fillPieceOffsets.lift fun layout =>
              { tf with toTorrentFile := layout } : Outcome Thrown Metainfo Unit)).Safe) :
      ¬ (new [] source).Safe := by
    rw [new, BeParser.parse_encoded text]
    exact fault
  refine ⟨parsed _ _ (StringWrapper.bytes_ofBytes _ _) ?_,
    parsed _ _ (StringWrapper.bytes_ofBytes _ _) ?_,
    parsed _ _ (StringWrapper.bytes_ofBytes _ _) ?_⟩
  · rw [processLoop_fillers]
    exact Outcome.not_safe_fault (r := .outOfBounds)
  · rw [processLoop_fillers]
    exact Outcome.not_safe_fault (r := .outOfBounds)
  · rw [processLoop_fillers]
    exact Outcome.not_safe_fault (r := .divisionByZero)

end TorrentClient.Metainfo
