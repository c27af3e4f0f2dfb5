import TorrentClient.Lexemes
import TorrentClient.Metainfo

/-!
# The loops over `info` and its files

What the tokens of lists and dictionaries read is never looked at, so the loops
do the same on what is left of a value when it is left out.
-/

namespace TorrentClient

/-- The tokens with the texts of lists and dictionaries left out. -/
def bares (cursor : List Lexeme) : List Lexeme := cursor.map Lexeme.bare

@[simp] theorem bares_nil : bares [] = [] := rfl

@[simp] theorem bares_cons (t : Lexeme) (cursor : List Lexeme) :
    bares (t :: cursor) = t.bare :: bares cursor := rfl

theorem bares_tail (cursor : List Lexeme) : bares cursor.tail = (bares cursor).tail :=
  List.map_tail

theorem readListsLoop_bare (depth : Nat) (cursor : List Lexeme) (output : List Bytes) :
    readListsLoop depth (bares cursor) output =
      (readListsLoop depth cursor output).map fun r => (r.1, bares r.2) := by
  induction cursor generalizing depth output with
  | nil => cases depth <;> rfl
  | cons t cursor ih =>
    cases depth with
    | zero => rfl
    | succ depth =>
      rw [bares_cons, readListsLoop, readListsLoop, Lexeme.bare_type]
      cases type : t.type with
      | listStart | listEnd => exact ih _ _
      | str | int =>
        have leaf : t.bare = t := Lexeme.bare_leaf (by simp [Lexeme.IsLeaf, type])
        rw [leaf]
        dsimp only
        cases t.text with
        | error e => rfl
        | ok text => exact ih _ _
      | unknown | dictStart | dictEnd => rfl

theorem readLists_bare (t : Lexeme) (cursor : List Lexeme) :
    readLists t.bare (bares cursor) =
      (readLists t cursor).map fun r => (r.1, bares r.2) := by
  rw [readLists, readLists, Lexeme.bare_type, readListsLoop_bare]

namespace Metainfo

variable {key : Bytes} {t v : Lexeme} {cursor rest : List Lexeme} {tf tf' : Metainfo}

theorem setFile_bare : tf.setFile key v.bare = tf.setFile key v := by
  by_cases leaf : v.IsLeaf
  · rw [Lexeme.bare_leaf leaf]
  · have types := not_or.1 leaf
    simp only [setFile, Lexeme.bare_type, types.1, types.2, and_false, if_false]

theorem storeFile_bare : tf.storeFile key v.bare (bares cursor) =
    (tf.storeFile key v cursor).map bares := by
  rw [storeFile, storeFile, Lexeme.bare_type, readLists_bare, setFile_bare]
  split
  · cases readLists v cursor with
    | error e => rfl
    | ok r =>
      dsimp only [Except.map, Outcome.ofExcept_ok, Outcome.bind_done]
      cases setBack (fun file => { file with path := file.path ++ r.1 }) tf <;> rfl
  · cases tf.setFile key v <;> rfl

theorem text_bare (str : t.type = .str) : t.bare.text = t.text := by
  rw [Lexeme.bare_leaf (Or.inr str)]

theorem fileLoop_bare (cursor : List Lexeme) (tf : Metainfo) :
    fileLoop (bares cursor) tf = (fileLoop cursor tf).map bares := by
  induction hn : cursor.length using Nat.strongRecOn generalizing cursor tf with
  | ind n ih =>
    match cursor with
    | [] =>
      rw [bares_nil, fileLoop_nil]
      rfl
    | t :: cursor =>
      rw [bares_cons]
      by_cases str : t.type = .str
      · have bare_str : t.bare.type = .str := by rw [Lexeme.bare_type, str]
        match cursor with
        | [] =>
          rw [bares_nil, fileLoop_last str, fileLoop_last bare_str, text_bare str]
          cases t.text <;> rfl
        | v :: cursor =>
          rw [bares_cons, fileLoop_entry str, fileLoop_entry bare_str, text_bare str]
          cases t.text with
          | error e => rfl
          | ok key =>
            rw [Outcome.ofExcept_ok, Outcome.bind_done, Outcome.bind_done, storeFile_bare]
            cases stored : tf.storeFile key v cursor with
            | thrown e tf => rfl
            | fault r tf => rfl
            | done behind tf =>
              have shorter := tail_lt_of_suffix (storeFile_suffix stored)
              rw [List.length_cons, List.length_cons] at hn
              rw [Outcome.map_done, Outcome.bind_done, Outcome.bind_done, ← bares_tail]
              exact ih _ (by omega) behind.tail tf rfl
      · have bare_other : t.bare.type ≠ .str := by rwa [Lexeme.bare_type]
        rw [fileLoop_other str, fileLoop_other bare_other]
        rfl

theorem filesLoop_bare (firstIter : Bool) (cursor : List Lexeme) (tf : Metainfo) :
    filesLoop firstIter (bares cursor) tf = (filesLoop firstIter cursor tf).map bares := by
  induction hn : cursor.length using Nat.strongRecOn generalizing firstIter cursor tf with
  | ind n ih =>
    cases cursor with
    | nil =>
      rw [bares_nil, filesLoop_nil]
      rfl
    | cons t cursor =>
      rw [bares_cons]
      by_cases dict : t.type = .dictStart
      · have bare_dict : t.bare.type = .dictStart := by rw [Lexeme.bare_type, dict]
        rw [filesLoop_dict dict, filesLoop_dict bare_dict, fileLoop_bare]
        cases looped : fileLoop cursor
            (if firstIter then tf else { tf with files := tf.files ++ [{}] }) with
        | thrown e tf => rfl
        | fault r tf => rfl
        | done behind tf =>
          have shorter := (fileLoop_suffix looped).length_le
          rw [List.length_cons] at hn
          exact ih behind.length (by omega) false behind tf rfl
      · have bare_other : t.bare.type ≠ .dictStart := by rwa [Lexeme.bare_type]
        rw [filesLoop_other dict, filesLoop_other bare_other]
        rfl

theorem setInfo_bare : tf.setInfo key v.bare = tf.setInfo key v := by
  by_cases leaf : v.IsLeaf
  · rw [Lexeme.bare_leaf leaf]
  · have types := not_or.1 leaf
    simp only [setInfo, Lexeme.bare_type, types.1, types.2, and_false, if_false]

/-- A cursor is where it should be when it is there without the texts. -/
theorem done_bares_iff {o : Outcome Thrown Metainfo (List Lexeme)} {behind : List Lexeme}
    (suffix : ∀ rest tf', o = .done rest tf' → rest <:+ cursor)
    (behind_suffix : behind <:+ cursor) :
    o.map bares = .done (bares behind) tf' ↔ o = .done behind tf' := by
  constructor
  · intro mapped
    obtain ⟨rest, tf₁, eq, last⟩ := Outcome.bind_eq_done mapped
    obtain ⟨bare, state⟩ := Outcome.done.inj last
    have length : rest.length = behind.length := by
      have lengths := congrArg List.length bare
      rwa [bares, bares, List.length_map, List.length_map] at lengths
    have same : rest = behind :=
      (List.suffix_of_suffix_length_le (suffix rest tf₁ eq) behind_suffix
        (Nat.le_of_eq length)).eq_of_length length
    rw [eq, same, state]
  · rintro rfl
    rfl

theorem fillFiles_done_iff {behind : List Lexeme} (suffix : behind <:+ cursor) :
    tf.fillFiles (bares cursor) = .done (bares behind) tf' ↔
      tf.fillFiles cursor = .done behind tf' := by
  rw [fillFiles, fillFiles, filesLoop_bare]
  exact done_bares_iff (fun _ _ => filesLoop_suffix) suffix

variable [Heap Bytes]

theorem storeInfo_bare : tf.storeInfo key v.bare (bares cursor) =
    (tf.storeInfo key v cursor).map bares := by
  rw [storeInfo, storeInfo, Lexeme.bare_type, setInfo_bare]
  split
  · rename_i pieces
    rw [Lexeme.bare_leaf (Or.inr pieces.2), fillPieces, fillPieces]
    split
    · rfl
    · cases room : Heap.refuses Bytes (v.size / sha1PieceLength) with
      | some e =>
        rw [reservePieces_refused room]
        rfl
      | none =>
        rw [reservePieces_granted room, Outcome.bind_done, Outcome.bind_done]
        cases pushPieces (v.slices sha1PieceLength) tf <;> rfl
  · split
    · exact filesLoop_bare true cursor tf
    · cases tf.setInfo key v <;> rfl

theorem infoLoop_bare (cursor : List Lexeme) (tf : Metainfo) :
    infoLoop (bares cursor) tf = (infoLoop cursor tf).map bares := by
  induction hn : cursor.length using Nat.strongRecOn generalizing cursor tf with
  | ind n ih =>
    match cursor with
    | [] =>
      rw [bares_nil, infoLoop_nil]
      rfl
    | t :: cursor =>
      rw [bares_cons]
      by_cases str : t.type = .str
      · have bare_str : t.bare.type = .str := by rw [Lexeme.bare_type, str]
        match cursor with
        | [] =>
          rw [bares_nil, infoLoop_last str, infoLoop_last bare_str, text_bare str]
          cases t.text <;> rfl
        | v :: cursor =>
          rw [bares_cons, infoLoop_entry str, infoLoop_entry bare_str, text_bare str]
          cases t.text with
          | error e => rfl
          | ok key =>
            rw [Outcome.ofExcept_ok, Outcome.bind_done, Outcome.bind_done, storeInfo_bare]
            cases stored : tf.storeInfo key v cursor with
            | thrown e tf => rfl
            | fault r tf => rfl
            | done behind tf =>
              have shorter := tail_lt_of_suffix (storeInfo_suffix stored)
              rw [List.length_cons, List.length_cons] at hn
              rw [Outcome.map_done, Outcome.bind_done, Outcome.bind_done, ← bares_tail]
              exact ih _ (by omega) behind.tail tf rfl
      · have bare_other : t.bare.type ≠ .str := by rwa [Lexeme.bare_type]
        by_cases dictEnd : t.type = .dictEnd
        · have bare_end : t.bare.type = .dictEnd := by rw [Lexeme.bare_type, dictEnd]
          rw [infoLoop_end dictEnd, infoLoop_end bare_end]
          rfl
        · have bare_inner : t.bare.type ≠ .dictEnd := by rwa [Lexeme.bare_type]
          rw [infoLoop_other str dictEnd, infoLoop_other bare_other bare_inner]
          rfl

theorem fillInfo_bare (cursor : List Lexeme) (tf : Metainfo) :
    fillInfo.run (bares cursor) tf = (fillInfo.run cursor tf).map bares := by
  match cursor with
  | [] => rfl
  | [_] => rfl
  | _ :: t :: cursor =>
    show (if t.bare.type ≠ .dictStart then _ else _) =
      Outcome.map bares (if t.type ≠ .dictStart then _ else _)
    rw [Lexeme.bare_type]
    split
    · rfl
    · show (infoLoop (bares cursor) _).bind _ = _
      rw [infoLoop_bare]
      cases infoLoop cursor { tf with files := tf.files ++ [{}] } <;> rfl

/-- What is left of the tokens is the end of them. -/
theorem fillInfo_suffix (h : fillInfo.run cursor tf = .done rest tf') : rest <:+ cursor := by
  match cursor with
  | [] => cases h
  | [_] => cases h
  | key :: t :: cursor =>
    dsimp only [fillInfo, List.tail_cons] at h
    split at h
    · cases h
      exact List.nil_suffix
    · obtain ⟨behind, tf₁, looped, last⟩ := Outcome.bind_eq_done h
      cases last
      exact (infoLoop_suffix looped).trans ((List.suffix_cons _ _).trans (List.suffix_cons _ _))

theorem fillInfo_done_iff {behind : List Lexeme} (suffix : behind <:+ cursor) :
    fillInfo.run (bares cursor) tf = .done (bares behind) tf' ↔
      fillInfo.run cursor tf = .done behind tf' := by
  rw [fillInfo_bare]
  exact done_bares_iff (fun _ _ => fillInfo_suffix) suffix

/-! ## Tokens that say nothing -/

theorem storeInfo_value (other : key ≠ ascii "pieces" ∧ key ≠ ascii "files") :
    tf.storeInfo key v cursor = (tf.setInfo key v).map fun _ => v :: cursor := by
  rw [storeInfo, if_neg fun h => other.1 h.1, if_neg fun h => other.2 h.1]

/-- Tokens in front of the end of a dictionary, none of which is one of some keys,
change only what other keys may. -/
theorem infoLoop_free {β : Type} {f : Metainfo → β} {keys : List Bytes}
    (listed : ascii "pieces" ∈ keys ∧ ascii "files" ∈ keys)
    (set : ∀ key v tf, key ∉ keys → (v.IsLeaf → v.str ≠ none) →
      ∃ tf', setInfo key v tf = .done () tf' ∧ f tf' = f tf)
    (tf : Metainfo) {ts : List Lexeme} (read : ∀ t ∈ ts, t.IsLeaf → t.str ≠ none)
    (free : ∀ t ∈ ts, ∀ text, t.str = some text → text ∉ keys) :
    ∃ rest tf', infoLoop (ts ++ [.mark .dictEnd]) tf = .done rest tf' ∧ f tf' = f tf := by
  induction hn : ts.length using Nat.strongRecOn generalizing ts tf with
  | ind n ih =>
    match ts with
    | [] => exact ⟨[], tf, infoLoop_end rfl, rfl⟩
    | t :: ts =>
      obtain ⟨first, read'⟩ := List.forall_mem_cons.1 read
      obtain ⟨free₁, free'⟩ := List.forall_mem_cons.1 free
      by_cases str : t.type = .str
      · obtain ⟨key, text⟩ := Option.ne_none_iff_exists'.1 (first (Or.inr str))
        have unlisted := free₁ key text
        have other : key ≠ ascii "pieces" ∧ key ≠ ascii "files" :=
          ⟨fun h => unlisted (h ▸ listed.1), fun h => unlisted (h ▸ listed.2)⟩
        have text_eq : t.text = .ok key := by rw [Lexeme.text, text]
        match ts with
        | [] =>
          obtain ⟨tf', done, same⟩ := set key (.mark .dictEnd) tf unlisted nofun
          refine ⟨[], tf', ?_, same⟩
          rw [List.singleton_append, infoLoop_entry str, text_eq, Outcome.ofExcept_ok,
            Outcome.bind_done, storeInfo_value other, done]
          exact infoLoop_nil
        | v :: ts =>
          obtain ⟨second, read''⟩ := List.forall_mem_cons.1 read'
          obtain ⟨-, free''⟩ := List.forall_mem_cons.1 free'
          obtain ⟨tf₁, done, same⟩ := set key v tf unlisted second
          rw [List.length_cons, List.length_cons] at hn
          obtain ⟨rest, tf', looped, same'⟩ := ih ts.length (by omega) tf₁ read'' free'' rfl
          refine ⟨rest, tf', ?_, same'.trans same⟩
          rw [List.cons_append, List.cons_append, infoLoop_entry str, text_eq,
            Outcome.ofExcept_ok, Outcome.bind_done, storeInfo_value other, done]
          exact looped
      · by_cases dictEnd : t.type = .dictEnd
        · exact ⟨_, tf, infoLoop_end dictEnd, rfl⟩
        · exact ⟨[], tf, infoLoop_other str dictEnd, rfl⟩

end Metainfo

end TorrentClient
