import TorrentClient.Base.Query
import TorrentClient.Confinement

/-!
# Announcing a torrent

`DownloadManager::generate_url` chooses a tracker, and writes the request in which the client
announces itself.
-/

namespace TorrentClient

/-! ## Choosing a tracker -/

/-- What `Url` makes of a text. -/
structure Url where
  valid : Bool
  proto : Bytes
  host : Bytes
  port : Bytes
  tail : Bytes
  deriving DecidableEq, Repr

/-- `Url` and `IpAddr`, which are not part of the repository. -/
class Urls where
  url : Bytes → Url
  /-- `IpAddr::set` of a host does not throw. -/
  resolves : Bytes → Bool

namespace Metainfo

section
variable [Urls]

/-- The loop over the announces, with the empty string where none is taken. -/
def validUrl : List Bytes → Bytes
  | [] => []
  | announce :: announces =>
    if ascii "local" <:+: announce then validUrl announces
    else
      let url := Urls.url announce
      if ¬ url.valid then validUrl announces
      else if url.proto ≠ [] ∧ url.proto ≠ ascii "http" then validUrl announces
      else if Urls.resolves url.host then announce
      else validUrl announces

def availableAnnounces (tf : Metainfo) : List Bytes := tf.announce :: tf.announceList

end

/-- `PEER_ID_LENGTH` -/
def peerIdLength : Nat := 20

def generateInitHttpRequest (tf : Metainfo) (peerId : Bytes) (port : Nat) :
    Except Thrown Bytes :=
  if peerId.length ≠ peerIdLength then
    .error (.runtimeError "peer_id string must be 20 char long")
  else
    .ok (ascii "info_hash=" ++ tf.infoSha1String ++ ascii "&peer_id=" ++ peerId ++
      ascii "&port=" ++ decimal port ++ ascii "&uploaded=" ++ ascii "0" ++
      ascii "&downloaded=" ++ ascii "0" ++ ascii "&left=" ++ decimal tf.fullSize ++
      ascii "&numwant=" ++ ascii "1000" ++ ascii "&compact=" ++ ascii "1" ++
      ascii "&event=" ++ ascii "started")

/-- The path of the announce, without its last character. -/
def announcePath (tail : Bytes) : Bytes := ascii "/" ++ tail.take (tail.length - 1)

def generateUrl [Urls] (tf : Metainfo) : Except Thrown Bytes :=
  let valid := validUrl tf.availableAnnounces
  if valid = [] then .error (.runtimeError "no valid announce")
  else
    let url := Urls.url valid
    let output := url.host
    let output := if url.port ≠ [] then output ++ (ascii ":" ++ url.port) else output
    let output :=
      if url.tail ≠ [] then
        let tail := announcePath url.tail
        output ++ tail ++ (if 63 ∈ tail then [38] else [63])
      else output ++ ascii "/"
    (generateInitHttpRequest tf (ascii "-2345678901234567890") 12345).map (output ++ ·)

/-! ## What is hashed -/

/-- No hash has been calculated. -/
def Unhashed (tf : Metainfo) : Prop := tf.infoSha1 = [] ∧ tf.infoSha1String = []

/-- The text is that of the hash. -/
def Hexed (tf : Metainfo) : Prop := tf.infoSha1String = hexer tf.infoSha1

section
variable {tf tf' : Metainfo} {cursor rest : List Lexeme} {v : Lexeme} {key : Bytes}

theorem setBack_unhashed {f : FileInfo → FileInfo} (h : tf.Unhashed) :
    (tf.setBack f).state.Unhashed := by
  unfold setBack
  split <;> exact h

theorem setFirst_unhashed {f : FileInfo → FileInfo} (h : tf.Unhashed) :
    (tf.setFirst f).state.Unhashed := by
  unfold setFirst
  split <;> exact h

theorem storeFile_unhashed (h : tf.Unhashed) : (tf.storeFile key v cursor).state.Unhashed := by
  unfold storeFile setFile
  split
  · exact Outcome.ofExcept_keeps h fun _ => by
      rw [Outcome.map_state]
      exact setBack_unhashed h
  · rw [Outcome.map_state]
    split
    · exact Outcome.ofExcept_keeps h fun _ => setBack_unhashed h
    · split
      · exact Outcome.ofExcept_keeps h fun _ => setBack_unhashed h
      · exact h

theorem fileLoop_unhashed (cursor : List Lexeme) (tf : Metainfo) :
    tf.Unhashed → (fileLoop cursor tf).state.Unhashed := by
  induction hn : cursor.length using Nat.strongRecOn generalizing cursor tf with
  | ind n ih =>
    intro h
    rcases cursor with _ | ⟨t, _ | ⟨v, cursor⟩⟩
    · rwa [fileLoop_nil]
    · by_cases str : t.type = .str
      · rw [fileLoop_last str]
        exact Outcome.ofExcept_keeps h fun _ => h
      · rwa [fileLoop_other str]
    · by_cases str : t.type = .str
      · rw [fileLoop_entry str]
        refine Outcome.ofExcept_keeps h fun key =>
          Outcome.bind_keeps (storeFile_unhashed h) fun rest tf' stored => ?_
        have kept : (tf.storeFile key v cursor).state.Unhashed := storeFile_unhashed h
        rw [stored] at kept
        have shorter := tail_lt_of_suffix (storeFile_suffix stored)
        rw [List.length_cons, List.length_cons] at hn
        exact ih _ (by omega) _ _ rfl kept
      · rwa [fileLoop_other str]

theorem filesLoop_unhashed (cursor : List Lexeme) (firstIter : Bool) (tf : Metainfo) :
    tf.Unhashed → (filesLoop firstIter cursor tf).state.Unhashed := by
  induction hn : cursor.length using Nat.strongRecOn generalizing cursor firstIter tf with
  | ind n ih =>
    intro h
    cases cursor with
    | nil => rwa [filesLoop_nil]
    | cons t cursor =>
      by_cases dict : t.type = .dictStart
      · rw [filesLoop_dict dict]
        have kept := fileLoop_unhashed cursor
          (if firstIter then tf else { tf with files := tf.files ++ [{}] }) (by split <;> exact h)
        refine Outcome.bind_keeps kept fun rest tf' looped => ?_
        rw [looped] at kept
        have shorter := (fileLoop_suffix looped).length_le
        rw [List.length_cons] at hn
        exact ih _ (by omega) _ _ _ rfl kept
      · rwa [filesLoop_other dict]

theorem pushPieces_unhashed (slices : List (Option Bytes)) : ∀ tf : Metainfo,
    tf.Unhashed → (pushPieces slices tf).state.Unhashed := by
  induction slices with
  | nil => exact fun _ h => h
  | cons slice slices ih =>
    intro tf h
    cases slice with
    | none => exact h
    | some piece =>
      rw [pushPieces]
      split
      · exact h
      · exact ih _ h

theorem setInfo_unhashed (h : tf.Unhashed) : (tf.setInfo key v).state.Unhashed := by
  unfold setInfo
  split
  · exact Outcome.ofExcept_keeps h fun _ => h
  · split
    · exact Outcome.ofExcept_keeps h fun _ => h
    · split
      · exact Outcome.ofExcept_keeps h fun _ => h
      · split
        · exact Outcome.ofExcept_keeps h fun _ => setFirst_unhashed h
        · split
          · exact Outcome.ofExcept_keeps h fun _ => setFirst_unhashed h
          · exact h

theorem storeInfo_unhashed [Heap Bytes] (h : tf.Unhashed) :
    (tf.storeInfo key v cursor).state.Unhashed := by
  unfold storeInfo fillPieces
  split
  · split
    · exact h
    · refine Outcome.bind_keeps (by rwa [reservePieces_state]) fun _ read reserved => ?_
      have same : read = tf := by
        rw [← tf.reservePieces_state (v.size / sha1PieceLength), reserved]
        rfl
      rw [Outcome.map_state]
      exact pushPieces_unhashed _ read (same ▸ h)
  · split
    · exact filesLoop_unhashed cursor true tf h
    · rw [Outcome.map_state]
      exact setInfo_unhashed h

theorem infoLoop_unhashed [Heap Bytes] (cursor : List Lexeme) (tf : Metainfo) :
    tf.Unhashed → (infoLoop cursor tf).state.Unhashed := by
  induction hn : cursor.length using Nat.strongRecOn generalizing cursor tf with
  | ind n ih =>
    intro h
    rcases cursor with _ | ⟨t, cursor⟩
    · rwa [infoLoop_nil]
    by_cases str : t.type = .str
    · rcases cursor with _ | ⟨v, cursor⟩
      · rw [infoLoop_last str]
        exact Outcome.ofExcept_keeps h fun _ => h
      · rw [infoLoop_entry str]
        refine Outcome.ofExcept_keeps h fun key =>
          Outcome.bind_keeps (storeInfo_unhashed h) fun rest tf' stored => ?_
        have kept : (tf.storeInfo key v cursor).state.Unhashed := storeInfo_unhashed h
        rw [stored] at kept
        have shorter := tail_lt_of_suffix (storeInfo_suffix stored)
        rw [List.length_cons, List.length_cons] at hn
        exact ih _ (by omega) _ _ rfl kept
    · by_cases dictEnd : t.type = .dictEnd
      · rwa [infoLoop_end dictEnd]
      · rwa [infoLoop_other str dictEnd]

theorem fillers_unhashed [Heap Bytes] {text : Bytes} {filler : Filler Metainfo}
    (mem : (text, filler) ∈ fillers) (h : tf.Unhashed)
    (done : filler.run cursor tf = .done rest tf') : tf'.Unhashed := by
  have str {set : Bytes → Metainfo → Metainfo} (run : (fillStr set).run cursor tf = .done rest tf')
      (kept : ∀ text s, s.Unhashed → (set text s).Unhashed) : tf'.Unhashed :=
    fillValue_keeps (storeStr_keeps kept) h run
  have int {set : Nat → Metainfo → Metainfo} (run : (fillInt set).run cursor tf = .done rest tf')
      (kept : ∀ n s, s.Unhashed → (set n s).Unhashed) : tf'.Unhashed :=
    fillValue_keeps (storeInt_keeps kept) h run
  simp only [fillers, List.mem_cons, List.not_mem_nil, or_false, Prod.mk.injEq] at mem
  rcases mem with ⟨-, rfl⟩ | ⟨-, rfl⟩ | ⟨-, rfl⟩ | ⟨-, rfl⟩ | ⟨-, rfl⟩ | ⟨-, rfl⟩ | ⟨-, rfl⟩
  · simp only [fillInfo] at done
    split at done
    · cases done
    · split at done
      · cases done
        exact h
      · rename_i t behind _ _
        obtain ⟨_, read, looped, last⟩ := Outcome.bind_eq_done done
        cases last
        have kept := infoLoop_unhashed behind { tf with files := tf.files ++ [{}] } h
        rw [looped] at kept
        exact kept
  · exact str done fun _ _ => id
  · exact str done fun _ _ => id
  · exact str done fun _ _ => id
  · exact str done fun _ _ => id
  · simp only [fillAnnounceList] at done
    split at done
    · cases done
    · obtain ⟨_, -, last⟩ := Outcome.ofExcept_bind_eq_done done
      cases last
      exact h
  · exact int done fun _ _ => id

/-- The text of a torrent that is accepted is that of its hash. -/
theorem new_hexed [SubStrings] [Externals] {path : Bytes} {source : StringWrapper}
    (accepted : new path source = .done () tf) : tf.Hexed := by
  obtain ⟨tokens, -, later⟩ := Outcome.ofExcept_bind_eq_done accepted
  obtain ⟨_, read, processed, later⟩ := Outcome.bind_eq_done later
  obtain ⟨_, hashed, calculated, later⟩ := Outcome.bind_eq_done later
  have filled : read.Unhashed := by
    apply processLoop_keeps ?_ _ (Metainfo.opened path) ⟨rfl, rfl⟩ read processed
    exact fun text filler mem cursor s rest s' h done => fillers_unhashed mem h done
  obtain ⟨range, _, ranged, last⟩ := Outcome.bind_eq_done calculated
  cases infoRange_done ranged
  obtain ⟨laid, -, rfl⟩ := Outcome.lift_eq_done later
  split at last
  · cases last
    show read.infoSha1String = hexer read.infoSha1
    rw [filled.1, filled.2]
    rfl
  · split at last
    · cases last
    · cases last
      rfl

end

/-! ## The request -/

/-- The two digits of a byte. -/
theorem hexDigits (c : UInt8) : ∃ high low, Query.hexValue (hexDigit (c >>> 4)) = some high ∧
    Query.hexValue (hexDigit (c &&& 15)) = some low ∧ 16 * high + low = c := by
  have every : ∀ n < 256, let c := UInt8.ofNat n
      Query.hexValue (hexDigit (c >>> 4)) = some (c >>> 4) ∧
      Query.hexValue (hexDigit (c &&& 15)) = some (c &&& 15) ∧
      (16 : UInt8) * (c >>> 4) + (c &&& 15) = c := by decide +kernel
  have here := every c.toNat c.toNat_lt
  rw [UInt8.ofNat_toNat] at here
  exact ⟨_, _, here⟩

/-- **A hash is read back from its text.** -/
theorem hexer_spells (source : Bytes) : Query.Spells (hexer source) source := by
  induction source with
  | nil => exact .nil
  | cons c source ih =>
    rw [hexer, List.flatMap_cons]
    by_cases plain : isPlain c = true
    · rw [if_pos plain]
      apply Query.Spells.cons ih
      · rintro rfl
        exact absurd plain (by decide)
      · rintro (rfl | rfl | rfl) <;> exact absurd plain (by decide)
    · obtain ⟨high, low, first, second, whole⟩ := hexDigits c
      rw [if_neg plain]
      have escaped := ih.escape first second
      rwa [whole] at escaped

theorem decimal_spells (n : Nat) : Query.Spells (decimal n) (decimal n) := by
  apply Query.spells_plain
  intro c mem
  have digit := decimal_digit n c mem
  constructor
  · rintro rfl
    exact absurd digit (by decide)
  · rintro (rfl | rfl | rfl) <;> exact absurd digit (by decide)

/-- What the client announces. -/
def announced (tf : Metainfo) (peerId : Bytes) (port : Nat) : List (Bytes × Bytes) :=
  [(ascii "info_hash", tf.infoSha1), (ascii "peer_id", peerId), (ascii "port", decimal port),
    (ascii "uploaded", ascii "0"), (ascii "downloaded", ascii "0"),
    (ascii "left", decimal tf.fullSize), (ascii "numwant", ascii "1000"),
    (ascii "compact", ascii "1"), (ascii "event", ascii "started")]

/-- **The request says what is announced**, and no query starts inside it. -/
theorem generateInitHttpRequest_read {tf : Metainfo} (hexed : tf.Hexed) {peerId : Bytes}
    (length : peerId.length = peerIdLength) (plain : Query.Spells peerId peerId) (port : Nat) :
    ∃ request, tf.generateInitHttpRequest peerId port = .ok request ∧
      Query.read request = some (tf.announced peerId port) ∧ 63 ∉ request := by
  have word (text : String) (plain : (ascii text).all fun c => c ≠ 37 ∧ ¬ Query.Delimits c) :
      Query.Spells (ascii text) (ascii text) := Query.spells_plain_of_all plain
  let fields : List Query.Field :=
    [⟨_, _, (_, _), word "info_hash" (by decide), hexer_spells tf.infoSha1⟩,
      ⟨_, _, (_, _), word "peer_id" (by decide), plain⟩,
      ⟨_, _, (_, _), word "port" (by decide), decimal_spells port⟩,
      ⟨_, _, (_, _), word "uploaded" (by decide), word "0" (by decide)⟩,
      ⟨_, _, (_, _), word "downloaded" (by decide), word "0" (by decide)⟩,
      ⟨_, _, (_, _), word "left" (by decide), decimal_spells tf.fullSize⟩,
      ⟨_, _, (_, _), word "numwant" (by decide), word "1000" (by decide)⟩,
      ⟨_, _, (_, _), word "compact" (by decide), word "1" (by decide)⟩,
      ⟨_, _, (_, _), word "event" (by decide), word "started" (by decide)⟩]
  have written : tf.generateInitHttpRequest peerId port = .ok (Query.write fields) := by
    rw [generateInitHttpRequest, if_neg (not_not.2 length), show tf.infoSha1String = _ from hexed]
    simp [fields, Query.write, Query.Field.text, ascii, List.intercalate_cons_cons]
  exact ⟨_, written, Query.read_write (List.cons_ne_nil _ _), Query.not_mem_write fields⟩

/-! ## The URL -/

variable [Urls]

/-- An announce that is no local one, and whose host can be asked over HTTP. -/
def Taken (announce : Bytes) : Prop :=
  ¬ ascii "local" <:+: announce ∧ (Urls.url announce).valid ∧
    ((Urls.url announce).proto = [] ∨ (Urls.url announce).proto = ascii "http") ∧
    Urls.resolves (Urls.url announce).host

instance (announce : Bytes) : Decidable (Taken announce) :=
  inferInstanceAs (Decidable (_ ∧ _))

theorem validUrl_cons (announce : Bytes) (announces : List Bytes) :
    validUrl (announce :: announces) =
      if Taken announce then announce else validUrl announces := by
  rw [validUrl]
  dsimp only
  by_cases inner : ascii "local" <:+: announce
  · rw [if_pos inner, if_neg fun taken => taken.1 inner]
  rw [if_neg inner]
  by_cases valid : (Urls.url announce).valid = true
  · rw [if_neg (not_not.2 valid)]
    by_cases other : (Urls.url announce).proto ≠ [] ∧ (Urls.url announce).proto ≠ ascii "http"
    · rw [if_pos other, if_neg fun taken => taken.2.2.1.elim other.1 other.2]
    · rw [if_neg other]
      congr 1
      have http := not_and_or.1 other
      simp only [not_not] at http
      exact propext ⟨fun host => ⟨inner, valid, http, host⟩, fun taken => taken.2.2.2⟩
  · rw [if_pos valid, if_neg fun taken => valid taken.2.1]

theorem validUrl_none {announces : List Bytes} (none : ∀ a ∈ announces, ¬ Taken a) :
    validUrl announces = [] := by
  induction announces with
  | nil => rfl
  | cons announce announces ih =>
    rw [validUrl_cons, if_neg (none announce List.mem_cons_self)]
    exact ih fun a mem => none a (List.mem_cons_of_mem announce mem)

theorem validUrl_first {front back : List Bytes} {announce : Bytes}
    (none : ∀ a ∈ front, ¬ Taken a) (taken : Taken announce) :
    validUrl (front ++ announce :: back) = announce := by
  induction front with
  | nil => rw [List.nil_append, validUrl_cons, if_pos taken]
  | cons other front ih =>
    rw [List.cons_append, validUrl_cons, if_neg (none other List.mem_cons_self)]
    exact ih fun a mem => none a (List.mem_cons_of_mem other mem)

/-- The peer id of the client. -/
def clientPeerId : Bytes := ascii "-2345678901234567890"

/-- **How a torrent is announced.** The first announce that is taken is asked. The query holds
the parameters of that announce, and behind them what the client announces; but when the announce
has no path there is no query. -/
theorem generateUrl_announces [SubStrings] [Externals] {path : Bytes} {source : StringWrapper}
    {tf : Metainfo} (accepted : new path source = .done () tf) :
    ((∀ a ∈ tf.availableAnnounces, ¬ Taken a) →
      tf.generateUrl = .error (.runtimeError "no valid announce")) ∧
    ∀ front announce back, tf.availableAnnounces = front ++ announce :: back →
      (∀ a ∈ front, ¬ Taken a) → Taken announce → announce ≠ [] →
      63 ∉ (Urls.url announce).host ++ (Urls.url announce).port →
      ∃ out, tf.generateUrl = .ok out ∧ (Urls.url announce).host <+: out ∧
        ((Urls.url announce).tail = [] → Query.behind out = none) ∧
        ((Urls.url announce).tail ≠ [] → ∃ query, Query.behind out = some query ∧
          Query.read query =
            (do let own ← Query.fields (announcePath (Urls.url announce).tail)
                pure (own ++ tf.announced clientPeerId 12345))) := by
  constructor
  · intro none
    rw [generateUrl, validUrl_none none]
    rfl
  · intro front announce back split none taken some no_query
    have chosen : validUrl tf.availableAnnounces = announce := by
      rw [split]
      exact validUrl_first none taken
    have length : clientPeerId.length = peerIdLength := by decide
    obtain ⟨request, made, read, no_start⟩ := generateInitHttpRequest_read (new_hexed accepted)
      length (Query.spells_plain_of_all (by decide)) 12345
    obtain ⟨in_host, in_port⟩ := not_or.1 (mt List.mem_append.2 no_query)
    -- the host and the port
    obtain ⟨origin, eq, host, outside⟩ : ∃ origin, origin = (if (Urls.url announce).port ≠ [] then
        (Urls.url announce).host ++ (ascii ":" ++ (Urls.url announce).port)
        else (Urls.url announce).host) ∧ (Urls.url announce).host <+: origin ∧ 63 ∉ origin := by
      refine ⟨_, rfl, ?_, ?_⟩
      · split
        · exact List.prefix_append _ _
        · exact List.prefix_rfl
      · split
        · simp [in_host, in_port, ascii]
        · exact in_host
    rw [generateUrl, chosen, if_neg some]
    dsimp only
    rw [← eq, show ascii "-2345678901234567890" = clientPeerId from rfl, made]
    refine ⟨_, rfl, ?_, ?_, ?_⟩
    · split
      · exact host.trans ((List.prefix_append _ _).trans ((List.prefix_append _ _).trans
          (List.prefix_append _ _)))
      · exact host.trans ((List.prefix_append _ _).trans (List.prefix_append _ _))
    · intro no_path
      rw [if_neg (not_not.2 no_path)]
      apply Query.behind_none
      simp [outside, no_start, ascii]
    · intro has_path
      rw [if_pos has_path]
      obtain ⟨query, found, query_read⟩ :=
        Query.read_extended outside (announcePath (Urls.url announce).tail) request
      rw [read] at query_read
      exact ⟨query, found, query_read⟩

/-- A torrent with a local tracker, and another one that is asked with a key. -/
def keyed : Value :=
  .dict [(ascii "announce", .str (ascii "http://local/a")),
    (ascii "announce-list", .list [.list [.str (ascii "http://t:80/a?k=v")]]),
    (ascii "info", .dict [(ascii "length", .int 5), (ascii "name", .str (ascii "f")),
      (ascii "piece length", .int 8), (ascii "pieces", .str (List.replicate 20 7))])]

def keyedFile : StringWrapper := .ofBytes keyed.encode (by decide +kernel)

/-- The tail of a `Url` has one character more than the path. -/
@[reducible] def keyedTracker : Urls where
  url _ := ⟨true, ascii "http", ascii "t", ascii "80", ascii "a?k=v" ++ [0]⟩
  resolves _ := true

set_option maxRecDepth 2000 in
omit [Urls] in
theorem generateUrl_announces_keyed :
    ∃ tf out query,
      @new SubStrings.cut (exactExternals id) [] keyedFile = .done () tf ∧
      @generateUrl keyedTracker tf = .ok out ∧ Query.behind out = some query ∧
      Query.read query =
        some ((ascii "k", ascii "v") :: tf.announced clientPeerId 12345) := by
  have text : keyedFile.bytes = keyed.encode := StringWrapper.bytes_ofBytes _ _
  have ⟨tf, accepted, announces⟩ : ∃ tf,
      @new SubStrings.cut (exactExternals id) [] keyedFile = .done () tf ∧
      tf.availableAnnounces = [ascii "http://local/a", ascii "http://t:80/a?k=v"] := by
    rw [@new_value SubStrings.cut (exactExternals id) _ _ text]
    exact ⟨_, rfl, rfl⟩
  obtain ⟨-, asked⟩ := @generateUrl_announces keyedTracker SubStrings.cut (exactExternals id) _ _ _
    accepted
  obtain ⟨out, made, -, -, with_path⟩ :=
    asked [ascii "http://local/a"] (ascii "http://t:80/a?k=v") [] announces (by decide) (by decide)
      (by decide) (by decide)
  obtain ⟨query, found, read⟩ := with_path (by decide)
  refine ⟨tf, out, query, accepted, made, found, read.trans ?_⟩
  rfl

end Metainfo

end TorrentClient
