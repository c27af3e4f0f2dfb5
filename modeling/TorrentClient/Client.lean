import TorrentClient.Connections
import TorrentClient.Conversation
import TorrentClient.DownloadManager
import TorrentClient.TrackerAnswers

/-!
# The client of a torrent

The tracker is asked for peers, and the client connects to the peers of its answers. The
connections share the pieces and the files of the torrent.
-/

namespace TorrentClient

variable {β φ : Type}

/-- The text that `TrackerConnection::on_write` writes. The tail loses its last character. -/
def Url.request (url : Url) : Bytes :=
  ascii "GET /" ++ url.tail.dropLast ++ ascii " HTTP/1.1\r\nHost: " ++ url.host ++ ascii ":" ++
    url.port ++ ascii "\r\nAccept: */*\r\nUser-Agent: asdf\r\nConnection: close\r\n\r\n"

/-- How the calls on the socket of a peer end: with an exception before there is a client, or
with a client, whose constructor draws random bytes and finds some bytes in its buffer. -/
inductive Dial where
  | failed
  | made (random : { bytes : Bytes // bytes.length = 20 }) (buffer : Buffer)

def Dial.isMade : Dial → Bool
  | made _ _ => true
  | failed => false

/-- The peers that are connected to, when the calls for them end like this. -/
def dialed {α : Type} (peers : List α) (dials : List Dial) : List α :=
  ((peers.zip dials).filter (·.2.isMade)).map (·.1)

/-- A tracker connection, with the members it shares with the connections to its peers. -/
structure Client (β φ : Type) where
  url : Url
  infoHash : Bytes
  tracker : TrackerConnection
  /-- The requests that were written to the tracker. -/
  requests : List Bytes
  /-- The peers that were connected to. -/
  remotes : List TrackerResponse.Peer
  connections : Connections β φ

inductive ClientEvent where
  | trackerWrite (throws : Bool)
  | trackerRead (results : List ReadResult) (dials : List Dial)
  | poller (event : PollerEvent)

/-- Connections are only made to the peers of an answer. -/
def PollerEvent.Connects : PollerEvent → Prop
  | connect _ _ _ => True
  | read _ _ | write _ _ | destroy _ => False

instance : DecidablePred PollerEvent.Connects
  | .connect _ _ _ => .isTrue trivial
  | .read _ _ | .write _ _ | .destroy _ => .isFalse id

namespace Client

/-- The client as `main` sets it up for a torrent file. -/
def new (url : Url) (tf : Metainfo) (files : φ) (buffer : TrackerBuffer) : Client β φ where
  url := url
  infoHash := tf.infoSha1
  tracker := ⟨.waitForWrite, buffer, 0, []⟩
  requests := []
  remotes := []
  connections := ⟨[], .new tf.toTorrentFile, files, []⟩

/-- `TrackerConnection::on_write` -/
def trackerWrite (c : Client β φ) (throws : Bool) : Client β φ :=
  if c.tracker.state ≠ .waitForWrite then c
  else if throws then c
  else { c with
    tracker := { c.tracker with state := .waitForRead }
    requests := c.requests ++ [c.url.request] }

section
variable [BitSet β]

/-- The body of the loop of `TrackerConnection::on_read`. An exception is printed. -/
def connectPeer (c : Client β φ) (peer : TrackerResponse.Peer) :
    Dial → Outcome Thrown (Client β φ) Unit
  | .failed => .done () c
  | .made random buffer =>
    match PeerProtocol.new c.infoHash random.val c.connections.shared.pieceList with
    | .done _ p => .done () { c with
        remotes := c.remotes ++ [peer]
        connections := { c.connections with
          connections := c.connections.connections ++ [some (.made buffer p)] } }
    | .thrown _ _ => .done () c
    | .fault r _ => .fault r c

/-- The loop over the peers of an answer. A peer without a `Dial` is not connected to. -/
def connectPeers (c : Client β φ) :
    List TrackerResponse.Peer → List Dial → Outcome Thrown (Client β φ) Unit
  | [], _ => .done () c
  | peer :: peers, dials =>
    (c.connectPeer peer (dials.headD .failed)).bind fun _ c => c.connectPeers peers dials.tail

/-- The peers of all answers. -/
def listed (c : Client β φ) : List TrackerResponse.Peer :=
  c.tracker.received.flatMap (·.response.peers)

variable [SubStrings] [Network]

/-- `TrackerConnection::on_read`, with the connections to the peers of the answer, if the bytes
had one. -/
def trackerRead (c : Client β φ) (results : List ReadResult) (dials : List Dial) :
    Outcome Thrown (Client β φ) Unit :=
  ((c.tracker.onRead results).lift fun tracker => { c with tracker := tracker }).bind fun _ c' =>
    c'.connectPeers (c'.listed.drop c.listed.length) dials

/-- A callback that throws leaves the client as it is then. -/
def step [Files φ] (c : Client β φ) : ClientEvent → Option (Client β φ)
  | .trackerWrite throws => some (c.trackerWrite throws)
  | .trackerRead results dials =>
    match c.trackerRead results dials with
    | .done _ c' | .thrown _ c' => some c'
    | .fault _ _ => none
  | .poller event =>
    if event.Connects then none
    else (c.connections.step event).map fun connections => { c with connections := connections }

end

/-- The client of a torrent with at least one piece. -/
def Start (c : Client β φ) : Prop :=
  ∃ url tf files buffer, tf.pieces.val ≠ [] ∧ c = new url tf files buffer

/-- The reads of the callbacks of peers return what they may. -/
def ReadsBounded [BitSet β] [Files φ] (c : Client β φ) : ClientEvent → Prop
  | .poller event => c.connections.ReadsBounded event
  | .trackerWrite _ | .trackerRead _ _ => True

instance [BitSet β] [Files φ] (c : Client β φ) (event : ClientEvent) :
    Decidable (c.ReadsBounded event) :=
  match event with
  | .poller event => inferInstanceAs (Decidable (c.connections.ReadsBounded event))
  | .trackerWrite _ | .trackerRead _ _ => .isTrue trivial

end Client

/-! ## What the peers are greeted with -/

namespace Swarm

variable [BitSet β] [Files φ] {w w' : Swarm β φ}

/-- The messages queued for a peer are added to, and no peer takes the place of another. -/
structure Adds (w w' : Swarm β φ) : Prop where
  length : w.peers.length ≤ w'.peers.length
  messages : ∀ i < w.peers.length, ∀ s', w'.view i = some s' →
    ∃ s, w.view i = some s ∧ s.protocol.messages <+: s'.protocol.messages

omit [BitSet β] [Files φ] in
theorem Adds.refl (w : Swarm β φ) : w.Adds w :=
  ⟨Nat.le_refl _, fun _ _ s live => ⟨s, live, List.prefix_refl _⟩⟩

omit [BitSet β] [Files φ] in
theorem Adds.trans {w₁ w₂ w₃ : Swarm β φ} (h : w₁.Adds w₂) (h' : w₂.Adds w₃) : w₁.Adds w₃ := by
  refine ⟨Nat.le_trans h.length h'.length, fun i below s₃ live => ?_⟩
  obtain ⟨s₂, live₂, more'⟩ := h'.messages i (Nat.lt_of_lt_of_le below h.length) s₃ live
  obtain ⟨s₁, live₁, more⟩ := h.messages i below s₂ live₂
  exact ⟨s₁, live₁, more.trans more'⟩

theorem step_adds {a : Action} (stepped : w.step a = some w') : w.Adds w' := by
  rcases step_cases stepped with ⟨infoHash, random, p, rfl, -, rfl⟩ | ⟨other, p, rfl, -, rfl⟩ |
    ⟨other, type, data, size, s, rfl, -, hs, safe, rfl⟩
  · refine ⟨by simp, fun i below s' live => ⟨s', ?_, List.prefix_refl _⟩⟩
    exact view_of_getElem? (w := { w with peers := w.peers ++ [some p] }) live
      (List.getElem?_append_left below).symm
  · exact ⟨by simp, fun i _ s' live => ⟨s', view_destroy live, List.prefix_refl _⟩⟩
  · refine ⟨by simp [put], fun i _ s' live => ?_⟩
    obtain ⟨said, told, -⟩ := Peer.handlers_tells safe
    rcases view_put live with ⟨rfl, rfl⟩ | ⟨p, old, rfl⟩
    · exact ⟨s, hs, told ▸ List.prefix_append _ _⟩
    · exact ⟨_, old, List.prefix_refl _⟩

theorem steps_adds (run : Steps step anyStep w w') : w.Adds w' := by
  induction run with
  | refl => exact .refl _
  | next _ _ stepped ih => exact ih.trans (step_adds stepped)

omit [BitSet β] [Files φ] in
/-- The first message queued for each peer is the handshake with this info hash. -/
def Opens (infoHash : Bytes) (w : Swarm β φ) : Prop :=
  ∀ i s, w.view i = some s → ∃ random hello,
    PeerProtocol.handshake infoHash random = some hello ∧ s.protocol.messages.head? = some hello

omit [BitSet β] [Files φ] in
theorem Opens.adds {infoHash : Bytes} (h : w.Opens infoHash) (adds : w.Adds w')
    (length : w'.peers.length = w.peers.length) : w'.Opens infoHash := by
  intro i s' live
  obtain ⟨below, -⟩ := List.getElem?_eq_some_iff.1 (peer?_eq_some.1 (view_eq_some.1 live).1)
  obtain ⟨s, before, more⟩ := adds.messages i (length ▸ below) s' live
  obtain ⟨random, hello, built, first⟩ := h i s before
  refine ⟨random, hello, built, ?_⟩
  obtain ⟨rest, eq⟩ := more
  rw [← eq, List.head?_append, first, Option.some_or]

end Swarm

namespace Connections

variable [BitSet β] {n n' : Connections β φ} {infoHash : Bytes}

/-- A connection more, to a peer that nothing was said to. -/
structure Joined (infoHash : Bytes) (n n' : Connections β φ) : Prop where
  length : n'.connections.length = n.connections.length + 1
  opens : n.swarm.Opens infoHash → n'.swarm.Opens infoHash
  steps : ∀ [Files φ], Steps step ReadsBounded n n'

theorem joined {random : Bytes} (buffer : Buffer) {p : PeerProtocol β}
    (made : PeerProtocol.new infoHash random n.shared.pieceList = .done () p) :
    Joined infoHash n
      { n with connections := n.connections ++ [some (.made buffer p)] } := by
  refine ⟨by simp, fun opens i s live => ?_, ?_⟩
  · have new : swarm { n with connections := n.connections ++ [some (.made buffer p)] } =
        { n.swarm with peers := n.swarm.peers ++ [some p] } := by
      simp [swarm, Connection.made, ClientLogic.connected]
    rw [new] at live
    rcases Swarm.view_connect live with old | ⟨-, same⟩
    · exact opens i s old
    · obtain ⟨-, hello, built, messages⟩ := Swarm.new_told made
      exact ⟨random, hello, built, by rw [same, messages]; rfl⟩
  · refine .next (.refl _) (a := .connect infoHash random buffer) trivial ?_
    simp only [step, made]

variable [Files φ]

theorem step_length {e : PollerEvent} (existing : ¬ e.Connects) (stepped : n.step e = some n') :
    n'.connections.length = n.connections.length := by
  cases e with
  | connect infoHash random buffer => exact absurd trivial existing
  | read i results =>
    obtain ⟨connection, -, stepped⟩ := Option.bind_eq_some_iff.1 stepped
    split at stepped <;> cases stepped <;> exact List.length_set
  | write i throws =>
    obtain ⟨connection, -, stepped⟩ := Option.bind_eq_some_iff.1 stepped
    dsimp only at stepped
    split at stepped <;> cases stepped <;> exact List.length_set
  | destroy i =>
    obtain ⟨connection, -, rfl⟩ := Option.map_eq_some_iff.1 stepped
    exact List.length_set

end Connections

theorem PeerProtocol.handshake_built {infoHash random : Bytes} (hash : infoHash.length = 20)
    (drawn : random.length = 20) : ∃ hello, handshake infoHash random = some hello := by
  have fits (cells : Message) (i : Nat) (src : Bytes) (n : Nat) (all : n ≤ src.length)
      (room : i + n ≤ cells.length) :
      ∃ cells', memcpy cells i src 0 n = some cells' ∧ cells'.length = cells.length := by
    have whole : 0 + n ≤ src.length := by rwa [Nat.zero_add]
    have copied := @memcpy_eq _ cells i src 0 n whole room
    exact ⟨_, copied, memcpy_length copied⟩
  have start : (List.replicate handshakeSize none : Message).length = 68 := List.length_replicate
  obtain ⟨m₁, copied₁, same₁⟩ := fits (List.replicate handshakeSize none) 0
    [UInt8.ofNat protocolName.length] 1 (by decide) (by rw [start]; decide)
  obtain ⟨m₂, copied₂, same₂⟩ := fits m₁ 1 protocolName protocolName.length (Nat.le_refl _)
    (by rw [same₁, start]; decide)
  obtain ⟨m₃, copied₃, same₃⟩ := fits m₂ 28 infoHash infoHash.length (Nat.le_refl _)
    (by rw [same₂, same₁, start]; omega)
  obtain ⟨hello, copied, -⟩ := fits m₃ 48 random 20 (by omega)
    (by rw [same₃, same₂, same₁, start])
  refine ⟨hello, ?_⟩
  simp only [handshake, copied₁, copied₂, copied₃, Option.bind_some, copied]

namespace Client

/-! ## What the client does with an answer -/

variable [BitSet β] {c c' : Client β φ} {peers peers' : List TrackerResponse.Peer}

/-- The client has connected to some of these peers, in their order. -/
structure Joins (c c' : Client β φ) (peers : List TrackerResponse.Peer) : Prop where
  url : c'.url = c.url
  infoHash : c'.infoHash = c.infoHash
  tracker : c'.tracker = c.tracker
  requests : c'.requests = c.requests
  remotes : ∃ chosen, chosen.Sublist peers ∧ c'.remotes = c.remotes ++ chosen ∧
    c'.connections.connections.length = c.connections.connections.length + chosen.length
  shared : c'.connections.shared = c.connections.shared
  opens : c.connections.swarm.Opens c.infoHash → c'.connections.swarm.Opens c.infoHash
  steps : ∀ [Files φ],
    Steps Connections.step Connections.ReadsBounded c.connections c'.connections

theorem Joins.none (c : Client β φ) (peers : List TrackerResponse.Peer) : Joins c c peers :=
  ⟨rfl, rfl, rfl, rfl, ⟨[], List.nil_sublist _, (List.append_nil _).symm, rfl⟩, rfl, id,
    .refl _⟩

theorem Joins.trans {c₁ c₂ c₃ : Client β φ} (h : Joins c₁ c₂ peers) (h' : Joins c₂ c₃ peers') :
    Joins c₁ c₃ (peers ++ peers') := by
  obtain ⟨chosen, sub, remotes, length⟩ := h.remotes
  obtain ⟨chosen', sub', remotes', length'⟩ := h'.remotes
  refine ⟨h'.url.trans h.url, h'.infoHash.trans h.infoHash, h'.tracker.trans h.tracker,
    h'.requests.trans h.requests, ⟨chosen ++ chosen', sub.append sub', ?_, ?_⟩,
    h'.shared.trans h.shared, ?_, ?_⟩
  · rw [remotes', remotes, List.append_assoc]
  · rw [length', length, List.length_append, Nat.add_assoc]
  · exact fun opens => h.infoHash ▸ h'.opens (h.infoHash ▸ h.opens opens)
  · exact h.steps.trans h'.steps

theorem connectPeer_joins (c : Client β φ) (peer : TrackerResponse.Peer) (dial : Dial) :
    Joins c (c.connectPeer peer dial).state [peer] := by
  cases dial with
  | failed => exact .none c _
  | made random buffer =>
    rw [connectPeer]
    split
    · rename_i made
      have joined := Connections.joined buffer made
      exact ⟨rfl, rfl, rfl, rfl, ⟨[peer], List.Sublist.refl _, rfl, joined.length⟩, rfl,
        joined.opens, joined.steps⟩
    · exact .none c _
    · exact .none c _

theorem connectPeers_joins (peers : List TrackerResponse.Peer) :
    ∀ (c : Client β φ) (dials : List Dial), Joins c (c.connectPeers peers dials).state peers := by
  induction peers with
  | nil => exact fun c _ => .none c []
  | cons peer peers ih =>
    intro c dials
    have first := connectPeer_joins c peer (dials.headD .failed)
    rw [connectPeers]
    cases connected : c.connectPeer peer (dials.headD .failed) with
    | done _ c₁ =>
      rw [connected] at first
      exact first.trans (ih c₁ dials.tail)
    | thrown e c₁ | fault r c₁ =>
      rw [connected] at first
      exact first.trans (.none c₁ peers)

/-- The constructor of a peer protocol returns: the info hash fits where it is copied to, and the
bits can be bound. -/
structure Welcomes (c : Client β φ) : Prop where
  hash : c.infoHash.length = 20
  binds : ∃ bits, BitSet.bind (BitSet.unbound : β)
    (add64 (c.connections.shared.pieceList.numberOfPieces / 8) 1) = some bits

theorem Welcomes.joins (h : Welcomes c) (joins : Joins c c' peers) : Welcomes c' := by
  refine ⟨?_, ?_⟩
  · rw [joins.infoHash]
    exact h.hash
  · rw [joins.shared]
    exact h.binds

theorem Welcomes.connectPeer (h : Welcomes c) (peer : TrackerResponse.Peer) (dial : Dial) :
    ∃ c', c.connectPeer peer dial = .done () c' ∧
      c'.remotes = c.remotes ++ if dial.isMade then [peer] else [] := by
  cases dial with
  | failed => exact ⟨c, rfl, (List.append_nil _).symm⟩
  | made random buffer =>
    obtain ⟨bits, bound⟩ := h.binds
    obtain ⟨hello, built⟩ := PeerProtocol.handshake_built h.hash random.property
    simp only [Client.connectPeer, PeerProtocol.new, bound, built]
    exact ⟨_, rfl, rfl⟩

theorem Welcomes.connectPeers (peers : List TrackerResponse.Peer) : ∀ {c : Client β φ},
    Welcomes c → ∀ dials, ∃ c', c.connectPeers peers dials = .done () c' ∧
      c'.remotes = c.remotes ++ dialed peers dials := by
  induction peers with
  | nil => exact fun {c} _ _ => ⟨c, rfl, (List.append_nil _).symm⟩
  | cons peer peers ih =>
    intro c h dials
    obtain ⟨c₁, connected, first⟩ := h.connectPeer peer (dials.headD .failed)
    have joins := connectPeer_joins c peer (dials.headD .failed)
    rw [connected] at joins
    obtain ⟨c', rest, more⟩ := ih (h.joins joins) dials.tail
    refine ⟨c', ?_, ?_⟩
    · rw [Client.connectPeers, connected]
      exact rest
    · rw [more]
      show c₁.remotes ++ _ = _
      rw [first, List.append_assoc]
      congr 1
      cases dials with
      | nil => simp [dialed, Dial.isMade]
      | cons dial dials =>
        cases dial with
        | failed => simp [dialed, Dial.isMade]
        | made random buffer => simp [dialed, Dial.isMade]

section
variable [SubStrings] [Network]

/-- An answer that is read on its own, behind a blank line. -/
theorem Welcomes.trackerRead (h : Welcomes c) (steady : SubStrings.Steady)
    (waiting : c.tracker.state = .waitForRead) {event : Event}
    (inside : event.bytes.length < trackerCapacity) {i n : Nat}
    (found : blankLine event.bytes = some (i, n)) {source : StringWrapper}
    (text : source.bytes = event.bytes.drop (i + n)) (alone : source.data = source.bytes ++ [0])
    {tr : TrackerResponse} (response : TrackerResponse.receive source = .done () tr)
    (dials : List Dial) :
    ∃ c', c.trackerRead event.results dials = .done () c' ∧
      c'.tracker.received = c.tracker.received ++ [⟨source.bytes, tr⟩] ∧
      c'.remotes = c.remotes ++ dialed tr.peers dials := by
  obtain ⟨t, read, received⟩ :=
    TrackerConnection.onRead_response steady waiting inside found text alone response
  have peers : (listed { c with tracker := t }).drop c.listed.length = tr.peers := by
    have answered : listed { c with tracker := t } = c.listed ++ tr.peers := by
      rw [listed, listed, received, List.flatMap_append, List.flatMap_singleton]
    rw [answered, List.drop_left]
  have same : Welcomes { c with tracker := t } := ⟨h.hash, h.binds⟩
  obtain ⟨c', connected, remotes⟩ := same.connectPeers tr.peers dials
  have joins := connectPeers_joins tr.peers { c with tracker := t } dials
  rw [connected] at joins
  refine ⟨c', ?_, ?_, remotes⟩
  · rw [Client.trackerRead, read, Outcome.lift_done, Outcome.bind_done, peers, connected]
  · rw [show c'.tracker = t from joins.tracker, received]

/-- **The peers of an answer are connected to, one after another.** Of every answer behind a
header the client reads the fields back, and it connects to each peer whose calls do not fail, in
the order of the answer, also when the answer has a reason for a failure. -/
theorem answer_connects [LawfulNetwork] (h : Welcomes c) (steady : SubStrings.Steady)
    (waiting : c.tracker.state = .waitForRead) {a : TrackerAnswer} (inRange : a.InRange)
    {known : List KnownPeer} {form : PeersForm} (takes : form.Takes known)
    {header : Bytes} (ends : blankLine (header ++ crlf2) = Option.some (header.length, 4))
    {event : Event} (bytes : event.bytes = header ++ crlf2 ++ (a.body known form).encode)
    (inside : event.bytes.length < trackerCapacity) (dials : List Dial) :
    ∃ c', c.trackerRead event.results dials = .done () c' ∧
      c'.tracker.received = c.tracker.received ++
        [⟨(a.body known form).encode, a.reads known form⟩] ∧
      c'.remotes = c.remotes ++ dialed (a.reads known form).peers dials := by
  have small : (a.body known form).encode.length < 2 ^ 63 := by
    rw [bytes, List.length_append] at inside
    exact Nat.lt_trans (Nat.lt_of_le_of_lt (Nat.le_add_left _ _) inside) (by decide)
  have text := StringWrapper.bytes_ofBytes (a.body known form).encode small
  have found : blankLine event.bytes = Option.some (header.length, 4) :=
    bytes ▸ blankLine_append ends _
  have behind : event.bytes.drop (header.length + 4) = (a.body known form).encode := by
    have four : header.length + 4 = (header ++ crlf2).length := by
      rw [List.length_append]
      rfl
    rw [bytes, four, List.drop_left]
  obtain ⟨c', read, received, remotes⟩ := h.trackerRead steady waiting inside found
    (text.trans behind.symm) (by rw [text]; rfl) (TrackerResponse.receive_body inRange takes text)
    dials
  exact ⟨c', read, by rw [received, text], remotes⟩

end

/-- A torrent of two pieces, with a hash. -/
def small : Metainfo :=
  { toTorrentFile := Swarm.twoPieces, path := [], infoSha1 := List.replicate 20 7 }

def smallUrl : Url := ⟨true, [], ascii "a", ascii "80", ascii "announce?"⟩

/-- Its client, when the request is written. -/
def asking : Client (List Bool) (List Bool) := (new smallUrl small [] .zeroed).trackerWrite false

theorem asking_welcomes : Welcomes asking := ⟨rfl, _, rfl⟩

/-- An answer with a peer. -/
def listing : Bytes :=
  (TrackerAnswer.body { interval := some 1800 } [TrackerResponse.somePeer] .string).encode

def listingEvent : Event :=
  ⟨[TrackerConnection.header ++ crlf2 ++ listing], by simp [crlf2]⟩

def dialing : List Dial := [.made ⟨List.replicate 20 0, rfl⟩ zeroBuffer]

theorem interval_inRange : TrackerAnswer.InRange { interval := some 1800 } := by
  refine ⟨?_, ?_, ?_, ?_⟩
  · rintro z ⟨⟩
  · rintro z ⟨⟩
  · rintro z ⟨⟩
    decide
  · rintro z ⟨⟩

theorem answer_connects_one :
    ∃ c', @trackerRead (List Bool) (List Bool) _ SubStrings.cut Network.ipv4 asking
        listingEvent.results dialing = .done () c' ∧
      c'.remotes = [TrackerResponse.somePeer.peer []] := by
  let _ := SubStrings.cut
  let _ := Network.ipv4
  have _ := Network.ipv4_lawful
  have known : PeersForm.string.Takes [TrackerResponse.somePeer] := rfl
  have ends : blankLine (TrackerConnection.header ++ crlf2) =
      some (TrackerConnection.header.length, 4) := by decide
  have bytes : listingEvent.bytes = TrackerConnection.header ++ crlf2 ++ listing :=
    List.append_nil _
  obtain ⟨c', read, -, remotes⟩ := answer_connects asking_welcomes TrackerConnection.cut_steady rfl
    interval_inRange known ends bytes (by decide) dialing
  exact ⟨c', read, remotes⟩

/-! ## Every run of the client -/

/-- The tracker was not asked yet, or it was asked once, and the peers are some that it named. -/
structure Sound (url : Url) (infoHash : Bytes) (c : Client β φ) : Prop where
  tracks : c.url = url
  hashes : c.infoHash = infoHash
  asked : c.requests = [] ∧ c.tracker.state = .waitForWrite ∧ c.tracker.received = [] ∨
    c.requests = [url.request] ∧ c.tracker.state = .waitForRead
  remotes : c.remotes.Sublist c.listed
  length : c.remotes.length = c.connections.connections.length
  opens : c.connections.swarm.Opens infoHash

variable {url : Url} {infoHash : Bytes}

omit [BitSet β] in
theorem trackerWrite_sound (h : Sound url infoHash c) (throws : Bool) :
    Sound url infoHash (c.trackerWrite throws) := by
  unfold trackerWrite
  split
  · exact h
  · rename_i writes
    split
    · exact h
    · obtain ⟨none, -, -⟩ | ⟨-, reads⟩ := h.asked
      · refine ⟨h.tracks, h.hashes, Or.inr ⟨?_, rfl⟩, h.remotes, h.length, h.opens⟩
        rw [none, List.nil_append, h.tracks]
      · exact absurd (not_not.1 writes) (by rw [reads]; decide)

omit [BitSet β] in
/-- The client hears more from its tracker. -/
theorem Sound.hears (h : Sound url infoHash c) {tracker : TrackerConnection}
    (hears : c.tracker.Hears tracker)
    (silent : c.tracker.state = .waitForWrite → tracker = c.tracker) :
    Sound url infoHash { c with tracker := tracker } := by
  refine ⟨h.tracks, h.hashes, ?_, ?_, h.length, h.opens⟩
  · rcases h.asked with ⟨none, waits, nothing⟩ | ⟨once, reads⟩
    · rw [silent waits]
      exact Or.inl ⟨none, waits, nothing⟩
    · exact Or.inr ⟨once, hears.state.trans reads⟩
  · obtain ⟨more, received⟩ := hears.received
    refine h.remotes.trans ?_
    rw [listed, listed, ← received, List.flatMap_append]
    exact List.sublist_append_left _ _

/-- The client connects to peers of the last answers. -/
theorem Sound.joins (h : Sound url infoHash c) {front : List TrackerResponse.Peer}
    (before : c.remotes.Sublist front) (answered : c.listed = front ++ peers)
    (joins : Joins c c' peers) : Sound url infoHash c' := by
  obtain ⟨chosen, sub, remotes, length⟩ := joins.remotes
  refine ⟨joins.url.trans h.tracks, joins.infoHash.trans h.hashes, ?_, ?_, ?_, ?_⟩
  · rw [joins.requests, joins.tracker]
    exact h.asked
  · rw [listed, joins.tracker, ← listed, answered, remotes]
    exact before.append sub
  · rw [remotes, length, List.length_append, h.length]
  · exact h.hashes ▸ joins.opens (h.hashes ▸ h.opens)

section
variable [SubStrings] [Network]

theorem trackerRead_sound (h : Sound url infoHash c) (results : List ReadResult)
    (dials : List Dial) : Sound url infoHash (c.trackerRead results dials).state ∧
      ∀ [Files φ], Steps Connections.step Connections.ReadsBounded c.connections
        (c.trackerRead results dials).state.connections := by
  have hears := c.tracker.onRead_hears results
  have silent : c.tracker.state = .waitForWrite → (c.tracker.onRead results).state = c.tracker := by
    intro waits
    rw [TrackerConnection.onRead, if_pos (by rw [waits]; decide)]
    rfl
  have heard := h.hears hears silent
  unfold trackerRead
  cases read : c.tracker.onRead results with
  | thrown e t | fault r t =>
    rw [read] at heard
    exact ⟨heard, .refl _⟩
  | done _ t =>
    rw [read] at heard hears
    obtain ⟨more, received⟩ := hears.received
    have answered : listed { c with tracker := t } =
        c.listed ++ more.flatMap (·.response.peers) := by
      rw [listed, listed, ← List.flatMap_append]
      exact congrArg _ received.symm
    have joins := connectPeers_joins ((listed { c with tracker := t }).drop c.listed.length)
      { c with tracker := t } dials
    have last : (listed { c with tracker := t }).drop c.listed.length =
        more.flatMap (·.response.peers) := by rw [answered, List.drop_left]
    refine ⟨heard.joins h.remotes ?_ joins, joins.steps⟩
    rw [last]
    exact answered

variable [Files φ]

theorem step_sound (h : Sound url infoHash c) {e : ClientEvent} (bounded : c.ReadsBounded e)
    (reach : Reach Connections.Start Connections.step Connections.ReadsBounded c.connections)
    (stepped : c.step e = some c') : Sound url infoHash c' ∧
      Reach Connections.Start Connections.step Connections.ReadsBounded c'.connections := by
  cases e with
  | trackerWrite throws =>
    cases stepped
    refine ⟨trackerWrite_sound h throws, ?_⟩
    unfold trackerWrite
    split
    · exact reach
    · split <;> exact reach
  | trackerRead results dials =>
    obtain ⟨sound, steps⟩ := trackerRead_sound h results dials
    simp only [step] at stepped
    split at stepped
    · rename_i returned
      cases stepped
      rw [returned] at sound steps
      exact ⟨sound, reach.steps steps⟩
    · rename_i threw
      cases stepped
      rw [threw] at sound steps
      exact ⟨sound, reach.steps steps⟩
    · cases stepped
  | poller event =>
    simp only [step] at stepped
    split at stepped
    · cases stepped
    · rename_i existing
      obtain ⟨n, called, rfl⟩ := Option.map_eq_some_iff.1 stepped
      have length := Connections.step_length existing called
      have inside := (Connections.reach_swarm reach).2
      have run := (Connections.step_swarm inside bounded called).1
      refine ⟨⟨h.tracks, h.hashes, h.asked, h.remotes, h.length.trans length.symm, ?_⟩,
        .next reach bounded called⟩
      refine h.opens.adds (Swarm.steps_adds run) ?_
      rw [Connections.swarm, Connections.swarm, List.length_map, List.length_map, length]

/-- **Every connection goes back to an answer of the tracker.** Whatever the tracker and the
peers send, the tracker is asked once, and before that nothing is received; the connections are
made to peers that the answers list, in their order; the first message that is queued for each of
them is the handshake for the torrent; and what they do together is a run of the swarm. -/
theorem connections_listed {tf : Metainfo} {files : φ} {buffer : TrackerBuffer}
    (some : tf.pieces.val ≠ []) (h : Reach (· = new url tf files buffer) step ReadsBounded c) :
    (c.requests = [] ∧ c.tracker.received = [] ∨ c.requests = [url.request]) ∧
    c.remotes.Sublist c.listed ∧ c.remotes.length = c.connections.connections.length ∧
    (∀ i connection, c.connections.connection? i = Option.some connection →
      ∃ random hello, PeerProtocol.handshake tf.infoSha1 random = Option.some hello ∧
        (connection.sent.taken ++ connection.client.protocol.2.messages).head? =
          Option.some hello) ∧
    Reach Swarm.Start Swarm.step anyStep c.connections.swarm := by
  have kept := Reach.invariant (P := fun c => Sound url tf.infoSha1 c ∧
      Reach Connections.Start Connections.step Connections.ReadsBounded c.connections) ?_ ?_ h
  · obtain ⟨sound, reach⟩ := kept
    refine ⟨sound.asked.imp (fun asked => ⟨asked.1, asked.2.2⟩) (·.1), sound.remotes, sound.length,
      fun i connection live => ?_, (Connections.reach_swarm reach).1⟩
    exact sound.opens i _ (Connections.swarm_view live)
  · rintro c rfl
    refine ⟨⟨rfl, rfl, Or.inl ⟨rfl, rfl, rfl⟩, List.Sublist.refl _, rfl, ?_⟩,
      .start ⟨_, files, some, rfl⟩⟩
    intro i s live
    cases (Swarm.view_eq_some.1 live).1
  · rintro c e c' ⟨sound, reach⟩ bounded stepped
    exact step_sound sound bounded reach stepped

end

/-- The client of the small torrent connects to the peer of the answer. -/
theorem connections_listed_one :
    ∃ c, Reach (· = new smallUrl small [] .zeroed)
        (@step (List Bool) (List Bool) _ SubStrings.cut Network.ipv4 _) ReadsBounded c ∧
      c.requests = [smallUrl.request] ∧ c.remotes = [TrackerResponse.somePeer.peer []] ∧
      c.remotes.length = c.connections.connections.length := by
  let _ := SubStrings.cut
  let _ := Network.ipv4
  have _ := Network.ipv4_lawful
  have text := StringWrapper.bytes_ofBytes listing (by decide)
  have found : blankLine listingEvent.bytes = some (15, 4) := by decide
  have known : PeersForm.string.Takes [TrackerResponse.somePeer] := rfl
  obtain ⟨c, read, received, remotes⟩ := asking_welcomes.trackerRead TrackerConnection.cut_steady
    rfl (by decide) found (text.trans rfl) (by rw [text]; rfl)
    (TrackerResponse.receive_body interval_inRange known text) dialing
  have stepped : step asking (.trackerRead listingEvent.results dialing) = some c := by
    simp only [step, read]
  have asked : Reach (· = new smallUrl small [] .zeroed) step ReadsBounded asking :=
    .next (.start rfl) (show ReadsBounded _ (.trackerWrite false) from trivial) rfl
  have run := asked.next (show ReadsBounded _ (.trackerRead _ _) from trivial) stepped
  obtain ⟨requests, -, length, -⟩ := connections_listed (by decide) run
  refine ⟨c, run, requests.resolve_left ?_, remotes, length⟩
  rintro ⟨-, nothing⟩
  rw [received] at nothing
  cases nothing

end Client

end TorrentClient
