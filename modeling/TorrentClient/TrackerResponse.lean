import TorrentClient.BeParser
import TorrentClient.TokenListProcessor

/-!
# The answer of a tracker

`TrackerResponse` fills its fields from the tokens of an answer. The peers are a
string of six bytes for each of them, or a list of dictionaries.
-/

namespace TorrentClient

/-- The fields of a `sockaddr_in`, with the bytes of the address and of the port
as they lie in memory. -/
structure SockaddrIn where
  family : Nat := 0
  addr : Bytes := [0, 0, 0, 0]
  port : Bytes := [0, 0]
  deriving DecidableEq, Repr

/-- `AF_INET` -/
def afInet : Nat := 2

structure TrackerResponse.Peer where
  id : Bytes := []
  ip : Bytes := []
  port : Nat := 0
  saddr : SockaddrIn := {}
  deriving DecidableEq, Repr

/-- What is called to turn an address into a text and back, `none` where
`inet_ntop` fails and where `IpAddr::get_sockaddr_in` throws, and the room for the
vector of peers. -/
class Network extends Heap TrackerResponse.Peer where
  inetNtop : Bytes → Option Bytes
  getSockaddrIn : Bytes → Nat → Option SockaddrIn

structure TrackerResponse where
  peers : List TrackerResponse.Peer := []
  failureReason : Bytes := []
  warning : Bytes := []
  trackerId : Bytes := []
  interval : Nat := 0
  minInterval : Nat := 0
  complete : Nat := 0
  incomplete : Nat := 0
  valid : Bool := false
  deriving DecidableEq, Repr

namespace TrackerResponse

def fillFailureReason : Filler TrackerResponse :=
  fillStr fun value tr => { tr with failureReason := value }

def fillWarning : Filler TrackerResponse := fillStr fun value tr => { tr with warning := value }

def fillInterval : Filler TrackerResponse := fillInt fun value tr => { tr with interval := value }

def fillMinInterval : Filler TrackerResponse :=
  fillInt fun value tr => { tr with minInterval := value }

def fillTrackerId : Filler TrackerResponse :=
  fillStr fun value tr => { tr with trackerId := value }

def fillComplete : Filler TrackerResponse := fillInt fun value tr => { tr with complete := value }

def fillIncomplete : Filler TrackerResponse :=
  fillInt fun value tr => { tr with incomplete := value }

section
variable [Network]

/-- The loop of `fill_peers_compact`, with the bytes from `curr` on. -/
def compactLoop : List Peer → (curr : Bytes) → Outcome Thrown (List Peer) Unit
  | [], _ => .done () []
  | peer :: peers, curr =>
    if curr.length < 4 then .fault .outOfBounds (peer :: peers)
    else
      match Network.inetNtop (curr.take 4) with
      | none => .thrown (.runtimeError "invalid ip") (peer :: peers)
      | some ip =>
        let port := (curr.drop 4).take 2
        if port.length < 2 then .fault .outOfBounds ({ peer with ip := ip } :: peers)
        else
          (compactLoop peers (curr.drop 6)).lift ({ peer with
            ip := ip
            port := ntohs port
            saddr := { family := afInet, addr := curr.take 4, port := port } } :: ·)

/-- `fill_peers_compact`, at the string. -/
def storeCompact (t : Lexeme) (tr : TrackerResponse) : Outcome Thrown TrackerResponse Unit :=
  match Heap.refuses Peer (t.size / 6) with
  | some e => .thrown e tr
  | none =>
    (compactLoop (resize tr.peers (t.size / 6) {}) t.window).lift
      fun peers => { tr with peers := peers }

variable {t : Lexeme} {tr : TrackerResponse}

theorem storeCompact_refused {e : Thrown} (refused : Heap.refuses Peer (t.size / 6) = some e) :
    tr.storeCompact t = .thrown e tr := by
  rw [storeCompact, refused]

theorem storeCompact_granted (granted : Heap.refuses Peer (t.size / 6) = none) :
    tr.storeCompact t = (compactLoop (resize tr.peers (t.size / 6) {}) t.window).lift
      fun peers => { tr with peers := peers } := by
  rw [storeCompact, granted]

/-- `m_peers.back().saddr = IpAddr::get_sockaddr_in(..)` -/
def closePeer (tr : TrackerResponse) : Outcome Thrown TrackerResponse Unit :=
  match tr.peers.getLast? with
  | none => .fault .outOfBounds tr
  | some peer =>
    match Network.getSockaddrIn peer.ip peer.port with
    | none => .thrown .ipAddr tr
    | some saddr =>
      .done () { tr with peers := tr.peers.dropLast ++ [{ peer with saddr := saddr }] }

def setBack (f : Peer → Peer) (tr : TrackerResponse) : Outcome Thrown TrackerResponse Unit :=
  match modifyBack f tr.peers with
  | none => .fault .outOfBounds tr
  | some peers => .done () { tr with peers := peers }

/-- What a key and its value set in the last peer. -/
def storeDetail (key value : Bytes) (tr : TrackerResponse) :
    Outcome Thrown TrackerResponse Unit :=
  if key = ascii "peer id" then tr.setBack fun peer => { peer with id := value }
  else if key = ascii "ip" then tr.setBack fun peer => { peer with ip := value }
  else if key = ascii "port" then
    (Outcome.ofExcept (stoll value) tr).bind fun port tr =>
      tr.setBack fun peer => { peer with port := toUInt64 port % 2 ^ 16 }
  else .done () tr

/-- The loop of `fill_peers_detail`, which only ends when there are no more tokens. -/
def detailLoop : (cursor : List Lexeme) → TrackerResponse → Outcome Thrown TrackerResponse Unit
  | [], tr => .done () tr
  | t :: cursor, tr =>
    match t.type with
    | .dictStart => detailLoop cursor { tr with peers := tr.peers ++ [{}] }
    | .dictEnd => tr.closePeer.bind fun _ tr => detailLoop cursor tr
    | .str =>
      (Outcome.ofExcept t.text tr).bind fun key tr =>
        match cursor with
        | [] => .fault .outOfBounds tr
        | v :: rest =>
          (Outcome.ofExcept v.text tr).bind fun value tr =>
            (tr.storeDetail key value).bind fun _ tr => detailLoop rest tr
    | _ => detailLoop cursor tr

/-- `fill_peers_detail`, at the first token of the value. -/
def fillPeersDetail (t : Lexeme) (cursor : List Lexeme) (tr : TrackerResponse) :
    Outcome Thrown TrackerResponse (List Lexeme) :=
  if t.type = .listStart then (detailLoop cursor tr).map fun _ => []
  else .thrown (.runtimeError "invalid betype. expected list_start") tr

/-- `fill_peers` -/
def fillPeers : Filler TrackerResponse where
  run cursor tr :=
    match cursor.tail with
    | [] => .fault .outOfBounds tr
    | t :: rest =>
      if t.type = .str then (tr.storeCompact t).map fun _ => rest
      else fillPeersDetail t rest tr
  moves {t cursor s rest s'} h := by
    cases cursor with
    | nil => cases h
    | cons v cursor =>
      dsimp only [List.tail_cons, fillPeersDetail] at h
      split at h
      · obtain ⟨_, _, _, later⟩ := Outcome.bind_eq_done h
        cases later
        exact Nat.le_succ _
      · split at h
        · obtain ⟨_, _, _, later⟩ := Outcome.bind_eq_done h
          cases later
          exact Nat.zero_le _
        · cases h

def fillers : List (Bytes × Filler TrackerResponse) :=
  [(ascii "peers", fillPeers), (ascii "interval", fillInterval),
    (ascii "complete", fillComplete), (ascii "incomplete", fillIncomplete),
    (ascii "tracker id", fillTrackerId), (ascii "min interval", fillMinInterval),
    (ascii "failure reason", fillFailureReason), (ascii "warning message", fillWarning)]

/-- The end of the constructor. -/
def validate (tr : TrackerResponse) : TrackerResponse :=
  if tr.failureReason = [] ∧ tr.warning = [] ∧ tr.peers ≠ [] then { tr with valid := true } else tr

/-- The constructor. -/
def new (tokens : List Lexeme) : Outcome Thrown TrackerResponse Unit :=
  match tokens with
  | [] => .fault .outOfBounds {}
  | t :: _ =>
    if t.type = .dictStart then
      (processLoop fillers tokens {}).bind fun _ tr => .done () tr.validate
    else .thrown (.runtimeError "invalid tracker respons. not a dict") {}

/-- `TrackerConnection::on_read`, at the body of an answer. -/
def receive [SubStrings] (source : StringWrapper) : Outcome Thrown TrackerResponse Unit :=
  (Outcome.ofExcept (BeParser.parse source) {}).bind fun tokens _ =>
    new (tokens.map (·.on source))

end

end TrackerResponse

end TorrentClient
