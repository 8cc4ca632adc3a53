import Raticode.DeviceFraming

/-! `gofer.devices.registry`: the table of peers, and the operations of local users
and of the network on it. Each runs in a transaction, so one that raises leaves the
table as it was. -/
namespace Raticode.Device
open PyDocument

def maxPeers : ℕ := 128

inductive PeerState where
  | pending | outboundPending | confirmed | active | revoked
  deriving DecidableEq, Repr

structure Routes where
  initiatorTopic : Str
  responderTopic : Str
  deriving DecidableEq

/-- A row of `peers`. -/
structure Peer where
  deviceId : Str
  pin : Bytes
  role : Str
  state : PeerState
  revision : ℤ
  created : ℚ
  lastSeen : Option ℚ
  expires : Option ℚ
  routes : Option Routes
  capabilities : List Value
  generation : Str

structure Registry where
  /-- `identity.device_id`. -/
  identity : Str
  peers : List Peer

/-- A `PairingError` by its code; the `StorageError` of routes that cannot be read; and
the `TypeError` of a comparison. -/
inductive PairingError where
  | invalidDeviceId | invalidPeer | peerQuota | peerConflict | peerUnavailable
  | enrollmentExpired | identityChanged | invalidReadyAck | invalidRemoteReady
  | remoteTrustConflict | revokedPeerRequired | useRemoveRevoked
  | protectedRoutesInvalid | typeError
  deriving DecidableEq, Repr

def PairingError.code : PairingError → String
  | invalidDeviceId => "invalid_device_id"
  | invalidPeer => "invalid_peer"
  | peerQuota => "peer_quota"
  | peerConflict => "peer_conflict"
  | peerUnavailable => "peer_unavailable"
  | enrollmentExpired => "enrollment_expired"
  | identityChanged => "identity_changed"
  | invalidReadyAck => "invalid_ready_ack"
  | invalidRemoteReady => "invalid_remote_ready"
  | remoteTrustConflict => "remote_trust_conflict"
  | revokedPeerRequired => "revoked_peer_required"
  | useRemoveRevoked => "use_remove_revoked"
  | protectedRoutesInvalid => "protected_routes_invalid"
  | typeError => "TypeError"

abbrev Pairing := Except PairingError

def ensure (holds : Bool) (e : PairingError) : Pairing Unit :=
  if holds then .ok () else .error e

/-- `device_id`: only the canonical spelling of a UUID is one. -/
def deviceId (value : Str) : Pairing Unit := ensure (isUuid value) .invalidDeviceId

/-- `bytes.hex`. -/
def hexText (pin : Bytes) : Str :=
  pin.flatMap (fun b => [(PyText.hexDigit (b.toNat / 16)).toNat,
    (PyText.hexDigit (b.toNat % 16)).toNat])

/-- `row["expires"] <= now`, a `TypeError` where the column is `NULL`. -/
def isExpired (row : Peer) (now : ℚ) : Pairing Bool :=
  match row.expires with
  | some expires => .ok (expires ≤ now)
  | none => .error .typeError

namespace Registry

def row (s : Registry) (peer : Str) : Pairing Peer := do
  deviceId peer
  match s.peers.find? (fun p => p.deviceId = peer) with
  | some p => .ok p
  | none => .error .peerUnavailable

/-- `UPDATE peers SET … WHERE device_id=?`. -/
def update (s : Registry) (peer : Str) (f : Peer → Peer) : Registry :=
  { s with peers := s.peers.map (fun p => if p.deviceId = peer then f p else p) }

/-- The rows that `propose` deletes at a time. -/
def lapsed (now : ℚ) (row : Peer) : Bool :=
  (row.state = .pending || row.state = .outboundPending) && row.expires.any (· ≤ now)

/-- `propose`. The generation is a UUID drawn for the row. -/
def propose (s : Registry) (peer : Str) (pin : Bytes) (role : Str) (expires : ℚ) (outbound : Bool)
    (now created : ℚ) (generation : Str) : Pairing Registry := do
  deviceId peer
  ensure (pin.length = 32 && (role = text "controller" || role = text "desktop") &&
    peer ≠ s.identity) .invalidPeer
  let kept := s.peers.filter (fun p => !lapsed now p)
  ensure (kept.length < maxPeers) .peerQuota
  ensure (kept.all (fun p => p.deviceId ≠ peer && p.pin ≠ pin)) .peerConflict
  return { s with peers := kept ++ [
    { deviceId := peer, pin, role, state := if outbound then .outboundPending else .pending,
      revision := 0, created, lastSeen := none, expires := some expires, routes := none,
      capabilities := [], generation }] }

/-- `confirm`, with the two topics it draws. Strings that are not ASCII cannot be
compared with `compare_digest`. -/
def confirm (s : Registry) (peer pinHex : Str) (now : ℚ) (routes : Routes) : Pairing Registry := do
  let row ← s.row peer
  ensure (row.state = .pending) .enrollmentExpired
  let expired ← isExpired row now
  ensure (!expired) .enrollmentExpired
  ensure (pinHex.all (· < 128)) .typeError
  ensure (hexText row.pin = pinHex) .identityChanged
  return s.update peer (fun p => { p with
    state := .confirmed, revision := 1, expires := none, routes := some routes,
    capabilities := [] })

def isTrusted (row : Peer) : Bool := row.state = .confirmed || row.state = .active

def trustedPins (s : Registry) : List Bytes := (s.peers.filter isTrusted).map Peer.pin

def authenticate (s : Registry) (peer : Str) (pin : Bytes) (role : Str) : Pairing Unit := do
  let row ← s.row peer
  ensure (isTrusted row && row.role = role && row.pin = pin) .peerUnavailable

def ready (s : Registry) (peer : Str) (pin : Bytes) (role : Str) : Pairing Record := do
  s.authenticate peer pin role
  let row ← s.row peer
  match row.routes with
  | none => .error .protectedRoutesInvalid
  | some routes =>
    return [(.str (text "type"), .str (text "session.ready")), (.str (text "device_id"), .str peer),
      (.str (text "role"), .str role), (.str (text "capabilities"), .list row.capabilities),
      (.str (text "initiator_topic"), .str routes.initiatorTopic),
      (.str (text "responder_topic"), .str routes.responderTopic),
      (.str (text "trust_revision"), .int row.revision)]

/-- `type(record.get("trust_revision")) is int`. -/
def hasRevision (record : Record) : Bool :=
  match member record "trust_revision" with
  | some (.int _) => true
  | _ => false

def acknowledge (s : Registry) (peer : Str) (pin : Bytes) (role : Str) (record : Record) (now : ℚ) :
    Pairing Registry := do
  s.authenticate peer pin role
  let row ← s.row peer
  ensure (eqValue (.dict record) (.dict [(.str (text "type"), .str (text "session.ready_ack")),
    (.str (text "device_id"), .str peer), (.str (text "trust_revision"), .int row.revision)]) &&
    hasRevision record) .invalidReadyAck
  return s.update peer (fun p => { p with state := .active, lastSeen := some now })

/-- `revoke`. The row stays, and with it the pin. -/
def revoke (s : Registry) (peer : Str) : Pairing Registry := do
  let _ ← s.row peer
  return s.update peer (fun p => { p with
    state := .revoked, revision := p.revision + 1, routes := none, capabilities := [],
    expires := none })

def readyFields : List Str :=
  [text "type", text "device_id", text "role", text "capabilities", text "initiator_topic",
    text "responder_topic", text "trust_revision"]

def isString (value : Option Value) (s : Str) : Bool :=
  match value with
  | some (.str t) => t = s
  | _ => false

/-- `isinstance(caps, list) and caps == []`. -/
def isEmptyList (value : Option Value) : Bool :=
  match value with
  | some (.list items) => items.isEmpty
  | _ => false

def isOne (value : Option Value) : Bool :=
  match value with
  | some (.int z) => z = 1
  | _ => false

/-- `re.fullmatch(r"[A-Za-z0-9_-]{43}", …)`. -/
def isTopic (s : Str) : Bool := s.length = 43 && s.all (alphabet.contains ·)

def topic (record : Record) (name : String) : Pairing Str :=
  match member record name with
  | some (.str s) => if isTopic s then .ok s else .error .invalidRemoteReady
  | _ => .error .invalidRemoteReady

/-- What `accept_remote` checks of the record before it looks at the table. -/
def remoteReady (s : Registry) (record : Record) : Pairing Routes := do
  ensure (hasKeys readyFields record && isString (member record "type") (text "session.ready") &&
    isString (member record "device_id") s.identity &&
    isString (member record "role") (text "desktop") &&
    isEmptyList (member record "capabilities") && isOne (member record "trust_revision"))
    .invalidRemoteReady
  let initiatorTopic ← topic record "initiator_topic"
  let responderTopic ← topic record "responder_topic"
  return { initiatorTopic, responderTopic }

def acceptRemote (s : Registry) (peer : Str) (pin : Bytes) (record : Record) (now seen : ℚ) :
    Pairing Registry := do
  let routes ← s.remoteReady record
  let row ← s.row peer
  ensure (row.state = .outboundPending) .peerUnavailable
  let expired ← isExpired row now
  ensure (!expired && row.pin = pin && row.role = text "desktop") .peerUnavailable
  return s.update peer (fun p => { p with
    state := .active, revision := 1, expires := none, routes := some routes, capabilities := [],
    lastSeen := some seen })

/-- `ready(…) | {"device_id": …}`. -/
def expectedReady (s : Registry) (peer : Str) (pin : Bytes) : Pairing Record := do
  let record ← s.ready peer pin (text "desktop")
  return record.map (fun p => if p.1.eq (.str (text "device_id")) then (p.1, .str s.identity) else p)

def recoverRemote (s : Registry) (peer : Str) (pin : Bytes) (record : Record) (now seen : ℚ) :
    Pairing Registry := do
  let row ← s.row peer
  if row.state = .outboundPending then s.acceptRemote peer pin record now seen
  else do
    let expected ← s.expectedReady peer pin
    ensure (eqValue (.dict record) (.dict expected) && hasRevision record) .remoteTrustConflict
    return s

/-- `DeviceApplication.remove_peer`, as far as the table of peers goes. -/
def removePeer (s : Registry) (peer : Str) (revokedOnly : Bool) : Pairing Registry := do
  let row ← s.row peer
  ensure (!(revokedOnly && row.state ≠ .revoked)) .revokedPeerRequired
  ensure (!(!revokedOnly && row.state = .revoked)) .useRemoveRevoked
  return { s with peers := s.peers.filter (fun p => p.deviceId ≠ peer) }

end Registry

inductive Op where
  | propose (peer : Str) (pin : Bytes) (role : Str) (expires : ℚ) (outbound : Bool)
      (now created : ℚ) (generation : Str)
  | confirm (peer pinHex : Str) (now : ℚ) (routes : Routes)
  | ready (peer : Str) (pin : Bytes) (role : Str)
  | acknowledge (peer : Str) (pin : Bytes) (role : Str) (record : Record) (now : ℚ)
  | acceptRemote (peer : Str) (pin : Bytes) (record : Record) (now seen : ℚ)
  | recoverRemote (peer : Str) (pin : Bytes) (record : Record) (now seen : ℚ)
  | revoke (peer : Str)
  | removePeer (peer : Str) (revokedOnly : Bool)

namespace Registry

def step (s : Registry) : Op → Pairing Registry
  | .propose peer pin role expires outbound now created generation =>
    s.propose peer pin role expires outbound now created generation
  | .confirm peer pinHex now routes => s.confirm peer pinHex now routes
  | .ready peer pin role => (s.ready peer pin role).map (fun _ => s)
  | .acknowledge peer pin role record now => s.acknowledge peer pin role record now
  | .acceptRemote peer pin record now seen => s.acceptRemote peer pin record now seen
  | .recoverRemote peer pin record now seen => s.recoverRemote peer pin record now seen
  | .revoke peer => s.revoke peer
  | .removePeer peer revokedOnly => s.removePeer peer revokedOnly

def after (s : Registry) (op : Op) : Registry :=
  match s.step op with
  | .ok s' => s'
  | .error _ => s

def init (identity : Str) : Registry := ⟨identity, []⟩

def run (identity : Str) (ops : List Op) : Registry := ops.foldl after (init identity)

end Registry

end Raticode.Device
