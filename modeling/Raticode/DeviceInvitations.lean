import Raticode.DeviceFrames
import Raticode.DeviceSessionTrust

/-! `gofer.devices.pairing`: invitations as they are made, cancelled, claimed and parsed. There is
one at a time, it is good for five attempts, and it enrols one device. -/
namespace Raticode.Device
open PyDocument Attempt

/-- What `urlsplit` returns. Reading the port may raise. -/
structure SplitUrl where
  scheme : Str
  hostname : Option Str
  username : Option Str
  password : Option Str
  path : Str
  query : Str
  fragment : Str
  port : Option (Option ℕ)

/-- What is asked of an address of `ipaddress`. -/
structure IpAddress where
  isPrivate : Bool
  isLoopback : Bool
  isUnspecified : Bool
  isMulticast : Bool

structure PairingLibrary where
  /-- `unicodedata.category(c).startswith("C")`. -/
  isControl : ℕ → Bool
  isSpace : ℕ → Bool
  /-- `ipaddress.ip_address`, where it does not raise. -/
  ipAddress : Str → Option IpAddress
  /-- `urlsplit`, where it does not raise. -/
  urlsplit : Str → Option SplitUrl
  /-- The bytes that `secrets.token_urlsafe(32)` draws. -/
  token : ℕ → Bytes

/-- The codes of this module's `PairingError`s, what `json.dumps` raises, and the `AttributeError`
of a relay that is no string. -/
inductive InvitationError where
  | displayName | lanEndpoint | invalid | invalidOrExpired
  | raised (e : Raised)
  | attributeError

def InvitationError.code : InvitationError → String
  | displayName => "invalid_display_name"
  | lanEndpoint => "invalid_lan_endpoint"
  | invalid => "invalid_invitation"
  | invalidOrExpired => "invalid_or_expired_invitation"
  | raised _ => "json.dumps"
  | attributeError => "AttributeError"

/-! The checks of single fields. -/
section Fields

variable (lib : PairingLibrary)

def unusedRelayOrigin : Str := text "https://relay.invalid"

def isRelayUrl (value : Str) (url : SplitUrl) : Bool :=
  url.scheme = text "https" && url.hostname.any (!·.isEmpty) && !url.username.any (!·.isEmpty) &&
    !url.password.any (!·.isEmpty) && url.path.isEmpty && url.query.isEmpty &&
    url.fragment.isEmpty && url.port.any (fun port => port = none || port = some 443) &&
    !value.any lib.isSpace

/-- `relay_origin`. A number that is not zero has no `decode`; what is false is split as the empty
string, and lists and dictionaries are not hashable. -/
def relayOrigin (value : Option Value) : Except InvitationError Unit :=
  match value with
  | some (.str s) =>
    if (lib.urlsplit s).any (isRelayUrl lib s) then .ok () else .error .invalidOrExpired
  | some (.int z) => if z = 0 then .error .invalidOrExpired else .error .attributeError
  | some (.bool true) | some (.float _) => .error .attributeError
  | _ => .error .invalidOrExpired

def iterate : Value → Option (List Value)
  | .str s => some (s.map (fun c => .str [c]))
  | .list items => some items
  | .dict members => some (members.map (fun p => keyItem p.1))
  | _ => none

/-- `unicodedata.category` takes one character. -/
def isLabelItem : Value → Bool
  | .str [c] => !lib.isControl c
  | _ => false

/-- `label`. -/
def isLabel (value : Option Value) : Bool :=
  match value.bind iterate with
  | some items => 1 ≤ items.length && items.length ≤ 80 && items.all (isLabelItem lib)
  | none => false

def isLanAddress (a : IpAddress) : Bool :=
  (a.isPrivate || a.isLoopback) && !a.isUnspecified && !a.isMulticast

def isLanHost (value : Option Value) : Bool :=
  match value with
  | some (.str host) => 1 ≤ host.length && host.length ≤ 253 && !host.contains 0x25 &&
      (lib.ipAddress host).any isLanAddress
  | _ => false

def isLanPort (value : Option Value) : Bool :=
  match value with
  | some (.int port) => 1 ≤ port && port ≤ 65535
  | _ => false

/-- `lan_endpoint`. -/
def isLanEndpoint (value : Option Value) : Bool :=
  match value with
  | some .null => true
  | some (.dict members) => hasKeys [text "host", text "port"] members &&
      isLanHost lib (member members "host") && isLanPort (member members "port")
  | _ => false

def isDeviceId (value : Option Value) : Bool :=
  match value with
  | some (.str s) => isUuid s
  | _ => false

/-- `re.fullmatch(r"[0-9a-f]{64}", …)`. -/
def isSpki (value : Option Value) : Bool :=
  match value with
  | some (.str s) => s.length = 64 && s.all isLowerHex
  | _ => false

/-- A text of `token_urlsafe(32)`, spelled as it is encoded. -/
def isToken (value : Option Value) : Bool :=
  match value with
  | some (.str s) => Registry.isTopic s && (b64decode s).any (fun bytes => urlsafeB64encode bytes = s)
  | _ => false

/-- `type(…) is int and now < … <= now + 300`. -/
def isCurrent (now : ℚ) (value : Option Value) : Bool :=
  match value with
  | some (.int expires) => now < expires && expires ≤ now + 300
  | _ => false

end Fields

/-! Parsing. -/
section Parsing

variable (limits : Limits) (lib : PairingLibrary)

def invitationFields : List Str :=
  [text "version", text "profile", text "invitation_id", text "responder_id",
    text "responder_name", text "responder_role", text "responder_spki_sha256", text "secret",
    text "expires_at", text "relay", text "pair_initiator_topic", text "pair_responder_topic",
    text "lan_endpoint"]

def checkInvitation (data : Record) (now : ℚ) : Except InvitationError Unit := do
  Attempt.require (hasKeys invitationFields data && isVersion (member data "version") &&
    Registry.isString (member data "profile") (text "raticode-tls13-v2") &&
    Registry.isString (member data "responder_role") (text "desktop") &&
    isDeviceId (member data "invitation_id") && isDeviceId (member data "responder_id") &&
    isLabel lib (member data "responder_name")) .invalidOrExpired
  relayOrigin lib (member data "relay")
  Attempt.require (isLanEndpoint lib (member data "lan_endpoint") &&
    isSpki (member data "responder_spki_sha256") && isToken (member data "secret") &&
    isToken (member data "pair_initiator_topic") && isToken (member data "pair_responder_topic") &&
    isCurrent now (member data "expires_at")) .invalidOrExpired

def uriStart : Str := text "raticode://pair?v=2&data="

def parseInvitation (uri : Str) (now : ℚ) : Except InvitationError (Bytes × Record) :=
  if 4096 < uri.length || !uriStart.isPrefixOf uri then .error .invalid
  else
    let encoded := uri.drop uriStart.length
    if encoded.isEmpty || !encoded.all (alphabet.contains ·) then .error .invalid
    else
      match decodeBody (some (.str encoded)) with
      | .error _ => .error .invalidOrExpired
      | .ok raw =>
        match strictJson limits 3072 raw with
        | .error _ => .error .invalidOrExpired
        | .ok data => do
          checkInvitation lib data now
          return (raw, data)

end Parsing

/-! Making. -/
section Making

variable {T A : Type} (b : Backend T A) (lib : PairingLibrary)

structure Endpoint where
  members : Record
  nodup : (members.map Prod.fst).Nodup

def endpointValue : Option Endpoint → Value
  | none => .null
  | some endpoint => .dict endpoint.members

abbrev Issue (T A : Type) := EStateM InvitationError (Site T A)

def Issue.clock : Issue T A ℚ := do
  let site ← peek
  put { site with readings := site.readings + 1 }
  pure (b.clock site.readings)

def Issue.monotonic : Issue T A ℚ := do
  let site ← peek
  put { site with readings := site.readings + 1 }
  pure (b.monotonic site.readings)

def Issue.draw : Issue T A ℕ := do
  let site ← peek
  put { site with ledger := { site.ledger with drawn := site.ledger.drawn + 1 } }
  pure site.ledger.drawn

def Issue.tokenUrlsafe : Issue T A Str := do
  let number ← Issue.draw
  pure (urlsafeB64encode (lib.token number))

def invitationData (invitationId responderId responderName : Str) (pin : Bytes) (secret : Str)
    (expires : ℤ) (initiatorTopic responderTopic : Str) (endpoint : Value) : Record :=
  [(.str (text "version"), .int 2), (.str (text "profile"), .str (text "raticode-tls13-v2")),
    (.str (text "invitation_id"), .str invitationId),
    (.str (text "responder_id"), .str responderId),
    (.str (text "responder_name"), .str responderName),
    (.str (text "responder_role"), .str (text "desktop")),
    (.str (text "responder_spki_sha256"), .str (hexText pin)), (.str (text "secret"), .str secret),
    (.str (text "expires_at"), .int expires), (.str (text "relay"), .str unusedRelayOrigin),
    (.str (text "pair_initiator_topic"), .str initiatorTopic),
    (.str (text "pair_responder_topic"), .str responderTopic),
    (.str (text "lan_endpoint"), endpoint)]

/-- The dictionary that `create` makes, with its time of expiry. -/
def draft (pin : Bytes) (name : Str) (endpoint : Option Endpoint) : Issue T A (Record × ℤ) := do
  let now ← Issue.clock b
  let number ← Issue.draw
  let site ← peek
  lift (Attempt.require (isLabel lib (some (.str name))) .displayName)
  let secret ← Issue.tokenUrlsafe lib
  let initiatorTopic ← Issue.tokenUrlsafe lib
  let responderTopic ← Issue.tokenUrlsafe lib
  lift (Attempt.require (isLanEndpoint lib (some (endpointValue endpoint))) .lanEndpoint)
  pure (invitationData (b.uuid4 number) site.ledger.registry.identity name pin secret
    (Serve.truncate now + 300) initiatorTopic responderTopic (endpointValue endpoint), Serve.truncate now + 300)

/-- `Invitation.payload`, as far as the address goes. -/
def invitationUri (raw : Bytes) : Str := uriStart ++ urlsafeB64encode raw

/-- `Invitations.create`, with the pin of the identity. -/
def create (pin : Bytes) (name : Str) (endpoint : Option Endpoint) : Issue T A (Str × ℤ) := do
  let (data, expires) ← draft b lib pin name endpoint
  let raw ← lift ((dumpBytes b.limits ⟨true, true⟩ (.dict data)).mapError .raised)
  let tick ← Issue.monotonic b
  let site ← peek
  put { site with invitation := some ⟨raw, expires, tick + 300, 0⟩ }
  pure (invitationUri raw, expires)

end Making

/-! Runs. -/
section Runs

variable {T A : Type}

inductive InvitationAct where
  | create (name : Str) (endpoint : Option Endpoint)
  | cancel
  | claim (record : Record) (sessionId : Str) (pin : Bytes)
  | called (op : Op)

/-- A call of `claim`: the number of the invitation that was made last, what the call found, and
what the network supplied. -/
structure ClaimCall (T A : Type) where
  serial : ℕ
  site : Site T A
  record : Record
  sessionId : Str
  pin : Bytes

/-- Beside the state of the code, the invitations made so far and the calls of `claim`. -/
structure Enrolling (T A : Type) where
  site : Site T A
  issued : List Invitation
  calls : List (ClaimCall T A)

def leaves {ε σ α : Type} : EStateM.Result ε σ α → σ
  | .ok _ s => s
  | .error _ s => s

variable (b : Backend T A) (lib : PairingLibrary) (identityPin : Bytes)

def ClaimCall.outcome (c : ClaimCall T A) : EStateM.Result SessionError (Site T A) (Str × Str) :=
  Serve.claim b c.record c.sessionId c.pin c.site

def Enrolling.init (site : Site T A) : Enrolling T A := ⟨{ site with invitation := none }, [], []⟩

def Enrolling.step (e : Enrolling T A) : InvitationAct → Enrolling T A
  | .create name endpoint =>
    match create b lib identityPin name endpoint e.site with
    | .ok _ site => { e with site, issued := e.issued ++ site.invitation.toList }
    | .error _ site => { e with site }
  | .cancel => { e with site := { e.site with invitation := none } }
  | .claim record sessionId pin =>
    let call : ClaimCall T A := ⟨e.issued.length, e.site, record, sessionId, pin⟩
    { e with site := leaves (call.outcome b), calls := e.calls ++ [call] }
  | .called op =>
    { e with site := { e.site with ledger :=
        { e.site.ledger with registry := e.site.ledger.registry.after op } } }

def Enrolling.run (site : Site T A) (acts : List InvitationAct) : Enrolling T A :=
  acts.foldl (Enrolling.step b lib identityPin) (Enrolling.init site)

def ClaimCall.isAttempt (c : ClaimCall T A) : Bool :=
  match c.outcome b with
  | .error (.refused .invitationUnavailable) _ => false
  | _ => true

def ClaimCall.isSuccess (c : ClaimCall T A) : Bool :=
  match c.outcome b with
  | .ok _ _ => true
  | .error _ _ => false

def attempts (calls : List (ClaimCall T A)) (serial : ℕ) : List (ClaimCall T A) :=
  calls.filter (fun c => c.serial = serial && c.isAttempt b)

def successes (calls : List (ClaimCall T A)) (serial : ℕ) : List (ClaimCall T A) :=
  calls.filter (fun c => c.serial = serial && c.isSuccess b)

def InTime (site : Site T A) (invite : Invitation) : Prop :=
  b.clock site.readings < invite.expires ∧ b.monotonic (site.readings + 1) < invite.deadline

def Invitation.SameAs (invite made : Invitation) : Prop :=
  invite.raw = made.raw ∧ invite.expires = made.expires ∧ invite.deadline = made.deadline

/-- What a successful call does to the table: it drops rows that have lapsed and appends one that
is pending, with the session's pin, and the identifier and the role of a record that is the session's
own binding, with the secret of the invitation and the digest of its bytes. -/
def Enrols (c : ClaimCall T A) (invite : Invitation) (peer role : Str) (after : Registry) : Prop :=
  ∃ data secret row now, strictJson b.limits maxRecord invite.raw = .ok data ∧
    member data "secret" = some secret ∧
    SessionBinding.verify b.limits ⟨c.sessionId, text "pair", peer, c.site.ledger.registry.identity,
      role, some (b.sha256 invite.raw), some secret⟩ c.record = .ok () ∧
    member c.record "initiator_id" = some (.str peer) ∧
    member c.record "initiator_role" = some (.str role) ∧
    after.peers = c.site.ledger.registry.peers.filter (fun p => !Registry.lapsed now p) ++ [row] ∧
    row.deviceId = peer ∧ row.role = role ∧ row.pin = c.pin ∧ row.state = .pending ∧
    row.expires = some invite.expires

end Runs

/-! One claim. -/
section Claiming

open Serve
variable {T A : Type} {b : Backend T A} {site : Site T A}

structure Open (b : Backend T A) (site : Site T A) (invite : Invitation) : Prop where
  current : site.invitation = some invite
  attempts : invite.failures < 5
  inTime : InTime b site invite

theorem currentInvitation_spec :
    Wp (currentInvitation b)
      (fun invite t => Open b site invite ∧ t.ledger = site.ledger)
      (fun e t => e = .refused .invitationUnavailable ∧ t.ledger = site.ledger ∧
        t.invitation = site.invitation) site := by
  unfold currentInvitation
  rw [wp_bind, wp_peek]
  split
  next hnone => exact ⟨rfl, rfl, rfl⟩
  next invite hsome =>
    split
    · exact ⟨rfl, rfl, rfl⟩
    next hattempts =>
      rw [wp_bind, wp_clock]
      split
      · exact ⟨rfl, rfl, rfl⟩
      next hexpires =>
        rw [wp_bind]
        change Wp (if invite.deadline ≤ b.monotonic (site.readings + 1) then _ else _) _ _ _
        split
        · exact ⟨rfl, rfl, rfl⟩
        next hdeadline => exact ⟨⟨hsome, by omega, not_le.mp hexpires, not_le.mp hdeadline⟩, rfl⟩

theorem of_mapError_ok {ε ε' α : Type} {x : Except ε α} {f : ε → ε'} {a : α}
    (h : x.mapError f = .ok a) : x = .ok a := by
  cases x with
  | ok a' =>
    cases h
    rfl
  | error e => cases h

theorem of_mapError_error {ε ε' α : Type} {x : Except ε α} {f : ε → ε'} {e : ε'}
    (h : x.mapError f = .error e) : ∃ e', x = .error e' ∧ e = f e' := by
  cases x with
  | ok a => cases h
  | error e' =>
    cases h
    exact ⟨e', rfl, rfl⟩

theorem wp_pairing_of {α : Type} {x : Pairing α} {Q : α → Site T A → Prop}
    {E : SessionError → Site T A → Prop} (hok : ∀ a, x = .ok a → Q a site)
    (he : ∀ e, x = .error e → E (.pairing e) site) : Wp (pairing x : Serve T A α) Q E site := by
  cases x with
  | ok a => exact hok a rfl
  | error e => exact he e rfl

theorem initiatorRole_error {record : Record} {e : Refusal} (h : initiatorRole record = .error e) :
    e = .invalidRole := by
  unfold initiatorRole at h
  split at h
  · cases h
  · cases h
    rfl

theorem verify_error {limits : Limits} {binding : SessionBinding} {record : Record} {e : Refusal}
    (h : binding.verify limits record = .error e) : e ≠ .invitationUnavailable := by
  unfold SessionBinding.verify at h
  split at h
  · cases h
    decide
  · split at h
    · split at h
      · cases h
      · cases h
        decide
    · cases h
      decide

theorem initiatorId_ok {record : Record} {peer : Str} (h : initiatorId record = .ok peer) :
    member record "initiator_id" = some (.str peer) := by
  unfold initiatorId at h
  split at h
  next s hs =>
    obtain ⟨_, -, h⟩ := Attempt.bind_ok h
    cases h
    exact hs
  · cases h

theorem initiatorRole_ok {record : Record} {role : Str} (h : initiatorRole record = .ok role) :
    member record "initiator_role" = some (.str role) := by
  unfold initiatorRole at h
  split at h
  next s hs =>
    cases h
    exact hs
  · cases h

theorem secretOf_ok {data : Record} {secret : Value} (h : secretOf data = .ok secret) :
    member data "secret" = some secret := by
  unfold secretOf at h
  split at h
  next s hs =>
    cases h
    exact hs
  · cases h

theorem secretOf_error {data : Record} {e : SessionError} (h : secretOf data = .error e) :
    e = .application .other := by
  unfold secretOf at h
  split at h
  · cases h
  · cases h
    rfl

theorem propose_row {registry after : Registry} {peer : Str} {pin : Bytes} {role : Str}
    {expires now created : ℚ} {generation : Str}
    (h : registry.step (.propose peer pin role expires false now created generation) = .ok after) :
    ∃ row : Peer, after.peers = registry.peers.filter (fun p => !Registry.lapsed now p) ++ [row] ∧
      row.deviceId = peer ∧ row.role = role ∧ row.pin = pin ∧ row.state = .pending ∧
      row.expires = some expires := by
  obtain ⟨_, -, h⟩ := Attempt.bind_ok h
  obtain ⟨_, -, h⟩ := Attempt.bind_ok h
  obtain ⟨_, -, h⟩ := Attempt.bind_ok h
  obtain ⟨_, -, h⟩ := Attempt.bind_ok h
  cases h
  exact ⟨_, rfl, rfl, rfl, rfl, rfl, rfl⟩

theorem claim_effect (record : Record) (sessionId : Str) (pin : Bytes) (serial : ℕ) :
    Wp (claim b record sessionId pin)
      (fun r t => ∃ invite, Open b site invite ∧ t.invitation = none ∧
        Enrols b ⟨serial, site, record, sessionId, pin⟩ invite r.1 r.2 t.ledger.registry)
      (fun e t => t.ledger.registry = site.ledger.registry ∧
        (e = .refused .invitationUnavailable ∧ t.invitation = site.invitation ∨
          e ≠ .refused .invitationUnavailable ∧ ∃ invite, Open b site invite ∧
            t.invitation = some { invite with failures := invite.failures + 1 })) site := by
  unfold claim
  rw [wp_bind]
  refine currentInvitation_spec.mono ?_ (fun e t ht => ⟨by rw [ht.2.1], .inl ⟨ht.1, ht.2.2⟩⟩)
  rintro invite t ⟨hopen, hledger⟩
  rw [wp_bind, wp_peek, wp_bind, wp_put]
  -- From here on the attempt is counted, whatever goes wrong.
  have hcounted : ∀ e : SessionError, e ≠ .refused .invitationUnavailable →
      t.ledger.registry = site.ledger.registry ∧
        (e = .refused .invitationUnavailable ∧
            some { invite with failures := invite.failures + 1 } = site.invitation ∨
          e ≠ .refused .invitationUnavailable ∧ ∃ invite', Open b site invite' ∧
            some { invite with failures := invite.failures + 1 } =
              some { invite' with failures := invite'.failures + 1 }) :=
    fun e he => ⟨by rw [hledger], .inr ⟨he, invite, hopen, rfl⟩⟩
  rw [wp_bind, wp_lift]
  refine ⟨fun data hdata => ?_, fun e he => ?_⟩
  · rw [wp_bind]
    refine wp_pairing_of (fun peer hpeer => ?_) (fun e _ => hcounted _ (by simp))
    rw [wp_bind, wp_lift]
    refine ⟨fun role hrole => ?_, fun e he => ?_⟩
    · rw [wp_bind, wp_lift]
      refine ⟨fun secret hsecret => ?_, fun e he => ?_⟩
      · rw [wp_bind, wp_registry, wp_bind, wp_lift]
        refine ⟨fun _ hverify => ?_, fun e he => ?_⟩
        · rw [wp_bind]
          unfold propose
          rw [wp_bind, wp_clock, wp_bind, wp_clock, wp_bind, wp_draw]
          unfold call
          rw [wp_bind, wp_peek, wp_bind]
          refine wp_pairing_of (fun registry hstep => ?_) (fun e _ => hcounted _ (by simp))
          obtain ⟨row, hpeers, hid, hrow, hpin, hstate, hexpires⟩ := propose_row hstep
          rw [hledger] at hverify hpeers
          exact ⟨invite, hopen, rfl, data, secret, row, _, of_mapError_ok hdata,
            secretOf_ok hsecret, of_mapError_ok hverify, initiatorId_ok hpeer,
            initiatorRole_ok (of_mapError_ok hrole), hpeers, hid, hrow, hpin, hstate, hexpires⟩
        · obtain ⟨refusal, hrefusal, rfl⟩ := of_mapError_error he
          have hne := verify_error hrefusal
          exact hcounted _ (by simpa using hne)
      · rw [secretOf_error he]
        exact hcounted _ (by simp)
    · obtain ⟨refusal, hrefusal, rfl⟩ := of_mapError_error he
      rw [initiatorRole_error hrefusal]
      exact hcounted _ (by simp)
  · obtain ⟨error, -, rfl⟩ := of_mapError_error he
    exact hcounted _ (by simp)

end Claiming

/-! Every run. -/
section Enrolment

variable {T A : Type} {b : Backend T A} {lib : PairingLibrary} {identityPin : Bytes}

theorem attempts_append (calls : List (ClaimCall T A)) (c : ClaimCall T A) (serial : ℕ) :
    attempts b (calls ++ [c]) serial = attempts b calls serial ++
      if c.serial = serial ∧ c.isAttempt b = true then [c] else [] := by
  rw [attempts, List.filter_append, ← attempts]
  congr 1
  split_ifs with h
  · simp [h.1, h.2]
  · rw [List.filter_eq_nil_iff]
    simpa using h

theorem successes_append (calls : List (ClaimCall T A)) (c : ClaimCall T A) (serial : ℕ) :
    successes b (calls ++ [c]) serial = successes b calls serial ++
      if c.serial = serial ∧ c.isSuccess b = true then [c] else [] := by
  rw [successes, List.filter_append, ← successes]
  congr 1
  split_ifs with h
  · simp [h.1, h.2]
  · rw [List.filter_eq_nil_iff]
    simpa using h

/-- The invitation on the site is the last one issued, its failures are the attempts counted
against it, and no invitation has more than five attempts or more than one success. -/
structure Enrolling.Sound (b : Backend T A) (e : Enrolling T A) : Prop where
  past : ∀ c ∈ e.calls, c.serial ≤ e.issued.length
  current : ∀ invite, e.site.invitation = some invite →
    (∃ made, e.issued.getLast? = some made ∧ invite.SameAs made) ∧ invite.failures ≤ 5 ∧
      (attempts b e.calls e.issued.length).length = invite.failures ∧
      successes b e.calls e.issued.length = []
  bounded : ∀ serial, (attempts b e.calls serial).length ≤ 5
  once : ∀ serial, (successes b e.calls serial).length ≤ 1
  timely : ∀ c ∈ e.calls, c.isAttempt b = true → ∃ made invite,
    e.issued[c.serial - 1]? = some made ∧ 0 < c.serial ∧ c.site.invitation = some invite ∧
      invite.SameAs made ∧ InTime b c.site made

theorem sound_init (site : Site T A) : (Enrolling.init site).Sound b where
  past c hc := by cases hc
  current invite h := by cases h
  bounded _ := Nat.zero_le _
  once _ := Nat.zero_le _
  timely c hc := by cases hc

theorem none_of_past {calls : List (ClaimCall T A)} {n : ℕ} (h : ∀ c ∈ calls, c.serial ≤ n) :
    attempts b calls (n + 1) = [] ∧ successes b calls (n + 1) = [] := by
  have hne : ∀ c ∈ calls, c.serial ≠ n + 1 := by
    intro c hc
    have hle := h c hc
    omega
  constructor
  · rw [attempts, List.filter_eq_nil_iff]
    intro c hc
    simp [hne c hc]
  · rw [successes, List.filter_eq_nil_iff]
    intro c hc
    simp [hne c hc]

theorem timely_mono {issued : List Invitation} {c : ClaimCall T A} (made : List Invitation)
    (h : ∃ m invite, issued[c.serial - 1]? = some m ∧ 0 < c.serial ∧
      c.site.invitation = some invite ∧ invite.SameAs m ∧ InTime b c.site m) :
    ∃ m invite, (issued ++ made)[c.serial - 1]? = some m ∧ 0 < c.serial ∧
      c.site.invitation = some invite ∧ invite.SameAs m ∧ InTime b c.site m := by
  obtain ⟨m, invite, hm, hpos, hcurrent, hsame, htime⟩ := h
  refine ⟨m, invite, ?_, hpos, hcurrent, hsame, htime⟩
  rw [List.getElem?_append_left (List.getElem?_eq_some_iff.mp hm).1]
  exact hm

/-! What `create` reads and draws, step by step. -/
section Issuing

variable {α : Type} {site : Site T A} {E : InvitationError → Site T A → Prop}

theorem wp_issueClock {Q : ℚ → Site T A → Prop} : Wp (Issue.clock b) Q E site ↔
    Q (b.clock site.readings) { site with readings := site.readings + 1 } := Iff.rfl

theorem wp_issueMonotonic {Q : ℚ → Site T A → Prop} : Wp (Issue.monotonic b) Q E site ↔
    Q (b.monotonic site.readings) { site with readings := site.readings + 1 } := Iff.rfl

theorem wp_issueDraw {Q : ℕ → Site T A → Prop} : Wp Issue.draw Q E site ↔ Q site.ledger.drawn
    { site with ledger := { site.ledger with drawn := site.ledger.drawn + 1 } } := Iff.rfl

theorem wp_tokenUrlsafe {Q : Str → Site T A → Prop} : Wp (Issue.tokenUrlsafe lib) Q E site ↔
    Q (urlsafeB64encode (lib.token site.ledger.drawn))
      { site with ledger := { site.ledger with drawn := site.ledger.drawn + 1 } } := Iff.rfl

theorem wp_required {c : Bool} {e : InvitationError} {Q : Unit → Site T A → Prop}
    (hok : c = true → Q () site) (he : E e site) :
    Wp (lift (Attempt.require c e) : Issue T A Unit) Q E site := by
  cases c with
  | true => exact hok rfl
  | false => exact he

end Issuing

def draftExpires (b : Backend T A) (site : Site T A) : ℤ :=
  Serve.truncate (b.clock site.readings) + 300

def draftData (b : Backend T A) (lib : PairingLibrary) (pin : Bytes) (name : Str)
    (endpoint : Option Endpoint) (site : Site T A) : Record :=
  invitationData (b.uuid4 site.ledger.drawn) site.ledger.registry.identity name pin
    (urlsafeB64encode (lib.token (site.ledger.drawn + 1))) (draftExpires b site)
    (urlsafeB64encode (lib.token (site.ledger.drawn + 2)))
    (urlsafeB64encode (lib.token (site.ledger.drawn + 3))) (endpointValue endpoint)

/-- An invitation that has been made: its name and its endpoint were checked, and its bytes and its
address are those of its members. -/
structure Issued (b : Backend T A) (lib : PairingLibrary) (pin : Bytes) (name : Str)
    (endpoint : Option Endpoint) (site : Site T A) (uri : Str) (invite : Invitation) : Prop where
  label : isLabel lib (some (.str name)) = true
  lan : isLanEndpoint lib (some (endpointValue endpoint)) = true
  raw : dumpBytes b.limits ⟨true, true⟩ (.dict (draftData b lib pin name endpoint site)) =
    .ok invite.raw
  uri : uri = invitationUri invite.raw
  expires : invite.expires = draftExpires b site
  fresh : invite.failures = 0

theorem draft_spec (name : Str) (endpoint : Option Endpoint) (site : Site T A) :
    Wp (draft b lib identityPin name endpoint)
      (fun r t => t.invitation = site.invitation ∧ isLabel lib (some (.str name)) = true ∧
        isLanEndpoint lib (some (endpointValue endpoint)) = true ∧
        r = (draftData b lib identityPin name endpoint site, draftExpires b site))
      (fun _ t => t.invitation = site.invitation) site := by
  unfold draft
  rw [wp_bind, wp_issueClock, wp_bind, wp_issueDraw, wp_bind, wp_peek, wp_bind]
  apply wp_required
  · intro hlabel
    rw [wp_bind, wp_tokenUrlsafe, wp_bind, wp_tokenUrlsafe, wp_bind, wp_tokenUrlsafe, wp_bind]
    apply wp_required
    · intro hlan
      exact ⟨rfl, hlabel, hlan, rfl⟩
    · rfl
  · rfl

theorem create_spec (name : Str) (endpoint : Option Endpoint) (site : Site T A) :
    Wp (create b lib identityPin name endpoint)
      (fun r t => r.2 = draftExpires b site ∧ ∃ invite, t.invitation = some invite ∧
        Issued b lib identityPin name endpoint site r.1 invite)
      (fun _ t => t.invitation = site.invitation) site := by
  unfold create
  rw [wp_bind]
  refine (draft_spec name endpoint site).mono ?_ (fun _ _ h => h)
  rintro ⟨data, expires⟩ t ⟨ht, hlabel, hlan, hdata⟩
  cases hdata
  rw [wp_bind, wp_lift]
  refine ⟨fun raw hraw => ?_, fun _ _ => ht⟩
  rw [wp_bind, wp_issueMonotonic, wp_bind, wp_peek, wp_bind, wp_put, wp_pure]
  exact ⟨rfl, _, rfl, hlabel, hlan, of_mapError_ok hraw, rfl, rfl, rfl⟩

/-- A new invitation starts its own count. -/
theorem sound_create {e : Enrolling T A} (h : e.Sound b) (name : Str) (endpoint : Option Endpoint) :
    (e.step b lib identityPin (.create name endpoint)).Sound b := by
  have hspec : Wp (create b lib identityPin name endpoint) _ _ e.site :=
    create_spec name endpoint e.site
  rw [Enrolling.step]
  split
  next t hrun =>
    obtain ⟨-, made, hmade, hissued⟩ := hspec.ok hrun
    have hlist : t.invitation.toList = [made] := by rw [hmade]; rfl
    rw [hlist]
    have hlength : (e.issued ++ [made]).length = e.issued.length + 1 := by simp
    refine ⟨fun c hc => ?_, fun invite hinvite => ?_, h.bounded, h.once, fun c hc ha => ?_⟩
    · have hle := h.past c hc
      change c.serial ≤ (e.issued ++ [made]).length
      omega
    · have heq : invite = made := Option.some.inj (hinvite.symm.trans hmade)
      have hnone := none_of_past (b := b) h.past
      rw [heq]
      refine ⟨⟨made, List.getLast?_concat, rfl, rfl, rfl⟩, ?_, ?_, ?_⟩
      · rw [hissued.fresh]
        omega
      · change (attempts b e.calls (e.issued ++ [made]).length).length = made.failures
        rw [hlength, hnone.1, hissued.fresh]
        rfl
      · change successes b e.calls (e.issued ++ [made]).length = []
        rw [hlength, hnone.2]
    · exact timely_mono _ (h.timely c hc ha)
  next t hrun =>
    have hsame := hspec.error hrun
    refine ⟨h.past, fun invite hinvite => ?_, h.bounded, h.once, h.timely⟩
    change t.invitation = some invite at hinvite
    rw [hsame] at hinvite
    exact h.current invite hinvite

theorem isAttempt_of_error {c : ClaimCall T A} {e : SessionError} {t : Site T A}
    (h : c.outcome b = .error e t) (he : e ≠ .refused .invitationUnavailable) :
    c.isAttempt b = true := by
  unfold ClaimCall.isAttempt
  rw [h]
  split
  next heq =>
    cases heq
    exact absurd rfl he
  · rfl

/-- A claim is counted against the invitation it was made for, and clears it when it succeeds. -/
theorem sound_claim {e : Enrolling T A} (h : e.Sound b) (record : Record) (sessionId : Str)
    (pin : Bytes) : (e.step b lib identityPin (.claim record sessionId pin)).Sound b := by
  generalize hcall : (⟨e.issued.length, e.site, record, sessionId, pin⟩ : ClaimCall T A) = call
  have heffect : Wp (Serve.claim b record sessionId pin) _ _ e.site :=
    claim_effect record sessionId pin e.issued.length
  have houtcome : call.outcome b = Serve.claim b record sessionId pin e.site := by
    rw [← hcall]
    rfl
  have hserial : call.serial = e.issued.length := by rw [← hcall]
  have hsite : call.site = e.site := by rw [← hcall]
  have hstep : e.step b lib identityPin (.claim record sessionId pin) =
      ⟨leaves (call.outcome b), e.issued, e.calls ++ [call]⟩ := by
    rw [← hcall]
    rfl
  rw [hstep]
  have hpast : ∀ c ∈ e.calls ++ [call], c.serial ≤ e.issued.length := by
    intro c hc
    rcases List.mem_append.mp hc with hc | hc
    · exact h.past c hc
    · rw [List.mem_singleton.mp hc, hserial]
  -- The current invitation is there whenever the call is let in.
  have htimely : ∀ invite, Open b e.site invite → ∃ made invite',
      e.issued[call.serial - 1]? = some made ∧ 0 < call.serial ∧
        call.site.invitation = some invite' ∧ invite'.SameAs made ∧ InTime b call.site made := by
    intro invite hopen
    obtain ⟨⟨made, hlast, hsame⟩, -⟩ := h.current invite hopen.current
    have hne : e.issued ≠ [] := by
      rintro hnil
      rw [hnil] at hlast
      cases hlast
    refine ⟨made, invite, ?_, ?_, ?_, hsame, ?_⟩
    · rw [hserial, ← List.getLast?_eq_getElem?]
      exact hlast
    · rw [hserial]
      exact List.length_pos_iff.mpr hne
    · rw [hsite]
      exact hopen.current
    · rw [hsite]
      exact ⟨hsame.2.1 ▸ hopen.inTime.1, hsame.2.2 ▸ hopen.inTime.2⟩
  have hcalled : ∀ {c : ClaimCall T A}, c ∈ e.calls ++ [call] → c.isAttempt b = true →
      (∃ invite, Open b e.site invite) → ∃ made invite', e.issued[c.serial - 1]? = some made ∧
        0 < c.serial ∧ c.site.invitation = some invite' ∧ invite'.SameAs made ∧
          InTime b c.site made := by
    rintro c hc ha ⟨invite, hopen⟩
    rcases List.mem_append.mp hc with hc | hc
    · exact h.timely c hc ha
    · rw [List.mem_singleton.mp hc]
      exact htimely invite hopen
  -- One more attempt at the current invitation is still within the five.
  have hmore : ∀ invite, Open b e.site invite → ∀ serial,
      (attempts b (e.calls ++ [call]) serial).length ≤ 5 := by
    intro invite hopen serial
    obtain ⟨-, -, hcount, -⟩ := h.current invite hopen.current
    have hfew := hopen.attempts
    rw [attempts_append]
    split_ifs with hthis
    · rw [← hthis.1, hserial, List.length_append, List.length_singleton, hcount]
      omega
    · rw [List.append_nil]
      exact h.bounded serial
  cases hrun : Serve.claim b record sessionId pin e.site with
  | ok r t =>
    obtain ⟨invite, hopen, hnone, -⟩ := heffect.ok hrun
    obtain ⟨-, -, -, hfirst⟩ := h.current invite hopen.current
    rw [houtcome, hrun]
    refine ⟨hpast, fun invite' hcurrent => ?_, hmore invite hopen, fun serial => ?_,
      fun c hc ha => hcalled hc ha ⟨invite, hopen⟩⟩
    · change t.invitation = some invite' at hcurrent
      rw [hnone] at hcurrent
      cases hcurrent
    · change (successes b (e.calls ++ [call]) serial).length ≤ 1
      rw [successes_append]
      split_ifs with hthis
      · rw [← hthis.1, hserial, hfirst]
        exact le_rfl
      · rw [List.append_nil]
        exact h.once serial
  | error err t =>
    obtain ⟨-, hcases⟩ := heffect.error hrun
    have hfailed : call.isSuccess b = false := by
      rw [ClaimCall.isSuccess, houtcome, hrun]
    have hsuccesses : ∀ serial, successes b (e.calls ++ [call]) serial =
        successes b e.calls serial := by
      intro serial
      rw [successes_append, if_neg (by simp [hfailed]), List.append_nil]
    rw [houtcome, hrun]
    rcases hcases with ⟨rfl, hsame⟩ | ⟨hne, invite, hopen, hnext⟩
    · have hrefused : call.isAttempt b = false := by
        rw [ClaimCall.isAttempt, houtcome, hrun]
      have hattempts : ∀ serial, attempts b (e.calls ++ [call]) serial =
          attempts b e.calls serial := by
        intro serial
        rw [attempts_append, if_neg (by simp [hrefused]), List.append_nil]
      refine ⟨hpast, fun invite hcurrent => ?_, fun serial => ?_, fun serial => ?_,
        fun c hc ha => ?_⟩
      · change t.invitation = some invite at hcurrent
        rw [hsame] at hcurrent
        rw [hattempts, hsuccesses]
        exact h.current invite hcurrent
      · rw [hattempts]
        exact h.bounded serial
      · rw [hsuccesses]
        exact h.once serial
      · rcases List.mem_append.mp hc with hc | hc
        · exact h.timely c hc ha
        · rw [List.mem_singleton.mp hc, hrefused] at ha
          cases ha
    · obtain ⟨⟨made, hlast, hsame⟩, -, hcount, hfirst⟩ := h.current invite hopen.current
      have hfew := hopen.attempts
      have hthis : call.isAttempt b = true := isAttempt_of_error (houtcome.trans hrun) hne
      refine ⟨hpast, fun invite' hcurrent => ?_, hmore invite hopen, fun serial => ?_,
        fun c hc ha => hcalled hc ha ⟨invite, hopen⟩⟩
      · change t.invitation = some invite' at hcurrent
        rw [hnext] at hcurrent
        cases hcurrent
        refine ⟨⟨made, hlast, hsame⟩, ?_, ?_, ?_⟩
        · change invite.failures + 1 ≤ 5
          omega
        · change (attempts b (e.calls ++ [call]) e.issued.length).length = invite.failures + 1
          rw [attempts_append, if_pos ⟨hserial, hthis⟩, List.length_append, hcount]
          rfl
        · rw [hsuccesses]
          exact hfirst
      · rw [hsuccesses]
        exact h.once serial

theorem sound_step {e : Enrolling T A} (h : e.Sound b) (act : InvitationAct) :
    (e.step b lib identityPin act).Sound b := by
  cases act with
  | create name endpoint => exact sound_create h name endpoint
  | cancel => exact ⟨h.past, fun _ hcurrent => (by cases hcurrent), h.bounded, h.once, h.timely⟩
  | claim record sessionId pin => exact sound_claim h record sessionId pin
  | called op => exact ⟨h.past, h.current, h.bounded, h.once, h.timely⟩

/-- Every site a run of creations and claims reaches keeps the bounds, by induction on the acts. -/
theorem sound_run (site : Site T A) (acts : List InvitationAct) :
    (Enrolling.run b lib identityPin site acts).Sound b := by
  rw [Enrolling.run]
  induction acts using List.reverseRecOn with
  | nil => exact sound_init site
  | append_singleton acts act ih =>
    rw [List.foldl_append]
    exact sound_step ih act

end Enrolment
end Raticode.Device
