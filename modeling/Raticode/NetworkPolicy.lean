import Raticode.PyDocument
import Raticode.PyText

/-! `gofer.core.network_policy`: to which addresses an HTTP node may connect. -/
namespace Raticode.Network
open PyDocument Attempt

/-- What the policy reads of `urlsplit(url)`. -/
structure Split where
  scheme : Str
  hostname : Option Str
  port : Option ℕ
  deriving DecidableEq

/-- What the policy takes from `ipaddress`, `urllib.parse` and `str`. -/
structure Libraries (A N : Type) where
  /-- `urlsplit(url)`, where it and its `hostname` and `port` raise no `ValueError`. -/
  urlsplit : Str → Option Split
  urlunsplit : Str → Str → Str
  lower : Str → Str
  ipAddress : Str → Option A
  ipNetwork : Str → Option N
  addressText : A → Str
  networkText : N → Str
  contains : N → A → Bool
  isLoopback : A → Bool
  isGlobal : A → Bool
  isLinkLocal : A → Bool
  isMulticast : A → Bool
  isReserved : A → Bool
  isUnspecified : A → Bool

structure NetworkPolicyViolation where
  reason : Str
  url : Str
  deriving DecidableEq

/-- `__str__`. -/
def NetworkPolicyViolation.text (v : NetworkPolicyViolation) : Str :=
  PyDocument.text "HTTP request blocked by network policy: " ++ v.reason ++
    PyDocument.text " (" ++ v.url ++ PyDocument.text ")"

structure NetworkPolicyResult where
  url : Str
  host : Str
  port : Option ℕ
  allowedBy : Option Str
  deriving DecidableEq

structure NetworkPolicyTarget extends NetworkPolicyResult where
  connectHost : Str
  connectPort : ℕ
  deriving DecidableEq

/-- An entry of the allowlist, as `_parse_allowlist` reads it. -/
inductive Entry (A N : Type) where
  | network (network : N)
  | address (address : A)
  | host (pattern : Str)

abbrev Checked (α : Type) := Except NetworkPolicyViolation α

abbrev Resolver := Str → Option ℕ → List Str

def metadataHostnames : List Str :=
  [text "metadata", text "metadata.google.internal", text "metadata.azure.com"]

variable {A N : Type} [DecidableEq A] (lib : Libraries A N)

/-- `value.rstrip(".")`. -/
def rstripDots (value : Str) : Str := value.rdropWhile (fun c => c = 0x2e)

def normalizeHost (host : Str) : Str :=
  lib.lower (rstripDots (Scan.trim (fun c => c = 0x5b || c = 0x5d) host))

def safeUrlForError (parsed : Split) : Str :=
  let host := match parsed.hostname with
    | none | some [] => text "<missing-host>"
    | some host => host
  let netloc := if host.contains 0x3a then text "[" ++ host ++ text "]" else host
  lib.urlunsplit parsed.scheme (match parsed.port with
    | none => netloc
    | some port => netloc ++ text ":" ++ text (toString port))

def strip (value : Str) : Str := Scan.trim (fun c => PyText.isSpace (Char.ofNat c)) value

/-- What `_parse_allowlist` makes of an entry. -/
def parseEntry (raw : Str) : Option (Entry A N) :=
  let entry := lib.lower (strip raw)
  if entry = [] then none
  else
    match lib.ipNetwork entry, lib.ipAddress entry with
    | some network, _ => some (.network network)
    | none, some address => some (.address address)
    | none, none => some (.host (rstripDots entry))

def parseAllowlist (allowlist : List Str) : List (Entry A N) := allowlist.filterMap (parseEntry lib)

def matchesHost (host : Str) : Entry A N → Option Str
  | .host pattern =>
    if ((text "*.").isPrefixOf pattern && (pattern.drop 1).isSuffixOf host) || host = pattern then
      some pattern
    else none
  | _ => none

def hostAllowlistMatch (host : Str) (entries : List (Entry A N)) : Option Str :=
  entries.findSome? (matchesHost host)

def matchesAddress (address : A) : Entry A N → Option Str
  | .address value => if address = value then some (lib.addressText value) else none
  | .network network =>
    if lib.contains network address then some (lib.networkText network) else none
  | .host _ => none

def addressAllowlistMatch (address : A) (entries : List (Entry A N)) : Option Str :=
  entries.findSome? (matchesAddress lib address)

def addressIsBlocked (address : A) : Bool :=
  lib.isLoopback address || !lib.isGlobal address || lib.isLinkLocal address ||
    lib.isMulticast address || lib.isReserved address || lib.isUnspecified address

def validateAddress (url safeUrl host : Str) (port : Option ℕ) (address : A)
    (entries : List (Entry A N)) : Checked NetworkPolicyResult :=
  match addressAllowlistMatch lib address entries with
  | some allowed => .ok ⟨url, host, port, some allowed⟩
  | none =>
    if addressIsBlocked lib address then
      .error ⟨text "blocked private or local address '" ++ lib.addressText address ++ text "'", safeUrl⟩
    else .ok ⟨url, host, port, none⟩

/-- The loop of `validate_http_request_url` over what the host resolves to. -/
def validateResolved (url safeUrl host : Str) (port : Option ℕ) (entries : List (Entry A N)) :
    List Str → Checked Unit
  | [] => .ok ()
  | addressText :: more =>
    match lib.ipAddress addressText with
    | none => validateResolved url safeUrl host port entries more
    | some address => do
      let _ ← validateAddress lib url safeUrl host port address entries
      validateResolved url safeUrl host port entries more

def parseHttpRequestUrl (url : Str) : Checked Split :=
  match lib.urlsplit url with
  | some parsed => .ok parsed
  | none => .error ⟨text "invalid URL authority", text "<invalid-url>"⟩

/-- The host of a URL that has one, and `http` or `https` for its scheme. -/
def requestHost (parsed : Split) : Checked Str :=
  let scheme := lib.lower parsed.scheme
  if scheme ≠ text "http" ∧ scheme ≠ text "https" then
    .error ⟨text "unsupported URL scheme '" ++
      (if parsed.scheme = [] then text "<missing>" else parsed.scheme) ++ text "'",
      safeUrlForError lib parsed⟩
  else
    match parsed.hostname with
    | none | some [] => .error ⟨text "missing URL host", safeUrlForError lib parsed⟩
    | some host => .ok host

/-- `validate_http_request_url`, behind the parsing of the URL. -/
def validateParsed (url : Str) (parsed : Split) (allowlist : List Str) (resolver : Resolver) :
    Checked NetworkPolicyResult := do
  let host ← requestHost lib parsed
  let safeUrl := safeUrlForError lib parsed
  let entries := parseAllowlist lib allowlist
  match hostAllowlistMatch (normalizeHost lib host) entries with
  | some allowed => .ok ⟨url, host, parsed.port, some allowed⟩
  | none =>
    if metadataHostnames.contains (normalizeHost lib host) then
      .error ⟨text "metadata host '" ++ normalizeHost lib host ++ text "' is blocked", safeUrl⟩
    else
      match lib.ipAddress (normalizeHost lib host) with
      | some address => validateAddress lib url safeUrl host parsed.port address entries
      | none => do
        validateResolved lib url safeUrl host parsed.port entries (resolver host parsed.port)
        .ok ⟨url, host, parsed.port, none⟩

def validateHttpRequestUrl (url : Str) (allowlist : List Str) (resolver : Resolver) :
    Checked NetworkPolicyResult := do
  let parsed ← parseHttpRequestUrl lib url
  validateParsed lib url parsed allowlist resolver

def firstAddress (resolved : List Str) : Option A := resolved.findSome? lib.ipAddress

/-- `resolve_http_request_target`, with what the resolver answers while the URL is validated and what
it answers then. -/
def resolveHttpRequestTarget (url : Str) (allowlist : List Str) (resolver again : Resolver) :
    Checked NetworkPolicyTarget := do
  let parsed ← parseHttpRequestUrl lib url
  let result ← validateHttpRequestUrl lib url allowlist resolver
  let standard := if lib.lower parsed.scheme = text "http" then 80 else 443
  let port := match result.port with
    | none | some 0 => standard
    | some port => port
  match lib.ipAddress (normalizeHost lib result.host) with
  | some address => .ok ⟨result, lib.addressText address, port⟩
  | none =>
    match firstAddress lib (again result.host result.port), result.allowedBy with
    | some address, some _ => .ok ⟨result, lib.addressText address, port⟩
    | some address, none => do
      let checked ← validateAddress lib url (safeUrlForError lib parsed) result.host result.port address
        (parseAllowlist lib allowlist)
      .ok ⟨{ result with allowedBy := checked.allowedBy }, lib.addressText address, port⟩
    | none, _ => .error ⟨text "host '" ++ normalizeHost lib result.host ++
        text "' did not resolve to a usable address", safeUrlForError lib parsed⟩

/-! What the policy is for. -/
section Specification

variable {lib}

def Covers (pattern host : Str) : Prop :=
  host = pattern ∨ ∃ domain below, pattern = text "*." ++ domain ∧ host = below ++ text "." ++ domain

def Listed (lib : Libraries A N) (allowlist : List Str) (address : A) : Prop :=
  .address address ∈ parseAllowlist lib allowlist ∨
    ∃ network, .network network ∈ parseAllowlist lib allowlist ∧ lib.contains network address = true

def Authorised (lib : Libraries A N) (allowlist : List Str) (host connectHost : Str) : Prop :=
  (∃ pattern, .host pattern ∈ parseAllowlist lib allowlist ∧ Covers pattern (normalizeHost lib host)) ∨
    ∃ address, connectHost = lib.addressText address ∧
      (Listed lib allowlist address ∨ addressIsBlocked lib address = false)

variable {url safeUrl host : Str} {port : Option ℕ} {address : A} {allowlist : List Str}
  {entries : List (Entry A N)} {parsed : Split} {resolver again : Resolver}
  {result : NetworkPolicyResult} {e : NetworkPolicyViolation}

omit [DecidableEq A] in
theorem covers_of_match {pattern : Str} (h : hostAllowlistMatch host entries = some pattern) :
    .host pattern ∈ entries ∧ Covers pattern host := by
  obtain ⟨entry, hentry, hmatch⟩ := List.exists_of_findSome?_eq_some h
  cases entry with
  | network network => cases hmatch
  | address address => cases hmatch
  | host pattern' =>
    dsimp only [matchesHost] at hmatch
    split_ifs at hmatch with hcovers
    cases hmatch
    refine ⟨hentry, ?_⟩
    rcases Bool.or_eq_true_iff.mp hcovers with hbelow | hsame
    · right
      obtain ⟨hstar, hsuffix⟩ := Bool.and_eq_true_iff.mp hbelow
      obtain ⟨domain, rfl⟩ := List.isPrefixOf_iff_prefix.mp hstar
      obtain ⟨below, hbelow⟩ := List.isSuffixOf_iff_suffix.mp hsuffix
      refine ⟨domain, below, rfl, ?_⟩
      rw [← hbelow, List.append_assoc]
      rfl
    · exact .inl (of_decide_eq_true hsame)

theorem listed_of_match {allowed : Str}
    (h : addressAllowlistMatch lib address (parseAllowlist lib allowlist) = some allowed) :
    Listed lib allowlist address := by
  obtain ⟨entry, hentry, hmatch⟩ := List.exists_of_findSome?_eq_some h
  cases entry with
  | host pattern => cases hmatch
  | address value =>
    dsimp only [matchesAddress] at hmatch
    split_ifs at hmatch with hsame
    rw [← hsame] at hentry
    exact .inl hentry
  | network network =>
    dsimp only [matchesAddress] at hmatch
    split_ifs at hmatch with hcontains
    exact .inr ⟨network, hentry, hcontains⟩

theorem admitted_of_validateAddress
    (h : validateAddress lib url safeUrl host port address (parseAllowlist lib allowlist) = .ok result) :
    Listed lib allowlist address ∨ addressIsBlocked lib address = false := by
  unfold validateAddress at h
  split at h
  next hmatch => exact .inl (listed_of_match hmatch)
  · split_ifs at h with hblocked
    exact .inr (Bool.eq_false_iff.mpr hblocked)

omit [DecidableEq A] in
theorem parseHttpRequestUrl_ok : parseHttpRequestUrl lib url = .ok parsed ↔ lib.urlsplit url = some parsed := by
  unfold parseHttpRequestUrl
  cases lib.urlsplit url with
  | none => simp
  | some split => simp

omit [DecidableEq A] in
theorem requestHost_ok (h : requestHost lib parsed = .ok host) :
    (lib.lower parsed.scheme = text "http" ∨ lib.lower parsed.scheme = text "https") ∧
      parsed.hostname = some host := by
  unfold requestHost at h
  dsimp only at h
  split_ifs at h with hscheme
  constructor
  · by_contra hneither
    exact hscheme (not_or.mp hneither)
  · split at h
    · cases h
    · cases h
    next hhost =>
      cases h
      exact hhost

theorem validateParsed_ok (h : validateParsed lib url parsed allowlist resolver = .ok result) :
    requestHost lib parsed = .ok result.host ∧
      ((∃ pattern, .host pattern ∈ parseAllowlist lib allowlist ∧
          Covers pattern (normalizeHost lib result.host)) ∨
        (∀ address, lib.ipAddress (normalizeHost lib result.host) = some address →
          Listed lib allowlist address ∨ addressIsBlocked lib address = false) ∧
        (lib.ipAddress (normalizeHost lib result.host) = none → result.allowedBy = none)) := by
  obtain ⟨host, hhost, h⟩ := bind_ok h
  dsimp only at h
  split at h
  next pattern hmatch =>
    cases h
    exact ⟨hhost, .inl ⟨pattern, covers_of_match hmatch⟩⟩
  · split_ifs at h
    split at h
    next address haddress =>
      have hsame : result.host = host := by
        unfold validateAddress at h
        split at h
        · cases h
          rfl
        · split_ifs at h
          cases h
          rfl
      rw [hsame]
      refine ⟨hhost, .inr ⟨fun address' haddress' => ?_, fun hnone => ?_⟩⟩
      · rw [haddress, Option.some.injEq] at haddress'
        rw [← haddress']
        exact admitted_of_validateAddress h
      · rw [haddress] at hnone
        cases hnone
    next hnone =>
      obtain ⟨-, -, h⟩ := bind_ok h
      cases h
      refine ⟨hhost, .inr ⟨fun address haddress => ?_, fun _ => rfl⟩⟩
      rw [hnone] at haddress
      cases haddress

theorem target_authorised {target : NetworkPolicyTarget}
    (h : resolveHttpRequestTarget lib url allowlist resolver again = .ok target) :
    ∃ parsed, lib.urlsplit url = some parsed ∧
      (lib.lower parsed.scheme = text "http" ∨ lib.lower parsed.scheme = text "https") ∧
      parsed.hostname = some target.host ∧ Authorised lib allowlist target.host target.connectHost := by
  obtain ⟨parsed, hparsed, h⟩ := bind_ok h
  obtain ⟨result, hresult, h⟩ := bind_ok h
  obtain ⟨parsed', hparsed', hvalid⟩ := bind_ok hresult
  rw [hparsed, Except.ok.injEq] at hparsed'
  rw [← hparsed'] at hvalid
  obtain ⟨hhost, hwhy⟩ := validateParsed_ok hvalid
  obtain ⟨hscheme, hhostname⟩ := requestHost_ok hhost
  refine ⟨parsed, parseHttpRequestUrl_ok.mp hparsed, hscheme, ?_⟩
  dsimp only at h
  split at h
  next address haddress =>
    cases h
    refine ⟨hhostname, ?_⟩
    rcases hwhy with hnamed | ⟨hliteral, -⟩
    · exact .inl hnamed
    · exact .inr ⟨address, rfl, hliteral address haddress⟩
  next hnone =>
    split at h
    next address allowed hallowed =>
      cases h
      refine ⟨hhostname, ?_⟩
      rcases hwhy with hnamed | ⟨-, hresolved⟩
      · exact .inl hnamed
      · rw [hresolved hnone] at hallowed
        cases hallowed
    next address hfirst hallowed =>
      obtain ⟨checked, hchecked, h⟩ := bind_ok h
      cases h
      exact ⟨hhostname, .inr ⟨_, rfl, admitted_of_validateAddress hchecked⟩⟩
    · cases h

end Specification

/-! A refusal says nothing of a URL but its scheme, its host and its port. -/
section Refusals

variable {lib}
variable {u v safeUrl host : Str} {port : Option ℕ} {address : A} {allowlist : List Str}
  {entries : List (Entry A N)} {parsed : Split} {resolver again : Resolver}

def NetworkPolicyResult.on (v : Str) (result : NetworkPolicyResult) : NetworkPolicyResult :=
  { result with url := v }

theorem validateAddress_on (u v : Str) :
    validateAddress lib v safeUrl host port address entries =
      (validateAddress lib u safeUrl host port address entries).map (NetworkPolicyResult.on v) := by
  unfold validateAddress
  split
  · rfl
  · split_ifs
    · rfl
    · rfl

theorem validateResolved_on (u v : Str) (resolved : List Str) :
    validateResolved lib v safeUrl host port entries resolved =
      validateResolved lib u safeUrl host port entries resolved := by
  induction resolved with
  | nil => rfl
  | cons addressText more ih =>
    unfold validateResolved
    split
    · exact ih
    · rw [validateAddress_on u v, ih]
      cases validateAddress lib u safeUrl host port _ entries with
      | ok result => rfl
      | error e => rfl

theorem validateParsed_on (u v : Str) :
    validateParsed lib v parsed allowlist resolver =
      (validateParsed lib u parsed allowlist resolver).map (NetworkPolicyResult.on v) := by
  unfold validateParsed
  cases requestHost lib parsed with
  | error e => rfl
  | ok host =>
    change (match hostAllowlistMatch (normalizeHost lib host) (parseAllowlist lib allowlist) with
      | some allowed => _
      | none => _) = Except.map _ (match hostAllowlistMatch (normalizeHost lib host)
        (parseAllowlist lib allowlist) with
      | some allowed => _
      | none => _)
    split
    · rfl
    · split_ifs
      · rfl
      · split
        · exact validateAddress_on u v
        · rw [validateResolved_on u v]
          cases validateResolved lib u (safeUrlForError lib parsed) host parsed.port
            (parseAllowlist lib allowlist) (resolver host parsed.port) with
          | ok _ => rfl
          | error e => rfl

theorem resolveHttpRequestTarget_on (hsame : lib.urlsplit u = lib.urlsplit v) :
    resolveHttpRequestTarget lib v allowlist resolver again =
      (resolveHttpRequestTarget lib u allowlist resolver again).map
        (fun target => { target with url := v }) := by
  unfold resolveHttpRequestTarget validateHttpRequestUrl parseHttpRequestUrl
  rw [← hsame]
  cases lib.urlsplit u with
  | none => rfl
  | some parsed =>
    change (do
      let result ← validateParsed lib v parsed allowlist resolver
      _) = Except.map _ (do
      let result ← validateParsed lib u parsed allowlist resolver
      _)
    rw [validateParsed_on u v]
    cases validateParsed lib u parsed allowlist resolver with
    | error e => rfl
    | ok result =>
      change (match lib.ipAddress (normalizeHost lib result.host) with
        | some address => _
        | none => _) = Except.map _ (match lib.ipAddress (normalizeHost lib result.host) with
        | some address => _
        | none => _)
      split
      · rfl
      · change (match firstAddress lib (again result.host result.port), result.allowedBy with
          | some address, some _ => _
          | some address, none => _
          | none, _ => _) = Except.map _ (match firstAddress lib (again result.host result.port),
            result.allowedBy with
          | some address, some _ => _
          | some address, none => _
          | none, _ => _)
        split
        · rfl
        next address _ _ =>
          dsimp only [NetworkPolicyResult.on]
          rw [validateAddress_on u v]
          cases validateAddress lib u (safeUrlForError lib parsed) result.host result.port address
            (parseAllowlist lib allowlist) with
          | ok checked => rfl
          | error e => rfl
        · rfl

def refusal (lib : Libraries A N) (url : Str) (allowlist : List Str) (resolver again : Resolver) : Option Str :=
  match resolveHttpRequestTarget lib url allowlist resolver again with
  | .ok _ => none
  | .error e => some e.text

end Refusals

/-- A target is one of HTTP and is authorised, whatever the resolver answers and whether or not it
answers alike twice; and the refusals of two URLs with one scheme, host and port have one text. -/
theorem targets_authorised (lib : Libraries A N) (allowlist : List Str) (resolver again : Resolver) :
    (∀ url target, resolveHttpRequestTarget lib url allowlist resolver again = .ok target →
      ∃ parsed, lib.urlsplit url = some parsed ∧
        (lib.lower parsed.scheme = text "http" ∨ lib.lower parsed.scheme = text "https") ∧
        parsed.hostname = some target.host ∧ Authorised lib allowlist target.host target.connectHost) ∧
      ∀ u v, lib.urlsplit u = lib.urlsplit v →
        refusal lib u allowlist resolver again = refusal lib v allowlist resolver again := by
  refine ⟨fun url target h => target_authorised h, fun u v hsame => ?_⟩
  unfold refusal
  rw [resolveHttpRequestTarget_on hsame]
  cases resolveHttpRequestTarget lib u allowlist resolver again with
  | ok target => rfl
  | error e => rfl

/-- The authority of an `http` URL, which may not have a bracket of one kind only. -/
def plainSplit (url : Str) : Option Split :=
  let netloc := (url.drop 7).takeWhile (· ≠ 0x2f)
  if netloc.contains 0x5b = netloc.contains 0x5d then
    some ⟨text "http", some (netloc.rtakeWhile (· ≠ 0x40)), none⟩
  else none

/-- Where all letters are small and one address, that of the machine itself, is known. -/
def plainLibraries : Libraries Str Str where
  urlsplit := plainSplit
  urlunsplit scheme netloc := scheme ++ text "://" ++ netloc ++ text "/"
  lower s := s
  ipAddress s := if s = text "127.0.0.1" then some s else none
  ipNetwork _ := none
  addressText s := s
  networkText s := s
  contains _ _ := false
  isLoopback s := s = text "127.0.0.1"
  isGlobal _ := false
  isLinkLocal _ := false
  isMulticast _ := false
  isReserved _ := false
  isUnspecified _ := false

/-- URLs that differ in the user information alone are refused in different words when one of them is no
URL, and a host may stand under a listed domain with nothing before the dot. -/
theorem user_information_read :
    refusal plainLibraries (text "http://user@127.0.0.1/") [] (fun _ _ => []) (fun _ _ => []) ≠
        refusal plainLibraries (text "http://us[er@127.0.0.1/") [] (fun _ _ => []) (fun _ _ => []) ∧
      (resolveHttpRequestTarget plainLibraries (text "http://.example.com/") [text "*.example.com"]
        (fun _ _ => [text "127.0.0.1"]) (fun _ _ => [text "127.0.0.1"])).map (·.host) =
          .ok (text ".example.com") := by
  constructor
  · decide +kernel
  · decide +kernel

end Raticode.Network
