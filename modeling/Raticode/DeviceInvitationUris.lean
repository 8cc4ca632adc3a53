import Mathlib.Algebra.Order.Ring.Rat
import Mathlib.Tactic.Positivity
import Raticode.DeviceInvitations

/-! An invitation that was made is parsed again, with the same members, until it expires; and it
enrols at most one device. -/
namespace Raticode.Device
open PyDocument PyText PyJson Attempt

/-! Lengths of what is written. -/
section Lengths

variable {style : Style}

theorem length_unitEscape (n : ℕ) : (unitEscape n).length = 6 := rfl

theorem length_escape_le (n : ℕ) : (escape style n).length ≤ 12 := by
  rw [escape]
  split_ifs
  all_goals first | decide | simp [length_unitEscape]

theorem length_quoted_le (s : Str) : (quoted style s).length ≤ 12 * s.length + 2 := by
  have hbody : (s.flatMap (escape style)).length ≤ 12 * s.length := by
    induction s with
    | nil => exact Nat.le_refl 0
    | cons n s ih =>
      have hone : (escape style n).length ≤ 12 := length_escape_le n
      rw [List.flatMap_cons, List.length_append, List.length_cons]
      omega
  rw [quoted, List.length_append, List.length_append, List.length_singleton]
  omega

theorem length_hexText (pin : Bytes) : (hexText pin).length = 2 * pin.length := by
  induction pin with
  | nil => rfl
  | cons x pin ih =>
    rw [hexText, List.flatMap_cons, List.length_append, ← hexText, ih, List.length_cons]
    simp only [List.length_cons, List.length_nil]
    omega

theorem isLowerHex_hexDigit {d : ℕ} (h : d < 16) : isLowerHex (hexDigit d).toNat = true := by
  have hall : ∀ d < 16, isLowerHex (hexDigit d).toNat = true := by decide
  exact hall d h

theorem all_hexText (pin : Bytes) : ∀ c ∈ hexText pin, isLowerHex c = true := by
  intro c hc
  obtain ⟨x, -, hx⟩ := List.mem_flatMap.mp hc
  have hsize := x.toNat_lt
  simp only [List.mem_cons, List.not_mem_nil, or_false] at hx
  rcases hx with rfl | rfl
  · exact isLowerHex_hexDigit (by omega)
  · exact isLowerHex_hexDigit (by omega)

theorem plain_hexText (pin : Bytes) : Plain (hexText pin) := by
  intro c hc
  have hhex := all_hexText pin c hc
  simp only [isLowerHex, Bool.or_eq_true, Bool.and_eq_true, decide_eq_true_eq] at hhex
  omega

end Lengths

/-! The members, with their texts. -/
section Members

variable {limits : Limits}

structure Written (limits : Limits) (e : Entry) : Prop where
  dumped : dumps limits ⟨true, true⟩ 1 e.value = .ok e.written
  read : ReadsBack limits strictHooks 4 1 e.written e.value
  shallow : Shallow (e.value, 1)
  ascii : ∀ n ∈ e.written, n < 0x7f

theorem Kept.written {e : Entry} (h : Kept limits 1 e) : Written limits e where
  dumped := h.dumped
  read := h.read.mono (by omega)
  shallow := .inl ⟨h.leaf, show 1 ≤ 16 by omega⟩
  ascii := h.ascii

def stringEntry (name s : Str) : Entry := ⟨name, .str s, quoted ⟨true, true⟩ s⟩

def natEntry (name : Str) (n : ℕ) : Entry := ⟨name, .int n, (Nat.toDigits 10 n).map Char.toNat⟩

structure EndpointText (limits : Limits) (value : Value) (written : Str) : Prop where
  kept : Written limits ⟨text "lan_endpoint", value, written⟩
  length : written.length ≤ 300

theorem endpointText_null : EndpointText limits .null (text "null") where
  kept := by
    refine ⟨by rw [dumps], (readsBack_null 1).mono (by omega), .inl ⟨.null, show 1 ≤ 16 by omega⟩, ?_⟩
    decide
  length := by decide

theorem endpointText_pair (hnesting : 1 < limits.nesting) {e f : Entry} (he : Kept limits 2 e)
    (hf : Kept limits 2 f) (hnames : e.name ≠ f.name) (hscalar : Scalar e.name ∧ Scalar f.name)
    (hlength : (objectText ⟨true, true⟩ [e, f]).length ≤ 300) :
    EndpointText limits (.dict (asRecord [e, f])) (objectText ⟨true, true⟩ [e, f]) where
  kept := by
    have hall : ∀ g ∈ [e, f], Kept limits 2 g := by
      intro g hg
      rcases List.mem_pair.mp hg with rfl | rfl
      · exact he
      · exact hf
    have hplain : ∀ g ∈ [e, f], Scalar g.name := by
      intro g hg
      rcases List.mem_pair.mp hg with rfl | rfl
      · exact hscalar.1
      · exact hscalar.2
    refine ⟨dumps_object hnesting (fun g hg => (hall g hg).dumped), ?_, ?_, ?_⟩
    · apply (readsBack_object rfl hnesting (by simp) hplain (fun g hg => (hall g hg).read)
        (pairs_entries (by simpa using hnames))).mono
      exact Nat.le_refl 4
    · exact .inr ⟨show 1 ≤ 15 by omega, [e, f], rfl, by simp [maxCollection],
        fun g hg => ⟨hplain g hg, (hall g hg).leaf⟩⟩
    · exact ascii_object rfl (fun g hg => (hall g hg).ascii)
  length := hlength

def invitationEntries (invitationId responderId responderName : Str) (pin : Bytes) (secret : Str)
    (expires : ℕ) (initiatorTopic responderTopic : Str) (endpoint : Value) (written : Str) :
    List Entry :=
  [natEntry (text "version") 2, stringEntry (text "profile") (text "raticode-tls13-v2"),
    stringEntry (text "invitation_id") invitationId, stringEntry (text "responder_id") responderId,
    stringEntry (text "responder_name") responderName,
    stringEntry (text "responder_role") (text "desktop"),
    stringEntry (text "responder_spki_sha256") (hexText pin), stringEntry (text "secret") secret,
    natEntry (text "expires_at") expires, stringEntry (text "relay") unusedRelayOrigin,
    stringEntry (text "pair_initiator_topic") initiatorTopic,
    stringEntry (text "pair_responder_topic") responderTopic,
    ⟨text "lan_endpoint", endpoint, written⟩]

end Members

/-! The endpoint. -/
section Endpoints

variable {lib : PairingLibrary} {limits : Limits}

theorem stringKeys_spec {members : Record} {keys : List Str} (h : stringKeys members = some keys) :
    members.map Prod.fst = keys.map Key.str := by
  induction members generalizing keys with
  | nil =>
    cases h
    rfl
  | cons p members ih =>
    obtain ⟨key, value⟩ := p
    rw [stringKeys, List.mapM_cons] at h
    cases key with
    | str s =>
      cases hrest : stringKeys members with
      | none =>
        rw [stringKeys] at hrest
        simp [hrest] at h
      | some rest =>
        have hmap := ih hrest
        rw [stringKeys] at hrest
        simp only [hrest, Option.pure_def, Option.bind_eq_bind, Option.bind_some,
          Option.some.injEq] at h
        rw [← h, List.map_cons, List.map_cons, hmap]
    | _ => simp at h

theorem lan_members {members : Record} (hnodup : (members.map Prod.fst).Nodup)
    (h : hasKeys [text "host", text "port"] members = true) :
    (∃ host port, members = [(.str (text "host"), host), (.str (text "port"), port)]) ∨
      ∃ host port, members = [(.str (text "port"), port), (.str (text "host"), host)] := by
  unfold hasKeys at h
  split at h
  next keys hkeys =>
    have hmap := stringKeys_spec hkeys
    have hdistinct : keys.Nodup := by
      rw [hmap] at hnodup
      exact hnodup.of_map _
    have hne : text "host" ≠ text "port" := by decide
    rw [Bool.and_eq_true, List.all_eq_true, List.all_eq_true] at h
    have hperm : keys.Perm [text "host", text "port"] := by
      apply (List.perm_ext_iff_of_nodup hdistinct (by simpa using hne)).mpr
      intro a
      exact ⟨fun ha => List.contains_iff_mem.mp (h.1 a ha),
        fun ha => List.contains_iff_mem.mp (h.2 a ha)⟩
    obtain ⟨a, c, hpair⟩ := List.length_eq_two.mp hperm.length_eq
    obtain ⟨p, q, hmembers⟩ : ∃ p q, members = [p, q] := by
      apply List.length_eq_two.mp
      rw [← List.length_map (f := Prod.fst), hmap, List.length_map, hperm.length_eq]
      rfl
    rw [hpair, hmembers] at hmap
    simp only [List.map_cons, List.map_nil, List.cons.injEq, and_true] at hmap
    obtain ⟨hp, hq⟩ := hmap
    rw [hpair] at hperm hdistinct
    have ha := hperm.mem_iff.mp (List.mem_cons_self (a := a))
    have hc := hperm.mem_iff.mp (List.mem_cons_of_mem a (List.mem_singleton_self c))
    have hac : a ≠ c := by simpa using hdistinct
    rcases List.mem_pair.mp ha with rfl | rfl
    · rcases List.mem_pair.mp hc with rfl | rfl
      · exact absurd rfl hac
      · exact .inl ⟨p.2, q.2, by rw [hmembers, ← hp, ← hq]⟩
    · rcases List.mem_pair.mp hc with rfl | rfl
      · exact .inr ⟨q.2, p.2, by rw [hmembers, ← hp, ← hq]⟩
      · exact absurd rfl hac
  · cases h

theorem lanHost_spec {value : Value} (h : isLanHost lib (some value) = true) :
    ∃ host, value = .str host ∧ host.length ≤ 253 ∧ (lib.ipAddress host).isSome = true ∧
      host.contains 0x25 = false := by
  unfold isLanHost at h
  split at h
  next host heq =>
    cases heq
    simp only [Bool.and_eq_true, decide_eq_true_eq, Bool.not_eq_true'] at h
    obtain ⟨⟨⟨-, hlength⟩, hscope⟩, haddress⟩ := h
    refine ⟨host, rfl, hlength, ?_, hscope⟩
    cases hip : lib.ipAddress host with
    | none => simp [hip] at haddress
    | some a => rfl
  · cases h

theorem lanPort_spec {value : Value} (h : isLanPort (some value) = true) :
    ∃ port : ℕ, value = .int port ∧ port ≤ 65535 := by
  unfold isLanPort at h
  split at h
  next port heq =>
    cases heq
    simp only [Bool.and_eq_true, decide_eq_true_eq] at h
    refine ⟨port.toNat, ?_, by omega⟩
    rw [Int.toNat_of_nonneg (by omega)]
  · cases h

theorem endpointText_of_lan (hdigits : ∀ limit ∈ limits.maxDigits, 640 ≤ limit)
    (hnesting : 1 < limits.nesting)
    (haddress : ∀ host, (lib.ipAddress host).isSome = true → host.contains 0x25 = false → Plain host)
    {endpoint : Option Endpoint} (h : isLanEndpoint lib (some (endpointValue endpoint)) = true) :
    ∃ written, EndpointText limits (endpointValue endpoint) written := by
  cases endpoint with
  | none => exact ⟨_, endpointText_null⟩
  | some endpoint =>
    obtain ⟨members, hnodup⟩ := endpoint
    simp only [endpointValue, isLanEndpoint, Bool.and_eq_true] at h ⊢
    obtain ⟨⟨hkeys, hhost⟩, hport⟩ := h
    have hnames : text "host" ≠ text "port" := by decide
    have hscalar : Scalar (text "host") ∧ Scalar (text "port") :=
      ⟨(plain_of_all (by decide)).scalar, (plain_of_all (by decide)).scalar⟩
    have hkept : ∀ {host : Str}, Plain host → Kept limits 2 (stringEntry (text "host") host) :=
      fun hplain => kept_string hplain.scalar
    have hnumber : ∀ {port : ℕ}, port ≤ 65535 → Kept limits 2 (natEntry (text "port") port) ∧
        (Nat.toDigits 10 port).length ≤ 5 := by
      intro port hle
      have hlength : (Nat.toDigits 10 port).length ≤ 5 := by
        apply (Nat.length_toDigits_le_iff (by decide) (by decide)).mpr
        omega
      refine ⟨kept_nat ?_, hlength⟩
      intro limit hlimit
      have hle := hdigits limit hlimit
      omega
    have hquotes : (quoted ⟨true, true⟩ (text "host")).length = 6 ∧
        (quoted ⟨true, true⟩ (text "port")).length = 6 := by
      decide
    rcases lan_members hnodup hkeys with ⟨v, w, rfl⟩ | ⟨v, w, rfl⟩
    · obtain ⟨host, rfl, hlength, hip, hscope⟩ := lanHost_spec (show isLanHost lib (some v) = true from hhost)
      obtain ⟨port, rfl, hle⟩ := lanPort_spec (show isLanPort (some w) = true from hport)
      have hplain := haddress host hip hscope
      have hquoted := length_quoted_plain hplain
      refine ⟨_, endpointText_pair hnesting (hkept hplain) (hnumber hle).1 hnames hscalar ?_⟩
      have hdigits' := (hnumber hle).2
      simp only [objectText, membersText_cons_cons, membersText_singleton, Entry.text, stringEntry,
        natEntry, List.length_append, List.length_cons, List.length_nil, List.length_map, hquotes.1,
        hquotes.2, hquoted]
      omega
    · obtain ⟨host, rfl, hlength, hip, hscope⟩ := lanHost_spec (show isLanHost lib (some v) = true from hhost)
      obtain ⟨port, rfl, hle⟩ := lanPort_spec (show isLanPort (some w) = true from hport)
      have hplain := haddress host hip hscope
      have hquoted := length_quoted_plain hplain
      refine ⟨_, endpointText_pair hnesting (hnumber hle).1 (hkept hplain) hnames.symm hscalar.symm ?_⟩
      have hdigits' := (hnumber hle).2
      simp only [objectText, membersText_cons_cons, membersText_singleton, Entry.text, stringEntry,
        natEntry, List.length_append, List.length_cons, List.length_nil, List.length_map, hquotes.1,
        hquotes.2, hquoted]
      omega

end Endpoints

/-! What is written of an invitation, and read again. -/
section Reading

variable {T A : Type} {b : Backend T A} {lib : PairingLibrary} {pin : Bytes}

structure Documented (b : Backend T A) (lib : PairingLibrary) (pin : Bytes) : Prop where
  digits : ∀ limit ∈ b.limits.maxDigits, 640 ≤ limit
  nesting : 1 < b.limits.nesting
  /-- `time.time()` is a float, in seconds since the epoch. -/
  clock : ∀ n, 0 ≤ b.clock n ∧ b.clock n < 2 * 10 ^ 308
  uuid4 : ∀ n, isUuid (b.uuid4 n) = true
  token : ∀ n, (lib.token n).length = 32
  /-- The surrogates are of category `Cs`, and no character is beyond the last code point. -/
  category : ∀ c, lib.isControl c = false → c < 0x110000 ∧ isSurrogate c = false
  address : ∀ host, (lib.ipAddress host).isSome = true → host.contains 0x25 = false → Plain host
  origin : lib.urlsplit unusedRelayOrigin =
    some ⟨text "https", some (text "relay.invalid"), none, none, [], [], [], some none⟩
  space : unusedRelayOrigin.any lib.isSpace = false
  pin : pin.length = 32

theorem label_spec {name : Str} (h : isLabel lib (some (.str name)) = true) :
    name.length ≤ 80 ∧ ∀ c ∈ name, lib.isControl c = false := by
  simp only [isLabel, iterate, Option.bind_some, List.length_map, List.all_map, Bool.and_eq_true,
    decide_eq_true_eq, List.all_eq_true] at h
  refine ⟨h.1.2, fun c hc => ?_⟩
  have hitem := h.2 c hc
  simpa [isLabelItem] using hitem

theorem length_token {bytes : Bytes} (h : bytes.length = 32) :
    (urlsafeB64encode bytes).length = 43 := by
  rw [urlsafeB64encode, List.length_map, length_sextets, h]

theorem isToken_encoded {bytes : Bytes} (h : bytes.length = 32) :
    isToken (some (.str (urlsafeB64encode bytes))) = true := by
  have hlength := length_token h
  have hall : ∀ n ∈ urlsafeB64encode bytes, n ∈ alphabet := fun n hn => mem_alphabet_of_encoded hn
  simpa [isToken, Registry.isTopic, hlength, b64decode_urlsafeB64encode] using hall

theorem relayOrigin_unused (h : Documented b lib pin) :
    relayOrigin lib (some (.str unusedRelayOrigin)) = .ok () := by
  simp [relayOrigin, h.origin, isRelayUrl, h.space]
  decide

theorem draftExpires_nat (h : Documented b lib pin) (site : Site T A) :
    ∃ n : ℕ, draftExpires b site = n ∧ (n : ℚ) ≤ b.clock site.readings + 300 ∧
      (Nat.toDigits 10 n).length ≤ 309 := by
  obtain ⟨hlow, hhigh⟩ := h.clock site.readings
  have hfloor : Serve.truncate (b.clock site.readings) = (b.clock site.readings).floor :=
    if_pos hlow
  have hnonneg : 0 ≤ (b.clock site.readings).floor := Rat.le_floor_iff.mpr (by simpa using hlow)
  obtain ⟨k, hk⟩ := Int.eq_ofNat_of_zero_le hnonneg
  have hle : (k : ℚ) ≤ b.clock site.readings := by
    have hfl := Rat.floor_le (b.clock site.readings)
    rw [hk] at hfl
    simpa using hfl
  refine ⟨k + 300, by rw [draftExpires, hfloor, hk]; rfl, ?_, ?_⟩
  · push_cast
    exact add_le_add hle le_rfl
  · apply (Nat.length_toDigits_le_iff (by decide) (by decide)).mpr
    have hk' : k < 2 * 10 ^ 308 := by
      have hlt := hle.trans_lt hhigh
      exact_mod_cast hlt
    have hlarge : 10 ^ 3 ≤ 10 ^ 308 := Nat.pow_le_pow_right (by decide) (by decide)
    rw [Nat.pow_succ]
    generalize 10 ^ 308 = power at hk' hlarge ⊢
    omega

variable {name : Str} {endpoint : Option Endpoint} {site : Site T A} {uri : Str}
  {invite : Invitation}

def draftEntries (b : Backend T A) (lib : PairingLibrary) (pin : Bytes) (name : Str)
    (endpoint : Option Endpoint) (site : Site T A) (expires : ℕ) (written : Str) : List Entry :=
  invitationEntries (b.uuid4 site.ledger.drawn) site.ledger.registry.identity name pin
    (urlsafeB64encode (lib.token (site.ledger.drawn + 1))) expires
    (urlsafeB64encode (lib.token (site.ledger.drawn + 2)))
    (urlsafeB64encode (lib.token (site.ledger.drawn + 3))) (endpointValue endpoint) written

theorem asRecord_draftEntries {expires : ℕ} {written : Str} (h : draftExpires b site = expires) :
    asRecord (draftEntries b lib pin name endpoint site expires written) =
      draftData b lib pin name endpoint site := by
  rw [draftData, h]
  rfl

theorem plain_invitationFields : ∀ field ∈ invitationFields, Plain field := by
  have hall : invitationFields.all (fun s => s.all
      (fun n => 0x20 ≤ n && n < 0x7f && n ≠ 0x22 && n ≠ 0x5c)) = true := by
    decide
  exact fun field hfield => plain_of_all (List.all_eq_true.mp hall field hfield)

theorem written_draftEntries (h : Documented b lib pin)
    (hidentity : isUuid site.ledger.registry.identity = true)
    (hlabel : isLabel lib (some (.str name)) = true) {expires : ℕ}
    (hexpires : (Nat.toDigits 10 expires).length ≤ 309) {written : Str}
    (hendpoint : EndpointText b.limits (endpointValue endpoint) written) :
    ∀ e ∈ draftEntries b lib pin name endpoint site expires written, Written b.limits e := by
  have hstring : ∀ {field s : Str}, Scalar s → Written b.limits (stringEntry field s) :=
    fun hs => (kept_string hs).written
  have hnat : ∀ {field : Str} {n : ℕ}, (Nat.toDigits 10 n).length ≤ 309 →
      Written b.limits (natEntry field n) := by
    intro field n hn
    apply Kept.written
    apply kept_nat
    intro limit hlimit
    have hle := h.digits limit hlimit
    omega
  have hscalar : Scalar name := fun c hc => h.category c ((label_spec hlabel).2 c hc)
  intro e he
  simp only [draftEntries, invitationEntries, List.mem_cons, List.not_mem_nil, or_false] at he
  rcases he with rfl | rfl | rfl | rfl | rfl | rfl | rfl | rfl | rfl | rfl | rfl | rfl | rfl
  · exact hnat (by decide)
  · exact hstring (plain_of_all (by decide)).scalar
  · exact hstring (plain_uuid (h.uuid4 _)).1.scalar
  · exact hstring (plain_uuid hidentity).1.scalar
  · exact hstring hscalar
  · exact hstring (plain_of_all (by decide)).scalar
  · exact hstring (plain_hexText pin).scalar
  · exact hstring (plain_encoded _).scalar
  · exact hnat hexpires
  · exact hstring (plain_of_all (by decide)).scalar
  · exact hstring (plain_encoded _).scalar
  · exact hstring (plain_encoded _).scalar
  · exact hendpoint.kept

theorem length_draftEntries (h : Documented b lib pin)
    (hidentity : isUuid site.ledger.registry.identity = true)
    (hlabel : isLabel lib (some (.str name)) = true) {expires : ℕ}
    (hexpires : (Nat.toDigits 10 expires).length ≤ 309) {written : Str}
    (hwritten : written.length ≤ 300) :
    17 ≤ (objectText ⟨true, true⟩
        (draftEntries b lib pin name endpoint site expires written)).length ∧
      (objectText ⟨true, true⟩
        (draftEntries b lib pin name endpoint site expires written)).length ≤ 3000 := by
  have hfields : (quoted ⟨true, true⟩ (text "version")).length = 9 ∧
      (quoted ⟨true, true⟩ (text "profile")).length = 9 ∧
      (quoted ⟨true, true⟩ (text "invitation_id")).length = 15 ∧
      (quoted ⟨true, true⟩ (text "responder_id")).length = 14 ∧
      (quoted ⟨true, true⟩ (text "responder_name")).length = 16 ∧
      (quoted ⟨true, true⟩ (text "responder_role")).length = 16 ∧
      (quoted ⟨true, true⟩ (text "responder_spki_sha256")).length = 23 ∧
      (quoted ⟨true, true⟩ (text "secret")).length = 8 ∧
      (quoted ⟨true, true⟩ (text "expires_at")).length = 12 ∧
      (quoted ⟨true, true⟩ (text "relay")).length = 7 ∧
      (quoted ⟨true, true⟩ (text "pair_initiator_topic")).length = 22 ∧
      (quoted ⟨true, true⟩ (text "pair_responder_topic")).length = 22 ∧
      (quoted ⟨true, true⟩ (text "lan_endpoint")).length = 14 := by
    decide
  have hfixed : (quoted ⟨true, true⟩ (text "raticode-tls13-v2")).length = 19 ∧
      (quoted ⟨true, true⟩ (text "desktop")).length = 9 ∧
      (quoted ⟨true, true⟩ unusedRelayOrigin).length = 23 ∧ (Nat.toDigits 10 2).length = 1 := by
    decide
  obtain ⟨h1, h2, h3, h4, h5, h6, h7, h8, h9, h10, h11, h12, h13⟩ := hfields
  obtain ⟨hprofile, hrole, hrelay, htwo⟩ := hfixed
  have hid := length_quoted_plain (plain_uuid (h.uuid4 site.ledger.drawn)).1
  have hid' := (plain_uuid (h.uuid4 site.ledger.drawn)).2
  have hresponder := length_quoted_plain (plain_uuid hidentity).1
  have hresponder' := (plain_uuid hidentity).2
  have hname : (quoted ⟨true, true⟩ name).length ≤ 12 * name.length + 2 := length_quoted_le name
  have hname' := (label_spec hlabel).1
  have hpin := length_quoted_plain (plain_hexText pin)
  have hpin' := length_hexText pin
  have hpin'' := h.pin
  have htoken (n : ℕ) : (quoted ⟨true, true⟩ (urlsafeB64encode (lib.token n))).length = 45 := by
    rw [length_quoted_plain (plain_encoded _), length_token (h.token n)]
  simp only [objectText, draftEntries, invitationEntries, membersText_cons_cons,
    membersText_singleton, Entry.text, stringEntry, natEntry, List.length_append, List.length_cons,
    List.length_nil, List.length_map, h1, h2, h3, h4, h5, h6, h7, h8, h9, h10, h11, h12, h13,
    hprofile, hrole, hrelay, htwo, htoken]
  omega

theorem raw_issued (h : Documented b lib pin)
    (hidentity : isUuid site.ledger.registry.identity = true)
    (hissued : Issued b lib pin name endpoint site uri invite) :
    0 < invite.raw.length ∧ invite.raw.length ≤ 3000 ∧
      strictJson b.limits 3072 invite.raw = .ok (draftData b lib pin name endpoint site) := by
  obtain ⟨expires, hexpires, -, hdigits⟩ := draftExpires_nat h site
  obtain ⟨written, hendpoint⟩ := endpointText_of_lan h.digits h.nesting h.address hissued.lan
  have hwritten := written_draftEntries h hidentity hissued.label hdigits hendpoint
  obtain ⟨hlow, hhigh⟩ : 17 ≤ (objectText ⟨true, true⟩
      (draftEntries b lib pin name endpoint site expires written)).length ∧ _ :=
    length_draftEntries h hidentity hissued.label hdigits hendpoint.length
  generalize hentries : draftEntries b lib pin name endpoint site expires written = entries at *
  have hrecord : asRecord entries = draftData b lib pin name endpoint site := by
    rw [← hentries]
    exact asRecord_draftEntries hexpires
  have hnames : entries.map Entry.name = invitationFields := by
    rw [← hentries]
    rfl
  have hcount : entries.length = 13 := by
    rw [← hentries]
    rfl
  have hscalar : ∀ e ∈ entries, Scalar e.name := by
    intro e he
    apply (plain_invitationFields e.name _).scalar
    rw [← hnames]
    exact List.mem_map_of_mem he
  have hascii : ∀ n ∈ objectText ⟨true, true⟩ entries, n < 0x7f :=
    ascii_object rfl (fun e he => (hwritten e he).ascii)
  have hnesting := h.nesting
  have htext : dumps b.limits ⟨true, true⟩ 0 (.dict (asRecord entries)) =
      .ok (objectText ⟨true, true⟩ entries) :=
    dumps_object (by omega) (fun e he => (hwritten e he).dumped)
  have hraw : invite.raw = encodeChars (letters (objectText ⟨true, true⟩ entries)) := by
    have hdumped := hissued.raw
    rw [← hrecord, dumpBytes, htext] at hdumped
    simp only [encodeUtf8_ascii hascii, Except.ok.injEq] at hdumped
    exact hdumped.symm
  have hbytes := length_encodeChars_ascii hascii
  refine ⟨by rw [hraw]; omega, by rw [hraw]; omega, ?_⟩
  rw [hraw, strictJson_encodeChars ⟨by omega, by omega⟩, ← hrecord]
  refine strictText_object rfl (by omega) ?_ ?_ ?_ hscalar (fun e he => (hwritten e he).read)
    (fun e he => (hwritten e he).shallow) (by omega)
  · intro hnil
    rw [hnil] at hcount
    cases hcount
  · rw [hcount]
    decide
  · rw [hnames]
    decide

theorem check_issued (h : Documented b lib pin)
    (hidentity : isUuid site.ledger.registry.identity = true)
    (hissued : Issued b lib pin name endpoint site uri invite) {now : ℚ}
    (hfrom : b.clock site.readings ≤ now) (huntil : now < invite.expires) :
    checkInvitation lib (draftData b lib pin name endpoint site) now = .ok () := by
  obtain ⟨expires, hexpires, hsoon, -⟩ := draftExpires_nat h site
  have hcurrent : isCurrent now (some (.int (draftExpires b site))) = true := by
    rw [hissued.expires, hexpires] at huntil
    rw [hexpires, isCurrent, Bool.and_eq_true, decide_eq_true_eq, decide_eq_true_eq]
    refine ⟨by simpa using huntil, ?_⟩
    have hlate : b.clock site.readings + 300 ≤ now + 300 := add_le_add hfrom le_rfl
    simpa using hsoon.trans hlate
  have hspki : isSpki (some (.str (hexText pin))) = true := by
    have hlength : (hexText pin).length = 64 := by rw [length_hexText, h.pin]
    have hall := List.all_eq_true.mpr (all_hexText pin)
    simp [isSpki, hlength, hall]
  have hkeys : hasKeys invitationFields (draftData b lib pin name endpoint site) = true := by
    have hstrings : stringKeys (draftData b lib pin name endpoint site) = some invitationFields := rfl
    rw [hasKeys, hstrings]
    decide
  have hversion : member (draftData b lib pin name endpoint site) "version" = some (.int 2) := rfl
  have hprofile : member (draftData b lib pin name endpoint site) "profile" =
      some (.str (text "raticode-tls13-v2")) := rfl
  have hrole : member (draftData b lib pin name endpoint site) "responder_role" =
      some (.str (text "desktop")) := rfl
  have hid : member (draftData b lib pin name endpoint site) "invitation_id" =
      some (.str (b.uuid4 site.ledger.drawn)) := rfl
  have hresponder : member (draftData b lib pin name endpoint site) "responder_id" =
      some (.str site.ledger.registry.identity) := rfl
  have hname : member (draftData b lib pin name endpoint site) "responder_name" =
      some (.str name) := rfl
  have hrelay : member (draftData b lib pin name endpoint site) "relay" =
      some (.str unusedRelayOrigin) := rfl
  have hlan : member (draftData b lib pin name endpoint site) "lan_endpoint" =
      some (endpointValue endpoint) := rfl
  have hpin : member (draftData b lib pin name endpoint site) "responder_spki_sha256" =
      some (.str (hexText pin)) := rfl
  have hsecret : member (draftData b lib pin name endpoint site) "secret" =
      some (.str (urlsafeB64encode (lib.token (site.ledger.drawn + 1)))) := rfl
  have hinitiator : member (draftData b lib pin name endpoint site) "pair_initiator_topic" =
      some (.str (urlsafeB64encode (lib.token (site.ledger.drawn + 2)))) := rfl
  have htopic : member (draftData b lib pin name endpoint site) "pair_responder_topic" =
      some (.str (urlsafeB64encode (lib.token (site.ledger.drawn + 3)))) := rfl
  have hend : member (draftData b lib pin name endpoint site) "expires_at" =
      some (.int (draftExpires b site)) := rfl
  have hfirst : isVersion (some (.int 2)) = true := rfl
  have htoken (n : ℕ) := isToken_encoded (h.token n)
  simp [checkInvitation, hkeys, hversion, hprofile, hrole, hid, hresponder, hname, hrelay, hlan, hpin,
    hsecret, hinitiator, htopic, hend, hfirst, Registry.isString, isDeviceId, h.uuid4, hidentity,
    hissued.label, relayOrigin_unused h, hissued.lan, hspki, htoken, hcurrent, Attempt.require,
    bind, Except.bind]

theorem parse_issued (h : Documented b lib pin)
    (hidentity : isUuid site.ledger.registry.identity = true)
    (hissued : Issued b lib pin name endpoint site uri invite) {now : ℚ}
    (hfrom : b.clock site.readings ≤ now) (huntil : now < invite.expires) :
    parseInvitation b.limits lib uri now =
      .ok (invite.raw, draftData b lib pin name endpoint site) := by
  obtain ⟨hnonempty, hsize, hread⟩ := raw_issued h hidentity hissued
  have hencoded : (urlsafeB64encode invite.raw).length = (4 * invite.raw.length + 2) / 3 := by
    rw [urlsafeB64encode, List.length_map, length_sextets]
  have hstart : uriStart.length = 25 := by decide
  have hshort : ¬ 4096 < uri.length := by
    rw [hissued.uri, invitationUri, List.length_append]
    omega
  have hstarts : uriStart.isPrefixOf uri = true := by
    rw [List.isPrefixOf_iff_prefix, hissued.uri]
    exact List.prefix_append _ _
  have hdrop : uri.drop uriStart.length = urlsafeB64encode invite.raw := by
    rw [hissued.uri, invitationUri, List.drop_left]
  have hne : (urlsafeB64encode invite.raw).isEmpty = false := by
    rw [List.isEmpty_eq_false_iff, ← List.length_pos_iff]
    omega
  have hall : (urlsafeB64encode invite.raw).all (alphabet.contains ·) = true := by
    rw [List.all_eq_true]
    exact fun n hn => List.contains_iff_mem.mpr (mem_alphabet_of_encoded hn)
  rw [parseInvitation, if_neg (by simp [hshort, hstarts])]
  simp only [hdrop, hne, hall, Bool.not_true, Bool.or_false, Bool.false_eq_true, if_false,
    decodeBody_encoded hnonempty, hread, check_issued h hidentity hissued hfrom huntil]
  rfl

end Reading

/-! The main result. -/
section Enrolling

variable {T A : Type} {b : Backend T A} {lib : PairingLibrary} {pin : Bytes}

theorem outcome_effect (c : ClaimCall T A) :
    (∀ peer role t, c.outcome b = .ok (peer, role) t → ∃ invite, Open b c.site invite ∧
        Enrols b c invite peer role t.ledger.registry) ∧
      ∀ e t, c.outcome b = .error e t → t.ledger.registry = c.site.ledger.registry := by
  obtain ⟨serial, site, record, sessionId, pin⟩ := c
  have heffect : Wp (Serve.claim b record sessionId pin) _ _ site :=
    claim_effect record sessionId pin serial
  constructor
  · intro peer role t hrun
    obtain ⟨invite, hopen, -, henrols⟩ := heffect.ok hrun
    exact ⟨invite, hopen, henrols⟩
  · intro e t hrun
    exact (heffect.error hrun).1

theorem isAttempt_of_ok {c : ClaimCall T A} {r : Str × Str} {t : Site T A}
    (h : c.outcome b = .ok r t) : c.isAttempt b = true := by
  rw [ClaimCall.isAttempt, h]

theorem Enrols.made {c : ClaimCall T A} {invite made : Invitation} {peer role : Str}
    {after : Registry} (h : Enrols b c invite peer role after) (hsame : invite.SameAs made) :
    Enrols b c made peer role after := by
  obtain ⟨data, secret, row, now, hdata, hsecret, hverify, hpeer, hrole, hrow⟩ := h
  rw [hsame.1] at hdata hverify
  rw [hsame.2.1] at hrow
  exact ⟨data, secret, row, now, hdata, hsecret, hverify, hpeer, hrole, hrow⟩

/-- However invitations are made, cancelled and claimed, whatever records, sessions and pins the
network supplies: each invitation is claimed at most once and attempted at most five times, while
neither clock has reached its end; a claim that fails leaves the table of peers as it was, and one
that succeeds adds a pending row with the pin of the session and the identifier and the role of its
binding; and what is made is parsed with the same members until it expires. -/
theorem invitation_enrolsOne (b : Backend T A) (lib : PairingLibrary) (pin : Bytes)
    (hdocumented : Documented b lib pin) (site : Site T A) (acts : List InvitationAct) :
    (∀ serial, (attempts b (Enrolling.run b lib pin site acts).calls serial).length ≤ 5 ∧
        (successes b (Enrolling.run b lib pin site acts).calls serial).length ≤ 1) ∧
      (∀ c ∈ (Enrolling.run b lib pin site acts).calls, c.isAttempt b = true →
        ∃ made invite, (Enrolling.run b lib pin site acts).issued[c.serial - 1]? = some made ∧
          0 < c.serial ∧ c.site.invitation = some invite ∧ invite.SameAs made ∧
            InTime b c.site made) ∧
      (∀ c ∈ (Enrolling.run b lib pin site acts).calls, ∀ e t, c.outcome b = .error e t →
        t.ledger.registry = c.site.ledger.registry) ∧
      (∀ c ∈ (Enrolling.run b lib pin site acts).calls, ∀ peer role t,
        c.outcome b = .ok (peer, role) t → ∃ made,
          (Enrolling.run b lib pin site acts).issued[c.serial - 1]? = some made ∧
            Enrols b c made peer role t.ledger.registry) ∧
      ∀ name endpoint uri expires t,
        create b lib pin name endpoint (Enrolling.run b lib pin site acts).site =
            .ok (uri, expires) t →
          isUuid (Enrolling.run b lib pin site acts).site.ledger.registry.identity = true →
          ∃ invite, t.invitation = some invite ∧ invite.expires = expires ∧
            Issued b lib pin name endpoint (Enrolling.run b lib pin site acts).site uri invite ∧
            ∀ now, b.clock (Enrolling.run b lib pin site acts).site.readings ≤ now →
              now < expires → parseInvitation b.limits lib uri now = .ok (invite.raw,
                draftData b lib pin name endpoint (Enrolling.run b lib pin site acts).site) := by
  have hsound : (Enrolling.run b lib pin site acts).Sound b := sound_run site acts
  generalize Enrolling.run b lib pin site acts = enrolling at hsound ⊢
  refine ⟨fun serial => ⟨hsound.bounded serial, hsound.once serial⟩, hsound.timely, ?_, ?_, ?_⟩
  · exact fun c _ => (outcome_effect c).2
  · intro c hc peer role t hrun
    obtain ⟨invite, hopen, henrols⟩ := (outcome_effect c).1 peer role t hrun
    obtain ⟨made, invite', hmade, -, hcurrent, hsame, -⟩ :=
      hsound.timely c hc (isAttempt_of_ok hrun)
    rw [hopen.current] at hcurrent
    cases hcurrent
    exact ⟨made, hmade, henrols.made hsame⟩
  · intro name endpoint uri expires t hrun hidentity
    obtain ⟨hexpires, invite, hcurrent, hissued⟩ := (create_spec name endpoint enrolling.site).ok hrun
    have hend : invite.expires = expires := by
      rw [hissued.expires]
      exact congrArg Int.cast hexpires.symm
    refine ⟨invite, hcurrent, hend, hissued, fun now hfrom huntil => ?_⟩
    apply parse_issued hdocumented hidentity hissued hfrom
    rw [hend]
    exact huntil

/-! A desktop that invites over its network. -/

def deskBackend : Backend Bytes Unit where
  limits := defaultLimits
  tls := World.exampleTls
  application := none
  -- The digest of the one invitation it makes below.
  sha256 _ := text "22b8a98083bc142213a1fba15f56892facdb87beb820cbcf4268e70faba5dd82"
  monotonic := fun n => n
  clock := fun _ => 0
  uuid4 := fun _ => Registry.examplePeer

def deskLibrary : PairingLibrary where
  isControl c := c < 0x20 || (0x7f ≤ c && c < 0xa0) || isSurrogate c || 0x110000 ≤ c
  isSpace c := c = 0x20
  ipAddress host := if host = text "192.168.1.20" then some ⟨true, false, false, false⟩ else none
  urlsplit s := if s = unusedRelayOrigin then
    some ⟨text "https", some (text "relay.invalid"), none, none, [], [], [], some none⟩ else none
  token n := List.replicate 32 (UInt8.ofNat n)

theorem desk_documented : Documented deskBackend deskLibrary Registry.examplePin where
  digits := by simp [deskBackend, defaultLimits]
  nesting := by decide
  clock n := by
    refine ⟨le_rfl, ?_⟩
    change (0 : ℚ) < 2 * 10 ^ 308
    positivity
  uuid4 n := by
    change isUuid Registry.examplePeer = true
    decide
  token n := List.length_replicate
  category c h := by
    simp only [deskLibrary, Bool.or_eq_false_iff, decide_eq_false_iff_not, not_le] at h
    exact ⟨h.2, h.1.2⟩
  address host h _ := by
    simp only [deskLibrary] at h
    split_ifs at h with heq
    · rw [heq]
      exact plain_of_all (by decide)
    · cases h
  origin := by
    simp [deskLibrary]
  space := by decide
  pin := rfl

def deskSite : Site Bytes Unit where
  ledger := ⟨.init Registry.examplePeer, 0, []⟩
  invitation := none
  application := ()
  readings := 0
  number := 0
  session :=
    { sessionId := Registry.examplePeer, mode := text "pair",
      frames := .init Registry.examplePeer (text "pair") (text "initiator_to_responder"),
      records := .init, tls := [], generations := [], peer := none, role := none,
      stage := .binding, deadline := 30, index := 0, sentSequence := 0, closed := false }

def deskEndpoint : Endpoint where
  members := [(.str (text "host"), .str (text "192.168.1.20")), (.str (text "port"), .int 8443)]
  nodup := by
    have hne : text "host" ≠ text "port" := by decide
    simpa using hne

def visitor : Str := text "76543210-89ab-cdef-0123-456789abcdef"

/-- What the phone that has read the address sends, and a record with nothing in it. -/
def deskActs : List InvitationAct :=
  [.create (text "Desk") (some deskEndpoint), .claim [] [] Registry.examplePin,
    .claim (SessionBinding.record ⟨Registry.examplePeer, text "pair", visitor, Registry.examplePeer,
      text "controller", some (deskBackend.sha256 []), some (.str (urlsafeB64encode (deskLibrary.token 1)))⟩)
      Registry.examplePeer Registry.examplePin]

/-- The second claim pairs, and the address of a new invitation is read. -/
theorem invitation_enrolsOne_desk :
    (∀ serial, (attempts deskBackend (Enrolling.run deskBackend deskLibrary Registry.examplePin
        deskSite deskActs).calls serial).length ≤ 5 ∧
      (successes deskBackend (Enrolling.run deskBackend deskLibrary Registry.examplePin
        deskSite deskActs).calls serial).length ≤ 1) ∧
      (∃ c ∈ (Enrolling.run deskBackend deskLibrary Registry.examplePin deskSite deskActs).calls,
        ∃ made peer role t, c.outcome deskBackend = .ok (peer, role) t ∧
        Enrols deskBackend c made peer role t.ledger.registry) ∧
      ∃ uri raw, parseInvitation deskBackend.limits deskLibrary uri 0 = .ok (raw,
        draftData deskBackend deskLibrary Registry.examplePin (text "Desk") (some deskEndpoint)
          (Enrolling.run deskBackend deskLibrary Registry.examplePin deskSite deskActs).site) := by
  obtain ⟨hbounds, -, -, henrols, hissued⟩ := invitation_enrolsOne deskBackend deskLibrary
    Registry.examplePin desk_documented deskSite deskActs
  have hsuccess : (Enrolling.run deskBackend deskLibrary Registry.examplePin deskSite deskActs).calls.any
      (fun c => c.isSuccess deskBackend) = true := by decide +kernel
  have hmade : (match create deskBackend deskLibrary Registry.examplePin (text "Desk") (some deskEndpoint)
      (Enrolling.run deskBackend deskLibrary Registry.examplePin deskSite deskActs).site with
      | .ok (_, expires) _ => decide (0 < expires)
      | .error _ _ => false) = true := by decide +kernel
  have hidentity : isUuid (Enrolling.run deskBackend deskLibrary Registry.examplePin deskSite
      deskActs).site.ledger.registry.identity = true := by decide +kernel
  generalize Enrolling.run deskBackend deskLibrary Registry.examplePin deskSite deskActs = e at *
  refine ⟨hbounds, ?_, ?_⟩
  · obtain ⟨c, hc, hok⟩ := List.any_eq_true.mp hsuccess
    rw [ClaimCall.isSuccess] at hok
    split at hok
    next p t hrun =>
      obtain ⟨peer, role⟩ := p
      obtain ⟨made, -, hmade⟩ := henrols c hc peer role t hrun
      exact ⟨c, hc, made, peer, role, t, hrun, hmade⟩
    · contradiction
  · split at hmade
    next uri expires t hrun =>
      obtain ⟨invite, -, -, -, hread⟩ := hissued _ _ uri expires t hrun hidentity
      exact ⟨uri, invite.raw, hread 0 (le_refl (0 : ℚ)) (by exact_mod_cast of_decide_eq_true hmade)⟩
    · contradiction

end Enrolling

end Raticode.Device
