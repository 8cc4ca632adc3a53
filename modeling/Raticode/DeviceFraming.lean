import Raticode.OrderedDict
import Raticode.PyDocument

/-! `gofer.devices.framing`: strict JSON objects and the carrier frames made of
them. Only TLS authenticates what the frames carry. -/
namespace Raticode.Device
open OrderedDict PyDocument

def maxFrame : ℕ := 3072

def maxChunk : ℕ := 2048

def maxReorder : ℕ := 32

def maxReorderBytes : ℕ := 65536

def gapSeconds : ℚ := 30

def maxRecord : ℕ := 65536

def maxCollection : ℕ := 1024

def maxInteger : ℤ := 2 ^ 53 - 1

inductive FrameError where
  | duplicateJsonKey | nonfiniteJsonNumber | jsonSizeLimit | invalidJson | jsonObjectRequired
  | jsonDepthLimit | jsonCollectionLimit | invalidUnicode
  | frameFields | frameVersion | frameSession | frameMode | frameDirection | frameIndex
  | frameBase64 | frameChunkLimit
  | sessionClosed | sessionBinding | reorderLimit | conflictingFrame | gapTimeout
  | recordBufferLimit | recordSizeLimit
  deriving DecidableEq, Repr

def FrameError.code : FrameError → String
  | duplicateJsonKey => "duplicate_json_key"
  | nonfiniteJsonNumber => "nonfinite_json_number"
  | jsonSizeLimit => "json_size_limit"
  | invalidJson => "invalid_json"
  | jsonObjectRequired => "json_object_required"
  | jsonDepthLimit => "json_depth_limit"
  | jsonCollectionLimit => "json_collection_limit"
  | invalidUnicode => "invalid_unicode"
  | frameFields => "frame_fields"
  | frameVersion => "frame_version"
  | frameSession => "frame_session"
  | frameMode => "frame_mode"
  | frameDirection => "frame_direction"
  | frameIndex => "frame_index"
  | frameBase64 => "frame_base64"
  | frameChunkLimit => "frame_chunk_limit"
  | sessionClosed => "session_closed"
  | sessionBinding => "session_binding"
  | reorderLimit => "reorder_limit"
  | conflictingFrame => "conflicting_frame"
  | gapTimeout => "gap_timeout"
  | recordBufferLimit => "record_buffer_limit"
  | recordSizeLimit => "record_size_limit"

/-- `_pairs`, from the result built so far. -/
def pairsInto (result : Dict Str Value) : List (Str × Value) → Except FrameError (Dict Str Value)
  | [] => .ok result
  | (key, value) :: rest =>
    if key ∈ result.keys then .error .duplicateJsonKey
    else pairsInto (result.set key value) rest

def pairs (members : List (Str × Value)) : Except FrameError Value := do
  let result ← pairsInto [] members
  return .dict (result.map (fun p => (.str p.1, p.2)))

def strictHooks : Hooks FrameError where
  pairs := pairs
  constant := fun _ => .error .nonfiniteJsonNumber

mutual
def nodes : Value → ℕ
  | .list items => 1 + nodesOfItems items
  | .dict members => 1 + nodesOfMembers members
  | _ => 1

def nodesOfItems : List Value → ℕ
  | [] => 0
  | item :: items => nodes item + nodesOfItems items

def nodesOfMembers : List (Key × Value) → ℕ
  | [] => 0
  | (_, value) :: members => 1 + nodes value + nodesOfMembers members
end

def keyItem : Key → Value
  | .null => .null
  | .bool b => .bool b
  | .int z => .int z
  | .float x => .float x
  | .str s => .str s
  | .other => .other

/-- The loop over the stack of `strict_json`, its top first. Each round takes one
value off for good, so the number of values and keys is bound enough. -/
def inspect : ℕ → List (Value × ℕ) → Except FrameError Unit
  | _, [] => .ok ()
  | 0, _ :: _ => .ok ()
  | n + 1, (item, depth) :: stack =>
    if 16 < depth then .error .jsonDepthLimit
    else
      match item with
      | .dict members =>
        if maxCollection < members.length then .error .jsonCollectionLimit
        else
          inspect n ((members.map (fun p => (p.2, depth + 1))).reverse ++
            (members.map (fun p => (keyItem p.1, depth + 1))).reverse ++ stack)
      | .list items =>
        if maxCollection < items.length then .error .jsonCollectionLimit
        else inspect n ((items.map (fun child => (child, depth + 1))).reverse ++ stack)
      | .str s => if s.any isSurrogate then .error .invalidUnicode else inspect n stack
      | .float (.infinite _) | .float .nan => .error .nonfiniteJsonNumber
      | _ => inspect n stack

/-- What `strict_json` does with the text of its bytes. A hook's `FrameError` is a
`ValueError`, and so is what the decoder raises. -/
def strictText (limits : Limits) (text : List Char) : Except FrameError (List (Key × Value)) :=
  match loads limits strictHooks text with
  | .error _ => .error .invalidJson
  | .ok (.dict members) => do
    inspect (nodes (.dict members)) [(.dict members, 0)]
    return members
  | .ok _ => .error .jsonObjectRequired

def strictJson (limits : Limits) (limit : ℕ) (data : Bytes) :
    Except FrameError (List (Key × Value)) :=
  if data.isEmpty || limit < data.length then .error .jsonSizeLimit
  else
    match decodeUtf8 data with
    | none => .error .invalidJson
    | some text => strictText limits text

theorem size_of_strictJson {limits : Limits} {limit : ℕ} {data : Bytes}
    {members : List (Key × Value)} (h : strictJson limits limit data = .ok members) :
    0 < data.length ∧ data.length ≤ limit := by
  unfold strictJson at h
  split at h
  · cases h
  next hsize =>
    simp only [Bool.or_eq_true, List.isEmpty_iff, decide_eq_true_eq, not_or, not_lt] at hsize
    exact ⟨List.length_pos_iff.mpr hsize.1, hsize.2⟩

theorem strictJson_encodeChars {limits : Limits} {limit : ℕ} {w : List Char}
    (h : 0 < (encodeChars w).length ∧ (encodeChars w).length ≤ limit) :
    strictJson limits limit (encodeChars w) = strictText limits w := by
  have hsize : ¬ ((encodeChars w).isEmpty || limit < (encodeChars w).length) = true := by
    simp only [Bool.or_eq_true, List.isEmpty_iff, decide_eq_true_eq, not_or, not_lt]
    exact ⟨List.length_pos_iff.mp h.1, h.2⟩
  rw [strictJson, if_neg hsize, decodeUtf8_encodeChars]

/-! Base64 with the alphabet for addresses and without padding. -/
section Base64

def alphabet : Str := text "ABCDEFGHIJKLMNOPQRSTUVWXYZabcdefghijklmnopqrstuvwxyz0123456789-_"

def sextets : Bytes → List ℕ
  | [] => []
  | [x] => [x.toNat / 4, x.toNat % 4 * 16]
  | [x, y] => [x.toNat / 4, x.toNat % 4 * 16 + y.toNat / 16, y.toNat % 16 * 4]
  | x :: y :: z :: rest =>
    x.toNat / 4 :: (x.toNat % 4 * 16 + y.toNat / 16) :: (y.toNat % 16 * 4 + z.toNat / 64) ::
      z.toNat % 64 :: sextets rest

/-- `base64.urlsafe_b64encode(body).rstrip(b"=")`. -/
def urlsafeB64encode (body : Bytes) : Str := (sextets body).map (alphabet.getD · 0)

def octets : List ℕ → Option Bytes
  | [] => some []
  | [_] => none
  | [a, b] => some [UInt8.ofNat (a * 4 + b / 16)]
  | [a, b, c] => some [UInt8.ofNat (a * 4 + b / 16), UInt8.ofNat (b % 16 * 16 + c / 4)]
  | a :: b :: c :: d :: rest =>
    (octets rest).map (fun bytes => UInt8.ofNat (a * 4 + b / 16) ::
      UInt8.ofNat (b % 16 * 16 + c / 4) :: UInt8.ofNat (c % 4 * 64 + d) :: bytes)

/-- `base64.b64decode` of a text of the alphabet, padded to a multiple of four. One
group alone is no byte. -/
def b64decode (encoded : Str) : Option Bytes := octets (encoded.map (alphabet.idxOf ·))

end Base64

abbrev Record := List (Key × Value)

structure Frame where
  sessionId : Str
  mode : Str
  direction : Str
  index : ℕ
  body : Bytes
  deriving DecidableEq

def isLowerHex (c : ℕ) : Bool := (0x30 ≤ c && c ≤ 0x39) || (0x61 ≤ c && c ≤ 0x66)

/-- `_UUID.fullmatch`. -/
def isUuid (s : Str) : Bool :=
  s.length = 36 &&
    s.zipIdx.all (fun p => if p.2 ∈ [8, 13, 18, 23] then p.1 = 0x2d else isLowerHex p.1)

def frameKeys : List Str :=
  [text "version", text "session_id", text "mode", text "direction", text "index", text "body"]

def member (members : List (Key × Value)) (name : String) : Option Value :=
  (members.find? (fun p => match p.1 with
    | .str s => s = text name
    | _ => false)).map Prod.snd

def stringKeys (members : List (Key × Value)) : Option (List Str) :=
  members.mapM (fun p => match p.1 with
    | .str s => some s
    | _ => none)

/-- `set(value) == {…}`. -/
def hasKeys (names : List Str) (members : List (Key × Value)) : Bool :=
  match stringKeys members with
  | some keys => keys.all (names.contains ·) && names.all (keys.contains ·)
  | none => false

def decodeBody (value : Option Value) : Except FrameError Bytes :=
  match value with
  | some (.str encoded) =>
    if encoded.isEmpty || !encoded.all (alphabet.contains ·) then .error .frameBase64
    else
      match b64decode encoded with
      | none => .error .frameBase64
      | some body => if urlsafeB64encode body ≠ encoded then .error .frameBase64 else .ok body
  | _ => .error .frameBase64

def require (holds : Bool) (e : FrameError) : Except FrameError Unit :=
  if holds then .ok () else .error e

def isVersion (value : Option Value) : Bool :=
  match value with
  | some (.int z) => z = 2
  | _ => false

def stringMember (members : List (Key × Value)) (name : String) (form : Str → Bool)
    (e : FrameError) : Except FrameError Str :=
  match member members name with
  | some (.str s) => if form s then .ok s else .error e
  | _ => .error e

def isMode (s : Str) : Bool := s = text "pair" || s = text "resume"

def isDirection (s : Str) : Bool :=
  s = text "initiator_to_responder" || s = text "responder_to_initiator"

def decodeIndex (value : Option Value) : Except FrameError ℕ :=
  match value with
  | some (.int z) => if 0 ≤ z && z ≤ maxInteger then .ok z.toNat else .error .frameIndex
  | _ => .error .frameIndex

/-- The part of `Frame.decode` that reads the members. -/
def Frame.ofMembers (value : List (Key × Value)) : Except FrameError Frame := do
  require (hasKeys frameKeys value) .frameFields
  require (isVersion (member value "version")) .frameVersion
  let sessionId ← stringMember value "session_id" isUuid .frameSession
  let mode ← stringMember value "mode" isMode .frameMode
  let direction ← stringMember value "direction" isDirection .frameDirection
  let index ← decodeIndex (member value "index")
  let body ← decodeBody (member value "body")
  require (1 ≤ body.length && body.length ≤ maxChunk) .frameChunkLimit
  return ⟨sessionId, mode, direction, index, body⟩

def Frame.decode (limits : Limits) (data : Bytes) : Except FrameError Frame := do
  let value ← strictJson limits maxFrame data
  Frame.ofMembers value

theorem of_require {holds : Bool} {e : FrameError} {u : Unit} (h : require holds e = .ok u) :
    holds = true := by
  unfold require at h
  split at h
  · assumption
  · cases h

theorem body_of_decode {limits : Limits} {data : Bytes} {frame : Frame}
    (h : Frame.decode limits data = .ok frame) :
    1 ≤ frame.body.length ∧ frame.body.length ≤ maxChunk := by
  obtain ⟨value, -, h⟩ := Attempt.bind_ok h
  obtain ⟨_, -, h⟩ := Attempt.bind_ok h
  obtain ⟨_, -, h⟩ := Attempt.bind_ok h
  obtain ⟨sessionId, -, h⟩ := Attempt.bind_ok h
  obtain ⟨mode, -, h⟩ := Attempt.bind_ok h
  obtain ⟨direction, -, h⟩ := Attempt.bind_ok h
  obtain ⟨index, -, h⟩ := Attempt.bind_ok h
  obtain ⟨body, -, h⟩ := Attempt.bind_ok h
  obtain ⟨_, hsize, h⟩ := Attempt.bind_ok h
  cases h
  simpa using of_require hsize

/-- What writing a record or a frame raises beside a `FrameError`. -/
inductive Raised where
  | frame (e : FrameError)
  | dumps (e : EncodeError)
  | unicode
  deriving DecidableEq

/-- `json.dumps(value, …).encode()`. -/
def dumpBytes (limits : Limits) (style : Style) (value : Value) : Except Raised Bytes :=
  match dumps limits style 0 value with
  | .error e => .error (.dumps e)
  | .ok text => match encodeUtf8 text with
    | none => .error .unicode
    | some data => .ok data

def Frame.record (frame : Frame) : Value :=
  .dict [(.str (text "version"), .int 2), (.str (text "session_id"), .str frame.sessionId),
    (.str (text "mode"), .str frame.mode), (.str (text "direction"), .str frame.direction),
    (.str (text "index"), .int frame.index),
    (.str (text "body"), .str (urlsafeB64encode frame.body))]

def Frame.encode (limits : Limits) (frame : Frame) : Except Raised Bytes := do
  let data ← dumpBytes limits ⟨true, true⟩ frame.record
  match Frame.decode limits data with
  | .error e => throw (.frame e)
  | .ok _ => return data

end Raticode.Device
