import Mathlib.Data.List.Forall2
import Raticode.DeviceFraming

/-! Length-prefixed records in the plaintext of a session, and the parser that takes
them out of whatever pieces the plaintext comes in. -/
namespace Raticode.Device
open PyDocument

/-- `n.to_bytes(4, "big")`. -/
def toBytes4 (n : ℕ) : Bytes :=
  [UInt8.ofNat (n / 16777216), UInt8.ofNat (n / 65536), UInt8.ofNat (n / 256), UInt8.ofNat n]

def fromBytes (data : Bytes) : ℕ := data.foldl (fun n b => 256 * n + b.toNat) 0

/-- `encode_record`. The body of an accepted record has at most `MAX_RECORD` bytes, so
its length has a place in four. -/
def encodeRecord (limits : Limits) (record : Value) : Except Raised Bytes := do
  let body ← dumpBytes limits ⟨false, false⟩ record
  match strictJson limits maxRecord body with
  | .error e => throw (.frame e)
  | .ok _ => return toBytes4 body.length ++ body

structure Records where
  buffer : Bytes
  failed : Bool

namespace Records

def init : Records := ⟨[], false⟩

/-- The loop of `feed`: the records at the front of a buffer, and what is left of it.
Each round takes at least five bytes. -/
def take (limits : Limits) : ℕ → Bytes → Except FrameError (List Record × Bytes)
  | 0, buffer => .ok ([], buffer)
  | n + 1, buffer =>
    if buffer.length < 4 then .ok ([], buffer)
    else
      let length := fromBytes (buffer.take 4)
      if !(1 ≤ length && length ≤ maxRecord) then .error .recordSizeLimit
      else if buffer.length < 4 + length then .ok ([], buffer)
      else do
        let record ← strictJson limits maxRecord ((buffer.drop 4).take length)
        let (result, rest) ← take limits n (buffer.drop (4 + length))
        return (record :: result, rest)

def feed (limits : Limits) (s : Records) (plaintext : Bytes) :
    Except FrameError (List Record) × Records :=
  if s.failed then (.error .sessionClosed, s)
  else if 2 * (maxRecord + 4) < s.buffer.length + plaintext.length then
    (.error .recordBufferLimit, { s with failed := true })
  else
    let buffer := s.buffer ++ plaintext
    match take limits buffer.length buffer with
    | .ok (result, rest) => (.ok result, { s with buffer := rest })
    | .error e => (.error e, ⟨[], true⟩)

def feedAll (limits : Limits) (s : Records) :
    List Bytes → List (Except FrameError (List Record)) × Records
  | [] => ([], s)
  | chunk :: chunks =>
    let (result, s') := s.feed limits chunk
    let (results, final) := feedAll limits s' chunks
    (result :: results, final)

end Records

theorem fromBytes_toBytes4 {n : ℕ} (h : n ≤ maxRecord) : fromBytes (toBytes4 n) = n := by
  simp only [maxRecord] at h
  simp only [fromBytes, toBytes4, List.foldl_cons, List.foldl_nil, UInt8.toNat_ofNat']
  omega

def DecodesTo (limits : Limits) (value : Value) (record : Record) : Prop :=
  ∃ body, dumpBytes limits ⟨false, false⟩ value = .ok body ∧
    strictJson limits maxRecord body = .ok record

def Framed (limits : Limits) (record : Record) (data : Bytes) : Prop :=
  ∃ body, data = toBytes4 body.length ++ body ∧ strictJson limits maxRecord body = .ok record

theorem framed_of_encodeRecord {limits : Limits} {value : Value} {data : Bytes}
    (h : encodeRecord limits value = .ok data) :
    ∃ record, DecodesTo limits value record ∧ Framed limits record data := by
  obtain ⟨body, hbody, h⟩ := Attempt.bind_ok h
  split at h
  · cases h
  next record hrecord =>
    cases h
    exact ⟨record, ⟨body, hbody, hrecord⟩, ⟨body, rfl, hrecord⟩⟩

theorem Framed.length {limits : Limits} {record : Record} {data : Bytes}
    (h : Framed limits record data) : 4 < data.length ∧ data.length ≤ maxRecord + 4 := by
  obtain ⟨body, rfl, hbody⟩ := h
  have hsize := size_of_strictJson hbody
  simp only [toBytes4, List.length_append, List.length_cons, List.length_nil]
  omega

namespace Records

def Stuck (left : Bytes) (encodings : List Bytes) : Prop :=
  ∀ data ∈ encodings.head?, left.length < data.length

theorem take_framed {limits : Limits} {record : Record} {data : Bytes}
    (h : Framed limits record data) (n : ℕ) (buffer : Bytes) :
    take limits (n + 1) (data ++ buffer) = (take limits n buffer).map
      (fun p => (record :: p.1, p.2)) := by
  obtain ⟨body, rfl, hbody⟩ := h
  obtain ⟨hpos, hle⟩ := size_of_strictJson hbody
  have hlength : (toBytes4 body.length).length = 4 := rfl
  have hcount : fromBytes ((toBytes4 body.length ++ body ++ buffer).take 4) = body.length := by
    rw [List.append_assoc, List.take_left' hlength, fromBytes_toBytes4 hle]
  have hbodyAt : ((toBytes4 body.length ++ body ++ buffer).drop 4).take body.length = body := by
    rw [List.append_assoc, List.drop_left' hlength, List.take_left]
  have hrest : (toBytes4 body.length ++ body ++ buffer).drop (4 + body.length) = buffer :=
    List.drop_left' (by simp [hlength])
  have hlong : ¬ (toBytes4 body.length ++ body ++ buffer).length < 4 + body.length := by
    simp [hlength]
  have hfour : ¬ (toBytes4 body.length ++ body ++ buffer).length < 4 := by omega
  have hrange : ¬ (!(1 ≤ body.length && body.length ≤ maxRecord)) = true := by
    simp only [Bool.not_eq_true', Bool.and_eq_false_iff, decide_eq_false_iff_not]
    omega
  simp only [take, hfour, hcount, hrange, hlong, hbodyAt, hrest, hbody, ↓reduceIte]
  cases take limits n buffer <;> rfl

theorem take_stuck {limits : Limits} {record : Record} {data buffer rest later : Bytes}
    (h : Framed limits record data) (hcut : buffer ++ rest = data ++ later)
    (hshort : buffer.length < data.length) (n : ℕ) :
    take limits n buffer = .ok ([], buffer) := by
  cases n with
  | zero => rfl
  | succ n =>
    by_cases hfour : buffer.length < 4
    · simp only [take, hfour, ↓reduceIte]
    obtain ⟨body, rfl, hbody⟩ := h
    obtain ⟨hpos, hle⟩ := size_of_strictJson hbody
    have hlength : (toBytes4 body.length).length = 4 := rfl
    have hcount : fromBytes (buffer.take 4) = body.length := by
      have htake := congrArg (List.take 4) hcut
      rw [List.take_append_of_le_length (by omega), List.append_assoc, List.take_left' hlength]
        at htake
      rw [htake, fromBytes_toBytes4 hle]
    have hrange : ¬ (!(1 ≤ body.length && body.length ≤ maxRecord)) = true := by
      simp only [Bool.not_eq_true', Bool.and_eq_false_iff, decide_eq_false_iff_not]
      omega
    have hlong : buffer.length < 4 + body.length := by simpa [hlength] using hshort
    simp only [take, hfour, hcount, hrange, hlong, Bool.false_eq_true, ↓reduceIte]

theorem take_spec {limits : Limits} (n : ℕ) {buffer rest : Bytes} {records : List Record}
    {encodings : List Bytes} (hf : List.Forall₂ (Framed limits) records encodings)
    (hcut : buffer ++ rest = encodings.flatten) (hn : buffer.length ≤ n) :
    ∃ done todo encodings' left, records = done ++ todo ∧
      take limits n buffer = .ok (done, left) ∧ List.Forall₂ (Framed limits) todo encodings' ∧
      left ++ rest = encodings'.flatten ∧ Stuck left encodings' := by
  induction hf generalizing n buffer with
  | nil =>
    have hnil : buffer = [] := (List.append_eq_nil_iff.mp hcut).1
    subst hnil
    refine ⟨[], [], [], [], rfl, ?_, .nil, hcut, by simp [Stuck]⟩
    cases n <;> rfl
  | @cons record data records encodings hframed hf ih =>
    rw [List.flatten_cons] at hcut
    by_cases hshort : buffer.length < data.length
    · exact ⟨[], record :: records, data :: encodings, buffer, rfl,
        take_stuck hframed hcut hshort n, .cons hframed hf, hcut, by simpa [Stuck] using hshort⟩
    -- The buffer begins with the whole record.
    obtain ⟨buffer', rfl⟩ : ∃ buffer', buffer = data ++ buffer' := by
      rcases List.append_eq_append_iff.mp hcut with ⟨s, rfl, -⟩ | ⟨s, rfl, -⟩
      · have hs : s = [] := by
          simp only [List.length_append, not_lt] at hshort
          exact List.length_eq_zero_iff.mp (by omega)
        exact ⟨[], by simp [hs]⟩
      · exact ⟨s, rfl⟩
    have hlength := hframed.length
    obtain ⟨m, rfl⟩ : ∃ m, n = m + 1 := Nat.exists_eq_succ_of_ne_zero (by
      simp only [List.length_append] at hn
      omega)
    have hcut' : buffer' ++ rest = encodings.flatten := by
      rw [List.append_assoc] at hcut
      exact List.append_cancel_left hcut
    obtain ⟨done, todo, encodings', left, hrecords, htake, hrest⟩ := ih m hcut' (by
      simp only [List.length_append] at hn
      omega)
    refine ⟨record :: done, todo, encodings', left, by simp [hrecords], ?_, hrest⟩
    rw [take_framed hframed, htake]
    rfl

theorem feed_spec {limits : Limits} {s : Records} {chunk rest : Bytes} {records : List Record}
    {encodings : List Bytes} (hopen : s.failed = false)
    (hf : List.Forall₂ (Framed limits) records encodings) (hs : Stuck s.buffer encodings)
    (hcut : s.buffer ++ (chunk ++ rest) = encodings.flatten)
    (hsize : chunk.length ≤ maxRecord + 4) :
    ∃ done todo encodings' left, records = done ++ todo ∧
      s.feed limits chunk = (.ok done, ⟨left, false⟩) ∧
      List.Forall₂ (Framed limits) todo encodings' ∧
      left ++ rest = encodings'.flatten ∧ Stuck left encodings' := by
  have hbuffer : s.buffer.length ≤ maxRecord + 4 := by
    cases hf with
    | nil =>
      have hnil : s.buffer = [] := (List.append_eq_nil_iff.mp hcut).1
      simp [hnil]
    | cons hframed _ => exact (hs _ rfl).le.trans hframed.length.2
  have hlimit : ¬ 2 * (maxRecord + 4) < s.buffer.length + chunk.length := by omega
  obtain ⟨done, todo, encodings', left, hrecords, htake, hrest⟩ :=
    take_spec (s.buffer ++ chunk).length hf (by rw [List.append_assoc, hcut]) le_rfl
  refine ⟨done, todo, encodings', left, hrecords, ?_, hrest⟩
  simp only [feed, hopen, hlimit, htake, Bool.false_eq_true, ↓reduceIte]

theorem feedAll_spec {limits : Limits} {s : Records} {chunks : List Bytes} {records : List Record}
    {encodings : List Bytes} (hopen : s.failed = false)
    (hf : List.Forall₂ (Framed limits) records encodings) (hs : Stuck s.buffer encodings)
    (hcut : s.buffer ++ chunks.flatten = encodings.flatten)
    (hsize : ∀ chunk ∈ chunks, chunk.length ≤ maxRecord + 4) :
    ∃ results : List (List Record), (s.feedAll limits chunks).1 = results.map .ok ∧
      results.flatten = records ∧ (s.feedAll limits chunks).2 = init := by
  induction chunks generalizing s records encodings with
  | nil =>
    have hdone : encodings = [] := by
      cases hf with
      | nil => rfl
      | @cons record data records encodings hframed _ =>
        have hlt := hs _ rfl
        have hlength := congrArg List.length hcut
        simp only [List.flatten_nil, List.append_nil, List.flatten_cons, List.length_append]
          at hlength
        omega
    subst hdone
    cases hf
    have hempty : s.buffer = [] := by simpa using hcut
    refine ⟨[], rfl, rfl, ?_⟩
    cases s
    simp_all [feedAll, init]
  | cons chunk chunks ih =>
    rw [List.flatten_cons] at hcut
    obtain ⟨done, todo, encodings', left, rfl, hfeed, hf', hcut', hs'⟩ :=
      feed_spec hopen hf hs hcut (hsize chunk List.mem_cons_self)
    obtain ⟨results, hresults, hflatten, hfinal⟩ := ih (s := ⟨left, false⟩) rfl hf' hs' hcut'
      (fun c hc => hsize c (List.mem_cons_of_mem _ hc))
    refine ⟨done :: results, ?_, by simp [hflatten], ?_⟩
    · simp [feedAll, hfeed, hresults]
    · simp [feedAll, hfeed, hfinal]

/-- However the encodings of some records are cut into chunks, no call raises, the
records come out one by one as the decoder reads them, and nothing is left. -/
theorem feedAll_encodings (limits : Limits) (values : List Value) (encodings chunks : List Bytes)
    (hencode : List.Forall₂ (fun value data => encodeRecord limits value = .ok data) values
      encodings)
    (hcut : chunks.flatten = encodings.flatten)
    (hsize : ∀ chunk ∈ chunks, chunk.length ≤ maxRecord + 4) :
    ∃ results : List (List Record), (init.feedAll limits chunks).1 = results.map .ok ∧
      List.Forall₂ (DecodesTo limits) values results.flatten ∧
      (init.feedAll limits chunks).2 = init := by
  have hframed : ∃ records, List.Forall₂ (DecodesTo limits) values records ∧
      List.Forall₂ (Framed limits) records encodings := by
    clear hcut
    induction hencode with
    | nil => exact ⟨[], .nil, .nil⟩
    | cons hvalue _ ih =>
      obtain ⟨record, hdecodes, hframed⟩ := framed_of_encodeRecord hvalue
      obtain ⟨records, hrecords, hrest⟩ := ih
      exact ⟨record :: records, .cons hdecodes hrecords, .cons hframed hrest⟩
  obtain ⟨records, hdecodes, hf⟩ := hframed
  have hs : Stuck init.buffer encodings := by
    cases hf with
    | nil => simp [Stuck]
    | cons hframed _ =>
      intro data hdata
      cases hdata
      exact lt_trans (Nat.succ_pos 3) hframed.length.1
  obtain ⟨results, hresults, rfl, hfinal⟩ := feedAll_spec rfl hf hs hcut hsize
  exact ⟨results, hresults, hdecodes, hfinal⟩

/-- `{"a": 1}`. -/
def exampleRecord : Value := .dict [(.str (text "a"), .int 1)]

def exampleBody : List Char := "\x7b\"a\":1\x7d".toList

theorem encodeRecord_example :
    encodeRecord ⟨none, 20⟩ exampleRecord = .ok ([0, 0, 0, 7] ++ encodeChars exampleBody) := by
  have hdump : dumpBytes ⟨none, 20⟩ ⟨false, false⟩ exampleRecord = .ok (encodeChars exampleBody) := by
    decide +kernel
  have hstrict : (strictJson ⟨none, 20⟩ maxRecord (encodeChars exampleBody)).isOk = true := by
    rw [strictJson_encodeChars (by decide +kernel)]
    decide +kernel
  rw [encodeRecord, hdump]
  cases hjson : strictJson ⟨none, 20⟩ maxRecord (encodeChars exampleBody) with
  | error e => simp [hjson, Except.isOk, Except.toBool] at hstrict
  | ok record =>
    simp only [bind, Except.bind, hjson]
    decide +kernel

/-- Two records cut inside the length of the second. -/
theorem feedAll_two_records :
    ∃ results : List (List Record),
      (init.feedAll ⟨none, 20⟩ [[0, 0, 0, 7] ++ encodeChars exampleBody ++ [0, 0],
        [0, 7] ++ encodeChars exampleBody]).1 = results.map .ok ∧
      List.Forall₂ (DecodesTo ⟨none, 20⟩) [exampleRecord, exampleRecord] results.flatten ∧
      (init.feedAll ⟨none, 20⟩ [[0, 0, 0, 7] ++ encodeChars exampleBody ++ [0, 0],
        [0, 7] ++ encodeChars exampleBody]).2 = init :=
  feedAll_encodings ⟨none, 20⟩ [exampleRecord, exampleRecord]
    [[0, 0, 0, 7] ++ encodeChars exampleBody, [0, 0, 0, 7] ++ encodeChars exampleBody] _
    (.cons encodeRecord_example (.cons encodeRecord_example .nil)) (by simp) (by decide +kernel)

end Records

end Raticode.Device
