import Raticode.DeviceFrames
import Raticode.DeviceSession
import Raticode.DeviceInvitationUris

/-! Both ends of a carrier session together: the frames in which a session sends its ciphertexts, and
what the carrier of the other side hands on of them. -/
namespace Raticode.Device
open PyDocument OrderedDict OrderedFrames Attempt

section Transport

variable {T A : Type}

/-- A ciphertext in chunks of at most `MAX_CHUNK` bytes. -/
def chunked : ℕ → Bytes → List Bytes
  | 0, _ => []
  | count + 1, ciphertext =>
    if ciphertext.isEmpty then []
    else ciphertext.take maxChunk :: chunked count (ciphertext.drop maxChunk)

def allChunks (ciphertexts : List Bytes) : List Bytes := ciphertexts.flatMap (fun c => chunked c.length c)

def direction : Str := text "responder_to_initiator"

/-- The frame of a session with a number. -/
def Session.frame (s : Session T) (index : ℕ) (body : Bytes) : Frame :=
  ⟨s.sessionId, s.mode, direction, index, body⟩

/-- The carrier texts of chunks that are numbered from `index` on. -/
def Session.carriers (s : Session T) (index : ℕ) (chunks : List Bytes) : List Bytes :=
  (chunks.zipIdx index).map (fun p => encodeChars (letters (s.frame p.2 p.1).spelled))

/-- What one poll after another sends of the ciphertexts that are drained. -/
def frameEach (b : Backend T A) : List Bytes → Serve T A (List Bytes)
  | [] => pure []
  | ciphertext :: rest => do
    let frames ← Serve.frameAll b ciphertext.length ciphertext
    let later ← frameEach b rest
    pure (frames ++ later)

/-- A session may open and number `count` more frames. -/
structure Session.Roomy (s : Session T) (count : ℕ) : Prop where
  session : isUuid s.sessionId = true
  mode : isMode s.mode = true
  index : ((s.index + count : ℕ) : ℤ) ≤ maxInteger + 1

variable {b : Backend T A} {s : Session T} {limits : Limits}

theorem flatten_chunked {count : ℕ} {ciphertext : Bytes} (h : ciphertext.length ≤ count) :
    (chunked count ciphertext).flatten = ciphertext := by
  induction count generalizing ciphertext with
  | zero =>
    rw [List.length_eq_zero_iff.mp (Nat.le_zero.mp h)]
    rfl
  | succ count ih =>
    rw [chunked]
    split_ifs with hempty
    · exact (List.isEmpty_iff.mp hempty).symm
    · have hrest : (ciphertext.drop maxChunk).length ≤ count := by
        rw [List.length_drop, maxChunk]
        omega
      rw [List.flatten_cons, ih hrest, List.take_append_drop]

theorem flatten_allChunks (ciphertexts : List Bytes) :
    (allChunks ciphertexts).flatten = ciphertexts.flatten := by
  induction ciphertexts with
  | nil => rfl
  | cons c rest ih =>
    rw [allChunks, List.flatMap_cons, List.flatten_append, flatten_chunked le_rfl, List.flatten_cons]
    exact congrArg (c ++ ·) ih

theorem length_of_chunked {count : ℕ} {ciphertext chunk : Bytes} (h : chunk ∈ chunked count ciphertext) :
    1 ≤ chunk.length ∧ chunk.length ≤ maxChunk := by
  induction count generalizing ciphertext with
  | zero => contradiction
  | succ count ih =>
    rw [chunked] at h
    split_ifs at h with hempty
    · contradiction
    · rcases List.mem_cons.mp h with rfl | hrest
      · have hpos : 0 < ciphertext.length := List.length_pos_of_ne_nil (fun hnil => hempty (by rw [hnil]; rfl))
        rw [List.length_take, maxChunk]
        omega
      · exact ih hrest

theorem valid_frame {n : ℕ} {body : Bytes} (hs : s.Roomy n) (hbody : 1 ≤ body.length ∧ body.length ≤ maxChunk)
    {k : ℕ} (hk : k < n) : (s.frame (s.index + k) body).Valid where
  session := hs.session
  mode := hs.mode
  direction := show isDirection direction = true by decide
  index := by
    have hindex := hs.index
    change ((s.index + k : ℕ) : ℤ) ≤ _
    omega
  nonempty := hbody.1
  chunk := hbody.2

theorem frameAll_eq (hdigits : ∀ limit ∈ b.limits.maxDigits, 16 ≤ limit) (hnesting : 0 < b.limits.nesting)
    {count : ℕ} {ciphertext : Bytes} {site : Site T A}
    (hs : site.session.Roomy (chunked count ciphertext).length) :
    Serve.frameAll b count ciphertext site =
      .ok (site.session.carriers site.session.index (chunked count ciphertext))
        { site with session := { site.session with
          index := site.session.index + (chunked count ciphertext).length } } := by
  induction count generalizing ciphertext site with
  | zero => rfl
  | succ count ih =>
    rw [Serve.frameAll]
    by_cases hempty : ciphertext.isEmpty = true
    · simp only [chunked, hempty, if_true]
      rfl
    · rw [if_neg hempty]
      have hchunks : chunked (count + 1) ciphertext =
          ciphertext.take maxChunk :: chunked count (ciphertext.drop maxChunk) := by
        rw [chunked, if_neg hempty]
      have hmem : ciphertext.take maxChunk ∈ chunked (count + 1) ciphertext := by
        rw [hchunks]
        exact List.mem_cons_self
      have hlength := length_of_chunked hmem
      rw [hchunks, List.length_cons] at hs
      have hencode : Frame.encode b.limits ⟨site.session.sessionId, site.session.mode,
          text "responder_to_initiator", site.session.index, ciphertext.take maxChunk⟩ = .ok (encodeChars (letters
            (site.session.frame site.session.index (ciphertext.take maxChunk)).spelled)) :=
        encode_valid hdigits hnesting (valid_frame (k := 0) hs hlength (Nat.succ_pos _))
      set next : Site T A :=
        { site with session := { site.session with index := site.session.index + 1 } } with hnext
      have hroom : next.session.Roomy (chunked count (ciphertext.drop maxChunk)).length := by
        refine ⟨hs.session, hs.mode, ?_⟩
        have hindex := hs.index
        change ((site.session.index + 1 + _ : ℕ) : ℤ) ≤ _
        omega
      have hrest := ih hroom
      rw [run_bind_ok (show Serve.session site = .ok site.session site from rfl)]
      rw [hencode, run_bind_ok (show lift (Except.mapError SessionError.raised (.ok _)) site = .ok _ site from rfl)]
      rw [run_bind_ok (show Serve.change _ site = .ok () next from rfl), run_bind_ok hrest, hchunks]
      have hcount : site.session.index + 1 + (chunked count (ciphertext.drop maxChunk)).length =
          site.session.index + ((chunked count (ciphertext.drop maxChunk)).length + 1) := by omega
      change EStateM.Result.ok _ { site with session := { site.session with
        index := site.session.index + 1 + (chunked count (ciphertext.drop maxChunk)).length } } = _
      rw [hcount, List.length_cons]
      rfl

theorem carriers_append (s : Session T) (index : ℕ) (xs ys : List Bytes) :
    s.carriers index (xs ++ ys) = s.carriers index xs ++ s.carriers (index + xs.length) ys := by
  rw [Session.carriers, List.zipIdx_append, List.map_append]
  rfl

theorem frameEach_eq (hdigits : ∀ limit ∈ b.limits.maxDigits, 16 ≤ limit) (hnesting : 0 < b.limits.nesting)
    {ciphertexts : List Bytes} {site : Site T A} (hs : site.session.Roomy (allChunks ciphertexts).length) :
    frameEach b ciphertexts site =
      .ok (site.session.carriers site.session.index (allChunks ciphertexts))
        { site with session := { site.session with
          index := site.session.index + (allChunks ciphertexts).length } } := by
  induction ciphertexts generalizing site with
  | nil => rfl
  | cons c rest ih =>
    have hchunks : allChunks (c :: rest) = chunked c.length c ++ allChunks rest := List.flatMap_cons
    rw [hchunks, List.length_append] at hs
    have hindex := hs.index
    have hfirst : Serve.frameAll b c.length c site = _ :=
      frameAll_eq hdigits hnesting ⟨hs.session, hs.mode, by omega⟩
    set next : Site T A := { site with session := { site.session with
      index := site.session.index + (chunked c.length c).length } } with hnext
    have hroom : next.session.Roomy (allChunks rest).length := by
      refine ⟨hs.session, hs.mode, ?_⟩
      change ((site.session.index + (chunked c.length c).length + _ : ℕ) : ℤ) ≤ _
      omega
    have hrest := ih hroom
    rw [frameEach, run_bind_ok hfirst, run_bind_ok hrest, hchunks, carriers_append, List.length_append,
      ← Nat.add_assoc]
    rfl

theorem accept_next {r : OrderedFrames} {raw : Bytes} {frame : Frame} (hopen : r.failed = false)
    (hgap : r.gapSince = none) (hbuffer : r.buffer = []) (hdecode : Frame.decode limits raw = .ok frame)
    (hbound : r.isBound frame = true) (hindex : frame.index = r.expected) (now : ℚ) :
    r.accept limits raw now = (.ok frame.body, { r with expected := r.expected + 1 }) := by
  have hexamine : r.examine limits raw now = .ok frame := by
    simp [examine, OrderedFrames.checkDeadline, hopen, hgap, hdecode, hbound, require, bind, Except.bind,
      pure, Except.pure]
  have hstore : r.store frame now = (.ok frame.body, { r with expected := r.expected + 1 }) := by
    simp [store, hbuffer, Dict.set, hindex, Resequence.drain, Dict.get, Dict.erase, totalBytes, Dict.values,
      hgap]
  rw [OrderedFrames.accept, hexamine]
  simp only [hopen, Bool.false_eq_true, if_false, hindex, lt_irrefl, hstore, hbuffer]
  rw [if_neg (by omega), if_neg (by simp)]

/-- The carrier of the other side, at a number. -/
def Session.reader (s : Session T) (expected : ℕ) : OrderedFrames :=
  { OrderedFrames.init s.sessionId s.mode direction with expected := expected }

theorem isBound_frame (s : Session T) (expected index : ℕ) (body : Bytes) :
    (s.reader expected).isBound (s.frame index body) = true := by
  simp [Session.reader, Session.frame, OrderedFrames.init, OrderedFrames.isBound]

section Documented

variable (hdigits : ∀ limit ∈ limits.maxDigits, 16 ≤ limit) (hnesting : 0 < limits.nesting)
include hdigits hnesting

theorem run_in_order {chunks : List Bytes} (hs : s.Roomy chunks.length)
    (hchunks : ∀ c ∈ chunks, 1 ≤ c.length ∧ c.length ≤ maxChunk) (now : Bytes → ℚ) :
    ((s.reader s.index).run limits
      ((s.carriers s.index chunks).map (fun raw => .accept raw (now raw)))).1 = chunks.map .ok := by
  have hall : ∀ (rest : List Bytes) (k : ℕ), k + rest.length ≤ chunks.length → (∀ c ∈ rest, c ∈ chunks) →
      ((s.reader (s.index + k)).run limits
        ((s.carriers (s.index + k) rest).map (fun raw => .accept raw (now raw)))).1 = rest.map .ok := by
    intro rest
    induction rest with
    | nil => exact fun _ _ _ => rfl
    | cons c rest ih =>
      intro k hk hin
      rw [List.length_cons] at hk
      have hvalid := valid_frame hs (hchunks c (hin c List.mem_cons_self)) (k := k) (by omega)
      have hdecode := decode_spelled hdigits hnesting hvalid
      have haccept := accept_next rfl rfl rfl hdecode (isBound_frame s (s.index + k) (s.index + k) c) rfl
        (now (encodeChars (letters (s.frame (s.index + k) c).spelled)))
      have hrest := ih (k + 1) (by omega) (fun x hx => hin x (List.mem_cons_of_mem c hx))
      change (_ :: (OrderedFrames.run limits _ _).1) = _
      change ((s.reader (s.index + k)).accept limits _ _).1 ::
        (((s.reader (s.index + k)).accept limits _ _).2.run limits _).1 = _
      rw [haccept]
      exact congrArg (Except.ok c :: ·) hrest
  exact hall chunks 0 (by omega) (fun _ h => h)

theorem carries_sent {chunks : List Bytes} (hs : s.Roomy chunks.length) (hzero : s.index = 0)
    (hchunks : ∀ c ∈ chunks, 1 ≤ c.length ∧ c.length ≤ maxChunk) {raw : Bytes}
    (hraw : raw ∈ s.carriers 0 chunks ∨
      ∀ frame, Frame.decode limits raw = .ok frame → (s.reader 0).isBound frame = false) :
    (s.reader 0).Carries limits (fun n => chunks[n]?.getD []) raw := by
  intro frame hdecode hbound
  rcases hraw with hmem | hforeign
  · obtain ⟨⟨c, n⟩, hp, rfl⟩ := List.mem_map.mp hmem
    have hget : chunks[n]? = some c := by simpa using List.mem_zipIdx_iff_getElem?.mp hp
    have hlt : n < chunks.length := (List.getElem?_eq_some_iff.mp hget).1
    have hvalid := valid_frame hs (hchunks c (List.mem_of_getElem? hget)) hlt
    rw [hzero, Nat.zero_add] at hvalid
    rw [decode_spelled hdigits hnesting hvalid] at hdecode
    cases hdecode
    change c = chunks[n]?.getD []
    rw [hget, Option.getD_some]
  · rw [hforeign frame hdecode] at hbound
    contradiction

end Documented

theorem sent_prefix (chunks : List Bytes) (n : ℕ) : sent (fun n => chunks[n]?.getD []) n <+: chunks.flatten := by
  have htake : sent (fun n => chunks[n]?.getD []) n = (chunks.take n).flatten := by
    induction n with
    | zero => rfl
    | succ n ih =>
      rw [sent, List.range_succ, List.flatMap_append, ← sent, ih, List.take_add_one, List.flatten_append]
      cases hget : chunks[n]? with
      | none => simp [hget]
      | some c => simp [hget]
  rw [htake]
  exact (List.take_prefix n chunks).flatten

end Transport

/-- A session sends what its TLS drains in valid frames, numbered from 0 on. However these are lost,
repeated and reordered, and whatever texts of others come between them, the carrier of the other side
hands on a beginning of the bytes that were drained; and all of them, where every frame comes in turn. -/
theorem transport_faithful {T A : Type} (b : Backend T A)
    (hdigits : ∀ limit ∈ b.limits.maxDigits, 16 ≤ limit) (hnesting : 0 < b.limits.nesting)
    (ciphertexts : List Bytes) (site : Site T A) (hzero : site.session.index = 0)
    (hs : site.session.Roomy (allChunks ciphertexts).length) :
    ∃ raws t, frameEach b ciphertexts site = .ok raws t ∧ t.session.index = raws.length ∧
      raws = site.session.carriers 0 (allChunks ciphertexts) ∧
      (∀ calls, (∀ raw now, Call.accept raw now ∈ calls → raw ∈ raws ∨
          ∀ frame, Frame.decode b.limits raw = .ok frame → (site.session.reader 0).isBound frame = false) →
        received ((site.session.reader 0).run b.limits calls).1 <+: ciphertexts.flatten) ∧
      ∀ now : Bytes → ℚ, received ((site.session.reader 0).run b.limits
        (raws.map (fun raw => .accept raw (now raw)))).1 = ciphertexts.flatten := by
  have hchunks : ∀ c ∈ allChunks ciphertexts, 1 ≤ c.length ∧ c.length ≤ maxChunk := by
    intro c hc
    obtain ⟨x, -, hx⟩ := List.mem_flatMap.mp hc
    exact length_of_chunked hx
  have hinorder := run_in_order hdigits hnesting hs hchunks
  refine ⟨_, _, frameEach_eq hdigits hnesting hs, ?_, ?_, ?_, ?_⟩
  · simp [hzero, Session.carriers]
  · rw [hzero]
  · intro calls hcalls
    rw [hzero] at hcalls
    have hstart : Delivered (fun n => (allChunks ciphertexts)[n]?.getD []) (site.session.reader 0) [] :=
      ⟨fun p hp => absurd hp List.not_mem_nil, rfl⟩
    have hsound : (site.session.reader 0).Sound := OrderedFrames.sound_init _ _ _
    have hdelivered := delivered_run hsound hstart calls (fun raw now hraw =>
      carries_sent hdigits hnesting hs hzero hchunks (hcalls raw now hraw))
    rw [hdelivered.bytes, ← flatten_allChunks]
    exact sent_prefix _ _
  · intro now
    rw [hzero] at hinorder ⊢
    rw [hinorder now, ← flatten_allChunks]
    simp [received, List.flatMap_def, Function.comp_def, handedOn]

/-- Two short records of the desk, a frame each. -/
theorem transport_faithful_desk :
    ∃ raws t, frameEach deskBackend [[1, 2, 3], [4]] deskSite = .ok raws t ∧
      t.session.index = raws.length ∧ raws = deskSite.session.carriers 0 (allChunks [[1, 2, 3], [4]]) ∧
      (∀ calls, (∀ raw now, Call.accept raw now ∈ calls → raw ∈ raws ∨
          ∀ frame, Frame.decode deskBackend.limits raw = .ok frame →
            (deskSite.session.reader 0).isBound frame = false) →
        received ((deskSite.session.reader 0).run deskBackend.limits calls).1 <+:
          [[1, 2, 3], [4]].flatten) ∧
      ∀ now : Bytes → ℚ, received ((deskSite.session.reader 0).run deskBackend.limits
        (raws.map (fun raw => .accept raw (now raw)))).1 = [[1, 2, 3], [4]].flatten :=
  transport_faithful deskBackend (by simp [deskBackend, defaultLimits]) (by decide)
    [[1, 2, 3], [4]] deskSite rfl
    ⟨show isUuid Registry.examplePeer = true by decide, by decide, by decide⟩

end Raticode.Device
