import Mathlib.Algebra.Order.Monoid.NatCast
import Mathlib.Algebra.Order.Ring.Nat
import Raticode.DeviceFraming
import Raticode.Resequence

/-! One direction of a carrier session: frames come in any order, some of them
again, and the bytes go to TLS in the order in which they were sent. -/
namespace Raticode.Device
open OrderedDict PyDocument

structure OrderedFrames where
  sessionId : Str
  mode : Str
  direction : Str
  expected : ℕ
  buffer : Dict ℕ Bytes
  gapSince : Option ℚ
  failed : Bool

namespace OrderedFrames

def init (sessionId mode direction : Str) : OrderedFrames :=
  ⟨sessionId, mode, direction, 0, [], none, false⟩

/-- `self._failed = True` and `self._buffer.clear()`. -/
def close (s : OrderedFrames) : OrderedFrames := { s with buffer := [], failed := true }

def checkDeadline (s : OrderedFrames) (now : ℚ) : Except FrameError Unit × OrderedFrames :=
  if s.failed then (.error .sessionClosed, s)
  else
    match s.gapSince with
    | some since =>
      if gapSeconds ≤ now - since then (.error .gapTimeout, s.close) else (.ok (), s)
    | none => (.ok (), s)

def totalBytes (buffer : Dict ℕ Bytes) : ℕ := (buffer.values.map List.length).sum

def isBound (s : OrderedFrames) (frame : Frame) : Bool :=
  frame.sessionId = s.sessionId && frame.mode = s.mode && frame.direction = s.direction

/-- The part of `accept` that stores a frame inside the window and takes out what has
become contiguous. The two last limits are looked at when `expected` has moved. -/
def store (s : OrderedFrames) (frame : Frame) (now : ℚ) :
    Except FrameError Bytes × OrderedFrames :=
  let stored := s.buffer.set frame.index frame.body
  let (result, expected, buffer) := Resequence.drain stored.length s.expected stored
  let moved := { s with expected, buffer }
  if maxReorder < buffer.length then (.error .reorderLimit, moved)
  else if maxReorderBytes < totalBytes buffer then (.error .reorderLimit, moved)
  else
    (.ok result.flatten,
      { moved with gapSince := if buffer.isEmpty then none else s.gapSince <|> some now })

/-- What `accept` looks at before the frame's place in the order. -/
def examine (limits : Limits) (s : OrderedFrames) (raw : Bytes) (now : ℚ) :
    Except FrameError Frame := do
  (s.checkDeadline now).1
  let frame ← Frame.decode limits raw
  require (s.isBound frame) .sessionBinding
  return frame

def accept (limits : Limits) (s : OrderedFrames) (raw : Bytes) (now : ℚ) :
    Except FrameError Bytes × OrderedFrames :=
  if s.failed then (.error .sessionClosed, s)
  else
    match s.examine limits raw now with
    | .error e => (.error e, s.close)
    | .ok frame =>
      -- Data that was consumed cannot reach TLS a second time.
      if frame.index < s.expected then (.ok [], s)
      else if s.expected + maxReorder < frame.index then (.error .reorderLimit, s.close)
      else if (s.buffer.get frame.index).any (· ≠ frame.body) then
        (.error .conflictingFrame, s.close)
      else
        match s.store frame now with
        | (.ok bytes, s') => (.ok bytes, s')
        | (.error e, s') => (.error e, s'.close)

inductive Call where
  | accept (raw : Bytes) (now : ℚ)
  | checkDeadline (now : ℚ)

def call (limits : Limits) (s : OrderedFrames) : Call → Except FrameError Bytes × OrderedFrames
  | .accept raw now => s.accept limits raw now
  | .checkDeadline now => ((s.checkDeadline now).1.map (fun _ => []), (s.checkDeadline now).2)

def run (limits : Limits) (s : OrderedFrames) :
    List Call → List (Except FrameError Bytes) × OrderedFrames
  | [] => ([], s)
  | c :: calls =>
    let (result, s') := s.call limits c
    let (results, final) := run limits s' calls
    (result :: results, final)

def handedOn : Except FrameError Bytes → Bytes
  | .ok bytes => bytes
  | .error _ => []

def received (results : List (Except FrameError Bytes)) : Bytes := results.flatMap handedOn

/-! What holds between the calls. -/

/-- The buffer holds the frames of the window ahead of the expected one, and none once the stream
failed. -/
structure Sound (s : OrderedFrames) : Prop where
  window : Resequence.Window maxReorder s.expected s.buffer
  chunk : ∀ p ∈ s.buffer, p.2.length ≤ maxChunk
  closed : s.failed = true → s.buffer = []

theorem sound_init (sessionId mode direction : Str) : (init sessionId mode direction).Sound :=
  ⟨Resequence.Window.nil _ _, by simp [init], fun _ => rfl⟩

theorem Sound.close {s : OrderedFrames} (_ : s.Sound) : s.close.Sound :=
  ⟨Resequence.Window.nil _ _, by simp [OrderedFrames.close], fun _ => rfl⟩

theorem Sound.close_eq {s : OrderedFrames} (h : s.Sound) (hf : s.failed = true) : s.close = s := by
  have hb := h.closed hf
  cases s
  simp_all [OrderedFrames.close]

theorem Sound.totalBytes_le {s : OrderedFrames} (h : s.Sound) :
    totalBytes s.buffer ≤ maxReorderBytes := by
  have hsum : totalBytes s.buffer ≤ s.buffer.length * maxChunk := by
    have hle := List.sum_le_card_nsmul (s.buffer.values.map List.length) maxChunk (by
      intro n hn
      obtain ⟨body, hbody, rfl⟩ := List.mem_map.mp hn
      obtain ⟨p, hp, rfl⟩ := List.mem_map.mp hbody
      exact h.chunk p hp)
    simpa [totalBytes, Dict.values] using hle
  have hlength := h.window.length_le
  calc totalBytes s.buffer ≤ s.buffer.length * maxChunk := hsum
    _ ≤ maxReorder * maxChunk := Nat.mul_le_mul_right _ hlength
    _ = maxReorderBytes := rfl

theorem Sound.store {s : OrderedFrames} (h : s.Sound) (hf : s.failed = false) {frame : Frame}
    (hlow : s.expected ≤ frame.index) (hhigh : frame.index ≤ s.expected + maxReorder)
    (hbody : frame.body.length ≤ maxChunk) (now : ℚ) :
    ∃ items s', s.store frame now = (.ok items.flatten, s') ∧ s'.Sound ∧ s'.failed = false ∧
      Resequence.Drained s.expected (s.buffer.set frame.index frame.body) items s'.expected
        s'.buffer := by
  have hstored : (s.buffer.set frame.index frame.body).keys.Nodup :=
    Dict.nodup_keys_set h.window.nodup _ _
  have hd := Resequence.drained _ s.expected _ le_rfl hstored
  generalize hr : Resequence.drain (s.buffer.set frame.index frame.body).length s.expected
    (s.buffer.set frame.index frame.body) = drained at hd
  obtain ⟨items, expected, buffer⟩ := drained
  have hchunk : ∀ p ∈ buffer, p.2.length ≤ maxChunk := by
    intro p hp
    rcases Resequence.mem_set (hd.left p hp).1 with rfl | hm
    · exact hbody
    · exact h.chunk p hm
  have hsound (gapSince : Option ℚ) : Sound { s with expected, buffer, gapSince } :=
    ⟨h.window.store hlow hhigh frame.body hd, hchunk, fun ht => absurd (hf.symm.trans ht) (by simp)⟩
  have hlength : ¬ maxReorder < buffer.length := not_lt.mpr (hsound none).window.length_le
  have hbytes : ¬ maxReorderBytes < totalBytes buffer := not_lt.mpr (hsound none).totalBytes_le
  refine ⟨items, _, ?_,
    hsound (if buffer.isEmpty then none else s.gapSince <|> some now), hf, hd⟩
  simp only [OrderedFrames.store, hr, hlength, hbytes, ↓reduceIte]

theorem examine_spec {limits : Limits} {s : OrderedFrames} {raw : Bytes} {now : ℚ} {frame : Frame}
    (h : s.examine limits raw now = .ok frame) :
    Frame.decode limits raw = .ok frame ∧ s.isBound frame = true := by
  obtain ⟨_, -, h⟩ := Attempt.bind_ok h
  obtain ⟨frame', hframe, h⟩ := Attempt.bind_ok h
  obtain ⟨_, hbound, h⟩ := Attempt.bind_ok h
  cases h
  exact ⟨hframe, of_require hbound⟩

theorem call_cases (limits : Limits) {s : OrderedFrames} (h : s.Sound) (c : Call) :
    (∃ e, s.call limits c = (.error e, s.close)) ∨
    (s.failed = false ∧ s.call limits c = (.ok [], s)) ∨
    (s.failed = false ∧ ∃ raw now frame, c = .accept raw now ∧
      s.examine limits raw now = .ok frame ∧ s.expected ≤ frame.index ∧
      frame.index ≤ s.expected + maxReorder ∧ s.call limits c = s.store frame now) := by
  by_cases hf : s.failed = true
  · refine .inl ⟨.sessionClosed, ?_⟩
    rw [h.close_eq hf]
    cases c <;> simp [call, accept, checkDeadline, hf, Except.map]
  rw [Bool.not_eq_true] at hf
  cases c with
  | checkDeadline now =>
    simp only [call, checkDeadline, hf]
    cases s.gapSince with
    | none => exact .inr (.inl ⟨trivial, rfl⟩)
    | some since =>
      by_cases hlate : gapSeconds ≤ now - since
      · exact .inl ⟨.gapTimeout, by simp [hlate, Except.map]⟩
      · exact .inr (.inl ⟨trivial, by simp [hlate, Except.map]⟩)
  | accept raw now =>
    simp only [call, accept, hf]
    cases hexamine : s.examine limits raw now with
    | error e => exact .inl ⟨e, rfl⟩
    | ok frame =>
      by_cases hlow : frame.index < s.expected
      · exact .inr (.inl ⟨trivial, by simp [hlow]⟩)
      by_cases hhigh : s.expected + maxReorder < frame.index
      · exact .inl ⟨.reorderLimit, by simp [hlow, hhigh]⟩
      by_cases hconflict : (s.buffer.get frame.index).any (· ≠ frame.body) = true
      · exact .inl ⟨.conflictingFrame, by
          simp only [hlow, hhigh, hconflict, Bool.false_eq_true, ↓reduceIte]⟩
      refine .inr (.inr ⟨trivial, raw, now, frame, rfl, hexamine, not_lt.mp hlow, not_lt.mp hhigh, ?_⟩)
      obtain ⟨hdecode, -⟩ := examine_spec hexamine
      obtain ⟨items, s', hstore, -⟩ := h.store hf (not_lt.mp hlow) (not_lt.mp hhigh)
        (body_of_decode hdecode).2 now
      simp only [hlow, hhigh, hconflict, Bool.false_eq_true, ↓reduceIte, hstore]

theorem Sound.call {s : OrderedFrames} (h : s.Sound) (limits : Limits) (c : Call) :
    (s.call limits c).2.Sound := by
  rcases call_cases limits h c with ⟨e, he⟩ | ⟨-, he⟩ | ⟨hf, raw, now, frame, -, hx, hlow, hhigh, he⟩
  · rw [he]
    exact h.close
  · rw [he]
    exact h
  · obtain ⟨items, s', hstore, hs', -⟩ := h.store hf hlow hhigh
      (body_of_decode (examine_spec hx).1).2 now
    rw [he, hstore]
    exact hs'

theorem run_append (limits : Limits) (s : OrderedFrames) (calls later : List Call) :
    s.run limits (calls ++ later) =
      ((s.run limits calls).1 ++ ((s.run limits calls).2.run limits later).1,
        ((s.run limits calls).2.run limits later).2) := by
  induction calls generalizing s with
  | nil => rfl
  | cons c calls ih => simp [run, ih]

theorem Sound.run {s : OrderedFrames} (h : s.Sound) (limits : Limits) (calls : List Call) :
    (s.run limits calls).2.Sound := by
  induction calls generalizing s with
  | nil => exact h
  | cons c calls ih => exact ih (h.call limits c)

def Carries (limits : Limits) (s : OrderedFrames) (body : ℕ → Bytes) (raw : Bytes) : Prop :=
  ∀ frame, Frame.decode limits raw = .ok frame → s.isBound frame = true →
    frame.body = body frame.index

def sent (body : ℕ → Bytes) (n : ℕ) : Bytes := (List.range n).flatMap body

/-- What is buffered and what was released are the bodies that were sent, the latter in order. -/
structure Delivered (body : ℕ → Bytes) (s : OrderedFrames) (bytes : Bytes) : Prop where
  held : ∀ p ∈ s.buffer, p.2 = body p.1
  bytes : bytes = sent body s.expected

theorem sent_drained {body : ℕ → Bytes} {n n' : ℕ} (h : n ≤ n') :
    sent body n' = sent body n ++ ((List.range' n (n' - n)).map body).flatten := by
  obtain ⟨k, rfl⟩ := Nat.exists_eq_add_of_le h
  rw [sent, sent, List.range_eq_range', ← List.range'_append_1, List.flatMap_append]
  simp [List.flatMap, List.range_eq_range']

theorem Delivered.call {limits : Limits} {body : ℕ → Bytes} {s : OrderedFrames} {bytes : Bytes}
    (hd : Delivered body s bytes) (h : s.Sound) (c : Call)
    (hc : ∀ raw now, c = .accept raw now → s.Carries limits body raw) :
    Delivered body (s.call limits c).2 (bytes ++ received [(s.call limits c).1]) := by
  rcases call_cases limits h c with ⟨e, he⟩ | ⟨-, he⟩ | ⟨hf, raw, now, frame, rfl, hx, hlow, hhigh, he⟩
  · rw [he]
    exact ⟨by simp [close], by simpa [received, handedOn, close] using hd.bytes⟩
  · rw [he]
    exact ⟨hd.held, by simpa [received, handedOn] using hd.bytes⟩
  · obtain ⟨hdecode, hbound⟩ := examine_spec hx
    obtain ⟨items, s', hstore, -, -, hdrained⟩ := h.store hf hlow hhigh (body_of_decode hdecode).2 now
    have hheld : ∀ p ∈ s.buffer.set frame.index frame.body, p.2 = body p.1 := by
      intro p hp
      rcases Resequence.mem_set hp with rfl | hm
      · exact hc raw now rfl frame hdecode hbound
      · exact hd.held p hm
    have hmoved : s.expected ≤ s'.expected := by
      have hline := hdrained.line
      omega
    rw [he, hstore]
    refine ⟨fun p hp => hheld p (hdrained.left p hp).1, ?_⟩
    rw [sent_drained hmoved, ← hdrained.items_eq hheld, ← hd.bytes]
    simp [received, handedOn]

theorem isBound_call (limits : Limits) {s : OrderedFrames} (h : s.Sound) (c : Call) :
    (s.call limits c).2.isBound = s.isBound := by
  rcases call_cases limits h c with ⟨e, he⟩ | ⟨-, he⟩ | ⟨hf, raw, now, frame, -, hx, hlow, hhigh, he⟩
  · rw [he]
    rfl
  · rw [he]
  · rw [he]
    unfold OrderedFrames.store
    dsimp only
    split_ifs <;> rfl

theorem isBound_run (limits : Limits) {s : OrderedFrames} (h : s.Sound) (calls : List Call) :
    (s.run limits calls).2.isBound = s.isBound := by
  induction calls generalizing s with
  | nil => rfl
  | cons c calls ih => exact (ih (h.call limits c)).trans (isBound_call limits h c)

/-- Whatever order the carriers arrive in, what is released is a prefix of what was sent. -/
theorem delivered_run {limits : Limits} {body : ℕ → Bytes} {s : OrderedFrames} (h : s.Sound)
    (h₀ : Delivered body s []) (calls : List Call)
    (hc : ∀ raw now, Call.accept raw now ∈ calls → s.Carries limits body raw) :
    Delivered body (s.run limits calls).2 (received (s.run limits calls).1) := by
  induction calls using List.reverseRecOn with
  | nil => exact h₀
  | append_singleton calls c ih =>
    have hd := ih (fun raw now hm => hc raw now (List.mem_append_left _ hm))
    have hcarries : ∀ raw now, c = .accept raw now →
        (s.run limits calls).2.Carries limits body raw := by
      rintro raw now rfl frame hframe hbound
      rw [isBound_run limits h] at hbound
      exact hc raw now (by simp) frame hframe hbound
    have hlast := hd.call (h.run limits calls) c hcarries
    rw [run_append]
    simpa [run, received] using hlast

theorem inserted {limits : Limits} {s : OrderedFrames} (h : s.Sound) (h₀ : s.buffer = [])
    (calls : List Call) {k : ℕ} (hk : k ∈ (s.run limits calls).2.buffer.keys) :
    ∃ before c after, calls = before ++ c :: after ∧
      k ∉ (s.run limits before).2.buffer.keys ∧
      k ∈ (s.run limits (before ++ [c])).2.buffer.keys ∧
      k ≤ (s.run limits before).2.expected + maxReorder := by
  induction calls using List.reverseRecOn with
  | nil => simp [run, h₀, Dict.keys] at hk
  | append_singleton calls c ih =>
    by_cases hold : k ∈ (s.run limits calls).2.buffer.keys
    · obtain ⟨before, c', after, rfl, hrest⟩ := ih hold
      exact ⟨before, c', after ++ [c], by simp, hrest⟩
    refine ⟨calls, c, [], rfl, hold, hk, ?_⟩
    have hsound := h.run limits calls
    rw [run_append] at hk
    generalize (s.run limits calls).2 = t at hk hold hsound ⊢
    simp only [run] at hk
    rcases call_cases limits hsound c with
      ⟨e, he⟩ | ⟨-, he⟩ | ⟨hf, raw, now, frame, -, hx, hlow, hhigh, he⟩
    · simp [he, close, Dict.keys] at hk
    · rw [he] at hk
      exact absurd hk hold
    · obtain ⟨items, s', hstore, -, -, hdrained⟩ := hsound.store hf hlow hhigh
        (body_of_decode (examine_spec hx).1).2 now
      rw [he, hstore] at hk
      obtain ⟨p, hp, rfl⟩ := List.mem_map.mp hk
      rcases Resequence.mem_set (hdrained.left p hp).1 with rfl | hm
      · exact hhigh
      · exact absurd (List.mem_map_of_mem hm) hold

theorem raises_of_failed {limits : Limits} {s : OrderedFrames} (hf : s.failed = true)
    (calls : List Call) : ∀ result ∈ (s.run limits calls).1, ∃ e, result = .error e := by
  induction calls with
  | nil => simp [run]
  | cons c calls ih =>
    have hcall : s.call limits c = (.error .sessionClosed, s) := by
      cases c <;> simp [call, accept, checkDeadline, hf, Except.map]
    simp only [run, hcall, List.mem_cons]
    rintro result (rfl | hm)
    · exact ⟨_, rfl⟩
    · exact ih result hm

theorem failed_of_raises {limits : Limits} {s : OrderedFrames} (h : s.Sound) {c : Call}
    {e : FrameError} (he : (s.call limits c).1 = .error e) : (s.call limits c).2.failed = true := by
  rcases call_cases limits h c with
    ⟨e', he'⟩ | ⟨-, he'⟩ | ⟨hf, raw, now, frame, -, hx, hlow, hhigh, he'⟩
  · rw [he']
    rfl
  · rw [he'] at he
    cases he
  · obtain ⟨items, s', hstore, -⟩ := h.store hf hlow hhigh
      (body_of_decode (examine_spec hx).1).2 now
    rw [he', hstore] at he
    cases he

/-- Reassembly over every run of a session. The bytes returned are the bodies below the
line in their order, whatever the order of delivery; what is held lies above the line,
inside the window of the time it was stored, within both limits, so that storing a
frame inside the window never raises; and after an error every call raises. -/
theorem reassembly (limits : Limits) (sessionId mode direction : Str) (calls : List Call) :
    let s := init sessionId mode direction
    let s' := (s.run limits calls).2
    (∀ body : ℕ → Bytes,
      (∀ raw now, Call.accept raw now ∈ calls → s.Carries limits body raw) →
        received (s.run limits calls).1 = sent body s'.expected) ∧
    (∀ k ∈ s'.buffer.keys, s'.expected < k ∧ ∃ before c after, calls = before ++ c :: after ∧
      k ∉ (s.run limits before).2.buffer.keys ∧ k ∈ (s.run limits (before ++ [c])).2.buffer.keys ∧
      k ≤ (s.run limits before).2.expected + maxReorder) ∧
    s'.buffer.length ≤ 32 ∧ totalBytes s'.buffer ≤ 65536 ∧
    (∀ raw now frame, s'.failed = false → s'.examine limits raw now = .ok frame →
      s'.expected ≤ frame.index → frame.index ≤ s'.expected + maxReorder →
        ∃ bytes, (s'.store frame now).1 = .ok bytes) ∧
    (∀ c e later, (s'.call limits c).1 = .error e →
      ∀ result ∈ ((s'.call limits c).2.run limits later).1, ∃ e', result = .error e') := by
  intro s s'
  have h₀ : s.Sound := sound_init sessionId mode direction
  have hs' : s'.Sound := h₀.run limits calls
  refine ⟨fun body hc => ?_, fun k hk => ⟨?_, inserted h₀ rfl calls hk⟩, hs'.window.length_le,
    hs'.totalBytes_le, fun raw now frame hf hx hlow hhigh => ?_, fun c e later he => ?_⟩
  · have hstart : Delivered body s [] := ⟨by simp [s, init], by simp [s, init, sent]⟩
    exact (delivered_run h₀ hstart calls hc).bytes
  · obtain ⟨p, hp, rfl⟩ := List.mem_map.mp hk
    exact hs'.window.above p hp
  · obtain ⟨items, t, hstore, -⟩ := hs'.store hf hlow hhigh (body_of_decode (examine_spec hx).1).2 now
    exact ⟨items.flatten, by rw [hstore]⟩
  · exact raises_of_failed (failed_of_raises hs' he) later

section Swapped

def exampleSession : Str := text "01234567-89ab-cdef-0123-456789abcdef"

def exampleMode : Str := text "pair"

def exampleDirection : Str := text "initiator_to_responder"

def carrierText (index : Char) (body : List Char) : List Char :=
  "\x7b\"version\":2,\"session_id\":\"01234567-89ab-cdef-0123-456789abcdef\",".toList ++
    "\"mode\":\"pair\",\"direction\":\"initiator_to_responder\",\"index\":".toList ++ [index] ++
    ",\"body\":\"".toList ++ body ++ "\"\x7d".toList

def exampleFrame (index : ℕ) (body : Bytes) : Frame :=
  ⟨exampleSession, exampleMode, exampleDirection, index, body⟩

theorem decode_second :
    Frame.decode ⟨none, 20⟩ (encodeChars (carrierText '1' ['A', 'Q'])) = .ok (exampleFrame 1 [1]) := by
  rw [Frame.decode, strictJson_encodeChars (by decide +kernel)]
  decide +kernel

theorem decode_first :
    Frame.decode ⟨none, 20⟩ (encodeChars (carrierText '0' ['B', 'w'])) = .ok (exampleFrame 0 [7]) := by
  rw [Frame.decode, strictJson_encodeChars (by decide +kernel)]
  decide +kernel

def swappedCalls : List Call :=
  [.accept (encodeChars (carrierText '1' ['A', 'Q'])) 0,
    .accept (encodeChars (carrierText '0' ['B', 'w'])) 1,
    .accept (encodeChars (carrierText '1' ['A', 'Q'])) 2]

def exampleBody (n : ℕ) : Bytes := if n = 0 then [7] else [1]

theorem carries_swapped (s : OrderedFrames) (raw : Bytes) (now : ℚ)
    (hm : Call.accept raw now ∈ swappedCalls) : s.Carries ⟨none, 20⟩ exampleBody raw := by
  intro frame hframe _
  simp only [swappedCalls, List.mem_cons, Call.accept.injEq, List.not_mem_nil, or_false] at hm
  rcases hm with ⟨rfl, -⟩ | ⟨rfl, -⟩ | ⟨rfl, -⟩
  · rw [decode_second] at hframe
    cases hframe
    rfl
  · rw [decode_first] at hframe
    cases hframe
    rfl
  · rw [decode_second] at hframe
    cases hframe
    rfl

theorem received_swapped {first second : Bytes} {limits : Limits}
    (hfirst : Frame.decode limits first = .ok (exampleFrame 0 [7]))
    (hsecond : Frame.decode limits second = .ok (exampleFrame 1 [1])) :
    received ((init exampleSession exampleMode exampleDirection).run limits
      [.accept second 0, .accept first 1, .accept second 2]).1 = [7, 1] := by
  simp only [run, call, accept, examine, hfirst, hsecond]
  decide +kernel

/-- Two frames in the wrong order, the second once more at the end. -/
theorem reassembly_swapped :
    received ((init exampleSession exampleMode exampleDirection).run ⟨none, 20⟩ swappedCalls).1 =
      sent exampleBody ((init exampleSession exampleMode exampleDirection).run ⟨none, 20⟩
        swappedCalls).2.expected ∧
    received ((init exampleSession exampleMode exampleDirection).run ⟨none, 20⟩ swappedCalls).1 =
      [7, 1] :=
  ⟨(reassembly ⟨none, 20⟩ exampleSession exampleMode exampleDirection swappedCalls).1 exampleBody
    (carries_swapped _), received_swapped decode_first decode_second⟩

end Swapped

end OrderedFrames

end Raticode.Device
