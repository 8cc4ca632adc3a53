import Raticode.DeviceFraming
import Raticode.PyWriting

/-! Frames come back as they were sent: the object that `Frame.encode` writes is read again by
`strict_json` and passes every check of `Frame.decode`, and it fits a carrier. -/
namespace Raticode.Device
open OrderedDict PyDocument PyText PyJson

/-! Objects of strings and numbers, through `strict_json`. -/
section Flat

variable {limits : Limits}

inductive Leaf : Value → Prop
  | null : Leaf .null
  | int (z : ℤ) : Leaf (.int z)
  | str {s : Str} (h : Scalar s) : Leaf (.str s)

theorem pairsInto_nodup {result : Dict Str Value} {members : List (Str × Value)}
    (h : ((result ++ members).map Prod.fst).Nodup) :
    pairsInto result members = .ok (result ++ members) := by
  induction members generalizing result with
  | nil => rw [pairsInto, List.append_nil]
  | cons p members ih =>
    have hfresh : p.1 ∉ result.keys := by
      intro hmem
      rw [List.map_append, List.nodup_append] at h
      exact h.2.2 p.1 hmem p.1 (List.mem_map_of_mem List.mem_cons_self) rfl
    have hnone : result.get p.1 = none := by
      rw [← Option.not_isSome_iff_eq_none, Dict.get_isSome_iff]
      exact hfresh
    have hshift : result ++ [p] ++ members = result ++ p :: members := by simp
    rw [pairsInto, if_neg hfresh, Dict.set_of_none hnone, ih, hshift]
    rw [hshift]
    exact h

theorem pairs_entries {entries : List Entry} (h : (entries.map Entry.name).Nodup) :
    strictHooks.pairs (entries.map (fun e => (e.name, e.value))) =
      .ok (.dict (asRecord entries)) := by
  have hnames : ((entries.map (fun e => (e.name, e.value))).map Prod.fst).Nodup := by
    rw [List.map_map]
    exact h
  change pairs (entries.map (fun e => (e.name, e.value))) = .ok (.dict (asRecord entries))
  have hrecord : (entries.map (fun e => (e.name, e.value))).map
      (fun p : Str × Value => ((.str p.1 : Key), p.2)) = asRecord entries := by
    rw [List.map_map]
    rfl
  rw [pairs, pairsInto_nodup (by simpa using hnames), ← hrecord]
  rfl

theorem surrogate_free {s : Str} (h : Scalar s) : s.any isSurrogate = false := by
  rw [List.any_eq_false]
  intro n hn
  rw [(h n hn).2]
  exact Bool.false_ne_true

def Shallow (p : Value × ℕ) : Prop :=
  Leaf p.1 ∧ p.2 ≤ 16 ∨ p.2 ≤ 15 ∧ ∃ entries : List Entry, p.1 = .dict (asRecord entries) ∧
    entries.length ≤ maxCollection ∧ ∀ e ∈ entries, Scalar e.name ∧ Leaf e.value

theorem mem_stacked {entries : List Entry} {depth : ℕ} {stack : List (Value × ℕ)} {q : Value × ℕ}
    (h : q ∈ ((asRecord entries).map (fun p => (p.2, depth + 1))).reverse ++
      ((asRecord entries).map (fun p => (keyItem p.1, depth + 1))).reverse ++ stack) :
    q ∈ stack ∨ ∃ e ∈ entries, q = (e.value, depth + 1) ∨ q = (.str e.name, depth + 1) := by
  simp only [List.mem_append, List.mem_reverse, List.mem_map, asRecord] at h
  rcases h with (⟨_, ⟨e, he, rfl⟩, rfl⟩ | ⟨_, ⟨e, he, rfl⟩, rfl⟩) | h
  · exact .inr ⟨e, he, .inl rfl⟩
  · exact .inr ⟨e, he, .inr rfl⟩
  · exact .inl h

theorem inspect_shallow {stack : List (Value × ℕ)} (n : ℕ) (h : ∀ p ∈ stack, Shallow p) :
    inspect n stack = .ok () := by
  induction n generalizing stack with
  | zero => cases stack <;> rfl
  | succ n ih =>
    cases stack with
    | nil => rfl
    | cons p stack =>
      obtain ⟨value, depth⟩ := p
      have hrest := ih (fun q hq => h q (List.mem_cons_of_mem _ hq))
      rcases h (value, depth) List.mem_cons_self with ⟨hleaf, hdepth⟩ | ⟨hdepth, entries, heq, hsize, hall⟩
      · have hallowed : ¬ 16 < depth := by
          change depth ≤ 16 at hdepth
          omega
        change Leaf value at hleaf
        cases hleaf with
        | null =>
          have hstep : inspect (n + 1) ((.null, depth) :: stack) = inspect n stack := by
            simp [inspect, hallowed]
          rw [hstep, hrest]
        | int z =>
          have hstep : inspect (n + 1) ((.int z, depth) :: stack) = inspect n stack := by
            simp [inspect, hallowed]
          rw [hstep, hrest]
        | str hscalar =>
          rw [inspect, if_neg hallowed]
          simp only [surrogate_free hscalar]
          exact hrest
      · change depth ≤ 15 at hdepth
        change value = .dict (asRecord entries) at heq
        have hcount : ¬ maxCollection < (asRecord entries).length := by
          rw [asRecord, List.length_map]
          omega
        rw [heq, inspect, if_neg (by omega), if_neg hcount]
        apply ih
        intro q hq
        rcases mem_stacked hq with hq | ⟨e, he, rfl | rfl⟩
        · exact h q (List.mem_cons_of_mem _ hq)
        · exact .inl ⟨(hall e he).2, show depth + 1 ≤ 16 by omega⟩
        · exact .inl ⟨.str (hall e he).1, show depth + 1 ≤ 16 by omega⟩

theorem strictText_object {style : Style} (hstyle : style.ascii = true) {steps : ℕ}
    (hnesting : 0 < limits.nesting) {entries : List Entry} (hne : entries ≠ [])
    (hsize : entries.length ≤ maxCollection) (hnames : (entries.map Entry.name).Nodup)
    (hscalar : ∀ e ∈ entries, Scalar e.name)
    (hreads : ∀ e ∈ entries, ReadsBack limits strictHooks steps 1 e.written e.value)
    (hshallow : ∀ e ∈ entries, Shallow (e.value, 1))
    (hsteps : steps + entries.length ≤ (objectText style entries).length) :
    strictText limits (letters (objectText style entries)) = .ok (asRecord entries) := by
  have hloads : PyDocument.loads limits strictHooks (letters (objectText style entries)) =
      .ok (.dict (asRecord entries)) := by
    apply loads_readsBack (readsBack_object hstyle hnesting hne hscalar hreads (pairs_entries hnames))
    omega
  have hinspect : inspect (nodes (.dict (asRecord entries))) [(.dict (asRecord entries), 0)] =
      .ok () := by
    have hcount : ¬ maxCollection < (asRecord entries).length := by
      rw [asRecord, List.length_map]
      omega
    obtain ⟨n, hn⟩ : ∃ n, nodes (.dict (asRecord entries)) = n + 1 :=
      ⟨_, by rw [nodes, Nat.add_comm]⟩
    rw [hn, inspect, if_neg (by omega), if_neg hcount]
    apply inspect_shallow
    -- What is stacked are the values and the names, one level down.
    intro q hq
    rcases mem_stacked hq with hq | ⟨e, he, rfl | rfl⟩
    · cases hq
    · exact hshallow e he
    · exact .inl ⟨.str (hscalar e he), show 0 + 1 ≤ 16 by omega⟩
  rw [strictText, hloads]
  simp only [hinspect]
  rfl

end Flat

/-! The alphabet gives back the groups, and the groups the bytes. -/
section Spelling

theorem alphabet_eq : alphabet =
    (List.range 26).map (0x41 + ·) ++ (List.range 26).map (0x61 + ·) ++
      (List.range 10).map (0x30 + ·) ++ [0x2d, 0x5f] := by
  decide

theorem idxOf_alphabet {i : ℕ} (h : i < 64) : alphabet.idxOf (alphabet.getD i 0) = i := by
  have hall : (List.range 64).all (fun i => alphabet.idxOf (alphabet.getD i 0) = i) = true := by
    rw [alphabet_eq]
    decide
  exact of_decide_eq_true (List.all_eq_true.mp hall i (List.mem_range.mpr h))

theorem getD_alphabet_mem {i : ℕ} (h : i < 64) : alphabet.getD i 0 ∈ alphabet := by
  have hlength : alphabet.length = 64 := by
    rw [alphabet_eq]
    rfl
  rw [List.getD_eq_getElem?_getD, List.getElem?_eq_getElem (by omega), Option.getD_some]
  exact List.getElem_mem _

theorem plain_alphabet : Plain alphabet := by
  apply plain_of_all
  rw [alphabet_eq]
  decide

theorem sextets_lt (body : Bytes) : ∀ i ∈ sextets body, i < 64 := by
  induction body using sextets.induct with
  | case1 => simp [sextets]
  | case2 x =>
    have hx := x.toNat_lt
    intro i hi
    simp only [sextets, List.mem_cons, List.not_mem_nil, or_false] at hi
    omega
  | case3 x y =>
    have hx := x.toNat_lt
    have hy := y.toNat_lt
    intro i hi
    simp only [sextets, List.mem_cons, List.not_mem_nil, or_false] at hi
    omega
  | case4 x y z rest ih =>
    have hx := x.toNat_lt
    have hy := y.toNat_lt
    have hz := z.toNat_lt
    intro i hi
    simp only [sextets, List.mem_cons] at hi
    rcases hi with hi | hi | hi | hi | hi
    · omega
    · omega
    · omega
    · omega
    · exact ih i hi

theorem length_sextets (body : Bytes) : (sextets body).length = (4 * body.length + 2) / 3 := by
  induction body using sextets.induct with
  | case1 => rfl
  | case2 x => simp [sextets]
  | case3 x y => simp [sextets]
  | case4 x y z rest ih =>
    simp only [sextets, List.length_cons, ih]
    omega

theorem ofNat_eq {n : ℕ} {x : UInt8} (h : n = x.toNat) : UInt8.ofNat n = x := by
  rw [h, UInt8.ofNat_toNat]

theorem octets_sextets (body : Bytes) : octets (sextets body) = some body := by
  induction body using sextets.induct with
  | case1 => rfl
  | case2 x =>
    have hx : UInt8.ofNat (x.toNat / 4 * 4 + x.toNat % 4 * 16 / 16) = x := ofNat_eq (by omega)
    rw [sextets, octets, hx]
  | case3 x y =>
    have hy := y.toNat_lt
    have hx : UInt8.ofNat (x.toNat / 4 * 4 + (x.toNat % 4 * 16 + y.toNat / 16) / 16) = x :=
      ofNat_eq (by omega)
    have hy' : UInt8.ofNat ((x.toNat % 4 * 16 + y.toNat / 16) % 16 * 16 + y.toNat % 16 * 4 / 4) = y :=
      ofNat_eq (by omega)
    rw [sextets, octets, hx, hy']
  | case4 x y z rest ih =>
    have hy := y.toNat_lt
    have hz := z.toNat_lt
    have hx : UInt8.ofNat (x.toNat / 4 * 4 + (x.toNat % 4 * 16 + y.toNat / 16) / 16) = x :=
      ofNat_eq (by omega)
    have hy' : UInt8.ofNat ((x.toNat % 4 * 16 + y.toNat / 16) % 16 * 16 +
        (y.toNat % 16 * 4 + z.toNat / 64) / 4) = y := ofNat_eq (by omega)
    have hz' : UInt8.ofNat ((y.toNat % 16 * 4 + z.toNat / 64) % 4 * 64 + z.toNat % 64) = z :=
      ofNat_eq (by omega)
    rw [sextets, octets, ih, hx, hy', hz']
    rfl

theorem b64decode_urlsafeB64encode (body : Bytes) :
    b64decode (urlsafeB64encode body) = some body := by
  have hgroups : ((sextets body).map (alphabet.getD · 0)).map (alphabet.idxOf ·) = sextets body := by
    rw [List.map_map]
    calc (sextets body).map ((alphabet.idxOf ·) ∘ (alphabet.getD · 0))
        = (sextets body).map id := by
          apply List.map_congr_left
          intro i hi
          exact idxOf_alphabet (sextets_lt body i hi)
      _ = sextets body := List.map_id _
  rw [b64decode, urlsafeB64encode, hgroups, octets_sextets]

theorem mem_alphabet_of_encoded {body : Bytes} {n : ℕ} (h : n ∈ urlsafeB64encode body) :
    n ∈ alphabet := by
  obtain ⟨i, hi, rfl⟩ := List.mem_map.mp h
  exact getD_alphabet_mem (sextets_lt body i hi)

theorem plain_encoded (body : Bytes) : Plain (urlsafeB64encode body) :=
  fun n hn => plain_alphabet n (mem_alphabet_of_encoded hn)

theorem decodeBody_encoded {body : Bytes} (h : 1 ≤ body.length) :
    decodeBody (some (.str (urlsafeB64encode body))) = .ok body := by
  have hlength : (urlsafeB64encode body).length = (4 * body.length + 2) / 3 := by
    rw [urlsafeB64encode, List.length_map, length_sextets]
  have hne : (urlsafeB64encode body).isEmpty = false := by
    rw [List.isEmpty_eq_false_iff, ← List.length_pos_iff]
    omega
  have hall : ∀ n ∈ urlsafeB64encode body, n ∈ alphabet := fun n hn => mem_alphabet_of_encoded hn
  simpa [decodeBody, hne, b64decode_urlsafeB64encode] using hall

theorem spelling_of_decodeBody {value : Option Value} {body : Bytes}
    (h : decodeBody value = .ok body) : value = some (.str (urlsafeB64encode body)) := by
  unfold decodeBody at h
  split at h
  next encoded =>
    split at h
    · cases h
    · cases hb : b64decode encoded with
      | none => simp [hb] at h
      | some bytes =>
        simp only [hb] at h
        split at h
        · cases h
        next hspelled =>
          cases h
          rw [not_not.mp hspelled]
  · cases h

end Spelling

/-! Frames. -/
section Frames

variable {limits : Limits}

/-- What `Frame.decode` checks. -/
structure Frame.Valid (frame : Frame) : Prop where
  session : isUuid frame.sessionId = true
  mode : isMode frame.mode = true
  direction : isDirection frame.direction = true
  index : (frame.index : ℤ) ≤ maxInteger
  nonempty : 1 ≤ frame.body.length
  chunk : frame.body.length ≤ maxChunk

theorem of_stringMember {members : List (Key × Value)} {name : String} {form : Str → Bool}
    {e : FrameError} {s : Str} (h : stringMember members name form e = .ok s) :
    form s = true := by
  unfold stringMember at h
  split at h
  · split at h
    next hform =>
      cases h
      exact hform
    · cases h
  · cases h

theorem of_decodeIndex {value : Option Value} {index : ℕ} (h : decodeIndex value = .ok index) :
    (index : ℤ) ≤ maxInteger := by
  unfold decodeIndex at h
  split at h
  · split at h
    next hrange =>
      cases h
      simp only [Bool.and_eq_true, decide_eq_true_eq] at hrange
      omega
    · cases h
  · cases h

theorem valid_of_members {value : List (Key × Value)} {frame : Frame}
    (h : Frame.ofMembers value = .ok frame) :
    frame.Valid ∧ member value "body" = some (.str (urlsafeB64encode frame.body)) := by
  obtain ⟨_, -, h⟩ := Attempt.bind_ok h
  obtain ⟨_, -, h⟩ := Attempt.bind_ok h
  obtain ⟨sessionId, hsession, h⟩ := Attempt.bind_ok h
  obtain ⟨mode, hmode, h⟩ := Attempt.bind_ok h
  obtain ⟨direction, hdirection, h⟩ := Attempt.bind_ok h
  obtain ⟨index, hindex, h⟩ := Attempt.bind_ok h
  obtain ⟨body, hbody, h⟩ := Attempt.bind_ok h
  obtain ⟨_, hsize, h⟩ := Attempt.bind_ok h
  cases h
  have hchunk := of_require hsize
  simp only [Bool.and_eq_true, decide_eq_true_eq] at hchunk
  exact ⟨⟨of_stringMember hsession, of_stringMember hmode, of_stringMember hdirection,
    of_decodeIndex hindex, hchunk.1, hchunk.2⟩, spelling_of_decodeBody hbody⟩

theorem plain_uuid {s : Str} (h : isUuid s = true) : Plain s ∧ s.length = 36 := by
  simp only [isUuid, Bool.and_eq_true, decide_eq_true_eq, List.all_eq_true] at h
  obtain ⟨hlength, hall⟩ := h
  refine ⟨?_, hlength⟩
  intro n hn
  obtain ⟨i, hi⟩ := List.mem_iff_getElem?.mp hn
  have hform := hall (n, i) (List.mem_zipIdx_iff_getElem?.mpr hi)
  simp only [isLowerHex] at hform
  split at hform
  · simp only [decide_eq_true_eq] at hform
    omega
  · simp only [Bool.or_eq_true, Bool.and_eq_true, decide_eq_true_eq] at hform
    omega

/-- The members that `Frame.encode` writes, with their texts. -/
def Frame.entries (frame : Frame) : List Entry :=
  [⟨text "version", .int 2, (Nat.toDigits 10 2).map Char.toNat⟩,
    ⟨text "session_id", .str frame.sessionId, quoted ⟨true, true⟩ frame.sessionId⟩,
    ⟨text "mode", .str frame.mode, quoted ⟨true, true⟩ frame.mode⟩,
    ⟨text "direction", .str frame.direction, quoted ⟨true, true⟩ frame.direction⟩,
    ⟨text "index", .int frame.index, (Nat.toDigits 10 frame.index).map Char.toNat⟩,
    ⟨text "body", .str (urlsafeB64encode frame.body),
      quoted ⟨true, true⟩ (urlsafeB64encode frame.body)⟩]

theorem asRecord_entries (frame : Frame) : .dict (asRecord frame.entries) = frame.record := rfl

theorem names_entries (frame : Frame) : frame.entries.map Entry.name = frameKeys := rfl

theorem plain_frameKeys : ∀ name ∈ frameKeys, Plain name := by
  have hall : frameKeys.all (fun s => s.all
      (fun n => 0x20 ≤ n && n < 0x7f && n ≠ 0x22 && n ≠ 0x5c)) = true := by
    decide
  exact fun name hname => plain_of_all (List.all_eq_true.mp hall name hname)

theorem nodup_frameKeys : frameKeys.Nodup := by
  decide

theorem plain_mode {s : Str} (h : isMode s = true) : Plain s ∧ s.length ≤ 6 := by
  simp only [isMode, Bool.or_eq_true, decide_eq_true_eq] at h
  rcases h with rfl | rfl
  · exact ⟨plain_of_all (by decide), by decide⟩
  · exact ⟨plain_of_all (by decide), by decide⟩

theorem plain_direction {s : Str} (h : isDirection s = true) : Plain s ∧ s.length = 22 := by
  simp only [isDirection, Bool.or_eq_true, decide_eq_true_eq] at h
  rcases h with rfl | rfl
  · exact ⟨plain_of_all (by decide), by decide⟩
  · exact ⟨plain_of_all (by decide), by decide⟩

theorem length_index {n : ℕ} (h : (n : ℤ) ≤ maxInteger) : (Nat.toDigits 10 n).length ≤ 16 := by
  simp only [maxInteger] at h
  apply (Nat.length_toDigits_le_iff (by decide) (by decide)).mpr
  omega

/-- The entry's text is what the dumper writes for its value and what the reader reads back. -/
structure Kept (limits : Limits) (depth : ℕ) (e : Entry) : Prop where
  dumped : dumps limits ⟨true, true⟩ depth e.value = .ok e.written
  read : ReadsBack limits strictHooks 1 depth e.written e.value
  leaf : Leaf e.value
  ascii : ∀ n ∈ e.written, n < 0x7f

theorem kept_string {name s : Str} {depth : ℕ} (h : Scalar s) :
    Kept limits depth ⟨name, .str s, quoted ⟨true, true⟩ s⟩ where
  dumped := by rw [dumps]
  read := readsBack_string rfl h depth
  leaf := .str h
  ascii := ascii_quoted rfl s

theorem kept_nat {name : Str} {n depth : ℕ}
    (h : ∀ limit ∈ limits.maxDigits, (Nat.toDigits 10 n).length ≤ limit) :
    Kept limits depth ⟨name, .int n, (Nat.toDigits 10 n).map Char.toNat⟩ where
  dumped := by
    have hdigits : ¬ limits.maxDigits.any (· < (digitsOf ((n : ℤ).natAbs)).length) = true := by
      rw [Option.any_eq_true]
      rintro ⟨limit, hmem, hlt⟩
      have hle := h limit hmem
      have hlt := of_decide_eq_true hlt
      rw [digitsOf, Int.natAbs_natCast] at hlt
      omega
    rw [dumps, intText, if_neg hdigits, signed, if_neg (by simp)]
    rfl
  read := readsBack_nat h depth
  leaf := .int n
  ascii := ascii_digits n

theorem kept_entries (hdigits : ∀ limit ∈ limits.maxDigits, 16 ≤ limit) {frame : Frame}
    (h : frame.Valid) : ∀ e ∈ frame.entries, Kept limits 1 e := by
  have hnumber {name : Str} {n : ℕ} (hn : (n : ℤ) ≤ maxInteger) :
      Kept limits 1 ⟨name, .int n, (Nat.toDigits 10 n).map Char.toNat⟩ := by
    apply kept_nat
    intro limit hlimit
    have hlength := length_index hn
    have hle := hdigits limit hlimit
    omega
  intro e he
  simp only [Frame.entries, List.mem_cons, List.not_mem_nil, or_false] at he
  rcases he with rfl | rfl | rfl | rfl | rfl | rfl
  · exact hnumber (n := 2) (by decide)
  · exact kept_string (plain_uuid h.session).1.scalar
  · exact kept_string (plain_mode h.mode).1.scalar
  · exact kept_string (plain_direction h.direction).1.scalar
  · exact hnumber h.index
  · exact kept_string (plain_encoded frame.body).scalar

def Frame.spelled (frame : Frame) : Str := objectText ⟨true, true⟩ frame.entries

theorem length_quoted_plain {s : Str} (h : Plain s) :
    (quoted ⟨true, true⟩ s).length = s.length + 2 := by
  rw [quoted_plain h, List.length_append, List.length_append, List.length_singleton]
  omega

theorem length_spelled {frame : Frame} (h : frame.Valid) :
    frame.spelled.length = 73 + frame.sessionId.length + frame.mode.length +
      frame.direction.length + (Nat.toDigits 10 frame.index).length +
      (urlsafeB64encode frame.body).length := by
  have hnames : (quoted ⟨true, true⟩ (text "version")).length = 9 ∧
      (quoted ⟨true, true⟩ (text "session_id")).length = 12 ∧
      (quoted ⟨true, true⟩ (text "mode")).length = 6 ∧
      (quoted ⟨true, true⟩ (text "direction")).length = 11 ∧
      (quoted ⟨true, true⟩ (text "index")).length = 7 ∧
      (quoted ⟨true, true⟩ (text "body")).length = 6 := by
    decide
  obtain ⟨hversion, hsession, hmode, hdirection, hindex, hbody⟩ := hnames
  have hsession' := length_quoted_plain (plain_uuid h.session).1
  have hmode' := length_quoted_plain (plain_mode h.mode).1
  have hdirection' := length_quoted_plain (plain_direction h.direction).1
  have hbody' := length_quoted_plain (plain_encoded frame.body)
  have htwo : (Nat.toDigits 10 2).length = 1 := rfl
  simp only [Frame.spelled, Frame.entries, objectText, membersText_cons_cons, membersText_singleton,
    Entry.text, List.length_append, List.length_cons, List.length_nil, List.length_map, hversion,
    hsession, hmode, hdirection, hindex, hbody, hsession', hmode', hdirection', hbody', htwo]
  omega

theorem length_spelled_le {frame : Frame} (h : frame.Valid) : frame.spelled.length ≤ maxFrame := by
  have hlength := length_spelled h
  have hsession := (plain_uuid h.session).2
  have hmode := (plain_mode h.mode).2
  have hdirection := (plain_direction h.direction).2
  have hindex := length_index h.index
  have hbody : (urlsafeB64encode frame.body).length = (4 * frame.body.length + 2) / 3 := by
    rw [urlsafeB64encode, List.length_map, length_sextets]
  have hchunk := h.chunk
  simp only [maxChunk, maxFrame] at hchunk ⊢
  omega

theorem ascii_spelled (hdigits : ∀ limit ∈ limits.maxDigits, 16 ≤ limit) {frame : Frame}
    (h : frame.Valid) : ∀ n ∈ frame.spelled, n < 0x7f :=
  ascii_object rfl (fun e he => (kept_entries hdigits h e he).ascii)

theorem dumpBytes_record (hdigits : ∀ limit ∈ limits.maxDigits, 16 ≤ limit)
    (hnesting : 0 < limits.nesting) {frame : Frame} (h : frame.Valid) :
    dumpBytes limits ⟨true, true⟩ frame.record = .ok (encodeChars (letters frame.spelled)) := by
  have htext : dumps limits ⟨true, true⟩ 0 (.dict (asRecord frame.entries)) = .ok frame.spelled :=
    dumps_object hnesting (fun e he => (kept_entries hdigits h e he).dumped)
  rw [dumpBytes, ← asRecord_entries, htext]
  simp only [encodeUtf8_ascii (ascii_spelled hdigits h)]

theorem ofMembers_members {frame : Frame} (h : frame.Valid) :
    Frame.ofMembers (asRecord frame.entries) = .ok frame := by
  have hkeys : hasKeys frameKeys (asRecord frame.entries) = true := by
    have hstrings : stringKeys (asRecord frame.entries) = some frameKeys := rfl
    rw [hasKeys, hstrings]
    decide
  have hversion : member (asRecord frame.entries) "version" = some (.int 2) := by
    rfl
  have hsession : member (asRecord frame.entries) "session_id" = some (.str frame.sessionId) := by
    rfl
  have hmode : member (asRecord frame.entries) "mode" = some (.str frame.mode) := by
    rfl
  have hdirection : member (asRecord frame.entries) "direction" = some (.str frame.direction) := by
    rfl
  have hindex : member (asRecord frame.entries) "index" = some (.int frame.index) := by
    rfl
  have hbody : member (asRecord frame.entries) "body" =
      some (.str (urlsafeB64encode frame.body)) := by
    rfl
  have hchunk : (1 ≤ frame.body.length && frame.body.length ≤ maxChunk) = true := by
    have hlow := h.nonempty
    have hhigh := h.chunk
    simp [hlow, hhigh]
  simp [Frame.ofMembers, hkeys, hversion, hmode, hsession, hdirection, hindex, hbody, require,
    isVersion, stringMember, h.session, h.mode, h.direction, decodeIndex, h.index,
    decodeBody_encoded h.nonempty, hchunk, bind, Except.bind, pure, Except.pure]

theorem decode_spelled (hdigits : ∀ limit ∈ limits.maxDigits, 16 ≤ limit)
    (hnesting : 0 < limits.nesting) {frame : Frame} (h : frame.Valid) :
    Frame.decode limits (encodeChars (letters frame.spelled)) = .ok frame := by
  have hbytes := length_encodeChars_ascii (ascii_spelled hdigits h)
  have hlength := length_spelled h
  have hsize := length_spelled_le h
  have hkept := kept_entries hdigits h
  have hread : strictText limits (letters frame.spelled) = .ok (asRecord frame.entries) := by
    apply strictText_object rfl hnesting
    · simp [Frame.entries]
    · simp [Frame.entries, maxCollection]
    · rw [names_entries]
      exact nodup_frameKeys
    · exact fun e he => (plain_frameKeys e.name (List.mem_map_of_mem he)).scalar
    · exact fun e he => (hkept e he).read
    · exact fun e he => .inl ⟨(hkept e he).leaf, show 1 ≤ 16 by omega⟩
    · change 1 + 6 ≤ frame.spelled.length
      omega
  rw [Frame.decode, strictJson_encodeChars ⟨by omega, by omega⟩, hread]
  exact ofMembers_members h

theorem encode_valid (hdigits : ∀ limit ∈ limits.maxDigits, 16 ≤ limit)
    (hnesting : 0 < limits.nesting) {frame : Frame} (h : frame.Valid) :
    Frame.encode limits frame = .ok (encodeChars (letters frame.spelled)) := by
  rw [Frame.encode, dumpBytes_record hdigits hnesting h]
  simp only [bind, Except.bind, decode_spelled hdigits hnesting h]
  rfl

theorem valid_of_decode {data : Bytes} {frame : Frame} (h : Frame.decode limits data = .ok frame) :
    frame.Valid := by
  obtain ⟨value, -, h⟩ := Attempt.bind_ok h
  exact (valid_of_members h).1

/-- Every valid frame is encoded into a carrier and decoded again, what is decoded is such a frame,
and no body is accepted in two spellings. The interpreter converts integers of sixteen digits and
reads an object. -/
theorem frames_roundTrip (limits : Limits) (hdigits : ∀ limit ∈ limits.maxDigits, 16 ≤ limit)
    (hnesting : 0 < limits.nesting) :
    (∀ frame : Frame, frame.Valid → ∃ data, Frame.encode limits frame = .ok data ∧
        data.length ≤ maxFrame ∧ Frame.decode limits data = .ok frame) ∧
      (∀ (d : Bytes) (frame : Frame), Frame.decode limits d = .ok frame →
        ∃ data, Frame.encode limits frame = .ok data ∧ Frame.decode limits data = .ok frame) ∧
      ∀ (value value' : Record) (frame frame' : Frame), Frame.ofMembers value = .ok frame →
        Frame.ofMembers value' = .ok frame' → frame.body = frame'.body →
          member value "body" = member value' "body" := by
  have hvalid {frame : Frame} (h : frame.Valid) : ∃ data, Frame.encode limits frame = .ok data ∧
      data.length ≤ maxFrame ∧ Frame.decode limits data = .ok frame := by
    refine ⟨_, encode_valid hdigits hnesting h, ?_, decode_spelled hdigits hnesting h⟩
    rw [length_encodeChars_ascii (ascii_spelled hdigits h)]
    exact length_spelled_le h
  refine ⟨fun frame h => hvalid h, ?_, ?_⟩
  · intro d frame hdecode
    obtain ⟨data, hencode, -, hagain⟩ := hvalid (valid_of_decode hdecode)
    exact ⟨data, hencode, hagain⟩
  · intro value value' frame frame' h h' hbody
    rw [(valid_of_members h).2, (valid_of_members h').2, hbody]

def defaultLimits : Limits := ⟨some 4300, 1000⟩

def helloFrame : Frame :=
  ⟨text "00000000-0000-0000-0000-000000000000", text "pair", text "initiator_to_responder", 0, [22]⟩

theorem frames_roundTrip_hello :
    ∃ data, Frame.encode defaultLimits helloFrame = .ok data ∧ data.length ≤ maxFrame ∧
      Frame.decode defaultLimits data = .ok helloFrame :=
  (frames_roundTrip defaultLimits (by simp [defaultLimits]) (by decide)).1 helloFrame
    ⟨by decide, by decide, by decide, by decide, by decide, by decide⟩

end Frames
end Raticode.Device
