import Raticode.DevicePaging

/-! What a search finds, and where a phone that follows a result arrives in the history. -/
namespace Raticode.Device
open PyDocument Attempt OrderedDict

/-! A text in another. -/
section Find

variable {needle w : Str}

/-- `needle in w`. -/
def occurs (needle w : Str) : Bool := (find needle w).isSome

theorem find_spec {i : ℕ} (h : find needle w = some i) : needle <+: w.drop i := by
  have hfound := List.find?_some h
  exact List.isPrefixOf_iff_prefix.mp hfound

theorem occurs_of_stands {i : ℕ} (hi : i ≤ w.length) (h : needle <+: w.drop i) :
    occurs needle w = true := by
  rw [occurs, find, List.find?_isSome]
  exact ⟨i, List.mem_range.mpr (by omega), List.isPrefixOf_iff_prefix.mpr h⟩

theorem length_of_find {i : ℕ} (h : find needle w = some i) (hne : needle ≠ []) :
    i + needle.length ≤ w.length := by
  have hlength := (find_spec h).length_le
  have hpos := List.length_pos_iff.mpr hne
  rw [List.length_drop] at hlength
  omega

theorem find_le {i j : ℕ} (h : find needle w = some i)
    (hstands : needle <+: w.drop j) : i ≤ j := by
  rw [find, List.find?_range_eq_some] at h
  by_contra hlt
  have hno := h.2.2 j (by omega)
  rw [Bool.not_eq_true', List.isPrefixOf_iff_prefix.mpr hstands] at hno
  cases hno

end Find

/-! Results and parts. -/
section Results

variable {Y : Type}

/-- The payload of a `thread.search.request`. -/
def searchRequest (query : Str) (offset : ℕ) : Record :=
  [(.str (text "query"), .str query), (.str (text "offset"), .int offset)]

def resultsOf (page : Record) : List Value :=
  match getValue page "results" with
  | .list items => items
  | _ => []

def textOf (part : Str × Record) : Str :=
  match getValue part.2 "text" with
  | .str text => text
  | _ => []

def partOf (d : Desk Y) (m : Message) (i : ℕ) : Str × Record :=
  (m.partId d (4000 * i), [(.str (text "id"), .str (m.partId d (4000 * i))),
    (.str (text "role"), .str m.role), (.str (text "text"), .str ((m.body.drop (4000 * i)).take 4000))])

/-- A page of the history has the part. -/
def Sent (d : Desk Y) (messages : List Message) (part : Value) : Prop :=
  ∃ limit before : ℕ, part ∈ messagesOf (historyBefore d [] false messages limit (.int before))

/-- An id is that of a part that the history sends, and there, or across the cut to the next part,
stands the text that was searched. -/
def PointsAt (d : Desk Y) (needle : Str) (messages : List Message) (id : Str) : Prop :=
  ∃ m ∈ messages, m.isHidden = false ∧ ∃ i part, (m.parts d false)[i]? = some part ∧ part.1 = id ∧
    Sent d messages (.dict part.2) ∧
    (occurs needle (d.normalize (textOf part)) = true ∨
      ∃ next, (m.parts d false)[i + 1]? = some next ∧ Sent d messages (.dict next.2) ∧
        occurs needle (d.normalize (textOf part ++ textOf next)) = true)

def Points (d : Desk Y) (s : Store (Workspace Y)) (peer query : Str) : Prop :=
  ∀ offset : ℕ, ∀ result : Record,
    .dict result ∈ resultsOf (s.search d peer (searchRequest query offset)) →
    ∀ thread id, getValue result "thread_id" = .str thread → getValue result "message_id" = .str id →
      PointsAt d (Store.needle d (searchRequest query offset)) (s.messages d peer thread false none) id

def placeOf (d : Desk Y) (needle : Str) (m : Message) : ℕ :=
  (find needle (d.normalize m.body)).getD 0 / 4000

def partSize (d : Desk Y) (m : Message) (i : ℕ) : ℕ := d.encodedSize (.dict (partOf d m i).2)

/-- The text goes over the cut behind the part in which it starts. -/
def Crosses (d : Desk Y) (needle : Str) (m : Message) : Prop :=
  4000 < (find needle (d.normalize m.body)).getD 0 % 4000 + needle.length

instance (d : Desk Y) (needle : Str) (m : Message) : Decidable (Crosses d needle m) :=
  inferInstanceAs (Decidable (_ < _))

/-- The message is shown and the parts that the text is in are small enough for a page. -/
structure Reachable (d : Desk Y) (needle : Str) (m : Message) : Prop where
  shown : m.isHidden = false
  small : partSize d m (placeOf d needle m) ≤ pageBytes
  next : Crosses d needle m → 4000 * (placeOf d needle m + 1) < max 1 m.body.length →
    partSize d m (placeOf d needle m + 1) ≤ pageBytes

/-- Normalising moves nothing of the body up to the end of the text: the body reaches to the part that
is counted in the normalised body, and normalising its characters from there on gives what the
normalised body has from there on. -/
structure Unmoved (d : Desk Y) (needle : Str) (m : Message) : Prop where
  within : 4000 * placeOf d needle m < max 1 m.body.length
  kept : ((d.normalize m.body).drop (4000 * placeOf d needle m)).take
      ((find needle (d.normalize m.body)).getD 0 % 4000 + needle.length) <+:
    d.normalize ((m.body.drop (4000 * placeOf d needle m)).take
      (if Crosses d needle m then 8000 else 4000))

/-- No two parts of a conversation have one id: the messages have different ids, and `uuid5` gives
different names different ids. -/
def DistinctParts (d : Desk Y) (messages : List Message) : Prop :=
  ∀ m ∈ messages, ∀ m' ∈ messages, ∀ i j : ℕ,
    m.partId d (4000 * i) = m'.partId d (4000 * j) → m = m' ∧ i = j

def Letterwise (d : Desk Y) (body : Str) : Prop :=
  ∀ a b, d.normalize ((body.drop a).take b) = ((d.normalize body).drop a).take b

variable {d : Desk Y} {needle : Str} {m : Message}

theorem getElem?_parts {i : ℕ} {part : Str × Record} :
    (m.parts d false)[i]? = some part ↔ 4000 * i < max 1 m.body.length ∧
      part = partOf d m i := by
  rw [Message.parts, List.getElem?_map, Option.map_eq_some_iff]
  constructor
  · rintro ⟨j, hj, rfl⟩
    obtain ⟨hlt, rfl⟩ := List.getElem?_eq_some_iff.mp hj
    rw [List.length_range] at hlt
    rw [List.getElem_range]
    exact ⟨by omega, rfl⟩
  · rintro ⟨hwithin, rfl⟩
    refine ⟨i, ?_, rfl⟩
    rw [List.getElem?_range (by omega)]

theorem textOf_partOf (i : ℕ) : textOf (partOf d m i) = (m.body.drop (4000 * i)).take 4000 := rfl

theorem drop_take_append (w : Str) (i : ℕ) :
    (w.drop (4000 * i)).take 4000 ++ (w.drop (4000 * (i + 1))).take 4000 =
      (w.drop (4000 * i)).take 8000 := by
  have hshift : w.drop (4000 * (i + 1)) = (w.drop (4000 * i)).drop 4000 := by
    rw [List.drop_drop]
    congr 1
  rw [hshift, ← List.take_add]

variable {messages : List Message}

/-- A part of the history is on a page exactly if a page has room for it. -/
theorem sent_iff {part : Value} (hpart : part ∈ shownParts d false messages) :
    Sent d messages part ↔ d.encodedSize part ≤ pageBytes := by
  constructor
  · rintro ⟨limit, before, hmem⟩
    have hpage : Page d false messages limit (min before (shownParts d false messages).length)
        (historyBefore d [] false messages limit (.int before)) := by
      apply page_of_end
      intro parts hlength
      rw [pageEnd_int, hlength]
    rw [hpage.messages] at hmem
    obtain ⟨i, hi, rfl⟩ := List.getElem_of_mem hmem
    rw [List.length_drop, List.length_take] at hi
    by_contra hlarge
    have hbefore : startOfPage d false messages limit (min before (shownParts d false messages).length) + i <
        startOfPage d false messages limit (min before (shownParts d false messages).length) := by
      refine lt_pageStart ?_ (by omega) 0 0
      rw [List.getElem_drop, List.getElem_take] at hlarge
      rw [List.getD_eq_getElem?_getD, List.getElem?_map, List.getElem?_eq_getElem (by omega)]
      simpa using hlarge
    omega
  · intro hfits
    obtain ⟨i, hi, rfl⟩ := List.getElem_of_mem hpart
    refine ⟨1, i + 1, ?_⟩
    have hstart : startOfPage d false messages 1 (i + 1) < i + 1 := by
      apply pageStart_lt le_rfl
      rw [List.getD_eq_getElem?_getD, List.getElem?_map, List.getElem?_eq_getElem hi]
      exact hfits
    have hpage : Page d false messages 1 (i + 1)
        (historyBefore d [] false messages 1 (.int (i + 1 : ℕ))) := page_int (by omega)
    rw [hpage.messages]
    refine List.mem_iff_getElem.mpr ⟨i - startOfPage d false messages 1 (i + 1), ?_, ?_⟩
    · rw [List.length_drop, List.length_take]
      omega
    · rw [List.getElem_drop, List.getElem_take]
      congr 1
      omega

theorem sent_partOf_iff {i : ℕ} (hm : m ∈ messages) (hshown : m.isHidden = false)
    (hwithin : 4000 * i < max 1 m.body.length) :
    Sent d messages (.dict (partOf d m i).2) ↔ partSize d m i ≤ pageBytes := by
  apply sent_iff
  refine List.mem_map.mpr ⟨partOf d m i, List.mem_flatMap.mpr ⟨m, ?_, ?_⟩, rfl⟩
  · exact List.mem_filter.mpr ⟨hm, by simp [hshown]⟩
  · exact List.mem_of_getElem? (getElem?_parts.mpr ⟨hwithin, rfl⟩)

theorem pointsAt_of_unmoved (hm : m ∈ messages) (hfound : (find needle (d.normalize m.body)).isSome = true)
    (h : Reachable d needle m) (hplace : Unmoved d needle m) :
    PointsAt d needle messages (m.partId d (4000 * placeOf d needle m)) := by
  obtain ⟨position, hposition⟩ := Option.isSome_iff_exists.mp hfound
  have hat : placeOf d needle m = position / 4000 := by
    rw [placeOf, hposition]
    rfl
  -- The text stands in the piece from the part on.
  have hpiece : occurs needle (d.normalize ((m.body.drop (4000 * placeOf d needle m)).take
      (if Crosses d needle m then 8000 else 4000))) = true := by
    have hstretch : needle <+: (((d.normalize m.body).drop (4000 * placeOf d needle m)).take
        (position % 4000 + needle.length)).drop (position % 4000) := by
      rw [List.drop_take, List.drop_drop, hat, Nat.div_add_mod, Nat.add_sub_cancel_left]
      exact List.prefix_take_iff.mpr ⟨find_spec hposition, le_rfl⟩
    obtain ⟨rest, hrest⟩ := hplace.kept
    rw [hposition, Option.getD_some] at hrest
    rw [← hrest]
    have hle : position % 4000 ≤ (((d.normalize m.body).drop (4000 * placeOf d needle m)).take
        (position % 4000 + needle.length)).length := by
      by_contra hshort
      rw [List.drop_eq_nil_of_le (by omega)] at hstretch
      have hnil := List.prefix_nil.mp hstretch
      have hroom : position ≤ (d.normalize m.body).length := by
        rw [find, List.find?_range_eq_some] at hposition
        have := hposition.2.1
        rw [List.mem_range] at this
        omega
      rw [List.length_take, List.length_drop, hat, hnil, List.length_nil] at hshort
      omega
    refine occurs_of_stands (i := position % 4000) (by rw [List.length_append]; omega) ?_
    rw [List.drop_append_of_le_length hle]
    exact hstretch.trans (List.prefix_append _ _)
  refine ⟨m, hm, h.shown, placeOf d needle m, _, getElem?_parts.mpr ⟨hplace.within, rfl⟩, rfl,
    (sent_partOf_iff hm h.shown hplace.within).mpr h.small, ?_⟩
  rw [textOf_partOf]
  by_cases hcross : Crosses d needle m
  · rw [if_pos hcross] at hpiece
    by_cases hmore : 4000 * (placeOf d needle m + 1) < max 1 m.body.length
    · refine .inr ⟨_, getElem?_parts.mpr ⟨hmore, rfl⟩,
        (sent_partOf_iff hm h.shown hmore).mpr (h.next hcross hmore), ?_⟩
      rw [textOf_partOf, drop_take_append]
      exact hpiece
    · -- The part is the last one, and the piece ends with it.
      left
      have hshort : (m.body.drop (4000 * placeOf d needle m)).length ≤ 4000 := by
        rw [List.length_drop]
        omega
      rw [List.take_of_length_le (by omega)] at hpiece
      rw [List.take_of_length_le hshort]
      exact hpiece
  · rw [if_neg hcross] at hpiece
    exact .inl hpiece

theorem part_of_pointsAt (hdistinct : DistinctParts d messages) (hm : m ∈ messages)
    (h : PointsAt d needle messages (m.partId d (4000 * placeOf d needle m))) :
    m.isHidden = false ∧ 4000 * placeOf d needle m < max 1 m.body.length ∧
      partSize d m (placeOf d needle m) ≤ pageBytes ∧
      (occurs needle (d.normalize ((m.body.drop (4000 * placeOf d needle m)).take 4000)) = true ∨
        4000 * (placeOf d needle m + 1) < max 1 m.body.length ∧
          partSize d m (placeOf d needle m + 1) ≤ pageBytes) := by
  obtain ⟨m', hm', hshown, i, part, hpart, hid, hsent, hthere⟩ := h
  obtain ⟨hwithin, rfl⟩ := getElem?_parts.mp hpart
  obtain ⟨rfl, rfl⟩ := hdistinct m' hm' m hm i (placeOf d needle m) hid
  refine ⟨hshown, hwithin, (sent_partOf_iff hm hshown hwithin).mp hsent, ?_⟩
  rcases hthere with hhere | ⟨next, hnext, hnextsent, -⟩
  · exact .inl hhere
  · obtain ⟨hmore, rfl⟩ := getElem?_parts.mp hnext
    exact .inr ⟨hmore, (sent_partOf_iff hm hshown hmore).mp hnextsent⟩

theorem length_of_letterwise (h : Letterwise d m.body) :
    (d.normalize m.body).length ≤ m.body.length := by
  have hempty := h m.body.length 0
  have hrest := h m.body.length (d.normalize m.body).length
  rw [List.drop_length, List.take_nil, List.take_zero] at hempty
  rw [List.drop_length, List.take_nil, hempty] at hrest
  have hnone := congrArg List.length hrest
  rw [List.length_take, List.length_drop, List.length_nil] at hnone
  omega

theorem unmoved_of_letterwise (h : Letterwise d m.body) (hne : needle ≠ []) (hlength : needle.length ≤ 4000)
    (hfound : (find needle (d.normalize m.body)).isSome = true) : Unmoved d needle m := by
  obtain ⟨position, hposition⟩ := Option.isSome_iff_exists.mp hfound
  have hroom := length_of_find hposition hne
  have hsize := length_of_letterwise h
  have hpos := List.length_pos_iff.mpr hne
  constructor
  · rw [placeOf, hposition, Option.getD_some]
    omega
  · rw [h]
    apply List.take_prefix_take_left
    have hcross : Crosses d needle m ↔ 4000 < position % 4000 + needle.length := by
      rw [Crosses, hposition, Option.getD_some]
    rw [hposition, Option.getD_some]
    split_ifs with h <;> rw [hcross] at h <;> omega

theorem reachable_of_pointsAt (h : Letterwise d m.body) (hne : needle ≠ [])
    (hfound : (find needle (d.normalize m.body)).isSome = true) (hdistinct : DistinctParts d messages)
    (hm : m ∈ messages)
    (hpoints : PointsAt d needle messages (m.partId d (4000 * placeOf d needle m))) :
    Reachable d needle m := by
  obtain ⟨hshown, hwithin, hsmall, hthere⟩ := part_of_pointsAt hdistinct hm hpoints
  refine ⟨hshown, hsmall, fun hcross hmore => ?_⟩
  rcases hthere with hhere | ⟨-, hnext⟩
  · -- A text that stands in the part would have been found there first.
    exfalso
    obtain ⟨position, hposition⟩ := Option.isSome_iff_exists.mp hfound
    obtain ⟨i, hi⟩ := Option.isSome_iff_exists.mp hhere
    have hroom := length_of_find hi hne
    have hstands := find_spec hi
    rw [h, List.drop_take, List.drop_drop] at hstands
    rw [h, List.length_take, List.length_drop] at hroom
    rw [placeOf, hposition, Option.getD_some] at hstands hroom
    rw [Crosses, hposition, Option.getD_some] at hcross
    have hpos := List.length_pos_iff.mpr hne
    have hfirst := find_le hposition (hstands.trans (List.take_prefix _ _))
    omega
  · exact hnext

end Results

/-! The results of a conversation on the pages. -/
section Search

variable {Y : Type} {d : Desk Y} {s : Store (Workspace Y)} {peer query : Str}

def needleOf (d : Desk Y) (query : Str) : Str := Store.needle d (searchRequest query 0)

/-- The first messages with the text, of the conversations of the phone, have a property. An empty
text is not looked for. -/
def EachFound (d : Desk Y) (s : Store (Workspace Y)) (peer query : Str)
    (P : List Message → Message → Prop) : Prop :=
  needleOf d query ≠ [] → ∀ g ∈ s.grantsOf peer, ∀ m,
    Store.firstMatch d (needleOf d query) (s.messages d peer g.thread false none) = some m →
      P (s.messages d peer g.thread false none) m

def foundIn (d : Desk Y) (s : Store (Workspace Y)) (peer query : Str) : List (Str × Record) :=
  if needleOf d query = [] then [] else (s.grantsOf peer).filterMap (fun g =>
    (s.threadMatch d peer (needleOf d query) g).map (fun found => (s.updatedAt d peer g.thread, found)))

theorem resultsOf_search (offset : ℕ) :
    resultsOf (s.search d peer (searchRequest query offset)) =
      ((((foundIn d s peer query).mergeSort (fun a b => decide (b.1 ≤ a.1))).drop offset).take 30).map
        (fun p => .dict p.2) := rfl

theorem mem_foundIn {p : Str × Record} : p ∈ foundIn d s peer query ↔ needleOf d query ≠ [] ∧
    ∃ g ∈ s.grantsOf peer, ∃ found, s.threadMatch d peer (needleOf d query) g = some found ∧
      (s.updatedAt d peer g.thread, found) = p := by
  rw [foundIn]
  by_cases hempty : needleOf d query = []
  · simp [hempty]
  · simp [hempty]

theorem threadMatch_of_result {offset : ℕ} {result : Record}
    (h : .dict result ∈ resultsOf (s.search d peer (searchRequest query offset))) :
    needleOf d query ≠ [] ∧
      ∃ g ∈ s.grantsOf peer, s.threadMatch d peer (needleOf d query) g = some result := by
  rw [resultsOf_search] at h
  obtain ⟨p, hp, hresult⟩ := List.mem_map.mp h
  have hfound := List.mem_mergeSort.mp (List.mem_of_mem_drop (List.mem_of_mem_take hp))
  obtain ⟨hneedle, g, hg, found, hmatch, rfl⟩ := mem_foundIn.mp hfound
  cases hresult
  exact ⟨hneedle, g, hg, hmatch⟩

theorem result_of_threadMatch {g : Grant} {result : Record} (hneedle : needleOf d query ≠ [])
    (hg : g ∈ s.grantsOf peer) (h : s.threadMatch d peer (needleOf d query) g = some result) :
    ∃ offset, .dict result ∈ resultsOf (s.search d peer (searchRequest query offset)) := by
  have hfound : (s.updatedAt d peer g.thread, result) ∈
      (foundIn d s peer query).mergeSort (fun a b => decide (b.1 ≤ a.1)) :=
    List.mem_mergeSort.mpr (mem_foundIn.mpr ⟨hneedle, g, hg, result, h, rfl⟩)
  obtain ⟨i, hi, hat⟩ := List.getElem_of_mem hfound
  refine ⟨i, ?_⟩
  rw [resultsOf_search]
  refine List.mem_map.mpr ⟨(s.updatedAt d peer g.thread, result), ?_, rfl⟩
  rw [List.drop_eq_getElem_cons hi, hat, List.take_succ_cons]
  exact List.mem_cons_self

theorem threadMatch_message {g : Grant} {m : Message}
    (h : Store.firstMatch d (needleOf d query) (s.messages d peer g.thread false none) = some m) :
    ∃ title, s.threadMatch d peer (needleOf d query) g =
      some (Store.messageMatch d g.thread (needleOf d query) title m) := by
  rw [Store.threadMatch, h]
  exact ⟨_, rfl⟩

theorem message_of_threadMatch {g : Grant} {result : Record} {thread id : Str}
    (h : s.threadMatch d peer (needleOf d query) g = some result)
    (hthread : getValue result "thread_id" = .str thread)
    (hid : getValue result "message_id" = .str id) :
    thread = g.thread ∧ ∃ m,
      Store.firstMatch d (needleOf d query) (s.messages d peer g.thread false none) = some m ∧
        id = m.partId d (4000 * placeOf d (needleOf d query) m) := by
  rw [Store.threadMatch] at h
  cases hfirst : Store.firstMatch d (needleOf d query) (s.messages d peer g.thread false none) with
  | some m =>
    rw [hfirst] at h
    cases h
    cases hthread
    cases hid
    refine ⟨rfl, m, rfl, ?_⟩
    rw [Nat.mul_comm]
    rfl
  | none =>
    rw [hfirst] at h
    simp only at h
    split at h
    all_goals
      split at h
      · cases h
        cases hid
      · cases h

theorem isSome_of_firstMatch {needle : Str} {messages : List Message} {m : Message}
    (h : Store.firstMatch d needle messages = some m) : (find needle (d.normalize m.body)).isSome = true := by
  have hfound := List.find?_some h
  exact hfound

theorem points_iff_eachFound : Points d s peer query ↔ EachFound d s peer query (fun messages m =>
    PointsAt d (needleOf d query) messages (m.partId d (4000 * placeOf d (needleOf d query) m))) := by
  constructor
  · intro hpoints hneedle g hg m hfirst
    obtain ⟨title, hmatch⟩ := threadMatch_message hfirst
    obtain ⟨offset, hresult⟩ := result_of_threadMatch hneedle hg hmatch
    have hat := hpoints offset _ hresult g.thread _ rfl rfl
    rw [Nat.mul_comm]
    exact hat
  · intro h offset result hresult thread id hthread hid
    obtain ⟨hneedle, g, hg, hmatch⟩ := threadMatch_of_result hresult
    obtain ⟨rfl, m, hfirst, rfl⟩ := message_of_threadMatch hmatch hthread hid
    exact h hneedle g hg m hfirst

end Search
end Raticode.Device
