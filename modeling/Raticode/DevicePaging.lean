import Raticode.DeviceHidden

/-! A phone reads the history of a conversation page by page, from its end: it asks again with the
`before` of the last page for as long as there is more. -/
namespace Raticode.Device
open PyDocument Attempt OrderedDict

/-! Pages that are read until there is no more. -/
section Paging

/-- The payload of a `thread.history.request`. -/
def pageRequest (limit : ℕ) (before : Value) : Record :=
  [(.str (text "before"), before), (.str (text "limit"), .int limit)]

def messagesOf (page : Record) : List Value :=
  match getValue page "messages" with
  | .list items => items
  | _ => []

def hasMore (page : Record) : Bool := isTrue (getValue page "has_more")

/-- The pages that are read from a `before` on, up to one that has no more. -/
inductive Paging (page : Value → Record) : Value → List Record → Prop
  | last {before : Value} (h : hasMore (page before) = false) : Paging page before [page before]
  | more {before : Value} {rest : List Record} (h : hasMore (page before) = true)
      (h' : Paging page (getValue (page before) "before") rest) :
      Paging page before (page before :: rest)

structure ReadsAll (page : Value → Record) (parts : List Value) (pages : List Record) : Prop where
  ends : Paging page .null pages
  nonempty : ∀ p ∈ pages, hasMore p = true → messagesOf p ≠ []
  joined : pages.reverse.flatMap messagesOf = parts

end Paging

/-! Where a page starts. -/
section Start

variable {sizes : List ℕ} {limit : ℕ}

theorem pageStart_le (sizes : List ℕ) (limit stop used taken : ℕ) :
    Store.pageStart sizes limit stop used taken ≤ stop := by
  induction stop generalizing used taken with
  | zero =>
    rw [Store.pageStart]
  | succ start ih =>
    rw [Store.pageStart]
    split
    · exact le_refl _
    · simp only
      split
      · exact le_refl _
      · have hle := ih (used + sizes.getD start 0) (taken + 1)
        omega

theorem pageStart_lt (hlimit : 1 ≤ limit) {start : ℕ} (hfits : sizes.getD start 0 ≤ pageBytes) :
    Store.pageStart sizes limit (start + 1) 0 0 < start + 1 := by
  have hleft : ¬ limit ≤ 0 := by omega
  have hroom : ¬ pageBytes < 0 + sizes.getD start 0 := by omega
  rw [Store.pageStart, if_neg hleft]
  simp only [if_neg hroom]
  have hle := pageStart_le sizes limit start (0 + sizes.getD start 0) (0 + 1)
  omega

theorem lt_pageStart {i : ℕ} (hlarge : pageBytes < sizes.getD i 0) {stop : ℕ} (h : i < stop)
    (used taken : ℕ) : i < Store.pageStart sizes limit stop used taken := by
  induction stop generalizing used taken with
  | zero => omega
  | succ start ih =>
    rw [Store.pageStart]
    split
    · exact h
    · simp only
      split
      · exact h
      · next hroom =>
        have hne : start ≠ i := by
          rintro rfl
          omega
        exact ih (by omega) _ _

end Start

/-! The history. -/
section History

variable {Y : Type} {d : Desk Y} {context : Record} {rich : Bool} {history : List Message}
  {limit : ℕ}

def shownParts (d : Desk Y) (rich : Bool) (history : List Message) : List Value :=
  ((history.filter (fun m => !m.isHidden)).flatMap (Message.parts d rich)).map (fun p => .dict p.2)

def historyBefore (d : Desk Y) (context : Record) (rich : Bool) (history : List Message)
    (limit : ℕ) (before : Value) : Record :=
  Store.historyPage d (pageRequest limit before) context rich history

def startOfPage (d : Desk Y) (rich : Bool) (history : List Message) (limit stop : ℕ) : ℕ :=
  Store.pageStart ((shownParts d rich history).map d.encodedSize) limit stop 0 0

theorem pageLimit_pageRequest (limit : ℕ) (before : Value) :
    Store.pageLimit (pageRequest limit before) = limit := rfl

theorem pageEnd_null (parts : List (Str × Record)) :
    Store.pageEnd (pageRequest limit .null) parts = parts.length := rfl

theorem pageEnd_int (stop : ℕ) (parts : List (Str × Record)) :
    Store.pageEnd (pageRequest limit (.int stop)) parts = min stop parts.length := rfl

/-- A page that ends behind the first `stop` parts. -/
structure Page (d : Desk Y) (rich : Bool) (history : List Message) (limit stop : ℕ)
    (page : Record) : Prop where
  messages : messagesOf page =
    ((shownParts d rich history).take stop).drop (startOfPage d rich history limit stop)
  before : getValue page "before" = .int (startOfPage d rich history limit stop)
  more : hasMore page = decide (0 < startOfPage d rich history limit stop)

theorem page_of_end {before : Value} {stop : ℕ}
    (h : ∀ parts : List (Str × Record), parts.length = (shownParts d rich history).length →
      Store.pageEnd (pageRequest limit before) parts = stop) :
    Page d rich history limit stop (historyBefore d context rich history limit before) := by
  have hend := h ((history.filter (fun m => !m.isHidden)).flatMap (Message.parts d rich))
    (by rw [shownParts, List.length_map])
  have hstart : Store.pageStart
      (((history.filter (fun m => !m.isHidden)).flatMap (Message.parts d rich)).map
        (fun p => d.encodedSize (.dict p.2))) limit stop 0 0 = startOfPage d rich history limit stop := by
    rw [startOfPage, shownParts, List.map_map]
    rfl
  have hpage : historyBefore d context rich history limit before =
      [(.str (text "messages"), .list (((shownParts d rich history).take stop).drop
          (startOfPage d rich history limit stop))),
        (.str (text "before"), .int (startOfPage d rich history limit stop)),
        (.str (text "has_more"), .bool (0 < startOfPage d rich history limit stop))] ++
      ((if rich then [(.str (text "total"), .int (shownParts d rich history).length)] else []) ++
      if rich && isTruthy (getValue context "desktop_parity") then
        [(.str (text "resources"), .list ((d.resourceOptions context).map Value.dict)),
          (.str (text "resource_ids"), Store.enabledResources d context)] else []) := by
    rw [historyBefore, Store.historyPage]
    simp only [hend, pageLimit_pageRequest, hstart]
    rw [shownParts, List.length_map, ← List.map_take, ← List.map_drop, List.append_assoc]
  rw [hpage]
  exact ⟨rfl, rfl, rfl⟩

theorem page_null : Page d rich history limit (shownParts d rich history).length
    (historyBefore d context rich history limit .null) := by
  apply page_of_end
  intro parts hlength
  rw [pageEnd_null, hlength]

theorem page_int {stop : ℕ} (h : stop ≤ (shownParts d rich history).length) :
    Page d rich history limit stop (historyBefore d context rich history limit (.int stop)) := by
  apply page_of_end
  intro parts hlength
  rw [pageEnd_int, hlength]
  omega

theorem readsAll_from (hlimit : 1 ≤ limit)
    (hfits : ∀ part ∈ shownParts d rich history, d.encodedSize part ≤ pageBytes) {stop : ℕ}
    (hstop : stop ≤ (shownParts d rich history).length) {before : Value}
    (hpage : Page d rich history limit stop (historyBefore d context rich history limit before)) :
    ∃ pages, Paging (historyBefore d context rich history limit) before pages ∧
      (∀ p ∈ pages, hasMore p = true → messagesOf p ≠ []) ∧
      pages.reverse.flatMap messagesOf = (shownParts d rich history).take stop := by
  induction stop using Nat.strong_induction_on generalizing before with
  | _ stop ih =>
    set start := startOfPage d rich history limit stop with hstart
    have hle : start ≤ stop := pageStart_le _ _ _ _ _
    by_cases hfirst : start = 0
    · have hlast : hasMore (historyBefore d context rich history limit before) = false := by
        rw [hpage.more, ← hstart]
        simp [hfirst]
      refine ⟨_, .last hlast, ?_, ?_⟩
      · intro p hp hmore
        rw [List.mem_singleton.mp hp, hlast] at hmore
        cases hmore
      · simp only [List.reverse_singleton, List.flatMap_singleton, hpage.messages, ← hstart, hfirst,
          List.drop_zero]
    · -- The page takes at least the part at its end, so the next one ends earlier.
      obtain ⟨k, rfl⟩ : ∃ k, stop = k + 1 := ⟨stop - 1, by omega⟩
      have hlt : start < k + 1 := by
        apply pageStart_lt hlimit
        rw [List.getD_eq_getElem?_getD, List.getElem?_map, List.getElem?_eq_getElem (by omega)]
        exact hfits _ (List.getElem_mem _)
      have hmore : hasMore (historyBefore d context rich history limit before) = true := by
        rw [hpage.more, ← hstart]
        simp only [decide_eq_true_eq]
        omega
      obtain ⟨rest, hends, hnonempty, hjoined⟩ := ih start hlt (by omega)
        (page_int (by omega))
      refine ⟨_, .more hmore (hpage.before ▸ hends), ?_, ?_⟩
      · intro p hp hp'
        rcases List.mem_cons.mp hp with rfl | hp
        · rw [hpage.messages, ← hstart]
          intro hnil
          have hlength := congrArg List.length hnil
          rw [List.length_drop, List.length_take, List.length_nil] at hlength
          omega
        · exact hnonempty p hp hp'
      · rw [List.reverse_cons, List.flatMap_append, hjoined, List.flatMap_singleton, hpage.messages,
          ← hstart]
        calc (shownParts d rich history).take start ++
              ((shownParts d rich history).take (k + 1)).drop start
            = ((shownParts d rich history).take (k + 1)).take start ++
              ((shownParts d rich history).take (k + 1)).drop start := by
                rw [List.take_take, Nat.min_eq_left hle]
          _ = (shownParts d rich history).take (k + 1) := List.take_append_drop _ _

theorem not_paging_of_large {i : ℕ}
    (hlarge : pageBytes < ((shownParts d rich history).map d.encodedSize).getD i 0) {before : Value}
    {pages : List Record}
    (h : Paging (historyBefore d context rich history limit) before pages) {stop : ℕ}
    (hstop : stop ≤ (shownParts d rich history).length) (hbehind : i < stop)
    (hpage : Page d rich history limit stop (historyBefore d context rich history limit before)) :
    False := by
  induction h generalizing stop with
  | last hlast =>
    have hstart : i < startOfPage d rich history limit stop := lt_pageStart hlarge hbehind 0 0
    rw [hpage.more, decide_eq_false_iff_not] at hlast
    omega
  | more hmore hrest ih =>
    have hstart : i < startOfPage d rich history limit stop := lt_pageStart hlarge hbehind 0 0
    have hle : startOfPage d rich history limit stop ≤ stop := pageStart_le _ _ _ _ _
    have hbound : startOfPage d rich history limit stop ≤ (shownParts d rich history).length := by
      omega
    apply ih hbound hstart
    rw [hpage.before]
    exact page_int hbound

theorem not_readsAll_of_large {part : Value} (hpart : part ∈ shownParts d rich history)
    (hlarge : pageBytes < d.encodedSize part) (pages : List Record) :
    ¬ ReadsAll (historyBefore d context rich history limit) (shownParts d rich history) pages := by
  intro hreads
  obtain ⟨i, hi, rfl⟩ := List.getElem_of_mem hpart
  apply not_paging_of_large _ hreads.ends le_rfl hi page_null
  rw [List.getD_eq_getElem?_getD, List.getElem?_map, List.getElem?_eq_getElem hi]
  exact hlarge

/-- The history is read to its beginning exactly if none of its parts is larger than a page. -/
theorem history_read_iff (d : Desk Y) (context : Record) (rich : Bool) (history : List Message)
    {limit : ℕ} (hlimit : 1 ≤ limit) :
    (∃ pages, ReadsAll (historyBefore d context rich history limit) (shownParts d rich history)
        pages) ↔
      ∀ part ∈ shownParts d rich history, d.encodedSize part ≤ pageBytes := by
  constructor
  · rintro ⟨pages, hreads⟩ part hpart
    by_contra hlarge
    exact not_readsAll_of_large hpart (by omega) pages hreads
  · intro hfits
    have hnewest : Page d rich history limit (shownParts d rich history).length
        (historyBefore d context rich history limit .null) := page_null
    obtain ⟨pages, hends, hnonempty, hjoined⟩ := readsAll_from hlimit hfits le_rfl hnewest
    rw [List.take_length] at hjoined
    exact ⟨pages, hends, hnonempty, hjoined⟩

end History

/-! Sizes of JSON texts. -/
section Sizes

mutual
/-- `len(json.dumps(value).encode())`, whose separators are followed by a blank. -/
def dumpedSize : Value → ℕ
  | .null => 4
  | .bool b => (boolText b).length
  | .int z => (signed (z < 0) (digitsOf z.natAbs)).length
  | .float x => match floatText ⟨true, true⟩ x with
    | .ok w => w.length
    | .error _ => 0
  | .str s => (quoted ⟨true, true⟩ s).length
  | .list items => max 2 (dumpedItems items)
  | .dict members => max 2 (dumpedMembers members)
  | .other => 0

def dumpedItems : List Value → ℕ
  | [] => 0
  | item :: items => dumpedSize item + 2 + dumpedItems items

def dumpedMembers : List (Key × Value) → ℕ
  | [] => 0
  | (key, value) :: members =>
    (match keyText ⟨none, 1⟩ ⟨true, true⟩ key with
      | .ok name => name.length
      | .error _ => 0) + 2 + dumpedSize value + 2 + dumpedMembers members
end

def jsonDesk : Desk Unit := { plainDesk with encodedSize := dumpedSize }

/-- A greeting is read in one page. -/
theorem history_read_greeting :
    ∃ pages, ReadsAll (historyBefore jsonDesk [] false [⟨text "m1", text "user", text "hello", []⟩] 40)
      (shownParts jsonDesk false [⟨text "m1", text "user", text "hello", []⟩]) pages := by
  apply (history_read_iff jsonDesk [] false [⟨text "m1", text "user", text "hello", []⟩]
    (by decide : 1 ≤ 40)).mpr
  intro part hpart
  rw [List.mem_singleton.mp hpart]
  decide +kernel

def faces : Message := ⟨text "m1", text "user", List.replicate 4000 0x1f600, []⟩

theorem length_quoted_replicate (style : Style) (n c : ℕ) :
    (quoted style (List.replicate n c)).length = n * (escape style c).length + 2 := by
  have hbody : ((List.replicate n c).flatMap (escape style)).length =
      n * (escape style c).length := by
    rw [List.length_flatMap, List.map_replicate, List.sum_replicate_nat]
  rw [quoted, List.length_append, List.length_append, hbody, List.length_singleton]
  omega

theorem shownParts_faces : shownParts jsonDesk false [faces] =
    [.dict [(.str (text "id"), .str (text "m1")), (.str (text "role"), .str (text "user")),
      (.str (text "text"), .str (List.replicate 4000 0x1f600))]] := by
  have hcount : (List.range ((max 1 faces.body.length + 3999) / 4000)) = [0] := by
    rw [faces, List.length_replicate]
    rfl
  have htext : (faces.body.drop (4000 * 0)).take 4000 = List.replicate 4000 0x1f600 := by
    rw [faces, Nat.mul_zero, List.drop_zero, List.take_replicate, Nat.min_self]
  have hid : faces.partId jsonDesk (4000 * 0) = text "m1" := if_pos ⟨rfl, rfl⟩
  have hshown : [faces].filter (fun m => !m.isHidden) = [faces] := rfl
  rw [shownParts, hshown, List.flatMap_singleton, Message.parts, hcount, List.map_singleton,
    List.map_singleton]
  simp only [htext, hid]
  rfl

/-- The page for the faces is empty, says that there is more and asks for itself again. -/
theorem history_stands_still :
    ¬ ∀ (context : Record) (rich : Bool) (history : List Message) (limit : ℕ), 1 ≤ limit →
      ∃ pages, ReadsAll (historyBefore jsonDesk context rich history limit)
        (shownParts jsonDesk rich history) pages := by
  intro hall
  obtain ⟨pages, hreads⟩ := hall [] false [faces] 40 (by decide)
  have hpart : Value.dict [(.str (text "id"), .str (text "m1")),
      (.str (text "role"), .str (text "user")),
      (.str (text "text"), .str (List.replicate 4000 0x1f600))] ∈ shownParts jsonDesk false [faces] := by
    rw [shownParts_faces]
    exact List.mem_singleton_self _
  have hescape : (escape ⟨true, true⟩ 0x1f600).length = 12 := by decide
  have htext : 48002 ≤ dumpedSize (.str (List.replicate 4000 0x1f600)) := by
    rw [dumpedSize, length_quoted_replicate, hescape]
  refine not_readsAll_of_large hpart ?_ pages hreads
  change pageBytes < dumpedSize _
  rw [dumpedSize, dumpedMembers, dumpedMembers, dumpedMembers, dumpedMembers, pageBytes]
  omega

end Sizes
end Raticode.Device
