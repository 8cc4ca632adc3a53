import Raticode.RattishValue
import Raticode.Scan

/-! The runtime takes the values of secrets out of a node's output and error before it records
them. -/
namespace Raticode.Rattish
open OrderedDict

def redactionMarker : List Char := "[REDACTED]".toList

/-- `sorted((item for item in sensitive_values if item), key=len, reverse=True)`. -/
def longestFirst (sensitiveValues : List String) : List String :=
  (sensitiveValues.filter (fun item => item ≠ "")).mergeSort
    (fun a b => decide (b.toList.length ≤ a.toList.length))

def redactText (sensitiveValues : List String) (text : String) : String :=
  String.ofList ((longestFirst sensitiveValues).foldl
    (fun redacted secret => Scan.replace secret.toList redactionMarker redacted) text.toList)

mutual
def redactSensitive (sensitiveValues : List String) : Value → Value
  | .str text => .str (redactText sensitiveValues text)
  | .arr items => .arr (redactItems sensitiveValues items)
  | .obj fields => .obj (redactFields sensitiveValues fields [])
  | .null => .null
  | .bool b => .bool b
  | .int z => .int z
  | .float q => .float q

def redactItems (sensitiveValues : List String) : List Value → List Value
  | [] => []
  | item :: items => redactSensitive sensitiveValues item :: redactItems sensitiveValues items

-- Of two keys that are redacted to one, the later keeps its value.
def redactFields (sensitiveValues : List String) :
    List (String × Value) → Dict String Value → Dict String Value
  | [], redacted => redacted
  | (key, item) :: fields, redacted =>
    redactFields sensitiveValues fields
      (redacted.set (redactText sensitiveValues key) (redactSensitive sensitiveValues item))
end

def redactRuntimeError (sensitiveValues : List String) (error : RuntimeErrorInfo) : RuntimeErrorInfo :=
  { kind := error.kind
    code := error.code
    message := redactText sensitiveValues error.message
    details := redactFields sensitiveValues error.details [] }

mutual
def Value.texts : Value → List String
  | .str text => [text]
  | .arr items => Value.textsOfItems items
  | .obj fields => Value.textsOfFields fields
  | .null => []
  | .bool _ => []
  | .int _ => []
  | .float _ => []

def Value.textsOfItems : List Value → List String
  | [] => []
  | item :: items => item.texts ++ Value.textsOfItems items

def Value.textsOfFields : List (String × Value) → List String
  | [] => []
  | (key, item) :: fields => key :: item.texts ++ Value.textsOfFields fields
end

mutual
/-- No key stands twice in an object of the document, at any depth. -/
def Value.distinctKeys : Value → Prop
  | .arr items => Value.distinctKeysOfItems items
  | .obj fields => (fields.map Prod.fst).Nodup ∧ Value.distinctKeysOfFields fields
  | .str _ => True
  | .null => True
  | .bool _ => True
  | .int _ => True
  | .float _ => True

def Value.distinctKeysOfItems : List Value → Prop
  | [] => True
  | item :: items => item.distinctKeys ∧ Value.distinctKeysOfItems items

def Value.distinctKeysOfFields : List (String × Value) → Prop
  | [] => True
  | (_, item) :: fields => item.distinctKeys ∧ Value.distinctKeysOfFields fields
end

def occursIn (secret text : String) : Prop := secret.toList <:+: text.toList

def apartFromMarker (secret : String) : Prop := ∀ c ∈ secret.toList, c ∉ redactionMarker

def freeOf (sensitiveValues : List String) (text : String) : Prop :=
  ∀ secret ∈ sensitiveValues, secret ≠ "" → apartFromMarker secret → ¬ occursIn secret text

def withoutSecrets (sensitiveValues : List String) (text : String) : Prop :=
  ∀ secret ∈ sensitiveValues, secret ≠ "" → ¬ occursIn secret text

theorem mem_longestFirst {sensitiveValues : List String} {secret : String} :
    secret ∈ longestFirst sensitiveValues ↔ secret ∈ sensitiveValues ∧ secret ≠ "" := by
  rw [longestFirst, List.mem_mergeSort, List.mem_filter, decide_eq_true_iff]

section Replacing
variable {secrets : List String} {text : List Char}

theorem infix_of_replacements (hne : ∀ secret ∈ secrets, secret ≠ "") {t : List Char}
    (ht : ∀ c ∈ t, c ∉ redactionMarker)
    (h : t <:+: secrets.foldl (fun redacted secret =>
      Scan.replace secret.toList redactionMarker redacted) text) : t <:+: text := by
  induction secrets generalizing text with
  | nil => exact h
  | cons secret secrets ih =>
    have hsecret : secret.toList ≠ [] := by
      simpa using hne secret List.mem_cons_self
    apply Scan.infix_of_replace hsecret (by decide) ht
    exact ih (fun s hs => hne s (List.mem_cons_of_mem _ hs)) h

theorem not_infix_replacements (hne : ∀ secret ∈ secrets, secret ≠ "") {secret : String}
    (hmem : secret ∈ secrets) (hapart : apartFromMarker secret) :
    ¬ secret.toList <:+: secrets.foldl (fun redacted s =>
      Scan.replace s.toList redactionMarker redacted) text := by
  induction secrets generalizing text with
  | nil => cases hmem
  | cons s secrets ih =>
    have hlater : ∀ s ∈ secrets, s ≠ "" := fun s hs => hne s (List.mem_cons_of_mem _ hs)
    rcases List.mem_cons.mp hmem with rfl | hmem
    · intro h
      have hsecret : secret.toList ≠ [] := by
        simpa using hne secret List.mem_cons_self
      apply Scan.not_infix_replace hsecret (by decide) hapart text
      exact infix_of_replacements hlater hapart h
    · exact ih hlater hmem

theorem replacements_eq_self (h : ∀ secret ∈ secrets, ¬ secret.toList <:+: text) :
    secrets.foldl (fun redacted secret => Scan.replace secret.toList redactionMarker redacted) text =
      text := by
  induction secrets with
  | nil => rfl
  | cons secret secrets ih =>
    rw [List.foldl_cons, Scan.replace_eq_self (h secret List.mem_cons_self)]
    exact ih (fun s hs => h s (List.mem_cons_of_mem _ hs))

end Replacing

variable {sensitiveValues : List String}

theorem redactText_free (text : String) : freeOf sensitiveValues (redactText sensitiveValues text) := by
  intro secret hmem hne hapart h
  rw [occursIn, redactText, String.toList_ofList] at h
  apply not_infix_replacements _ (mem_longestFirst.mpr ⟨hmem, hne⟩) hapart h
  exact fun s hs => (mem_longestFirst.mp hs).2

theorem redactText_unchanged {text : String} (h : withoutSecrets sensitiveValues text) :
    redactText sensitiveValues text = text := by
  have hnone : ∀ secret ∈ longestFirst sensitiveValues, ¬ secret.toList <:+: text.toList :=
    fun secret hs => h secret (mem_longestFirst.mp hs).1 (mem_longestFirst.mp hs).2
  rw [redactText, replacements_eq_self hnone, String.ofList_toList]

theorem mem_textsOfFields {fields : List (String × Value)} {text : String} :
    text ∈ Value.textsOfFields fields ↔ ∃ p ∈ fields, text = p.1 ∨ text ∈ p.2.texts := by
  induction fields with
  | nil => simp [Value.textsOfFields]
  | cons p fields ih =>
    simp only [Value.textsOfFields, List.cons_append, List.mem_cons, List.mem_append, ih]
    constructor
    · rintro (h | h | ⟨q, hq, h⟩)
      · exact ⟨p, .inl rfl, .inl h⟩
      · exact ⟨p, .inl rfl, .inr h⟩
      · exact ⟨q, .inr hq, h⟩
    · rintro ⟨q, rfl | hq, h⟩
      · exact h.imp_right .inl
      · exact .inr (.inr ⟨q, hq, h⟩)

theorem textsOfFields_set {fields : Dict String Value} {key : String} {item : Value} {P : String → Prop}
    (hfields : ∀ text ∈ Value.textsOfFields fields, P text) (hkey : P key)
    (hitem : ∀ text ∈ item.texts, P text) : ∀ text ∈ Value.textsOfFields (fields.set key item), P text := by
  intro text h
  obtain ⟨p, hp, h⟩ := mem_textsOfFields.mp h
  rcases Dict.mem_set hp with hp | rfl
  · exact hfields text (mem_textsOfFields.mpr ⟨p, hp, h⟩)
  · rcases h with rfl | h
    · exact hkey
    · exact hitem text h

mutual
theorem redactSensitive_free (document : Value) :
    ∀ text ∈ (redactSensitive sensitiveValues document).texts, freeOf sensitiveValues text := by
  intro text h
  match document with
  | .str s =>
    rw [redactSensitive, Value.texts, List.mem_singleton] at h
    rw [h]
    exact redactText_free s
  | .arr items =>
    rw [redactSensitive, Value.texts] at h
    exact redactItems_free items text h
  | .obj fields =>
    rw [redactSensitive, Value.texts] at h
    exact redactFields_free fields (by simp [Value.textsOfFields]) text h
  | .null => simp [redactSensitive, Value.texts] at h
  | .bool _ => simp [redactSensitive, Value.texts] at h
  | .int _ => simp [redactSensitive, Value.texts] at h
  | .float _ => simp [redactSensitive, Value.texts] at h

theorem redactItems_free (items : List Value) :
    ∀ text ∈ Value.textsOfItems (redactItems sensitiveValues items), freeOf sensitiveValues text := by
  intro text h
  match items with
  | [] => simp [redactItems, Value.textsOfItems] at h
  | item :: items =>
    rw [redactItems, Value.textsOfItems, List.mem_append] at h
    rcases h with h | h
    · exact redactSensitive_free item text h
    · exact redactItems_free items text h

theorem redactFields_free (fields : List (String × Value)) {redacted : Dict String Value}
    (hredacted : ∀ text ∈ Value.textsOfFields redacted, freeOf sensitiveValues text) :
    ∀ text ∈ Value.textsOfFields (redactFields sensitiveValues fields redacted),
      freeOf sensitiveValues text := by
  match fields with
  | [] =>
    rw [redactFields]
    exact hredacted
  | (key, item) :: fields =>
    rw [redactFields]
    apply redactFields_free fields
    exact textsOfFields_set hredacted (redactText_free key) (redactSensitive_free item)
end

mutual
/-- A document without secrets comes back as it is; the objects are written anew, member by
member, so their keys must be distinct. -/
theorem redactSensitive_unchanged (document : Value) (hkeys : document.distinctKeys)
    (h : ∀ text ∈ document.texts, withoutSecrets sensitiveValues text) :
    redactSensitive sensitiveValues document = document := by
  match document with
  | .str s =>
    rw [redactSensitive, redactText_unchanged (h s (by simp [Value.texts]))]
  | .arr items =>
    rw [redactSensitive, redactItems_unchanged items hkeys h]
  | .obj fields =>
    obtain ⟨hnodup, hitems⟩ := hkeys
    rw [redactSensitive, redactFields_unchanged fields (by simpa using hnodup) hitems h]
    rfl
  | .null => rfl
  | .bool _ => rfl
  | .int _ => rfl
  | .float _ => rfl

theorem redactItems_unchanged (items : List Value) (hkeys : Value.distinctKeysOfItems items)
    (h : ∀ text ∈ Value.textsOfItems items, withoutSecrets sensitiveValues text) :
    redactItems sensitiveValues items = items := by
  match items with
  | [] => rfl
  | item :: items =>
    have hitem : redactSensitive sensitiveValues item = item :=
      redactSensitive_unchanged item hkeys.1 (fun t ht => h t (List.mem_append_left _ ht))
    have hrest : redactItems sensitiveValues items = items :=
      redactItems_unchanged items hkeys.2 (fun t ht => h t (List.mem_append_right _ ht))
    rw [redactItems, hitem, hrest]

theorem redactFields_unchanged (fields : List (String × Value)) {redacted : Dict String Value}
    (hnodup : (redacted.map Prod.fst ++ fields.map Prod.fst).Nodup)
    (hkeys : Value.distinctKeysOfFields fields)
    (h : ∀ text ∈ Value.textsOfFields fields, withoutSecrets sensitiveValues text) :
    redactFields sensitiveValues fields redacted = redacted ++ fields := by
  match fields with
  | [] => rw [redactFields, List.append_nil]
  | (key, item) :: fields =>
    have hkey : redactText sensitiveValues key = key :=
      redactText_unchanged (h key (by simp [Value.textsOfFields]))
    have hitem : redactSensitive sensitiveValues item = item :=
      redactSensitive_unchanged item hkeys.1 (fun t ht => h t (by simp [Value.textsOfFields, ht]))
    have hnew : redacted.get key = none := by
      rw [← Option.not_isSome_iff_eq_none, Dict.get_isSome_iff]
      exact fun hm => (List.nodup_append.mp hnodup).2.2 key hm key (by simp) rfl
    rw [redactFields, hkey, hitem, Dict.set_of_none hnew]
    rw [redactFields_unchanged fields (by simpa using hnodup) hkeys.2
      (fun t ht => h t (by simp [Value.textsOfFields, ht])), List.append_assoc, List.singleton_append]
end

/-- Redaction leaves no secret that shares no character with the marker in any string or key of an
output or an error, however the secrets overlap, and leaves an output or an error without secrets
as it is. -/
theorem redaction_leaves_no_secret (sensitiveValues : List String) :
    (∀ document : Value, ∀ text ∈ (redactSensitive sensitiveValues document).texts,
      freeOf sensitiveValues text) ∧
    (∀ error : RuntimeErrorInfo,
      freeOf sensitiveValues (redactRuntimeError sensitiveValues error).message ∧
      ∀ text ∈ (Value.obj (redactRuntimeError sensitiveValues error).details).texts,
        freeOf sensitiveValues text) ∧
    (∀ document : Value, document.distinctKeys →
      (∀ text ∈ document.texts, withoutSecrets sensitiveValues text) →
        redactSensitive sensitiveValues document = document) ∧
    ∀ error : RuntimeErrorInfo,
      (withoutSecrets sensitiveValues error.message →
        (redactRuntimeError sensitiveValues error).message = error.message) ∧
      ((Value.obj error.details).distinctKeys →
        (∀ text ∈ (Value.obj error.details).texts, withoutSecrets sensitiveValues text) →
          (redactRuntimeError sensitiveValues error).details = error.details) := by
  refine ⟨redactSensitive_free, ?_, redactSensitive_unchanged, ?_⟩
  · intro error
    exact ⟨redactText_free error.message, redactSensitive_free (.obj error.details)⟩
  · intro error
    refine ⟨redactText_unchanged, ?_⟩
    intro hkeys h
    have hdocument : Value.obj (redactFields sensitiveValues error.details []) = .obj error.details :=
      redactSensitive_unchanged (.obj error.details) hkeys h
    exact Value.obj.inj hdocument

end Raticode.Rattish
