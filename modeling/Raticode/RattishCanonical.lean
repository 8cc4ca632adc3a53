import Mathlib.Data.List.Sort
import Mathlib.Data.List.Lex
import Raticode.RattishPrinting

/-! The canonical bytes that fingerprints are taken of: members in the order of their UTF-16 code
units, and no whitespace. -/
namespace Raticode.Rattish
open PyJson (Json)

inductive CanonicalError where
  | integerRange | nonFinite
  deriving DecidableEq

/-- `Decimal(repr(value))` of a double. -/
structure ReprDecimal where
  negative : Bool
  digits : Text
  exponent : ℤ

/-- `format(decimal, "f")`. -/
def ReprDecimal.fixed (d : ReprDecimal) : Text :=
  let unsigned :=
    if 0 ≤ d.exponent then d.digits ++ List.replicate d.exponent.toNat '0'
    else
      let places := (-d.exponent).toNat
      if places < d.digits.length then
        d.digits.take (d.digits.length - places) ++ '.' :: d.digits.drop (d.digits.length - places)
      else '0' :: '.' :: (List.replicate (places - d.digits.length) '0' ++ d.digits)
  if d.negative then '-' :: unsigned else unsigned

/-- The scientific spelling of `_canonical_float`. -/
def ReprDecimal.scientific (d : ReprDecimal) : Text :=
  let stripped := d.digits.rdropWhile (· = '0')
  let digits := if stripped = [] then ['0'] else stripped
  let scientificExponent := digits.length + d.exponent - 1
  let mantissa := digits.take 1 ++ (if 1 < digits.length then '.' :: digits.drop 1 else [])
  (if d.negative then ['-'] else []) ++ mantissa ++ 'e' ::
    ((if 0 ≤ scientificExponent then ['+'] else []) ++ intText scientificExponent)

/-- `_canonical_float`, where `reprOf` reads the standard library's spelling of a double. -/
def canonicalFloat (reprOf : ℚ → ReprDecimal) : Option ℚ → Except CanonicalError Text
  | none => .error .nonFinite
  | some value =>
    if value = 0 then .ok ['0']
    else
      let decimal := reprOf value
      let absolute : ℚ := PyJson.natOf decimal.digits * (10 : ℚ) ^ decimal.exponent
      if (10 : ℚ) ^ (-6 : ℤ) ≤ absolute ∧ absolute < (10 : ℚ) ^ (21 : ℤ) then
        let fixed := decimal.fixed
        if '.' ∈ fixed then .ok ((fixed.rdropWhile (· = '0')).rdropWhile (· = '.')) else .ok fixed
      else .ok decimal.scientific

/-- `key.encode("utf-16be", errors="surrogatepass")` of one character. -/
def utf16Bytes (c : Char) : List ℕ :=
  if c.toNat < 0x10000 then [c.toNat / 256, c.toNat % 256]
  else
    let high := 0xd800 + (c.toNat - 0x10000) / 1024
    let low := 0xdc00 + (c.toNat - 0x10000) % 1024
    [high / 256, high % 256, low / 256, low % 256]

def utf16be (w : Text) : List ℕ := w.flatMap utf16Bytes

/-- `sorted(value, key=...)`, each key with what stands under it. -/
def sortKeys {α : Type*} (members : List (Text × α)) : List (Text × α) :=
  members.mergeSort (fun a b => decide (utf16be a.1 ≤ utf16be b.1))

mutual
def canonicalJson (reprOf : ℚ → ReprDecimal) : Json → Except CanonicalError Text
  | .null => .ok "null".toList
  | .bool true => .ok "true".toList
  | .bool false => .ok "false".toList
  | .int z => if 9007199254740991 < z.natAbs then .error .integerRange else .ok (intText z)
  | .float q => canonicalFloat reprOf q
  | .str w => .ok (dumpText w)
  | .arr items => do
    let texts ← canonicalItems reprOf items
    return '[' :: (List.intercalate [','] texts ++ [']'])
  | .obj members => do
    let texts ← (sortKeys (canonicalMembers reprOf members)).mapM
      (fun m => m.2.map (fun text => dumpText m.1 ++ ':' :: text))
    return '{' :: (List.intercalate [','] texts ++ ['}'])

def canonicalItems (reprOf : ℚ → ReprDecimal) : List Json → Except CanonicalError (List Text)
  | [] => .ok []
  | item :: items => do
    let text ← canonicalJson reprOf item
    let texts ← canonicalItems reprOf items
    return text :: texts

-- The members are printed in the order of their keys, so an error is met in that order.
def canonicalMembers (reprOf : ℚ → ReprDecimal) :
    List (Text × Json) → List (Text × Except CanonicalError Text)
  | [] => []
  | (key, value) :: members => (key, canonicalJson reprOf value) :: canonicalMembers reprOf members
end

def canonicalJsonBytes (reprOf : ℚ → ReprDecimal) (value : Json) : Except CanonicalError ByteArray :=
  (canonicalJson reprOf value).map (fun text => (String.ofList text).toByteArray)

/-- `json.loads` of bytes. -/
def loadsBytes (bytes : ByteArray) : Except PyJson.Failure Json :=
  match String.fromUTF8? bytes with
  | some text => PyJson.loads ⟨some 4300, false⟩ text.toList
  | none => .error .decode

/-- A value of null, Booleans, integers that doubles hold exactly, texts, lists and objects, none of
which has a key twice. -/
inductive Exact : Json → Prop
  | null : Exact .null
  | bool (b : Bool) : Exact (.bool b)
  | int {z : ℤ} (h : z.natAbs ≤ 9007199254740991) : Exact (.int z)
  | str (w : Text) : Exact (.str w)
  | arr {items : List Json} (h : ∀ item ∈ items, Exact item) : Exact (.arr items)
  | obj {members : List (Text × Json)} (hkeys : (members.map Prod.fst).Nodup)
    (h : ∀ m ∈ members, Exact m.2) : Exact (.obj members)

mutual
def sameJson : Json → Json → Bool
  | .null, .null => true
  | .bool a, .bool b => a == b
  | .int a, .int b => a == b
  | .float a, .float b => a == b
  | .str a, .str b => a == b
  | .arr xs, .arr ys => sameItems xs ys
  | .obj xs, .obj ys => xs.length == ys.length && sameMembers xs ys
  | _, _ => false

def sameItems : List Json → List Json → Bool
  | [], [] => true
  | x :: xs, y :: ys => sameJson x y && sameItems xs ys
  | _, _ => false

def sameMembers : List (Text × Json) → List (Text × Json) → Bool
  | [], _ => true
  | (key, x) :: xs, ys =>
    (match ys.lookup key with
      | some y => sameJson x y
      | none => false) && sameMembers xs ys
end

/-! The order of keys. -/

theorem utf16Bytes_append_inj {c d : Char} {u v : List ℕ} (h : utf16Bytes c ++ u = utf16Bytes d ++ v) :
    c = d ∧ u = v := by
  have hc : c.toNat < 0xd800 ∨ 0xdfff < c.toNat ∧ c.toNat < 0x110000 := c.valid
  have hd : d.toNat < 0xd800 ∨ 0xdfff < d.toNat ∧ d.toNat < 0x110000 := d.valid
  have heq : c.toNat = d.toNat → c = d := fun h => Char.toNat_inj.mp h
  unfold utf16Bytes at h
  -- A character of two units begins with a surrogate, which is no character.
  split at h <;> split at h
  all_goals
    simp only [List.cons_append, List.nil_append, List.cons.injEq] at h
  · exact ⟨heq (by omega), h.2.2⟩
  · omega
  · omega
  · exact ⟨heq (by omega), h.2.2.2.2⟩

theorem utf16be_injective : Function.Injective utf16be := by
  have hne : ∀ (c : Char) (w : Text), utf16be (c :: w) ≠ [] := by
    intro c w
    rw [utf16be, List.flatMap_cons, utf16Bytes]
    split <;> simp
  intro u v h
  induction u generalizing v with
  | nil =>
    cases v with
    | nil => rfl
    | cons d v => exact absurd h.symm (hne d v)
  | cons c u ih =>
    cases v with
    | nil => exact absurd h (hne c u)
    | cons d v =>
      obtain ⟨rfl, hrest⟩ := utf16Bytes_append_inj h
      rw [ih hrest]

section Sorting
variable {α β : Type*}

theorem sortKeys_perm (members : List (Text × α)) : (sortKeys members).Perm members :=
  List.mergeSort_perm _ _

theorem sortKeys_map (f : α → β) (members : List (Text × α)) :
    sortKeys (members.map (fun m => (m.1, f m.2))) = (sortKeys members).map (fun m => (m.1, f m.2)) := by
  symm
  apply List.map_mergeSort
  intros
  rfl

theorem pairwise_sortKeys (members : List (Text × α)) :
    (sortKeys members).Pairwise (fun a b => decide (utf16be a.1 ≤ utf16be b.1) = true) := by
  apply List.pairwise_mergeSort
  · intro a b c hab hbc
    simp only [decide_eq_true_eq] at hab hbc ⊢
    exact le_trans hab hbc
  · intro a b
    simpa using le_total (utf16be a.1) (utf16be b.1)

theorem sortKeys_sorted (members : List (Text × α)) : sortKeys (sortKeys members) = sortKeys members :=
  List.mergeSort_of_pairwise (pairwise_sortKeys members)

theorem sortKeys_eq_iff {xs ys : List (Text × α)} (hxs : (xs.map Prod.fst).Nodup) :
    sortKeys xs = sortKeys ys ↔ xs.Perm ys := by
  constructor
  · intro h
    apply (sortKeys_perm xs).symm.trans
    rw [h]
    exact sortKeys_perm ys
  · intro h
    have hperm : (sortKeys xs).Perm (sortKeys ys) := (sortKeys_perm xs).trans (h.trans (sortKeys_perm ys).symm)
    apply hperm.eq_of_pairwise _ (pairwise_sortKeys xs) (pairwise_sortKeys ys)
    intro a b ha hb hab hba
    simp only [decide_eq_true_eq] at hab hba
    have hkey : a.1 = b.1 := utf16be_injective (le_antisymm hab hba)
    have hax : a ∈ xs := (sortKeys_perm xs).mem_iff.mp ha
    have hbx : b ∈ xs := h.mem_iff.mpr ((sortKeys_perm ys).mem_iff.mp hb)
    exact List.inj_on_of_nodup_map hxs hax hbx hkey

end Sorting

/-! The printed value. -/

theorem json_induction {motive : Json → Prop} (null : motive .null) (bool : ∀ b, motive (.bool b))
    (int : ∀ z, motive (.int z)) (float : ∀ q, motive (.float q)) (str : ∀ w, motive (.str w))
    (arr : ∀ items, (∀ item ∈ items, motive item) → motive (.arr items))
    (obj : ∀ members : List (Text × Json), (∀ m ∈ members, motive m.2) → motive (.obj members))
    (value : Json) : motive value := by
  refine @Json.rec motive (fun items => ∀ item ∈ items, motive item)
    (fun members => ∀ m ∈ members, motive m.2) (fun m => motive m.2)
    null bool int float str arr obj ?_ ?_ ?_ ?_ ?_ value
  · simp
  · intro item items hitem hitems x hx
    rcases List.mem_cons.mp hx with rfl | hx
    · exact hitem
    · exact hitems x hx
  · simp
  · intro m members hm hmembers x hx
    rcases List.mem_cons.mp hx with rfl | hx
    · exact hm
    · exact hmembers x hx
  · intro key value hvalue
    exact hvalue

mutual
def normal : Json → Json
  | .null => .null
  | .bool b => .bool b
  | .int z => .int z
  | .float q => .float q
  | .str w => .str w
  | .arr items => .arr (normalItems items)
  | .obj members => .obj (sortKeys (normalMembers members))

def normalItems : List Json → List Json
  | [] => []
  | item :: items => normal item :: normalItems items

def normalMembers : List (Text × Json) → List (Text × Json)
  | [] => []
  | (key, value) :: members => (key, normal value) :: normalMembers members
end

mutual
def spelled : Json → Text
  | .null => "null".toList
  | .bool true => "true".toList
  | .bool false => "false".toList
  | .int z => intText z
  | .float _ => []
  | .str w => dumpText w
  | .arr items => '[' :: (List.intercalate [','] (spelledItems items) ++ [']'])
  | .obj members => '{' :: (List.intercalate [','] (spelledMembers members) ++ ['}'])

def spelledItems : List Json → List Text
  | [] => []
  | item :: items => spelled item :: spelledItems items

def spelledMembers : List (Text × Json) → List Text
  | [] => []
  | (key, value) :: members => (dumpText key ++ ':' :: spelled value) :: spelledMembers members
end

theorem normalItems_eq (items : List Json) : normalItems items = items.map normal := by
  induction items with
  | nil => rfl
  | cons item items ih => rw [normalItems, ih, List.map_cons]

theorem normalMembers_eq (members : List (Text × Json)) :
    normalMembers members = members.map (fun m => (m.1, normal m.2)) := by
  induction members with
  | nil => rfl
  | cons m members ih => rw [normalMembers, ih, List.map_cons]

theorem spelledItems_eq (items : List Json) : spelledItems items = items.map spelled := by
  induction items with
  | nil => rfl
  | cons item items ih => rw [spelledItems, ih, List.map_cons]

theorem spelledMembers_eq (members : List (Text × Json)) :
    spelledMembers members = members.map (fun m => dumpText m.1 ++ ':' :: spelled m.2) := by
  induction members with
  | nil => rfl
  | cons m members ih => rw [spelledMembers, ih, List.map_cons]

theorem canonicalItems_ok {reprOf : ℚ → ReprDecimal} {items : List Json} {f : Json → Text}
    (h : ∀ item ∈ items, canonicalJson reprOf item = .ok (f item)) :
    canonicalItems reprOf items = .ok (items.map f) := by
  induction items with
  | nil => rfl
  | cons item items ih =>
    rw [canonicalItems, h item List.mem_cons_self, ih (fun x hx => h x (List.mem_cons_of_mem _ hx))]
    rfl

theorem canonicalMembers_ok {reprOf : ℚ → ReprDecimal} {members : List (Text × Json)} {f : Json → Text}
    (h : ∀ m ∈ members, canonicalJson reprOf m.2 = .ok (f m.2)) :
    canonicalMembers reprOf members = members.map (fun m => (m.1, .ok (f m.2))) := by
  induction members with
  | nil => rfl
  | cons m members ih =>
    rw [canonicalMembers, h m List.mem_cons_self, ih (fun x hx => h x (List.mem_cons_of_mem _ hx)),
      List.map_cons]

theorem canonicalJson_exact (reprOf : ℚ → ReprDecimal) {value : Json} (h : Exact value) :
    canonicalJson reprOf value = .ok (spelled (normal value)) := by
  induction h with
  | null => rfl
  | bool b => cases b <;> rfl
  | int h =>
    rw [canonicalJson, if_neg (by omega), normal, spelled]
  | str w => rfl
  | @arr items h ih =>
    have hitems := canonicalItems_ok (f := fun item => spelled (normal item)) ih
    rw [canonicalJson, hitems, normal, spelled, spelledItems_eq, normalItems_eq, List.map_map]
    rfl
  | @obj members hkeys h ih =>
    have hmembers := canonicalMembers_ok (f := fun value => spelled (normal value)) ih
    have htexts : ∀ ms : List (Text × Json),
        (ms.map (fun m => (m.1, (.ok (spelled m.2) : Except CanonicalError Text)))).mapM
          (fun m => m.2.map (fun text => dumpText m.1 ++ ':' :: text)) =
        .ok (ms.map (fun m => dumpText m.1 ++ ':' :: spelled m.2)) := by
      intro ms
      induction ms with
      | nil => rfl
      | cons m ms ihms =>
        rw [List.map_cons, List.mapM_cons, ihms]
        rfl
    have hsorted : sortKeys (members.map
        (fun m => (m.1, (.ok (spelled (normal m.2)) : Except CanonicalError Text)))) =
        (sortKeys (normalMembers members)).map (fun m => (m.1, .ok (spelled m.2))) := by
      have hmap := sortKeys_map (fun value => (.ok (spelled value) : Except CanonicalError Text))
        (members.map (fun m => (m.1, normal m.2)))
      rw [normalMembers_eq, ← hmap, List.map_map]
      rfl
    rw [canonicalJson, hmembers, hsorted, htexts, normal, spelled, spelledMembers_eq]
    rfl

/-! Equal values have one normal form. -/

theorem sameItems_iff {xs ys : List Json}
    (h : ∀ x ∈ xs, ∀ y ∈ ys, sameJson x y = true ↔ normal x = normal y) :
    sameItems xs ys = true ↔ xs.map normal = ys.map normal := by
  induction xs generalizing ys with
  | nil => cases ys <;> simp [sameItems]
  | cons x xs ih =>
    cases ys with
    | nil => simp [sameItems]
    | cons y ys =>
      have hrest : sameItems xs ys = true ↔ xs.map normal = ys.map normal :=
        ih (fun a ha b hb => h a (List.mem_cons_of_mem _ ha) b (List.mem_cons_of_mem _ hb))
      rw [sameItems, Bool.and_eq_true, h x List.mem_cons_self y List.mem_cons_self, hrest,
        List.map_cons, List.map_cons, List.cons.injEq]

theorem sameMembers_iff {xs ys : List (Text × Json)} :
    sameMembers xs ys = true ↔ ∀ m ∈ xs, ∃ y, ys.lookup m.1 = some y ∧ sameJson m.2 y = true := by
  induction xs with
  | nil => simp [sameMembers]
  | cons m xs ih =>
    rw [sameMembers, Bool.and_eq_true, ih, List.forall_mem_cons]
    apply and_congr_left'
    cases hlookup : ys.lookup m.1 with
    | none => simp
    | some y => simp

theorem lookup_of_mem {ys : List (Text × Json)} (hkeys : (ys.map Prod.fst).Nodup) {m : Text × Json}
    (hm : m ∈ ys) : ys.lookup m.1 = some m.2 := by
  induction ys with
  | nil => cases hm
  | cons y ys ih =>
    rw [List.map_cons, List.nodup_cons] at hkeys
    rcases List.mem_cons.mp hm with rfl | hm
    · exact List.lookup_cons_self
    · have hne : m.1 ≠ y.1 := fun he => hkeys.1 (he ▸ List.mem_map_of_mem hm)
      rw [List.lookup_cons, beq_false_of_ne hne]
      exact ih hkeys.2 hm

theorem mem_of_lookup {ys : List (Text × Json)} {key : Text} {y : Json}
    (h : ys.lookup key = some y) : (key, y) ∈ ys := by
  induction ys with
  | nil => cases h
  | cons z ys ih =>
    rw [List.lookup_cons] at h
    split at h
    · next hkey =>
      obtain rfl := Option.some.inj h
      rw [eq_of_beq hkey]
      exact List.mem_cons_self
    · exact List.mem_cons_of_mem _ (ih h)

theorem nodup_of_keys {xs : List (Text × Json)} (h : (xs.map Prod.fst).Nodup) : xs.Nodup :=
  List.Nodup.of_map _ h

theorem keys_normal (members : List (Text × Json)) :
    (members.map (fun m => (m.1, normal m.2))).map Prod.fst = members.map Prod.fst := by
  rw [List.map_map]
  rfl

theorem members_iff {xs ys : List (Text × Json)} (hxs : (xs.map Prod.fst).Nodup)
    (hys : (ys.map Prod.fst).Nodup)
    (h : ∀ x ∈ xs, ∀ y ∈ ys, sameJson x.2 y.2 = true ↔ normal x.2 = normal y.2) :
    xs.length = ys.length ∧ sameMembers xs ys = true ↔
      (xs.map (fun m => (m.1, normal m.2))).Perm (ys.map (fun m => (m.1, normal m.2))) := by
  have hxsnormal := nodup_of_keys (keys_normal xs ▸ hxs)
  rw [sameMembers_iff]
  constructor
  · rintro ⟨hlength, hmembers⟩
    -- Every member of the one is a member of the other, and there are as many.
    have hsubset : xs.map (fun m => (m.1, normal m.2)) ⊆ ys.map (fun m => (m.1, normal m.2)) := by
      intro p hp
      obtain ⟨m, hm, rfl⟩ := List.mem_map.mp hp
      obtain ⟨y, hlookup, hsame⟩ := hmembers m hm
      have hy := mem_of_lookup hlookup
      apply List.mem_map.mpr
      exact ⟨(m.1, y), hy, by rw [(h m hm _ hy).mp hsame]⟩
    apply (List.subperm_of_subset hxsnormal hsubset).perm_of_length_le
    rw [List.length_map, List.length_map, hlength]
  · intro hperm
    refine ⟨by simpa using hperm.length_eq, ?_⟩
    intro m hm
    obtain ⟨y, hy, heq⟩ := List.mem_map.mp (hperm.mem_iff.mp (List.mem_map_of_mem hm))
    obtain ⟨hkey, hvalue⟩ := Prod.mk.inj heq
    refine ⟨y.2, ?_, (h m hm y hy).mpr hvalue.symm⟩
    rw [← hkey]
    exact lookup_of_mem hys hy

theorem sameJson_iff {u v : Json} (hu : Exact u) (hv : Exact v) :
    sameJson u v = true ↔ normal u = normal v := by
  induction hu generalizing v with
  | null => cases hv <;> simp [sameJson, normal]
  | bool b => cases hv <;> simp [sameJson, normal]
  | int h => cases hv <;> simp [sameJson, normal]
  | str w => cases hv <;> simp [sameJson, normal]
  | @arr xs _ ih =>
    cases hv with
    | @arr ys hys =>
      have hitems := sameItems_iff (fun x hx y hy => ih x hx (hys y hy))
      simp only [sameJson, normal, Json.arr.injEq, normalItems_eq]
      exact hitems
    | _ => simp [sameJson, normal]
  | @obj xs hxs _ ih =>
    cases hv with
    | @obj ys hys hyexact =>
      have hmembers := members_iff hxs hys (fun x hx y hy => ih x hx (hyexact y hy))
      have hkeys : ((xs.map (fun m => (m.1, normal m.2))).map Prod.fst).Nodup :=
        (keys_normal xs).symm ▸ hxs
      simp only [sameJson, normal, Json.obj.injEq, normalMembers_eq, Bool.and_eq_true, beq_iff_eq]
      rw [sortKeys_eq_iff hkeys]
      exact hmembers
    | _ => simp [sameJson, normal]

theorem Exact.normal {value : Json} (h : Exact value) : Exact (normal value) := by
  induction h with
  | null => exact .null
  | bool b => exact .bool b
  | int h => exact .int h
  | str w => exact .str w
  | @arr items _ ih =>
    rw [Rattish.normal, normalItems_eq]
    apply Exact.arr
    intro item hitem
    obtain ⟨x, hx, rfl⟩ := List.mem_map.mp hitem
    exact ih x hx
  | @obj members hkeys _ ih =>
    rw [Rattish.normal, normalMembers_eq]
    have hperm := sortKeys_perm (members.map (fun m => (m.1, Rattish.normal m.2)))
    apply Exact.obj
    · apply (hperm.map Prod.fst).nodup_iff.mpr
      exact (keys_normal members).symm ▸ hkeys
    · intro m hm
      obtain ⟨x, hx, rfl⟩ := List.mem_map.mp (hperm.mem_iff.mp hm)
      exact ih x hx

theorem normal_normal (value : Json) : normal (normal value) = normal value := by
  induction value using json_induction with
  | null => rfl
  | bool b => rfl
  | int z => rfl
  | float q => rfl
  | str w => rfl
  | arr items ih =>
    rw [normal, normal, normalItems_eq, normalItems_eq, List.map_map]
    congr 1
    exact List.map_congr_left ih
  | obj members ih =>
    have htwice : (members.map (fun m => (m.1, normal m.2))).map (fun m => (m.1, normal m.2)) =
        members.map (fun m => (m.1, normal m.2)) := by
      rw [List.map_map]
      apply List.map_congr_left
      intro m hm
      exact Prod.ext rfl (ih m hm)
    rw [normal, normal, normalMembers_eq, normalMembers_eq, ← sortKeys_map normal, htwice, sortKeys_sorted]

/-! Reading a printed value. -/

def AfterValue (rest : Text) : Prop := ∀ c ∈ rest.head?, c = ',' ∨ c = ']' ∨ c = '}'

theorem afterValue_cons {c : Char} (h : c = ',' ∨ c = ']' ∨ c = '}') (w : Text) : AfterValue (c :: w) := by
  intro d hd
  obtain rfl := Option.some.inj hd
  exact h

theorem skipSpace_cons {c : Char} (h : PyText.isJsonSpace c = false) (w : Text) :
    PyJson.skipSpace (c :: w) = c :: w := by
  rw [PyJson.skipSpace, List.dropWhile_cons, h]
  rfl

theorem intText_head (z : ℤ) : ∃ c w, intText z = c :: w ∧ (c = '-' ∨ PyJson.isDigit c = true) := by
  unfold intText
  split
  · exact ⟨_, _, rfl, .inl rfl⟩
  · obtain ⟨c, w, hw⟩ := List.exists_cons_of_ne_nil (Nat.toDigits_ne_nil (b := 10) (n := z.natAbs))
    exact ⟨c, w, hw, .inr (PyJson.isDigit_toDigits (by rw [hw]; exact List.mem_cons_self))⟩

theorem spelled_head {value : Json} (h : Exact value) : ∃ c w, spelled value = c :: w ∧
    PyText.isJsonSpace c = false ∧ c ≠ ']' := by
  cases h with
  | null => exact ⟨_, _, rfl, rfl, by decide⟩
  | bool b => cases b <;> exact ⟨_, _, rfl, rfl, by decide⟩
  | @int z _ =>
    obtain ⟨c, w, hw, hc⟩ := intText_head z
    refine ⟨c, w, hw, ?_⟩
    rcases hc with rfl | hc
    · exact ⟨rfl, by decide⟩
    · constructor
      · by_contra hspace
        simp only [PyText.isJsonSpace, Bool.not_eq_false, Bool.or_eq_true, decide_eq_true_eq] at hspace
        rcases hspace with ((rfl | rfl) | rfl) | rfl <;> exact absurd hc (by decide)
      · rintro rfl
        exact absurd hc (by decide)
  | str w => exact ⟨_, _, rfl, rfl, by decide⟩
  | arr _ => exact ⟨_, _, rfl, rfl, by decide⟩
  | obj _ _ => exact ⟨_, _, rfl, rfl, by decide⟩

theorem numeral_append (z : ℤ) {rest : Text} (h : AfterValue rest) : PyJson.numeral (intText z ++ rest) =
    some (⟨z < 0, Nat.toDigits 10 z.natAbs, [], none⟩, rest) := by
  have hne : Nat.toDigits 10 z.natAbs ≠ [] := Nat.toDigits_ne_nil
  obtain ⟨hfraction, hexponent⟩ := PyJson.readParts_closes h
  unfold intText
  split
  · next hneg =>
    rw [List.cons_append, PyJson.numeral]
    simp [PyJson.readWhole_append _ h, hne, hfraction, hexponent, hneg]
  · next hpos =>
    obtain ⟨d, ds, hds⟩ := List.exists_cons_of_ne_nil hne
    have hd : d ≠ '-' := by
      rintro rfl
      have hdigit := PyJson.isDigit_toDigits (n := z.natAbs) (c := '-') (by rw [hds]; exact List.mem_cons_self)
      exact absurd hdigit (by decide)
    have hread := PyJson.readWhole_append z.natAbs h
    rw [hds, List.cons_append] at hread
    rw [hds, List.cons_append, PyJson.numeral]
    · simp [hread, hfraction, hexponent, hpos]
    · intro w hw
      exact hd (List.cons.inj hw).1

theorem length_toDigits_le {n : ℕ} (hn : n ≤ 9007199254740991) : (Nat.toDigits 10 n).length ≤ 16 := by
  apply (Nat.length_toDigits_le_iff (by decide) (by decide)).mpr
  omega

variable {options : PyJson.Options}

theorem no_constant {c : Char} (hc : PyJson.isDigit c = true) (w : Text) :
    PyJson.constants.find? (fun p => p.1.isPrefixOf (c :: w)) = none ∧
      PyJson.constants.find? (fun p => p.1.isPrefixOf ('-' :: c :: w)) = none := by
  have hne : ∀ d, PyJson.isDigit d = false → d ≠ c := by
    rintro d hd rfl
    rw [hc] at hd
    cases hd
  have hn := hne 'n' rfl
  have ht := hne 't' rfl
  have hf := hne 'f' rfl
  have hN := hne 'N' rfl
  have hI := hne 'I' rfl
  have hminus := hne '-' rfl
  simp [PyJson.constants, hn, ht, hf, hN, hI, hminus]

theorem constants_intText (z : ℤ) (rest : Text) :
    PyJson.constants.find? (fun p => p.1.isPrefixOf (intText z ++ rest)) = none := by
  obtain ⟨d, ds, hds⟩ := List.exists_cons_of_ne_nil (Nat.toDigits_ne_nil (b := 10) (n := z.natAbs))
  have hd : PyJson.isDigit d = true := PyJson.isDigit_toDigits (by rw [hds]; exact List.mem_cons_self)
  have hnone := no_constant hd (ds ++ rest)
  unfold intText
  split
  · rw [hds]
    exact hnone.2
  · rw [hds]
    exact hnone.1

theorem readValue_int {z : ℤ} (hlimit : ∀ limit ∈ options.maxDigits, 16 ≤ limit)
    (hz : z.natAbs ≤ 9007199254740991) (n : ℕ) {rest : Text} (h : AfterValue rest) :
    PyJson.readValue options (n + 1) (intText z ++ rest) = .ok (.int z, rest) := by
  have hnumber : PyJson.number options ⟨z < 0, Nat.toDigits 10 z.natAbs, [], none⟩ = .ok (.int z) := by
    have hlength := length_toDigits_le hz
    have hinteger : PyJson.Numeral.isInteger ⟨z < 0, Nat.toDigits 10 z.natAbs, [], none⟩ = true := rfl
    rw [PyJson.number, hinteger, if_pos rfl, toInt_intText, if_neg]
    rw [Option.any_eq_true]
    rintro ⟨limit, hmem, hlt⟩
    have hle := hlimit limit hmem
    simp only [decide_eq_true_eq] at hlt
    omega
  obtain ⟨c, w, hw, hc⟩ := intText_head z
  have hother : ∀ d, d = '"' ∨ d = '[' ∨ d = '{' → c ≠ d := by
    rintro d (rfl | rfl | rfl) rfl <;> exact absurd hc (by decide)
  have hnone := constants_intText z rest
  have hread := numeral_append z h
  rw [hw, List.cons_append] at hread hnone ⊢
  rw [PyJson.readValue]
  · rw [hnone, hread]
    simp only [hnumber]
    rfl
  · exact fun body hb => hother '"' (.inl rfl) (List.cons.inj hb).1
  · exact fun body hb => hother '[' (.inr (.inl rfl)) (List.cons.inj hb).1
  · exact fun body hb => hother '{' (.inr (.inr rfl)) (List.cons.inj hb).1

theorem readValue_str (w : Text) (n : ℕ) (rest : Text) :
    PyJson.readValue options (n + 1) (dumpText w ++ rest) = .ok (.str w, rest) := by
  have htext : dumpText w ++ rest = '"' :: (w.flatMap escapeChar ++ '"' :: rest) := by
    simp [dumpText]
  rw [htext, PyJson.readValue, jsonUnits_dump]
  simp only [characters_escaped]

def ReadsBack (options : PyJson.Options) (value : Json) : Prop :=
  ∀ (n : ℕ) (rest : Text), AfterValue rest → (spelled value).length < n →
    PyJson.readValue options n (spelled value ++ rest) = .ok (value, rest)

theorem skipSpace_spelled {value : Json} (h : Exact value) (rest : Text) :
    PyJson.skipSpace (spelled value ++ rest) = spelled value ++ rest := by
  obtain ⟨c, w, hw, hspace, -⟩ := spelled_head h
  rw [hw, List.cons_append]
  exact skipSpace_cons hspace _

theorem intercalate_cons (first : Text) (texts : List Text) (rest : Text) :
    List.intercalate [','] (first :: texts) ++ rest =
      first ++ (if texts = [] then rest else ',' :: (List.intercalate [','] texts ++ rest)) := by
  cases texts with
  | nil => simp
  | cons second texts => simp [List.intercalate_cons_cons]

theorem readItems_spelled {items : List Json} (hne : items ≠ []) (hexact : ∀ x ∈ items, Exact x)
    (hread : ∀ x ∈ items, ReadsBack options x) (n : ℕ) (rest : Text)
    (hn : (List.intercalate [','] (items.map spelled)).length + 1 < n) :
    PyJson.readItems options n (List.intercalate [','] (items.map spelled) ++ ']' :: rest) =
      .ok (items, rest) := by
  induction items generalizing n with
  | nil => exact absurd rfl hne
  | cons item items ih =>
    obtain ⟨n, rfl⟩ : ∃ k, n = k + 1 := ⟨n - 1, by omega⟩
    have hlength := congrArg List.length (intercalate_cons (spelled item) (items.map spelled) [])
    rw [List.map_cons] at hn ⊢
    rw [intercalate_cons]
    by_cases hlast : items = []
    · subst hlast
      simp only [List.map_nil, List.intercalate_singleton] at hn
      simp only [List.map_nil, if_true]
      have hvalue := hread item List.mem_cons_self n (']' :: rest) (afterValue_cons (by decide) _) (by omega)
      have hskip : PyJson.skipSpace (']' :: rest) = ']' :: rest := skipSpace_cons rfl _
      rw [PyJson.readItems, hvalue]
      simp only [bind, Except.bind, hskip]
      rfl
    · have htexts : items.map spelled ≠ [] := by simpa using hlast
      simp only [if_neg htexts, List.append_nil, List.length_append, List.length_cons] at hlength ⊢
      have hvalue := hread item List.mem_cons_self n _
        (afterValue_cons (.inl rfl) (List.intercalate [','] (items.map spelled) ++ ']' :: rest)) (by omega)
      have hskip : ∀ w, PyJson.skipSpace (',' :: w) = ',' :: w := skipSpace_cons rfl
      have hstart : PyJson.skipSpace (List.intercalate [','] (items.map spelled) ++ ']' :: rest) =
          List.intercalate [','] (items.map spelled) ++ ']' :: rest := by
        obtain ⟨next, items, rfl⟩ := List.exists_cons_of_ne_nil hlast
        rw [List.map_cons, intercalate_cons]
        exact skipSpace_spelled (hexact next (by simp)) _
      have hitems := ih hlast (fun x hx => hexact x (List.mem_cons_of_mem _ hx))
        (fun x hx => hread x (List.mem_cons_of_mem _ hx)) n (by omega)
      rw [PyJson.readItems, hvalue]
      simp only [bind, Except.bind, hskip, hstart, hitems]
      rfl

theorem readMembers_spelled {members : List (Text × Json)} (hne : members ≠ [])
    (hexact : ∀ m ∈ members, Exact m.2) (hread : ∀ m ∈ members, ReadsBack options m.2) (n : ℕ) (rest : Text)
    (hn : (List.intercalate [','] (spelledMembers members)).length + 1 < n) :
    PyJson.readMembers options n (List.intercalate [','] (spelledMembers members) ++ '}' :: rest) =
      .ok (members, rest) := by
  induction members generalizing n with
  | nil => exact absurd rfl hne
  | cons m members ih =>
    obtain ⟨n, rfl⟩ : ∃ k, n = k + 1 := ⟨n - 1, by omega⟩
    obtain ⟨key, value⟩ := m
    have hlength := congrArg List.length
      (intercalate_cons (dumpText key ++ ':' :: spelled value) (spelledMembers members) [])
    rw [spelledMembers] at hn ⊢
    rw [intercalate_cons]
    have hkey : ∀ w, (dumpText key ++ ':' :: spelled value) ++ w =
        '"' :: (key.flatMap escapeChar ++ '"' :: ':' :: (spelled value ++ w)) := by
      intro w
      simp [dumpText]
    have hcolon : ∀ w, PyJson.skipSpace (':' :: w) = ':' :: w := skipSpace_cons rfl
    have hskip := fun w => skipSpace_spelled (hexact (key, value) List.mem_cons_self) w
    rw [hkey, PyJson.readMembers, jsonUnits_dump]
    simp only [hcolon, hskip, characters_escaped]
    by_cases hlast : members = []
    · subst hlast
      simp only [spelledMembers, List.intercalate_singleton, List.length_append, List.length_cons] at hn
      simp only [spelledMembers, if_true]
      have hvalue := hread (key, value) List.mem_cons_self n ('}' :: rest) (afterValue_cons (by decide) _)
        (by simp only; omega)
      have hbrace : PyJson.skipSpace ('}' :: rest) = '}' :: rest := skipSpace_cons rfl _
      rw [hvalue]
      simp only [bind, Except.bind, hbrace]
      rfl
    · have htexts : spelledMembers members ≠ [] := by
        rw [spelledMembers_eq]
        simpa using hlast
      simp only [if_neg htexts, List.append_nil, List.length_append, List.length_cons] at hlength ⊢
      have hvalue := hread (key, value) List.mem_cons_self n _
        (afterValue_cons (.inl rfl) (List.intercalate [','] (spelledMembers members) ++ '}' :: rest))
        (by simp only; omega)
      have hcomma : ∀ w, PyJson.skipSpace (',' :: w) = ',' :: w := skipSpace_cons rfl
      have hstart : PyJson.skipSpace (List.intercalate [','] (spelledMembers members) ++ '}' :: rest) =
          List.intercalate [','] (spelledMembers members) ++ '}' :: rest := by
        obtain ⟨next, members, rfl⟩ := List.exists_cons_of_ne_nil hlast
        rw [spelledMembers, intercalate_cons, dumpText, List.cons_append, List.cons_append]
        exact skipSpace_cons rfl _
      have hmembers := ih hlast (fun x hx => hexact x (List.mem_cons_of_mem _ hx))
        (fun x hx => hread x (List.mem_cons_of_mem _ hx)) n (by omega)
      rw [hvalue]
      simp only [bind, Except.bind, hcomma, hstart, hmembers]
      rfl

theorem readsBack (hlimit : ∀ limit ∈ options.maxDigits, 16 ≤ limit) {value : Json} (h : Exact value) :
    ReadsBack options value := by
  induction h with
  | null =>
    intro n rest _ hn
    obtain ⟨n, rfl⟩ : ∃ k, n = k + 1 := ⟨n - 1, by omega⟩
    rfl
  | bool b =>
    intro n rest _ hn
    obtain ⟨n, rfl⟩ : ∃ k, n = k + 1 := ⟨n - 1, by omega⟩
    cases b <;> rfl
  | int hz =>
    intro n rest hends hn
    obtain ⟨n, rfl⟩ : ∃ k, n = k + 1 := ⟨n - 1, by omega⟩
    exact readValue_int hlimit hz n hends
  | str w =>
    intro n rest _ hn
    obtain ⟨n, rfl⟩ : ∃ k, n = k + 1 := ⟨n - 1, by omega⟩
    exact readValue_str w n rest
  | @arr items hitems ih =>
    intro n rest _ hn
    obtain ⟨n, rfl⟩ : ∃ k, n = k + 1 := ⟨n - 1, by omega⟩
    rw [spelled, spelledItems_eq] at hn ⊢
    simp only [List.length_cons, List.length_append, List.length_nil] at hn
    by_cases hempty : items = []
    · subst hempty
      rfl
    · have hread := readItems_spelled hempty hitems ih n rest (by omega)
      obtain ⟨c, w, hw, hspace, hbracket⟩ : ∃ c w, List.intercalate [','] (items.map spelled) ++ ']' :: rest =
          c :: w ∧ PyText.isJsonSpace c = false ∧ c ≠ ']' := by
        obtain ⟨first, items, rfl⟩ := List.exists_cons_of_ne_nil hempty
        obtain ⟨c, w, hw, hspace, hbracket⟩ := spelled_head (hitems first List.mem_cons_self)
        rw [List.map_cons, intercalate_cons, hw, List.cons_append]
        exact ⟨c, _, rfl, hspace, hbracket⟩
      rw [List.cons_append, List.append_assoc, List.singleton_append, PyJson.readValue, hw,
        skipSpace_cons hspace]
      rw [hw] at hread
      split
      · next heq => exact absurd (List.cons.inj heq).1 hbracket
      · rw [hread]
        rfl
  | @obj members hkeys hmembers ih =>
    intro n rest _ hn
    obtain ⟨n, rfl⟩ : ∃ k, n = k + 1 := ⟨n - 1, by omega⟩
    rw [spelled] at hn ⊢
    simp only [List.length_cons, List.length_append, List.length_nil] at hn
    by_cases hempty : members = []
    · subst hempty
      rfl
    · have hread := readMembers_spelled hempty hmembers ih n rest (by omega)
      obtain ⟨w, hw⟩ : ∃ w, List.intercalate [','] (spelledMembers members) ++ '}' :: rest = '"' :: w := by
        obtain ⟨first, members, rfl⟩ := List.exists_cons_of_ne_nil hempty
        rw [spelledMembers, intercalate_cons, dumpText, List.cons_append, List.cons_append]
        exact ⟨_, rfl⟩
      rw [List.cons_append, List.append_assoc, List.singleton_append, PyJson.readValue, hw,
        skipSpace_cons rfl]
      rw [hw] at hread
      simp [hread, bind, Except.bind, hkeys, pure, Except.pure]

theorem loads_spelled (hlimit : ∀ limit ∈ options.maxDigits, 16 ≤ limit) {value : Json} (h : Exact value) :
    PyJson.loads options (spelled value) = .ok value := by
  have hskip := skipSpace_spelled h []
  have hread := readsBack hlimit h ((spelled value).length + 1) [] (by simp [AfterValue]) (by omega)
  rw [List.append_nil] at hskip hread
  rw [PyJson.loads, hskip, hread]
  rfl

theorem canonicalJsonBytes_exact (reprOf : ℚ → ReprDecimal) {value : Json} (h : Exact value) :
    canonicalJsonBytes reprOf value = .ok (String.ofList (spelled (normal value))).toByteArray := by
  rw [canonicalJsonBytes, canonicalJson_exact reprOf h]
  rfl

theorem loadsBytes_text (text : Text) :
    loadsBytes (String.ofList text).toByteArray = PyJson.loads ⟨some 4300, false⟩ text := by
  have hvalid : (String.ofList text).toByteArray.IsValidUTF8 := (String.ofList text).isValidUTF8
  have hbytes : String.fromUTF8? (String.ofList text).toByteArray = some (String.ofList text) := by
    rw [String.fromUTF8?, dif_pos hvalid]
    rfl
  rw [loadsBytes, hbytes]
  simp only [String.toList_ofList]

/-- Two values have the same canonical bytes when, and only when, they are equal but for the order of
members; and the bytes are read back as the value. -/
theorem canonicalJsonBytes_iff (reprOf : ℚ → ReprDecimal) {u v : Json} (hu : Exact u) (hv : Exact v) :
    ∃ b c, canonicalJsonBytes reprOf u = .ok b ∧ canonicalJsonBytes reprOf v = .ok c ∧
      (b = c ↔ sameJson u v = true) ∧ ∃ w, loadsBytes b = .ok w ∧ sameJson w u = true := by
  have hloads : ∀ {value : Json}, Exact value →
      loadsBytes (String.ofList (spelled (normal value))).toByteArray = .ok (normal value) := by
    intro value h
    rw [loadsBytes_text]
    apply loads_spelled _ h.normal
    intro limit hlimit
    obtain rfl := Option.some.inj hlimit
    decide
  refine ⟨_, _, canonicalJsonBytes_exact reprOf hu, canonicalJsonBytes_exact reprOf hv, ?_, normal u,
    hloads hu, ?_⟩
  · rw [sameJson_iff hu hv]
    constructor
    · intro hbytes
      have hsame := hloads hu
      rw [hbytes, hloads hv] at hsame
      exact (Except.ok.inj hsame).symm
    · intro hnormal
      rw [hnormal]
  · rw [sameJson_iff hu.normal hu]
    exact normal_normal u

theorem canonicalJsonBytes_swapped :
    ∃ b c,
      canonicalJsonBytes (fun q => ⟨q < 0, Nat.toDigits 10 q.num.natAbs, 0⟩)
        (.obj [("b".toList, .int 1), ("a".toList, .arr [.bool true])]) = .ok b ∧
      canonicalJsonBytes (fun q => ⟨q < 0, Nat.toDigits 10 q.num.natAbs, 0⟩)
        (.obj [("a".toList, .arr [.bool true]), ("b".toList, .int 1)]) = .ok c ∧
      (b = c ↔ sameJson (.obj [("b".toList, .int 1), ("a".toList, .arr [.bool true])])
        (.obj [("a".toList, .arr [.bool true]), ("b".toList, .int 1)]) = true) ∧
      ∃ w, loadsBytes b = .ok w ∧
        sameJson w (.obj [("b".toList, .int 1), ("a".toList, .arr [.bool true])]) = true := by
  have harray : Exact (.arr [.bool true]) := .arr (by simpa using Exact.bool true)
  have hone : Exact (.int 1) := .int (by decide)
  apply canonicalJsonBytes_iff
  · exact .obj (by decide) (by simpa using ⟨hone, harray⟩)
  · exact .obj (by decide) (by simpa using ⟨harray, hone⟩)

end Raticode.Rattish
