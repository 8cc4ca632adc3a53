import Mathlib.Data.List.Forall2
import Raticode.RattishSchemaCompat

/-! When `schema_accepts_schema` is sound: every comparison it skips is one
that has nothing to compare. -/
namespace Raticode.Rattish
open OrderedDict

variable {search : String → String → Bool}

namespace Value

theorem jsonEqList_iff (xs ys : List Value) :
    jsonEqList xs ys = true ↔ List.Forall₂ (fun x y => jsonEq x y = true) xs ys := by
  induction xs generalizing ys with
  | nil =>
    cases ys with
    | nil => simp [jsonEqList]
    | cons y ys => exact ⟨fun h => by simp [jsonEqList] at h, fun h => nomatch h⟩
  | cons x xs ih =>
    cases ys with
    | nil => exact ⟨fun h => by simp [jsonEqList] at h, fun h => nomatch h⟩
    | cons y ys => simp [jsonEqList, ih]

theorem jsonEqFields_iff (xs ys : List (String × Value)) :
    jsonEqFields xs ys = true ↔
      ∀ p ∈ xs, ∃ w, Dict.get ys p.1 = some w ∧ jsonEq p.2 w = true := by
  induction xs with
  | nil => simp [jsonEqFields]
  | cons p xs ih =>
    obtain ⟨k, v⟩ := p
    simp only [jsonEqFields, Bool.and_eq_true, ih, List.mem_cons, forall_eq_or_imp]
    refine and_congr_left (fun _ => ?_)
    cases Dict.get ys k <;> simp

theorem jsonEq_obj_iff (xs ys : List (String × Value)) :
    jsonEq (.obj xs) (.obj ys) = true ↔
      (∀ p ∈ xs, ∃ w, Dict.get ys p.1 = some w ∧ jsonEq p.2 w = true) ∧
      ∀ p ∈ ys, (Dict.get xs p.1).isSome := by
  simp only [jsonEq, Bool.and_eq_true, jsonEqFields_iff, List.all_eq_true]

theorem sizeOf_member {xs : List (String × Value)} {p : String × Value} (h : p ∈ xs) :
    sizeOf p.2 < sizeOf (Value.obj xs) := by
  have hm := List.sizeOf_lt_of_mem h
  obtain ⟨k, v⟩ := p
  simp at *
  omega

theorem sizeOf_element {xs : List Value} {x : Value} (h : x ∈ xs) :
    sizeOf x < sizeOf (Value.arr xs) := by
  have hm := List.sizeOf_lt_of_mem h
  simp
  omega

theorem jsonEq_cases {v w : Value} (h : jsonEq v w = true) :
    (v.number?.isSome ∧ v.number? = w.number?) ∨
    (v = w ∧ v.number? = none ∧ v.elements = [] ∧ v.members = []) ∨
    (∃ xs ys, v = .arr xs ∧ w = .arr ys ∧ List.Forall₂ (fun x y => jsonEq x y = true) xs ys) ∨
    (∃ xs ys, v = .obj xs ∧ w = .obj ys ∧
      (∀ p ∈ xs, ∃ u, Dict.get ys p.1 = some u ∧ jsonEq p.2 u = true) ∧
      ∀ p ∈ ys, (Dict.get xs p.1).isSome) := by
  cases v with
  | obj xs =>
    cases w with
    | obj ys => exact .inr (.inr (.inr ⟨xs, ys, rfl, rfl, (jsonEq_obj_iff xs ys).mp h⟩))
    | _ => simp [jsonEq] at h
  | arr xs =>
    cases w with
    | arr ys => exact .inr (.inr (.inl ⟨xs, ys, rfl, rfl, (jsonEqList_iff xs ys).mp h⟩))
    | _ => simp [jsonEq] at h
  | _ => cases w <;> simp_all [jsonEq, number?, elements, members]

theorem forall₂_exists_right {α β : Type*} {R : α → β → Prop} {xs : List α} {ys : List β}
    (h : List.Forall₂ R xs ys) {x : α} (hx : x ∈ xs) : ∃ y ∈ ys, R x y := by
  induction h with
  | nil => simp at hx
  | @cons a b _ _ hab _ ih =>
    rcases List.mem_cons.mp hx with rfl | hx
    · exact ⟨b, List.mem_cons_self, hab⟩
    · obtain ⟨y, hy, hxy⟩ := ih hx
      exact ⟨y, List.mem_cons_of_mem _ hy, hxy⟩

theorem jsonEq_of_number {v w : Value} (hv : v.number?.isSome) (h : v.number? = w.number?) :
    jsonEq v w = true := by
  cases v <;> cases w <;> simp_all [jsonEq, number?]

theorem forall₂_trans_of_mem {α : Type*} {R : α → α → Prop} {xs ys zs : List α}
    (ht : ∀ x ∈ xs, ∀ y z, R x y → R y z → R x z)
    (h₁ : List.Forall₂ R xs ys) (h₂ : List.Forall₂ R ys zs) : List.Forall₂ R xs zs := by
  induction h₁ generalizing zs with
  | nil => exact h₂
  | cons hxy _ ih =>
    cases h₂ with
    | cons hyz hrest =>
      exact .cons (ht _ List.mem_cons_self _ _ hxy hyz)
        (ih (fun x hx => ht x (List.mem_cons_of_mem _ hx)) hrest)

theorem jsonEq_trans_of_size (n : ℕ) (u v w : Value) (hu : sizeOf u < n)
    (h₁ : jsonEq u v = true) (h₂ : jsonEq v w = true) : jsonEq u w = true := by
  induction n generalizing u v w with
  | zero => omega
  | succ n ih =>
  rcases jsonEq_cases h₁ with ⟨hn, he⟩ | ⟨rfl, -⟩ | ⟨xs, ys, rfl, rfl, hxy⟩ |
      ⟨xs, ys, rfl, rfl, hxy, hyx⟩
  · rcases jsonEq_cases h₂ with ⟨-, he'⟩ | ⟨rfl, hz, -⟩ | ⟨_, _, rfl, -⟩ | ⟨_, _, rfl, -⟩
    · exact jsonEq_of_number hn (he.trans he')
    · simp [he, hz] at hn
    · rw [he] at hn
      simp [number?] at hn
    · rw [he] at hn
      simp [number?] at hn
  · exact h₂
  · rcases jsonEq_cases h₂ with ⟨hn, -⟩ | ⟨rfl, -⟩ | ⟨_, zs, he, rfl, hyz⟩ | ⟨_, _, he, -⟩
    · simp [number?] at hn
    · exact h₁
    · cases he
      refine (jsonEqList_iff xs zs).mpr (forall₂_trans_of_mem (fun x hx y z => ?_) hxy hyz)
      exact ih x y z (by have := sizeOf_element hx; omega)
    · cases he
  · rcases jsonEq_cases h₂ with ⟨hn, -⟩ | ⟨rfl, -⟩ | ⟨_, _, he, -⟩ | ⟨_, zs, he, rfl, hyz, hzy⟩
    · simp [number?] at hn
    · exact h₁
    · cases he
    · cases he
      refine (jsonEq_obj_iff xs zs).mpr ⟨?_, ?_⟩
      · intro p hp
        obtain ⟨a, ha, hpa⟩ := hxy p hp
        obtain ⟨b, hb, hab⟩ := hyz (p.1, a) (Dict.mem_of_get ha)
        exact ⟨b, hb, ih p.2 a b (by have := sizeOf_member hp; omega) hpa hab⟩
      · intro p hp
        obtain ⟨a, ha⟩ := Option.isSome_iff_exists.mp (hzy p hp)
        exact hyx (p.1, a) (Dict.mem_of_get ha)

theorem jsonEq_trans {u v w : Value} (h₁ : jsonEq u v = true) (h₂ : jsonEq v w = true) :
    jsonEq u w = true :=
  jsonEq_trans_of_size (sizeOf u + 1) u v w (by omega) h₁ h₂

theorem hasType_of_jsonEq {v w : Value} (h : jsonEq v w = true) (t : TypeName) :
    v.hasType t = w.hasType t := by
  cases v <;> cases w <;> simp [jsonEq] at h <;> cases t <;> simp_all [hasType]
  all_goals subst h; simp

end Value

theorem Keywords.scalarsHold_of_jsonEq {k : Keywords Schema} {v w : Value}
    (h : Value.jsonEq v w = true) (hw : k.scalarsHold search w = true) :
    k.scalarsHold search v = true := by
  simp only [Keywords.scalarsHold, Bool.and_eq_true] at hw ⊢
  obtain ⟨⟨⟨⟨htype, hconst⟩, henum⟩, hnum⟩, hshape⟩ := hw
  refine ⟨⟨⟨⟨?_, ?_⟩, ?_⟩, ?_⟩, ?_⟩
  · simpa only [Value.hasType_of_jsonEq h] using htype
  · rw [Option.all_eq_true] at hconst ⊢
    exact fun c hc => Value.jsonEq_trans h (hconst c hc)
  · rw [Option.all_eq_true] at henum ⊢
    intro vs hvs
    obtain ⟨c, hc, hwc⟩ := List.any_eq_true.mp (henum vs hvs)
    exact List.any_eq_true.mpr ⟨c, hc, Value.jsonEq_trans h hwc⟩
  · rcases Value.jsonEq_cases h with ⟨-, he⟩ | ⟨rfl, -⟩ | ⟨_, _, rfl, rfl, -⟩ | ⟨_, _, rfl, rfl, -⟩
    · rwa [he]
    · exact hnum
    · rfl
    · rfl
  · rcases Value.jsonEq_cases h with ⟨hn, -⟩ | ⟨rfl, -⟩ | ⟨xs, ys, rfl, rfl, he⟩ |
        ⟨xs, ys, rfl, rfl, -, hyx⟩
    · cases v <;> simp_all [Value.number?]
    · exact hshape
    · simpa only [he.length_eq] using hshape
    · rw [Option.all_eq_true] at hshape ⊢
      intro names hnames
      rw [List.all_eq_true]
      intro n hn
      obtain ⟨a, ha⟩ := Option.isSome_iff_exists.mp (List.all_eq_true.mp (hshape names hnames) n hn)
      exact hyx (n, a) (Dict.mem_of_get ha)

theorem Keywords.memberSchema_cases (k : Keywords Schema) (name : String) :
    k.memberSchema name = .bool true ∨ sizeOf (k.memberSchema name) < sizeOf k := by
  unfold Keywords.memberSchema
  split
  next s hp =>
    have hm := Dict.mem_of_get hp
    cases hprops : k.properties with
    | none => simp [hprops] at hm
    | some l => exact .inr (Schema.sizeOf_property hprops (by simpa [hprops] using hm))
  next =>
    cases ha : k.additionalProperties with
    | none => exact .inl rfl
    | some s => exact .inr (Schema.sizeOf_additional ha)

theorem Schema.valid_of_jsonEq_of_size (n : ℕ) (σ : Schema) (v w : Value) (hσ : sizeOf σ < n)
    (h : Value.jsonEq v w = true) (hw : Schema.valid search σ w = true) :
    Schema.valid search σ v = true := by
  induction n generalizing σ v w with
  | zero => omega
  | succ n ih =>
  cases σ with
  | bool b => simpa [Schema.valid_bool] using hw
  | obj k =>
    have hk : sizeOf k < n := by
      simp only [Schema.obj.sizeOf_spec] at hσ
      omega
    rw [Schema.valid_obj_iff] at hw ⊢
    obtain ⟨hs, hany, hitems, hmembers⟩ := hw
    refine ⟨Keywords.scalarsHold_of_jsonEq h hs, ?_, ?_, ?_⟩
    · intro branches hb
      obtain ⟨b, hbm, hbv⟩ := hany branches hb
      exact ⟨b, hbm, ih b v w ((Schema.sizeOf_anyOf hb hbm).trans hk) h hbv⟩
    · intro s hi x hx
      have hsize := (Schema.sizeOf_items hi).trans hk
      rcases Value.jsonEq_cases h with ⟨hn, -⟩ | ⟨rfl, -⟩ | ⟨xs, ys, rfl, rfl, he⟩ |
          ⟨xs, ys, rfl, rfl, -⟩
      · cases v <;> simp [Value.number?, Value.elements] at hn hx
      · exact hitems s hi x hx
      · obtain ⟨y, hy, hxy⟩ := Value.forall₂_exists_right he hx
        exact ih s x y hsize hxy (hitems s hi y hy)
      · simp [Value.elements] at hx
    · intro f hf
      rcases k.memberSchema_cases f.1 with ht | hmember
      · rw [ht, Schema.valid_bool]
      rcases Value.jsonEq_cases h with ⟨hn, -⟩ | ⟨rfl, -⟩ | ⟨xs, ys, rfl, rfl, -⟩ |
          ⟨xs, ys, rfl, rfl, hxy, -⟩
      · cases v <;> simp [Value.number?, Value.members] at hn hf
      · exact hmembers f hf
      · simp [Value.members] at hf
      · obtain ⟨y, hy, hfy⟩ := hxy f hf
        exact ih _ f.2 y (hmember.trans hk) hfy (hmembers (f.1, y) (Dict.mem_of_get hy))

theorem Schema.valid_of_jsonEq {σ : Schema} {v w : Value} (h : Value.jsonEq v w = true)
    (hw : Schema.valid search σ w = true) : Schema.valid search σ v = true :=
  Schema.valid_of_jsonEq_of_size (sizeOf σ + 1) σ v w (by omega) h hw

namespace Keywords

variable {lt : ℚ → ℚ → Bool}

/-- `x` keeps to a bound of the side of `lt`. -/
def keepsTo (lt : ℚ → ℚ → Bool) (b : ℚ × Bool) (x : ℚ) : Prop :=
  lt b.1 x = true ∨ (b.2 = false ∧ b.1 = x)

/-- The bound `a` is at least as strong as `b`. -/
def Implies (lt : ℚ → ℚ → Bool) (a b : ℚ × Bool) : Prop :=
  lt b.1 a.1 = true ∨ (a.1 = b.1 ∧ (b.2 = true → a.2 = true))

/-- `<` and `>` on the rationals, the two orders a bound is compared in. -/
structure Side (lt : ℚ → ℚ → Bool) : Prop where
  trans : ∀ a b c, lt a b = true → lt b c = true → lt a c = true
  total : ∀ a b, lt a b = true ∨ a = b ∨ lt b a = true

theorem side_below : Side below :=
  ⟨fun a b c h₁ h₂ => by simp only [below, decide_eq_true_eq] at *; exact h₁.trans h₂,
    fun a b => by simpa only [below, decide_eq_true_eq] using lt_trichotomy a b⟩

theorem side_above : Side above :=
  ⟨fun a b c h₁ h₂ => by simp only [above, decide_eq_true_eq] at *; exact h₂.trans h₁,
    fun a b => by
      simp only [above, decide_eq_true_eq]
      rcases lt_trichotomy a b with h | h | h
      exacts [.inr (.inr h), .inr (.inl h), .inl h]⟩

theorem Implies.refl (a : ℚ × Bool) : Implies lt a a := .inr ⟨rfl, id⟩

theorem Implies.trans (hlt : Side lt) {a b c : ℚ × Bool} (h₁ : Implies lt a b)
    (h₂ : Implies lt b c) : Implies lt a c := by
  rcases h₁ with h₁ | ⟨e₁, i₁⟩
  · rcases h₂ with h₂ | ⟨e₂, -⟩
    · exact .inl (hlt.trans _ _ _ h₂ h₁)
    · exact .inl (e₂ ▸ h₁)
  · rcases h₂ with h₂ | ⟨e₂, i₂⟩
    · exact .inl (e₁ ▸ h₂)
    · exact .inr ⟨e₁.trans e₂, fun h => i₁ (i₂ h)⟩

theorem keepsTo_of_implies (hlt : Side lt) {a b : ℚ × Bool} {x : ℚ} (h : Implies lt a b)
    (ha : keepsTo lt a x) : keepsTo lt b x := by
  rcases h with h | ⟨e, i⟩
  · rcases ha with ha | ⟨-, rfl⟩
    · exact .inl (hlt.trans _ _ _ h ha)
    · exact .inl h
  · rcases ha with ha | ⟨ha, rfl⟩
    · exact .inl (e ▸ ha)
    · refine .inr ⟨?_, e.symm⟩
      by_contra hb
      simp [i (by simpa using hb)] at ha

theorem stronger_implies (hlt : Side lt) (a b : ℚ × Bool) :
    Implies lt (stronger lt a b) a ∧ Implies lt (stronger lt a b) b := by
  unfold stronger
  split
  next h =>
    refine ⟨?_, .refl b⟩
    simp only [Bool.or_eq_true, Bool.and_eq_true, decide_eq_true_eq] at h
    rcases h with h | ⟨⟨he, -⟩, hb⟩
    · exact .inl h
    · exact .inr ⟨he.symm, fun _ => hb⟩
  next h =>
    refine ⟨.refl a, ?_⟩
    simp only [Bool.or_eq_true, Bool.and_eq_true, decide_eq_true_eq, not_or] at h
    rcases hlt.total a.1 b.1 with h' | he | h'
    · exact absurd h' h.1
    · refine .inr ⟨he, fun hb => ?_⟩
      by_contra ha
      exact h.2 ⟨⟨he, by simpa using ha⟩, hb⟩
    · exact .inl h'

theorem foldl_stronger (hlt : Side lt) (cs : List (ℚ × Bool)) (c : ℚ × Bool) :
    cs.foldl (stronger lt) c ∈ c :: cs ∧
      ∀ c' ∈ c :: cs, Implies lt (cs.foldl (stronger lt) c) c' := by
  induction cs generalizing c with
  | nil => simpa using Implies.refl c
  | cons c₁ cs ih =>
    obtain ⟨hm, hi⟩ := ih (stronger lt c c₁)
    obtain ⟨h₀, h₁⟩ := stronger_implies hlt c c₁
    have hs : stronger lt c c₁ = c ∨ stronger lt c c₁ = c₁ := by
      unfold stronger
      split <;> simp
    have htop := hi _ List.mem_cons_self
    simp only [List.foldl_cons, List.mem_cons, forall_eq_or_imp] at hm hi ⊢
    refine ⟨?_, htop.trans hlt h₀, htop.trans hlt h₁, hi.2⟩
    rcases hm with hm | hm
    · rw [hm]
      rcases hs with hs | hs <;> simp [hs]
    · exact .inr (.inr hm)

theorem strongest_implies (hlt : Side lt) {cs : List (ℚ × Bool)} {b : ℚ × Bool}
    (h : strongest lt cs = some b) : b ∈ cs ∧ ∀ c ∈ cs, Implies lt b c := by
  cases cs with
  | nil => simp [strongest] at h
  | cons c cs =>
    obtain rfl : cs.foldl (stronger lt) c = b := by simpa [strongest] using h
    exact foldl_stronger hlt cs c

theorem implies_of_covers (hlt : Side lt) {d s : ℚ × Bool}
    (h : boundCovers lt (some d) (some s) = true) : Implies lt s d := by
  simp only [boundCovers, Bool.and_eq_true, Bool.not_eq_true', Bool.and_eq_false_imp,
    decide_eq_true_eq] at h
  rcases hlt.total s.1 d.1 with hd | he | hd
  · simp [h.1] at hd
  · exact .inr ⟨he, fun hd => by simpa using h.2 ⟨he, hd⟩⟩
  · exact .inl hd

def bounds {σ : Type} (k : Keywords σ) (lower : Bool) : List (Num × Bool) :=
  (if lower then k.minimum else k.maximum).toList.map (·, false) ++
    (if lower then k.exclusiveMinimum else k.exclusiveMaximum).toList.map (·, true)

/-- `float` keeps the order of the bounds of one side. Integers within the 53
bits of a double always do, larger ones can fall together. -/
def FloatKeepsOrder {σ : Type} (d s : Keywords σ) (lower : Bool) : Prop :=
  ∀ a ∈ d.bounds lower ++ s.bounds lower, ∀ b ∈ d.bounds lower ++ s.bounds lower, ∀ x y,
    a.1.toFloat = some x → b.1.toFloat = some y → (a.1.value < b.1.value ↔ x < y)

/-- The instance `x` keeps to both bounds of one side. -/
def KeepsSide {σ : Type} (k : Keywords σ) (lower : Bool) (x : ℚ) : Prop :=
  ∀ b ∈ k.bounds lower, keepsTo (if lower then below else above) (b.1.value, b.2) x

theorem numericBound_eq_some {σ : Type} {k : Keywords σ} {lower : Bool}
    {r : Option (ℚ × Bool)} (h : k.numericBound lower = some r) :
    ∃ cs, List.Forall₂ (fun b c => b.1.toFloat = some c.1 ∧ b.2 = c.2) (k.bounds lower) cs ∧
      strongest (if lower then below else above) cs = r := by
  have hc : ∀ (bound : Option Num) (e : Bool) (cs : List (ℚ × Bool)),
      boundCandidate bound e = some cs →
        List.Forall₂ (fun b c => b.1.toFloat = some c.1 ∧ b.2 = c.2)
          (bound.toList.map (·, e)) cs := by
    intro bound e cs h
    cases bound with
    | none =>
      obtain rfl : [] = cs := by simpa [boundCandidate] using h
      exact .nil
    | some b =>
      obtain ⟨x, hx, rfl⟩ : ∃ x, b.toFloat = some x ∧ [(x, e)] = cs := by
        simpa [boundCandidate] using h
      exact .cons ⟨hx, rfl⟩ .nil
  simp only [numericBound, Option.bind_eq_bind, Option.bind_eq_some_iff, Option.pure_def,
    Option.some.injEq] at h
  obtain ⟨cs₁, h₁, cs₂, h₂, rfl⟩ := h
  exact ⟨cs₁ ++ cs₂, List.rel_append (hc _ _ _ h₁) (hc _ _ _ h₂), rfl⟩

theorem keepsSide_of_covers {d s : Keywords Schema} {lower : Bool} {x : ℚ}
    {dl sl : Option (ℚ × Bool)} (hkeep : d.bounds lower ≠ [] → FloatKeepsOrder d s lower)
    (hdl : d.numericBound lower = some dl) (hsl : s.numericBound lower = some sl)
    (h : boundCovers (if lower then below else above) dl sl = true)
    (hx : KeepsSide s lower x) : KeepsSide d lower x := by
  have hlt : Side (if lower then below else above) := by
    cases lower
    exacts [side_above, side_below]
  intro b hb
  have horder := hkeep (List.ne_nil_of_mem hb)
  obtain ⟨dcs, hd, rfl⟩ := numericBound_eq_some hdl
  obtain ⟨scs, hs, rfl⟩ := numericBound_eq_some hsl
  obtain ⟨c, hc, hbc, hbe⟩ := Value.forall₂_exists_right hd hb
  cases hdt : strongest (if lower then below else above) dcs with
  | none =>
    cases dcs with
    | nil => simp at hc
    | cons _ _ => simp [strongest] at hdt
  | some td =>
    cases hst : strongest (if lower then below else above) scs with
    | none => simp [hdt, hst, boundCovers] at h
    | some ts =>
      rw [hdt, hst] at h
      obtain ⟨hts, -⟩ := strongest_implies hlt hst
      obtain ⟨a, ha, hac, hae⟩ := Value.forall₂_exists_right hs.flip hts
      -- on the converted numbers the strongest source bound implies this one
      have himp := (implies_of_covers hlt h).trans hlt ((strongest_implies hlt hdt).2 c hc)
      have hab := horder a (List.mem_append_right _ ha) b (List.mem_append_left _ hb) _ _ hac hbc
      have hba := horder b (List.mem_append_left _ hb) a (List.mem_append_right _ ha) _ _ hbc hac
      refine keepsTo_of_implies hlt ?_ (hx a ha)
      rcases himp with himp | ⟨he, hi⟩
      · left
        cases lower
        · simpa [above, hab] using himp
        · simpa [below, hba] using himp
      · refine .inr ⟨?_, fun hb' => hae ▸ hi (hbe ▸ hb')⟩
        exact le_antisymm (le_of_not_gt fun h' => (hba.mp h').ne' he)
          (le_of_not_gt fun h' => (hab.mp h').ne he)

end Keywords

theorem allM_eq_some_true {α : Type*} {p : α → Option Bool} {l : List α} :
    l.allM p = some true ↔ ∀ x ∈ l, p x = some true := by
  induction l with
  | nil => simp [List.allM]
  | cons x l ih =>
    cases hx : p x with
    | none => simp [List.allM, hx]
    | some b => cases b <;> simp [List.allM, hx, ih]

theorem checkAnd_eq_some_true {a b : Option Bool} :
    checkAnd a b = some true ↔ a = some true ∧ b = some true := by
  cases a with
  | none => simp [checkAnd]
  | some x => cases x <;> simp [checkAnd]


end Raticode.Rattish
