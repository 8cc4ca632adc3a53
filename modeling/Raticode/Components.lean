import Mathlib.Data.List.Infix
import Mathlib.Tactic.Common

/-! Colon-separated names. A name is compared through the list of its
components: one name lies under another exactly when the other's component
list is a prefix of its own. -/
namespace Components

def comps (s : String) : List (List Char) := s.toList.splitOn ':'

def startsWith (s p : String) : Bool := p.toList.isPrefixOf s.toList

theorem comps_ne_nil (s : String) : comps s ≠ [] := List.splitOn_ne_nil _ _

theorem comps_injective : Function.Injective comps := by
  intro a b h
  have hh := congrArg (fun l => [':'].intercalate l) h
  simp only [comps, List.intercalate_splitOn] at hh
  exact String.toList_inj.mp hh

@[simp] theorem comps_inj {a b : String} : comps a = comps b ↔ a = b := comps_injective.eq_iff

theorem comps_join (a b : String) : comps (a ++ ":" ++ b) = comps a ++ comps b := by
  simp only [comps, String.toList_append]
  rw [List.append_assoc]
  exact List.splitOn_append_cons_self _ _

theorem comps_of_not_mem {s : String} (h : ':' ∉ s.toList) : comps s = [s.toList] :=
  List.splitOn_eq_singleton h

theorem not_mem_colon_repr (n : ℕ) : ':' ∉ (toString n).toList := by
  rw [Nat.toString_eq_repr, Nat.toList_repr]
  intro h
  have hd := Nat.isDigit_of_mem_toDigits (by decide) (by decide) h
  exact absurd hd (by decide)

@[simp] theorem comps_toString (n : ℕ) : comps (toString n) = [(toString n).toList] :=
  comps_of_not_mem (not_mem_colon_repr n)

theorem toString_injective : Function.Injective (fun n : ℕ => toString n) := by
  intro m n h
  have hh := congrArg (fun s : String => Nat.ofDigitChars 10 s.toList 0) h
  simpa only [Nat.toString_eq_repr, Nat.toList_repr, Nat.ofDigitChars_ten_toDigits] using hh

theorem toString_ne_of_not_digit {n : ℕ} {w : List Char} {c : Char} (hc : c ∈ w)
    (hd : c.isDigit = false) : (toString n).toList ≠ w := by
  intro h
  rw [Nat.toString_eq_repr, Nat.toList_repr] at h
  have hh := Nat.isDigit_of_mem_toDigits (b := 10) (n := n) (by decide) (by decide) (h ▸ hc)
  rw [hd] at hh
  exact absurd hh (by decide)

theorem intercalate_append {α : Type*} (x : α) (ls ms : List (List α)) (hl : ls ≠ [])
    (hm : ms ≠ []) :
    [x].intercalate (ls ++ ms) = [x].intercalate ls ++ x :: [x].intercalate ms := by
  induction ls with
  | nil => exact absurd rfl hl
  | cons l ls ih =>
    by_cases hn : ls = []
    · subst hn
      simp [List.intercalate_cons_of_ne_nil hm]
    · have happ : ls ++ ms ≠ [] := by simp [hn]
      rw [List.cons_append, List.intercalate_cons_of_ne_nil happ, ih hn,
        List.intercalate_cons_of_ne_nil hn]
      simp

theorem eq_or_startsWith_iff (g x : String) :
    (x = g ∨ startsWith x (g ++ ":") = true) ↔ comps g <+: comps x := by
  constructor
  · rintro (rfl | h)
    · exact List.prefix_rfl
    · obtain ⟨t, ht⟩ := List.isPrefixOf_iff_prefix.mp h
      have hx : x = g ++ ":" ++ String.ofList t := by
        apply String.toList_inj.mp
        simp [← ht]
      rw [hx, comps_join]
      exact List.prefix_append _ _
  · rintro ⟨rest, hr⟩
    by_cases hn : rest = []
    · left
      subst hn
      exact (comps_inj.mp (by simpa using hr)).symm
    · right
      have hh := congrArg (fun l => [':'].intercalate l) hr
      simp only [intercalate_append ':' (comps g) rest (comps_ne_nil g) hn] at hh
      simp only [comps, List.intercalate_splitOn] at hh
      apply List.isPrefixOf_iff_prefix.mpr
      refine ⟨[':'].intercalate rest, ?_⟩
      rw [← hh, String.toList_append]
      simp

end Components
