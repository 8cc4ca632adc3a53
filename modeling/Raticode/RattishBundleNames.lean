import Mathlib.Data.List.Pairwise
import Raticode.RattishBundleImports

/-! The names of a bundle that `_validate_bundle_path_collisions` accepts together. -/
namespace Raticode.Bundle
open PyDocument Attempt OrderedDict

variable {h : Host} {name : Str} {names : List Str}

def Spelled (names : List Str) (spelling : Str) : Prop :=
  ∃ name ∈ names, ∃ above, above ≠ [] ∧ above <+: parts name ∧ slashed above = spelling

structure StandTogether (h : Host) (names : List Str) : Prop where
  distinct : names.Nodup
  apart : ∀ a ∈ names, ∀ b ∈ names, parts a <+: parts b → parts a = parts b
  spelled : ∀ s t, Spelled names s → Spelled names t → h.casefold s = h.casefold t → s = t

theorem not_mem_of_splitOn {c : ℕ} {w piece : Str} (hpiece : piece ∈ w.splitOn c) : c ∉ piece := by
  induction w generalizing piece with
  | nil =>
    rw [List.splitOn_nil, List.mem_singleton] at hpiece
    rw [hpiece]
    exact List.not_mem_nil
  | cons x w ih =>
    rw [List.splitOn, List.splitOnP_cons_eq_if_modifyHead] at hpiece
    split at hpiece
    · rcases List.mem_cons.mp hpiece with rfl | hpiece
      · exact List.not_mem_nil
      · exact ih hpiece
    next hx =>
      obtain ⟨first, more, hsplit⟩ := List.exists_cons_of_ne_nil (List.splitOnP_ne_nil (· == c) w)
      rw [hsplit, List.modifyHead_cons] at hpiece
      have hfirst : c ∉ first := ih (by rw [List.splitOn, hsplit]; exact List.mem_cons_self)
      rcases List.mem_cons.mp hpiece with rfl | hpiece
      · intro hmem
        rcases List.mem_cons.mp hmem with rfl | hmem
        · exact hx (beq_self_eq_true _)
        · exact hfirst hmem
      · exact ih (by rw [List.splitOn, hsplit]; exact List.mem_cons_of_mem _ hpiece)

theorem slash_not_mem {part : Str} (hpart : part ∈ parts name) : 47 ∉ part :=
  not_mem_of_splitOn (List.mem_filter.mp hpart).1

theorem eq_of_slashed {a b : Str} {p q : List Str} (hp : p <+: parts a) (hq : q <+: parts b)
    (hpne : p ≠ []) (hqne : q ≠ []) (hsame : slashed p = slashed q) : p = q := by
  have hsplit := congrArg (fun w => w.splitOn 47) hsame
  simp only [slashed] at hsplit
  rwa [List.splitOn_intercalate 47 (fun part hpart => slash_not_mem (hp.subset hpart)) hpne,
    List.splitOn_intercalate 47 (fun part hpart => slash_not_mem (hq.subset hpart)) hqne] at hsplit

theorem mem_impliedPaths_iff {s : Str × Bool} : s ∈ impliedPaths name ↔ ∃ above, above ≠ [] ∧
    above <+: parts name ∧ s = (slashed above, decide (above.length = (parts name).length)) := by
  constructor
  · intro hs
    obtain ⟨i, hi, rfl⟩ := List.mem_map.mp hs
    have hlt : i < (parts name).length := List.mem_range.mp hi
    have hlength : ((parts name).take (i + 1)).length = i + 1 := by
      rw [List.length_take]
      omega
    refine ⟨(parts name).take (i + 1), ?_, List.take_prefix _ _, ?_⟩
    · rw [← List.length_pos_iff, hlength]
      exact Nat.succ_pos i
    · rw [hlength]
  · rintro ⟨above, hne, hbelow, rfl⟩
    exact mem_impliedPaths hbelow hne

theorem spelled_of_mem {s : Str × Bool} (hname : name ∈ names) (hs : s ∈ impliedPaths name) :
    Spelled names s.1 := by
  obtain ⟨above, hne, hbelow, rfl⟩ := mem_impliedPaths_iff.mp hs
  exact ⟨name, hname, above, hne, hbelow, rfl⟩

theorem standTogether_of_pairwise (hvalid : ∀ name ∈ names, validBundlePath h name = true)
    (hagree : (names.flatMap impliedPaths).Pairwise (Agree h)) : StandTogether h names := by
  obtain ⟨hinside, hbetween⟩ := List.pairwise_flatMap.mp hagree
  have hsymm : Std.Symm (Together h) := ⟨fun _ _ => Together.symm⟩
  have hsymm' : Std.Symm (Agree h) := ⟨fun _ _ => Agree.symm⟩
  have htogether : ∀ a ∈ names, ∀ b ∈ names, a ≠ b → Together h a b :=
    fun a ha b hb hne => List.Pairwise.forall (R := Together h) hbetween ha hb hne
  refine ⟨?_, ?_, ?_⟩
  · refine hbetween.imp_of_mem (fun {a b} ha hb hab => ?_)
    rintro rfl
    exact Together.not_prefix (hvalid a ha) hab (List.prefix_refl _)
  · intro a ha b hb hbelow
    by_cases hsame : a = b
    · rw [hsame]
    · exact absurd hbelow (Together.not_prefix (hvalid a ha) (htogether a ha b hb hsame))
  · rintro s t ⟨a, ha, p, hp, hpa, rfl⟩ ⟨b, hb, q, hq, hqb, rfl⟩ hfold
    have hs := mem_impliedPaths hpa hp
    have ht := mem_impliedPaths hqb hq
    by_cases hsame : a = b
    · rw [← hsame] at ht
      by_contra hne
      have hpair := List.Pairwise.forall (hinside a ha) hs ht (fun he => hne (congrArg Prod.fst he))
      exact hne (hpair hfold).1
    · exact (htogether a ha b hb hsame _ hs _ ht hfold).1

theorem StandTogether.together (hstand : StandTogether h names)
    (hvalid : ∀ name ∈ names, validBundlePath h name = true) {a b : Str} (ha : a ∈ names)
    (hb : b ∈ names) (hne : a ≠ b) : Together h a b := by
  have hfile : ∀ x ∈ names, ∀ y ∈ names, x ≠ y → ∀ p, p <+: parts x → p <+: parts y →
      decide (p.length = (parts x).length) = false := by
    intro x hx y hy hxy p hpx hpy
    apply decide_eq_false
    intro hlength
    rw [hpx.eq_of_length hlength] at hpy
    have hparts := hstand.apart x hx y hy hpy
    apply hxy
    rw [← (valid_parts (hvalid x hx)).2, hparts, (valid_parts (hvalid y hy)).2]
  intro s hs t ht hfold
  have hspelled := hstand.spelled _ _ (spelled_of_mem ha hs) (spelled_of_mem hb ht) hfold
  obtain ⟨p, hp, hpa, rfl⟩ := mem_impliedPaths_iff.mp hs
  obtain ⟨q, hq, hqb, rfl⟩ := mem_impliedPaths_iff.mp ht
  obtain rfl := eq_of_slashed hpa hqb hp hq hspelled
  exact ⟨rfl, hfile a ha b hb hne p hpa hqb, hfile b hb a ha (Ne.symm hne) p hqb hpa⟩

theorem StandTogether.pairwise (hstand : StandTogether h names)
    (hvalid : ∀ name ∈ names, validBundlePath h name = true) :
    (names.flatMap impliedPaths).Pairwise (Agree h) := by
  apply List.pairwise_flatMap.mpr
  constructor
  · intro a ha
    apply List.pairwise_map.mpr
    refine List.pairwise_lt_range.imp_of_mem (fun {i j} hi hj hij => ?_)
    intro hfold
    -- The paths above one name have different lengths.
    have hlength : ∀ k, k ∈ List.range (parts a).length → ((parts a).take (k + 1)).length = k + 1 := by
      intro k hk
      have hlt := List.mem_range.mp hk
      rw [List.length_take]
      omega
    have hne : ∀ k, k ∈ List.range (parts a).length → (parts a).take (k + 1) ≠ [] := by
      intro k hk
      rw [← List.length_pos_iff, hlength k hk]
      exact Nat.succ_pos k
    have hspelled := hstand.spelled _ _ ⟨a, ha, _, hne i hi, List.take_prefix _ _, rfl⟩
      ⟨a, ha, _, hne j hj, List.take_prefix _ _, rfl⟩ hfold
    have hsame := eq_of_slashed (List.take_prefix _ _) (List.take_prefix _ _) (hne i hi) (hne j hj) hspelled
    have heq := congrArg List.length hsame
    rw [hlength i hi, hlength j hj] at heq
    omega
  · exact hstand.distinct.imp_of_mem (fun ha hb hne => hstand.together hvalid ha hb hne)

/-- Names that are accepted one by one are accepted together if and only if they stand together, and
their order does not matter. -/
theorem collisions_exact (h : Host) (names : List Str)
    (hvalid : ∀ name ∈ names, validateBundlePath h name = .ok ()) :
    (validateBundlePathCollisions h names = .ok () ↔ StandTogether h names) ∧
      ∀ names', names.Perm names' →
        (validateBundlePathCollisions h names' = .ok () ↔
          validateBundlePathCollisions h names = .ok ()) := by
  have hpaths : ∀ name ∈ names, validBundlePath h name = true := by
    intro name hname
    have hok := hvalid name hname
    rw [validateBundlePath] at hok
    cases hcheck : validBundlePath h name with
    | true => rfl
    | false =>
      rw [hcheck] at hok
      cases hok
  refine ⟨?_, fun names' hperm => ⟨collisions_ok_perm hperm.symm, collisions_ok_perm hperm⟩⟩
  rw [collisions_ok_iff]
  exact ⟨fun hok => standTogether_of_pairwise hpaths hok.2, fun hstand => ⟨hpaths, hstand.pairwise hpaths⟩⟩

/-- Two spellings of one directory. -/
theorem collisions_exact_docs :
    (validateBundlePathCollisions plainHost [text "docs/a", text "Docs/b"] = .ok () ↔
        StandTogether plainHost [text "docs/a", text "Docs/b"]) ∧
      ∀ names', [text "docs/a", text "Docs/b"].Perm names' →
        (validateBundlePathCollisions plainHost names' = .ok () ↔
          validateBundlePathCollisions plainHost [text "docs/a", text "Docs/b"] = .ok ()) :=
  collisions_exact plainHost [text "docs/a", text "Docs/b"] (by decide)

end Raticode.Bundle
