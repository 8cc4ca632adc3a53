import Raticode.RattishScheduler

/-! The names of lineages and groups. A loop lineage and an iteration group can be
read back from their names, and no group of the root lineage looks like an
iteration. -/
namespace Raticode.Rattish
open Components

theorem comps_iterationGroup (lineage : LineageId) (i : ℕ) :
    comps (iterationGroup lineage i) =
      comps lineage ++ ["iteration".toList, (toString i).toList] := by
  have h : iterationGroup lineage i = lineage ++ ":" ++ ("iteration" ++ ":" ++ toString i) := by
    simp only [iterationGroup, String.append_assoc]
    rfl
  have hword : ':' ∉ "iteration".toList := by decide
  rw [h, comps_join, comps_join, comps_toString, comps_of_not_mem hword]
  rfl

theorem comps_loopLineage {node : NodeId} (hn : ':' ∉ node.toList) (group : GroupId) (r : ℕ) :
    comps (loopLineage group node r) =
      comps group ++ ["loop".toList, node.toList, (toString r).toList] := by
  have h : loopLineage group node r =
      group ++ ":" ++ ("loop" ++ ":" ++ (node ++ ":" ++ toString r)) := by
    simp only [loopLineage, String.append_assoc]
    rfl
  have hword : ':' ∉ "loop".toList := by decide
  rw [h, comps_join, comps_join, comps_join, comps_toString, comps_of_not_mem hn,
    comps_of_not_mem hword]
  rfl

theorem iterationGroup_inj {l l' : LineageId} {i i' : ℕ} :
    iterationGroup l i = iterationGroup l' i' ↔ l = l' ∧ i = i' := by
  refine ⟨fun h => ?_, fun ⟨h₁, h₂⟩ => h₁ ▸ h₂ ▸ rfl⟩
  have hc := congrArg comps h
  rw [comps_iterationGroup, comps_iterationGroup] at hc
  obtain ⟨h₁, h₂⟩ := List.append_inj' hc rfl
  simp only [List.cons.injEq, true_and, and_true] at h₂
  exact ⟨comps_inj.mp h₁, toString_injective (String.toList_inj.mp h₂)⟩

theorem loopLineage_inj {g g' : GroupId} {n n' : NodeId} {r r' : ℕ} (hn : ':' ∉ n.toList)
    (hn' : ':' ∉ n'.toList) (h : loopLineage g n r = loopLineage g' n' r') :
    g = g' ∧ n = n' ∧ r = r' := by
  have hc := congrArg comps h
  rw [comps_loopLineage hn, comps_loopLineage hn'] at hc
  obtain ⟨h₁, h₂⟩ := List.append_inj' hc rfl
  simp only [List.cons.injEq, true_and, and_true] at h₂
  exact ⟨comps_inj.mp h₁, String.toList_inj.mp h₂.1, toString_injective (String.toList_inj.mp h₂.2)⟩

def iterationMark : List Char := [':', 'i', 't', 'e', 'r', 'a', 't', 'i', 'o', 'n', ':']

/-- No component but the last is `iteration`. -/
def RootName (g : GroupId) : Prop := ¬ iterationMark <:+: ':' :: g.toList

theorem not_rootName_iterationGroup (l : LineageId) (i : ℕ) : ¬RootName (iterationGroup l i) := by
  refine not_not.mpr ⟨':' :: l.toList, (toString i).toList, ?_⟩
  have hmark : ":iteration:".toList = iterationMark := by decide
  simp [iterationGroup, hmark, String.toList_append]

theorem not_rootName_of_under {l : LineageId} {i : ℕ} {g : GroupId}
    (h : comps (iterationGroup l i) <+: comps g) : ¬RootName g := by
  have hmark := not_not.mp (not_rootName_iterationGroup l i)
  refine not_not.mpr ?_
  rcases (eq_or_startsWith_iff (iterationGroup l i) g).mpr h with rfl | h
  · exact hmark
  · obtain ⟨t, ht⟩ := List.isPrefixOf_iff_prefix.mp h
    rw [← ht, String.toList_append, List.append_assoc]
    exact hmark.trans (List.prefix_append (':' :: (iterationGroup l i).toList) _).isInfix

def LoopName (l : LineageId) : Prop :=
  ∃ (g : GroupId) (n : NodeId) (r : ℕ), ':' ∉ n.toList ∧ l = loopLineage g n r

theorem prefix_iterationGroup {l l' : LineageId} {i i' : ℕ}
    (h : comps (iterationGroup l i) <+: comps (iterationGroup l' i')) :
    (l = l' ∧ i = i') ∨ comps (iterationGroup l i) <+: comps l' := by
  rw [comps_iterationGroup l' i', List.append_cons, List.prefix_concat_iff] at h
  rcases h with h | h
  · left
    rw [← List.append_cons, ← comps_iterationGroup] at h
    exact iterationGroup_inj.mp (comps_inj.mp h)
  rw [List.prefix_concat_iff] at h
  rcases h with h | h
  · rw [comps_iterationGroup, List.append_cons] at h
    have hlast := (List.append_inj' h rfl).2
    simp only [List.cons.injEq, and_true] at hlast
    exact absurd hlast (toString_ne_of_not_digit (c := 'n') (by decide) (by decide))
  · exact .inr h

theorem prefix_loopLineage {l : LineageId} {i : ℕ} {g : GroupId} {n : NodeId} {r : ℕ}
    (hl : LoopName l) (hn : ':' ∉ n.toList)
    (h : comps (iterationGroup l i) <+: comps (loopLineage g n r)) :
    comps (iterationGroup l i) <+: comps g := by
  rw [comps_loopLineage hn] at h
  rw [show comps g ++ ["loop".toList, n.toList, (toString r).toList] =
    ((comps g ++ ["loop".toList]) ++ [n.toList]) ++ [(toString r).toList] by simp,
    List.prefix_concat_iff, List.prefix_concat_iff, List.prefix_concat_iff] at h
  rcases h with h | h | h | h
  · exfalso
    rw [comps_iterationGroup, List.append_assoc] at h
    have hlin := (List.append_inj' h rfl).1
    obtain ⟨g', n', r', hn', rfl⟩ := hl
    rw [comps_loopLineage hn', show comps g' ++ ["loop".toList, n'.toList, (toString r').toList] =
      (comps g' ++ ["loop".toList, n'.toList]) ++ [(toString r').toList] by simp] at hlin
    have hlast := (List.append_inj' hlin rfl).2
    simp only [List.cons.injEq, and_true] at hlast
    exact absurd hlast (toString_ne_of_not_digit (c := 'l') (by decide) (by decide))
  · exfalso
    rw [comps_iterationGroup, List.append_assoc] at h
    have hlast := (List.append_inj' h rfl).2
    simp only [List.cons_append, List.nil_append, List.cons.injEq] at hlast
    exact absurd hlast.1 (by decide)
  · exfalso
    rw [comps_iterationGroup, List.append_cons] at h
    have hlast := (List.append_inj' h rfl).2
    simp only [List.cons.injEq, and_true] at hlast
    exact absurd hlast (toString_ne_of_not_digit (c := 'l') (by decide) (by decide))
  · exact h

theorem rootName_rootLineage : RootName rootLineage := by
  unfold RootName rootLineage
  decide

theorem infix_of_infix_append_cons {α : Type*} {w x y : List α} {c : α} (hc : c ∉ w)
    (h : w <:+: x ++ c :: y) : w <:+: x ∨ w <:+: y := by
  obtain ⟨s, t, h⟩ := h
  rw [List.append_assoc] at h
  rcases List.append_eq_append_iff.mp h with ⟨a, hx, hw⟩ | ⟨a, hs, hw⟩
  · rcases List.append_eq_append_iff.mp hw with ⟨b, hb, -⟩ | ⟨b, hb, hy⟩
    · exact .inl ⟨s, b, by rw [hx, hb, List.append_assoc]⟩
    · cases b with
      | nil => exact .inl ⟨s, [], by simp [hx, hb]⟩
      | cons d b =>
        cases hy
        exact absurd (hb ▸ List.mem_append_right _ List.mem_cons_self) hc
  · cases a with
    | nil =>
      cases w with
      | nil => exact .inl ⟨[], x, by simp⟩
      | cons d w =>
        cases hw
        exact absurd List.mem_cons_self hc
    | cons d a =>
      cases hw
      exact .inr ⟨a, t, by simp⟩

theorem rootName_initial {id : NodeId} (hid : ':' ∉ id.toList) : RootName ("initial:" ++ id) := by
  have hword : "initial:".toList = ['i', 'n', 'i', 't', 'i', 'a', 'l', ':'] := by decide
  rintro ⟨s, t, h⟩
  rw [String.toList_append, hword] at h
  cases s with
  | nil => simp [iterationMark] at h
  | cons d s =>
    have hcount := congrArg (List.count ':') (List.cons.inj h).2
    have h₀ : List.count ':' id.toList = 0 := List.count_eq_zero.mpr hid
    have h₁ : List.count ':' iterationMark = 2 := by decide
    have h₂ : List.count ':' ['i', 'n', 'i', 't', 'i', 'a', 'l', ':'] = 1 := by decide
    simp only [List.append_eq, List.count_append, h₀, h₁, h₂] at hcount
    omega

theorem rootName_plus {a b : GroupId} (ha : RootName a) (hb : RootName b) :
    RootName (a ++ "+" ++ b) := by
  intro h
  have hl : ':' :: (a ++ "+" ++ b).toList = (':' :: a.toList) ++ '+' :: b.toList := by
    simp [String.toList_append]
  rw [hl] at h
  rcases infix_of_infix_append_cons (by decide) h with h | h
  · exact ha h
  · exact hb (h.trans (List.infix_cons (List.infix_refl _)))

theorem rootName_intercalate {gs : List GroupId} (hg : ∀ g ∈ gs, RootName g) :
    RootName (String.intercalate "+" gs) := by
  induction gs with
  | nil =>
    unfold RootName
    decide
  | cons g gs ih =>
    have hrest := ih (fun g' hg' => hg g' (List.mem_cons_of_mem _ hg'))
    cases gs with
    | nil => simpa using hg g List.mem_cons_self
    | cons g' gs =>
      rw [String.intercalate_cons_cons]
      exact rootName_plus (hg g List.mem_cons_self) hrest

theorem rootName_merged {g : GroupId} (hg : RootName g) : RootName ("merged:" ++ g) := by
  have hword : "merged:".toList = ['m', 'e', 'r', 'g', 'e', 'd', ':'] := by decide
  intro h
  rw [String.toList_append, hword] at h
  simp only [List.cons_append, List.nil_append, List.infix_cons_iff] at h
  rcases h with h | h | h | h | h | h | h | h
  · simp [iterationMark] at h
  · simp [iterationMark] at h
  · simp [iterationMark] at h
  · simp [iterationMark] at h
  · simp [iterationMark] at h
  · simp [iterationMark] at h
  · simp [iterationMark] at h
  · exact hg (List.infix_cons_iff.mpr h)

end Raticode.Rattish
