import Mathlib.Data.List.Infix
import Mathlib.Data.List.Nodup
import Mathlib.Tactic.Common

/-! The occurrences of a key in a list. Where the occurrences in one list are a
prefix of those in another, the k-th of the one is matched with the k-th of the
other. -/
namespace Occurrences

variable {α β κ : Type*} [DecidableEq κ] {key : β → κ} {proj : α → β}

def indexed (key : α → κ) (l : List α) (k : κ) : List (α × ℕ) :=
  l.zipIdx.filter (fun p => key p.1 = k)

def occurrences (key : β → κ) (l : List β) (k : κ) : List β := l.filter (key · = k)

theorem occurrences_append (l₁ l₂ : List β) (k : κ) :
    occurrences key (l₁ ++ l₂) k = occurrences key l₁ k ++ occurrences key l₂ k :=
  List.filter_append ..

theorem occurrences_perm {l l' : List β} (hp : l.Perm l') (hnd : (l.map key).Nodup) (k : κ) :
    occurrences key l k = occurrences key l' k := by
  have hfilter : (occurrences key l k).Perm (occurrences key l' k) := hp.filter _
  have hone : (occurrences key l k).length ≤ 1 := by
    rw [occurrences, ← List.countP_eq_length_filter]
    have hc := List.nodup_iff_count_le_one.mp hnd k
    rw [List.count, List.countP_map] at hc
    refine (Nat.le_of_eq (List.countP_congr fun x _ => ?_)).trans hc
    simp
  match hl : occurrences key l k with
  | [] => exact (List.nil_perm.mp (hl ▸ hfilter)).symm
  | [x] => exact List.singleton_perm.mp (hl ▸ hfilter)
  | x :: y :: rest =>
    rw [hl] at hone
    simp at hone

theorem indexed_map_fst (key : α → κ) (l : List α) (k : κ) :
    (indexed key l k).map Prod.fst = l.filter (key · = k) := by
  conv_rhs => rw [← List.zipIdx_map_fst 0 l, List.filter_map]
  rfl

theorem getElem?_of_mem_indexed {l : List α} {k : κ} {p : α × ℕ} {key : α → κ}
    (h : p ∈ indexed key l k) : l[p.2]? = some p.1 ∧ key p.1 = k := by
  obtain ⟨hm, hk⟩ := List.mem_filter.mp h
  exact ⟨by simpa [List.mem_zipIdx_iff_getElem?] using hm, by simpa using hk⟩

theorem occurrences_split (key : β → κ) (l₁ l₂ : List β) (x : β) :
    (occurrences key (l₁ ++ x :: l₂) (key x))[(occurrences key l₁ (key x)).length]? = some x := by
  simp [occurrences]

theorem occurrences_proj (l : List α) (k : κ) :
    (indexed (fun a => key (proj a)) l k).map (fun p => proj p.1) =
      occurrences key (l.map proj) k := by
  have h := congrArg (List.map proj) (indexed_map_fst (fun a => key (proj a)) l k)
  rw [List.map_map] at h
  rw [occurrences, List.filter_map]
  exact h

variable {l : List α} {l₁ l₂ : List β} {x : β}

theorem indexed_matched
    (h : occurrences key (l.map proj) (key x) <+: occurrences key (l₁ ++ x :: l₂) (key x))
    {p : α × ℕ} (hp : (indexed (fun a => key (proj a)) l (key x))[(occurrences key l₁
      (key x)).length]? = some p) : l[p.2]? = some p.1 ∧ proj p.1 = x := by
  refine ⟨(getElem?_of_mem_indexed (List.mem_of_getElem? hp)).1, ?_⟩
  have hget : (occurrences key (l.map proj) (key x))[(occurrences key l₁ (key x)).length]? =
      some (proj p.1) := by
    rw [← occurrences_proj, List.getElem?_map, hp]
    rfl
  obtain ⟨t, ht⟩ := h
  have hlt := (List.getElem?_eq_some_iff.mp hget).1
  have hsame := occurrences_split key l₁ l₂ x
  rw [← ht, List.getElem?_append_left hlt, hget] at hsame
  exact Option.some.inj hsame

theorem indexed_unmatched
    (h : occurrences key (l.map proj) (key x) <+: occurrences key (l₁ ++ x :: l₂) (key x))
    (hnd : (l₁ ++ x :: l₂).Nodup)
    (hp : (indexed (fun a => key (proj a)) l (key x))[(occurrences key l₁ (key x)).length]? = none) :
    x ∉ l.map proj := by
  intro hx
  have hlen : (occurrences key (l.map proj) (key x)).length ≤ (occurrences key l₁ (key x)).length := by
    rw [← occurrences_proj, List.length_map]
    exact List.getElem?_eq_none_iff.mp hp
  have hmem : x ∈ occurrences key (l.map proj) (key x) := List.mem_filter.mpr ⟨hx, by simp⟩
  obtain ⟨i, hi, he⟩ := List.getElem_of_mem hmem
  have hnd' : (occurrences key (l₁ ++ x :: l₂) (key x)).Nodup := hnd.filter _
  have hfirst : (occurrences key (l₁ ++ x :: l₂) (key x))[i]? = some x := by
    obtain ⟨t, ht⟩ := h
    rw [← ht, List.getElem?_append_left hi, List.getElem?_eq_getElem hi, he]
  have hplace := (List.getElem?_eq_some_iff.mp (occurrences_split key l₁ l₂ x)).1
  have heq := (List.getElem?_inj (List.getElem?_eq_some_iff.mp hfirst).1 hnd').mp
    (hfirst.trans (occurrences_split key l₁ l₂ x).symm)
  omega

end Occurrences
