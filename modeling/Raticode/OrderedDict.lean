import Mathlib.Algebra.BigOperators.Group.List.Basic
import Mathlib.Algebra.GroupWithZero.Nat
import Mathlib.Data.List.Basic

/-! Insertion-ordered dictionaries as association lists. An assignment to a
key that is present keeps its position, as in the source language. -/
namespace OrderedDict

abbrev Dict (κ α : Type*) := List (κ × α)

variable {κ α β : Type*} [DecidableEq κ]

namespace Dict

def get (d : Dict κ α) (k : κ) : Option α :=
  match d with
  | [] => none
  | (k', v) :: rest => if k' = k then some v else get rest k

def set (d : Dict κ α) (k : κ) (v : α) : Dict κ α :=
  match d with
  | [] => [(k, v)]
  | (k', w) :: rest => if k' = k then (k', v) :: rest else (k', w) :: set rest k v

def erase (d : Dict κ α) (k : κ) : Dict κ α := d.filter (fun p => p.1 ≠ k)

def setDefault (d : Dict κ α) (k : κ) (v : α) : Dict κ α :=
  if (d.get k).isSome then d else d.set k v

/-- The entries of `e` written over those of `d`, in the order of `e`. -/
def merge (d e : Dict κ α) : Dict κ α := e.foldl (fun acc p => acc.set p.1 p.2) d

def keys (d : Dict κ α) : List κ := d.map Prod.fst

def values (d : Dict κ α) : List α := d.map Prod.snd

@[simp] theorem get_nil (k : κ) : get ([] : Dict κ α) k = none := rfl

theorem get_set (d : Dict κ α) (k k' : κ) (v : α) :
    (d.set k v).get k' = if k = k' then some v else d.get k' := by
  induction d with
  | nil => rfl
  | cons p rest ih =>
    obtain ⟨k₀, w⟩ := p
    by_cases hk : k₀ = k
    · subst hk
      simp only [set, ↓reduceIte, get]
      split_ifs <;> rfl
    · simp only [set, hk, ↓reduceIte, get, ih]
      by_cases h₀ : k₀ = k'
      · subst h₀
        simp [show ¬ k = k₀ from fun h => hk h.symm]
      · simp [h₀]

@[simp] theorem get_set_self (d : Dict κ α) (k : κ) (v : α) : (d.set k v).get k = some v := by
  simp [get_set]

theorem get_set_ne (d : Dict κ α) {k k' : κ} (v : α) (h : k ≠ k') :
    (d.set k v).get k' = d.get k' := by
  simp [get_set, h]

theorem get_erase (d : Dict κ α) (k k' : κ) :
    (d.erase k).get k' = if k' = k then none else d.get k' := by
  induction d with
  | nil => simp [erase]
  | cons p rest ih =>
    obtain ⟨k₀, w⟩ := p
    simp only [erase] at ih
    by_cases hk : k₀ = k
    · subst hk
      by_cases hk' : k' = k₀
      · subst hk'
        simpa [erase] using ih
      · have hne : ¬ k₀ = k' := fun he => hk' he.symm
        simpa [erase, get, hk', hne] using ih
    · by_cases hk' : k₀ = k'
      · subst hk'
        simp [erase, get, hk]
      · simpa [erase, get, hk, hk'] using ih

theorem get_filter (p : κ → Bool) (d : Dict κ α) {k : κ} (hk : p k = true) :
    get (d.filter (fun q => p q.1)) k = d.get k := by
  induction d with
  | nil => rfl
  | cons q rest ih =>
    obtain ⟨k₀, w⟩ := q
    by_cases h : k₀ = k
    · subst h
      simp [get, hk]
    · by_cases hp : p k₀ = true
      · simpa [get, hp, h] using ih
      · simpa [get, hp, h] using ih

theorem set_of_get {d : Dict κ α} {k : κ} {v : α} (h : d.get k = some v) : d.set k v = d := by
  induction d with
  | nil => simp at h
  | cons p rest ih =>
    obtain ⟨k₀, w⟩ := p
    by_cases hk : k₀ = k
    · simp only [get, hk, ↓reduceIte, Option.some.injEq] at h
      simp only [set, hk, ↓reduceIte, h]
    · simp only [get, hk, ↓reduceIte] at h
      simp only [set, hk, ↓reduceIte, ih h]

theorem set_of_none {d : Dict κ α} {k : κ} (h : d.get k = none) (v : α) : d.set k v = d ++ [(k, v)] := by
  induction d with
  | nil => rfl
  | cons p rest ih =>
    obtain ⟨k₀, w⟩ := p
    by_cases hk : k₀ = k
    · simp [get, hk] at h
    · simp only [get, hk, ↓reduceIte] at h
      simp only [set, hk, ↓reduceIte, ih h, List.cons_append]

theorem mem_set {d : Dict κ α} {k : κ} {v : α} {p : κ × α} (h : p ∈ d.set k v) : p ∈ d ∨ p = (k, v) := by
  induction d with
  | nil =>
    rw [set, List.mem_singleton] at h
    exact .inr h
  | cons q rest ih =>
    obtain ⟨k₀, w⟩ := q
    by_cases hk : k₀ = k
    · simp only [set, hk, ↓reduceIte, List.mem_cons] at h
      rcases h with rfl | h
      · exact .inr rfl
      · exact .inl (List.mem_cons_of_mem _ h)
    · simp only [set, hk, ↓reduceIte, List.mem_cons] at h
      rcases h with rfl | h
      · exact .inl List.mem_cons_self
      · exact (ih h).imp_left (List.mem_cons_of_mem _)

theorem mem_of_get {d : Dict κ α} {k : κ} {v : α} (h : d.get k = some v) : (k, v) ∈ d := by
  induction d with
  | nil => simp at h
  | cons p rest ih =>
    obtain ⟨k₀, w⟩ := p
    simp only [get] at h
    split_ifs at h with hk
    · cases h
      subst hk
      exact List.mem_cons_self
    · exact List.mem_cons_of_mem _ (ih h)

theorem get_isSome_iff {d : Dict κ α} {k : κ} : (d.get k).isSome ↔ k ∈ d.keys := by
  induction d with
  | nil => simp [keys]
  | cons p rest ih =>
    obtain ⟨k₀, w⟩ := p
    by_cases hk : k₀ = k
    · simp [get, keys, hk]
    · simp only [get, hk, ↓reduceIte, ih, keys, List.map_cons, List.mem_cons]
      exact ⟨Or.inr, fun h => h.resolve_left (fun h => hk h.symm)⟩

theorem keys_set (d : Dict κ α) (k : κ) (v : α) :
    (d.set k v).keys = if k ∈ d.keys then d.keys else d.keys ++ [k] := by
  induction d with
  | nil => simp [set, keys]
  | cons p rest ih =>
    obtain ⟨k₀, w⟩ := p
    by_cases hk : k₀ = k
    · simp [set, keys, hk]
    · have hk' : ¬ k = k₀ := fun h => hk h.symm
      simp only [keys] at ih
      simp only [set, hk, ↓reduceIte, keys, List.map_cons, ih, List.mem_cons, hk', false_or]
      by_cases hm : k ∈ rest.map Prod.fst <;> simp [hm]

theorem get_merge_isSome_left {d e : Dict κ α} {k : κ} (h : (d.get k).isSome) :
    ((d.merge e).get k).isSome := by
  induction e generalizing d with
  | nil => exact h
  | cons p rest ih =>
    apply ih
    rw [get_set]
    split_ifs
    · rfl
    · exact h

theorem nodup_keys_set {d : Dict κ α} (h : d.keys.Nodup) (k : κ) (v : α) :
    (d.set k v).keys.Nodup := by
  rw [keys_set]
  split_ifs with hk
  · exact h
  · exact List.nodup_append.mpr ⟨h, by simp, by
      intro a ha b hb
      rw [List.mem_singleton.mp hb]
      exact fun he => hk (he ▸ ha)⟩

theorem get_of_mem {d : Dict κ α} (hd : d.keys.Nodup) {k : κ} {v : α} (h : (k, v) ∈ d) :
    d.get k = some v := by
  induction d with
  | nil => simp at h
  | cons p rest ih =>
    obtain ⟨k₀, w⟩ := p
    obtain ⟨hn, hd⟩ := List.nodup_cons.mp (show (k₀ :: rest.map Prod.fst).Nodup from hd)
    rcases List.mem_cons.mp h with he | hm
    · cases he
      simp [get]
    · have hne : k₀ ≠ k := by
        intro he
        exact hn (he ▸ List.mem_map_of_mem (f := Prod.fst) hm)
      simp only [get, hne, ↓reduceIte]
      exact ih hd hm

theorem get_written {ι : Type*} {key : ι → κ} {value : ι → α} {xs : List ι} (hn : (xs.map key).Nodup)
    (d : Dict κ α) (k : κ) : get (xs.foldl (fun d x => set d (key x) (value x)) d) k =
      ((xs.find? (fun x => key x = k)).map value).or (d.get k) := by
  induction xs generalizing d with
  | nil => rfl
  | cons x xs ih =>
    obtain ⟨hx, hn⟩ := List.nodup_cons.mp hn
    rw [List.foldl_cons, ih hn, get_set]
    by_cases hk : key x = k
    · have hnone : xs.find? (fun y => key y = k) = none := by
        rw [List.find?_eq_none]
        intro y hy heq
        exact hx (List.mem_map.mpr ⟨y, hy, (of_decide_eq_true heq).trans hk.symm⟩)
      simp [hk, hnone]
    · simp [hk]

theorem length_written {ι : Type*} (key : ι → κ) (value : ι → α) (xs : List ι) (d : Dict κ α) :
    (xs.foldl (fun d x => set d (key x) (value x)) d).keys.length ≤ d.keys.length + xs.length := by
  induction xs generalizing d with
  | nil => exact Nat.le_refl _
  | cons x xs ih =>
    have hone : (d.set (key x) (value x)).keys.length ≤ d.keys.length + 1 := by
      rw [keys_set]
      split_ifs
      · exact Nat.le_succ _
      · exact Nat.le_of_eq List.length_append
    have hrest := ih (d.set (key x) (value x))
    rw [List.foldl_cons, List.length_cons]
    omega

theorem nodup_keys_written {ι : Type*} {key : ι → κ} {value : ι → α} (xs : List ι) {d : Dict κ α}
    (hd : d.keys.Nodup) : (xs.foldl (fun d x => set d (key x) (value x)) d).keys.Nodup := by
  induction xs generalizing d with
  | nil => exact hd
  | cons x xs ih => exact ih (nodup_keys_set hd (key x) (value x))

theorem sum_set {M : Type*} [AddCommMonoid M] {d : Dict κ α} (hd : d.keys.Nodup) (f : κ × α → M) (k : κ)
    (v : α) : ((d.set k v).map f).sum = ((d.erase k).map f).sum + f (k, v) := by
  induction d with
  | nil => simp [set, erase]
  | cons p rest ih =>
    obtain ⟨k₀, w⟩ := p
    obtain ⟨hnot, hrest⟩ := List.nodup_cons.mp (show (k₀ :: rest.map Prod.fst).Nodup from hd)
    by_cases hk : k₀ = k
    · subst hk
      have hothers : erase ((k₀, w) :: rest) k₀ = rest := by
        have hne : ∀ p ∈ rest, p.1 ≠ k₀ := fun p hp heq => hnot (heq ▸ List.mem_map_of_mem hp)
        simpa [erase] using hne
      simp only [set, ↓reduceIte, List.map_cons, List.sum_cons, hothers]
      exact add_comm _ _
    · have hothers : erase ((k₀, w) :: rest) k = (k₀, w) :: erase rest k := by simp [erase, hk]
      have hsum := ih hrest
      simp only [set, hk, ↓reduceIte, List.map_cons, List.sum_cons, hothers, hsum]
      exact (add_assoc _ _ _).symm

/-! Values that are all changed by one function. -/

theorem get_map (f : α → β) (d : Dict κ α) (k : κ) :
    get (d.map (fun p => (p.1, f p.2))) k = (d.get k).map f := by
  induction d with
  | nil => rfl
  | cons p rest ih =>
    simp only [List.map_cons, get]
    split_ifs
    · rfl
    · exact ih

theorem set_map (f : α → β) (d : Dict κ α) (k : κ) (v : α) :
    set (d.map (fun p => (p.1, f p.2))) k (f v) = (d.set k v).map (fun p => (p.1, f p.2)) := by
  induction d with
  | nil => rfl
  | cons p rest ih =>
    simp only [List.map_cons, set]
    split_ifs
    · rfl
    · rw [ih, List.map_cons]

theorem setDefault_map (f : α → β) (d : Dict κ α) (k : κ) (v : α) :
    setDefault (d.map (fun p => (p.1, f p.2))) k (f v) =
      (d.setDefault k v).map (fun p => (p.1, f p.2)) := by
  unfold setDefault
  rw [get_map, Option.isSome_map, set_map]
  split_ifs
  · rfl
  · rfl

omit [DecidableEq κ] in
theorem values_map (f : α → β) (d : Dict κ α) :
    values (d.map (fun p => (p.1, f p.2))) = d.values.map f := by
  unfold values
  rw [List.map_map, List.map_map]
  rfl

end Dict

end OrderedDict
