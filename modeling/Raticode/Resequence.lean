import Mathlib.Algebra.Order.BigOperators.Group.List
import Mathlib.Data.Finset.Card
import Mathlib.Order.Interval.Finset.Nat
import Raticode.OrderedDict

/-! Numbered items that arrive in any order are held back until they are next in
line. The line is a natural number, and what is held is a dictionary above it. -/
namespace Resequence
open OrderedDict

variable {α : Type*}

def drain : ℕ → ℕ → Dict ℕ α → List α × ℕ × Dict ℕ α
  | 0, next, held => ([], next, held)
  | n + 1, next, held =>
    match held.get next with
    | none => ([], next, held)
    | some a =>
      let (items, rest) := drain n (next + 1) (held.erase next)
      (a :: items, rest)

theorem mem_erase {held : Dict ℕ α} {k : ℕ} {p : ℕ × α} :
    p ∈ held.erase k ↔ p ∈ held ∧ p.1 ≠ k := by
  simp [Dict.erase]

theorem length_erase_lt {held : Dict ℕ α} {k : ℕ} {a : α} (h : held.get k = some a) :
    (held.erase k).length < held.length := by
  apply List.length_filter_lt_length_iff_exists.mpr
  exact ⟨(k, a), Dict.mem_of_get h, by simp⟩

theorem nodup_erase {held : Dict ℕ α} (h : held.keys.Nodup) (k : ℕ) : (held.erase k).keys.Nodup :=
  h.sublist (List.filter_sublist.map Prod.fst)

/-- What taking out leaves and gives: the items from `next` on without a gap, and the
others. -/
structure Drained (next : ℕ) (held : Dict ℕ α) (items : List α) (next' : ℕ)
    (held' : Dict ℕ α) : Prop where
  line : next' = next + items.length
  item : ∀ i (hi : i < items.length), (next + i, items.get ⟨i, hi⟩) ∈ held
  nodup : held'.keys.Nodup
  left : ∀ p ∈ held', p ∈ held ∧ (p.1 < next ∨ next' < p.1)

theorem drained (n next : ℕ) (held : Dict ℕ α) (hn : held.length ≤ n) (hd : held.keys.Nodup) :
    Drained next held (drain n next held).1 (drain n next held).2.1 (drain n next held).2.2 := by
  induction n generalizing next held with
  | zero =>
    have hnil : held = [] := List.length_eq_zero_iff.mp (Nat.le_zero.mp hn)
    subst hnil
    exact ⟨rfl, fun i hi => absurd hi (Nat.not_lt_zero i), hd, fun p hp => absurd hp (by simp [drain])⟩
  | succ n ih =>
    cases hget : held.get next with
    | none =>
      simp only [drain, hget]
      refine ⟨rfl, fun i hi => absurd hi (Nat.not_lt_zero i), hd, fun p hp => ⟨hp, ?_⟩⟩
      have hne : p.1 ≠ next := by
        intro he
        have hsome := Dict.get_of_mem hd (k := p.1) (v := p.2) hp
        rw [he, hget] at hsome
        cases hsome
      omega
    | some a =>
      simp only [drain, hget]
      have hlt := length_erase_lt hget
      have h := ih (next + 1) (held.erase next) (by omega) (nodup_erase hd next)
      refine ⟨?_, ?_, h.nodup, fun p hp => ?_⟩
      · have hline := h.line
        simp only [List.length_cons]
        omega
      · intro i hi
        cases i with
        | zero => exact Dict.mem_of_get hget
        | succ i =>
          have hitem := (mem_erase.mp (h.item i (by simpa using hi))).1
          rwa [Nat.add_right_comm] at hitem
      · obtain ⟨hp', hp''⟩ := h.left p hp
        obtain ⟨hmem, hne⟩ := mem_erase.mp hp'
        exact ⟨hmem, by omega⟩

/-- What is held lies within `width` after the next number, each number once. -/
structure Window (width next : ℕ) (held : Dict ℕ α) : Prop where
  nodup : held.keys.Nodup
  above : ∀ p ∈ held, next < p.1
  below : ∀ p ∈ held, p.1 ≤ next + width

theorem Window.nil (width next : ℕ) : Window width next ([] : Dict ℕ α) :=
  ⟨List.nodup_nil, by simp, by simp⟩

theorem Window.length_le {width next : ℕ} {held : Dict ℕ α} (h : Window width next held) :
    held.length ≤ width := by
  have hcard : held.keys.toFinset.card ≤ (Finset.Ioc next (next + width)).card := by
    apply Finset.card_le_card
    intro k hk
    obtain ⟨p, hp, rfl⟩ := List.mem_map.mp (List.mem_toFinset.mp hk)
    exact Finset.mem_Ioc.mpr ⟨h.above p hp, h.below p hp⟩
  rw [List.toFinset_card_of_nodup h.nodup, Nat.card_Ioc, Dict.keys, List.length_map] at hcard
  omega

theorem mem_set {held : Dict ℕ α} {k : ℕ} {a : α} {p : ℕ × α} (h : p ∈ held.set k a) :
    p = (k, a) ∨ p ∈ held := by
  induction held with
  | nil =>
    simp only [Dict.set, List.mem_singleton] at h
    exact .inl h
  | cons q held ih =>
    obtain ⟨k', b⟩ := q
    simp only [Dict.set] at h
    split at h
    next hk =>
      subst hk
      rcases List.mem_cons.mp h with rfl | hm
      · exact .inl rfl
      · exact .inr (List.mem_cons_of_mem _ hm)
    · rcases List.mem_cons.mp h with rfl | hm
      · exact .inr List.mem_cons_self
      · exact (ih hm).imp_right (List.mem_cons_of_mem _)

theorem Window.store {width next : ℕ} {held : Dict ℕ α} (h : Window width next held) {k : ℕ}
    (hlow : next ≤ k) (hhigh : k ≤ next + width) (a : α) {items : List α} {next' : ℕ}
    {held' : Dict ℕ α} (hd : Drained next (held.set k a) items next' held') :
    Window width next' held' := by
  have hmoved : next ≤ next' := by
    have hline := hd.line
    omega
  have hplace : ∀ p ∈ held.set k a, next ≤ p.1 ∧ p.1 ≤ next + width := by
    intro p hp
    rcases mem_set hp with rfl | hm
    · exact ⟨hlow, hhigh⟩
    · exact ⟨(h.above p hm).le, h.below p hm⟩
  refine ⟨hd.nodup, fun p hp => ?_, fun p hp => ?_⟩
  · obtain ⟨hm, hside⟩ := hd.left p hp
    have hp' := hplace p hm
    omega
  · obtain ⟨hm, -⟩ := hd.left p hp
    have hp' := hplace p hm
    omega

theorem Drained.items_eq {next next' : ℕ} {held held' : Dict ℕ α} {items : List α}
    (h : Drained next held items next' held') {f : ℕ → α} (hf : ∀ p ∈ held, p.2 = f p.1) :
    items = (List.range' next (next' - next)).map f := by
  have hline := h.line
  apply List.ext_getElem
  · simp
    omega
  · intro i hi _
    have hitem := hf _ (h.item i hi)
    simpa using hitem

end Resequence
