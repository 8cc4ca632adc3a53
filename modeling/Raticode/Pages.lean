import Mathlib.Data.List.Basic
import Mathlib.Order.Basic

/-! A list cut into pages of a fixed length, the last one possibly shorter. -/
namespace Pages
variable {α : Type*} {limit : ℕ}

def split (limit : ℕ) (l : List α) : List (List α) :=
  (List.range ((l.length + limit - 1) / limit)).map (fun k => (l.drop (k * limit)).take limit)

@[simp] theorem split_nil (hlimit : 0 < limit) : split limit ([] : List α) = [] := by
  have hzero : (0 + limit - 1) / limit = 0 := Nat.div_eq_of_lt (by omega)
  rw [split, List.length_nil, hzero]
  rfl

theorem split_of_ne_nil (hlimit : 0 < limit) {l : List α} (hl : l ≠ []) :
    split limit l = l.take limit :: split limit (l.drop limit) := by
  have hpos : 0 < l.length := List.length_pos_of_ne_nil hl
  have hcount : (l.length + limit - 1) / limit = ((l.drop limit).length + limit - 1) / limit + 1 := by
    rw [List.length_drop]
    rcases Nat.lt_or_ge l.length limit with hlt | hge
    -- the list fits on one page
    · have hone : (l.length + limit - 1) / limit = 1 := by
        apply Nat.div_eq_of_lt_le <;> omega
      have hzero : (l.length - limit + limit - 1) / limit = 0 := Nat.div_eq_of_lt (by omega)
      rw [hone, hzero]
    · have hsum : l.length + limit - 1 = (l.length - limit + limit - 1) + limit := by omega
      rw [hsum, Nat.add_div_right _ hlimit]
  rw [split, hcount, List.range_succ_eq_map, List.map_cons, List.map_map, split]
  congr 1
  · rw [Nat.zero_mul, List.drop_zero]
  · apply List.map_congr_left
    intro k _
    rw [Function.comp_apply, List.drop_drop, Nat.succ_mul, Nat.add_comm]

theorem flatten_split (hlimit : 0 < limit) (l : List α) : (split limit l).flatten = l := by
  induction hn : l.length using Nat.strongRecOn generalizing l with
  | _ n ih =>
    by_cases hl : l = []
    · subst hl
      rw [split_nil hlimit]
      rfl
    · have hpos : 0 < l.length := List.length_pos_of_ne_nil hl
      have hshorter : (l.drop limit).length < n := by
        rw [List.length_drop]
        omega
      rw [split_of_ne_nil hlimit hl, List.flatten_cons, ih _ hshorter _ rfl,
        List.take_append_drop]

theorem sublist_of_mem_split {l page : List α} (h : page ∈ split limit l) : page.Sublist l := by
  obtain ⟨k, -, rfl⟩ := List.mem_map.mp h
  exact (List.take_sublist _ _).trans (List.drop_sublist _ _)

end Pages
