import Mathlib.Algebra.Order.Ring.Nat
import Mathlib.Tactic.Ring

/-! A stream kept as sealed records of a fixed size, the last of which may be shorter. A
write replaces one record and cuts off what follows it, so that a stream that has grown
still holds its earlier prefix. -/
namespace SealedRecords

variable {α : Type}

def slice (xs : List α) (offset length : ℕ) : List α := (xs.drop offset).take length

theorem slice_take_append {xs ys : List α} {k a b : ℕ} (hk : k ≤ xs.length) (h : a + b ≤ k) :
    slice (xs.take k ++ ys) a b = slice xs a b := by
  have hlen : (xs.take k).length = k := List.length_take_of_le hk
  unfold slice
  rw [List.drop_append_of_le_length (by omega), List.take_append_of_le_length (by
    rw [List.length_drop]; omega), List.drop_take, List.take_take, Nat.min_eq_left (by omega)]

theorem slice_append_length (xs ys : List α) {b : ℕ} (h : ys.length ≤ b) :
    slice (xs ++ ys) xs.length b = ys := by
  unfold slice
  rw [List.drop_left, List.take_of_length_le h]

theorem slice_add (xs : List α) (a m c : ℕ) :
    slice xs a (m + c) = slice xs a m ++ slice xs (a + m) c := by
  unfold slice
  rw [List.take_add, List.drop_drop]

theorem take_slice (xs : List α) (a b c : ℕ) :
    (slice xs a b).take (min b (c - a)) = slice (xs.take c) a b := by
  unfold slice
  rw [List.take_take, List.drop_take, List.take_take, Nat.min_eq_left (Nat.min_le_left _ _)]

theorem slice_slice (xs : List α) {a m b l : ℕ} (h : b + l ≤ m) :
    slice (slice xs a m) b l = slice xs (a + b) l := by
  unfold slice
  rw [List.drop_take, List.drop_drop, List.take_take, Nat.min_eq_left (by omega)]

theorem length_slice (xs : List α) (a b : ℕ) : (slice xs a b).length = min b (xs.length - a) := by
  rw [slice, List.length_take, List.length_drop]

theorem flatten_slices (xs : List α) (a c k : ℕ) :
    ((List.range k).map (fun j => slice xs ((a + j) * c) c)).flatten = slice xs (a * c) (k * c) := by
  induction k with
  | zero => simp [slice]
  | succ k ih =>
    rw [List.range_succ, List.map_append, List.flatten_append, ih, Nat.succ_mul, slice_add,
      ← Nat.add_mul]
    simp

structure Scheme (α : Type) where
  chunk : ℕ
  overhead : ℕ
  chunk_pos : 0 < chunk
  Seals : ℕ → List α → List α → Prop
  length_of_seals : ∀ {i sealed raw}, Seals i sealed raw → sealed.length = raw.length + overhead

namespace Scheme
variable (S : Scheme α)

def record : ℕ := S.chunk + S.overhead

def count (n : ℕ) : ℕ := (n + S.chunk - 1) / S.chunk

theorem count_zero : S.count 0 = 0 := by
  have h := S.chunk_pos
  exact Nat.div_eq_of_lt (by omega)

theorem count_add {i m : ℕ} (hm : 0 < m) (hle : m ≤ S.chunk) : S.count (i * S.chunk + m) = i + 1 := by
  have h := S.chunk_pos
  have he : i * S.chunk + m + S.chunk - 1 = (m - 1) + S.chunk * (i + 1) := by
    rw [Nat.mul_add, Nat.mul_comm S.chunk i]
    omega
  rw [count, he, Nat.add_mul_div_left _ _ h, Nat.div_eq_of_lt (by omega)]
  omega

theorem le_count {i n : ℕ} (h : i * S.chunk ≤ n) : i ≤ S.count n := by
  have hpos := S.chunk_pos
  rw [count, Nat.le_div_iff_mul_le hpos]
  omega

theorem le_count_mul (n : ℕ) : n ≤ S.count n * S.chunk := by
  have hpos := S.chunk_pos
  have hdiv := Nat.div_add_mod (n + S.chunk - 1) S.chunk
  have hmod := Nat.mod_lt (n + S.chunk - 1) hpos
  rw [count, Nat.mul_comm]
  omega

theorem mul_lt_of_lt_count {i n : ℕ} (h : i < S.count n) : i * S.chunk < n := by
  have hpos := S.chunk_pos
  have hle : (i + 1) * S.chunk ≤ n + S.chunk - 1 := by
    rw [← Nat.le_div_iff_mul_le hpos]
    exact h
  rw [Nat.add_mul] at hle
  omega

structure Stored (content data : List α) : Prop where
  length : content.length = data.length + S.count data.length * S.overhead
  seals : ∀ i, i * S.chunk < data.length →
    S.Seals i (slice content (i * S.record) S.record) (slice data (i * S.chunk) S.chunk)

theorem stored_nil : S.Stored [] [] :=
  ⟨by rw [List.length_nil, S.count_zero, Nat.zero_mul], fun i hi => absurd hi (Nat.not_lt_zero _)⟩

variable {S} {content data sealed raw : List α}

theorem Stored.offset_le (h : S.Stored content data) {i : ℕ} (hi : i * S.chunk ≤ data.length) :
    i * S.record ≤ content.length := by
  have hcount : i * S.overhead ≤ S.count data.length * S.overhead :=
    Nat.mul_le_mul_right _ (S.le_count hi)
  rw [h.length, record, Nat.mul_add]
  omega

theorem Stored.write (h : S.Stored content data) {i : ℕ} (hi : i * S.chunk ≤ data.length)
    (hpos : 0 < raw.length) (hle : raw.length ≤ S.chunk) (hseals : S.Seals i sealed raw) :
    S.Stored (content.take (i * S.record) ++ sealed) (data.take (i * S.chunk) ++ raw) := by
  have hoffset := h.offset_le hi
  have hcontent : (content.take (i * S.record)).length = i * S.record :=
    List.length_take_of_le hoffset
  have hdata : (data.take (i * S.chunk)).length = i * S.chunk := List.length_take_of_le hi
  have hsealed := S.length_of_seals hseals
  constructor
  · rw [List.length_append, List.length_append, hcontent, hdata, S.count_add hpos hle, hsealed,
      record]
    ring
  · intro j hj
    rw [List.length_append, hdata] at hj
    have hji : j < i + 1 := by
      apply Nat.lt_of_mul_lt_mul_right (a := S.chunk)
      rw [Nat.add_mul]
      omega
    rcases Nat.lt_succ_iff_lt_or_eq.mp hji with hlt | rfl
    · -- A record before the one that is written.
      have hchunk : j * S.chunk + S.chunk ≤ i * S.chunk := by
        rw [← Nat.succ_mul]
        exact Nat.mul_le_mul_right _ hlt
      have hrecord : j * S.record + S.record ≤ i * S.record := by
        rw [← Nat.succ_mul]
        exact Nat.mul_le_mul_right _ hlt
      rw [slice_take_append hoffset hrecord, slice_take_append hi hchunk]
      have hpos' := S.chunk_pos
      exact h.seals j (by omega)
    · have hs : slice (content.take (j * S.record) ++ sealed) (j * S.record) S.record = sealed := by
        conv_lhs => arg 2; rw [← hcontent]
        exact slice_append_length _ _ (by rw [hsealed, record]; omega)
      have hr : slice (data.take (j * S.chunk) ++ raw) (j * S.chunk) S.chunk = raw := by
        conv_lhs => arg 2; rw [← hdata]
        exact slice_append_length _ _ hle
      rw [hs, hr]
      exact hseals

end Scheme

end SealedRecords
