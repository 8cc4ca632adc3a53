import Raticode.DeviceFiles

/-! What the record files hold: writing, reading and slicing in terms of the bytes of the
stream, whatever a transaction that was rolled back has left behind them. -/
namespace Raticode.Device
open PyDocument SealedRecords

def scheme (v : Vault) (peer id : Str) : Scheme UInt8 where
  chunk := fileChunk
  overhead := fileNonce + fileTag
  chunk_pos := by decide
  Seals i sealed raw := sealed.length = raw.length + (fileNonce + fileTag) ∧
    v.decrypt (sealed.take fileNonce) (sealed.drop fileNonce) (recordData peer id i) = some raw
  length_of_seals h := h.1

section
variable {v : Vault} {peer id : Str} {content data raw nonce : Bytes} {index : ℕ}

theorem seals_encrypt (hnonce : nonce.length = fileNonce) : (scheme v peer id).Seals index
    (nonce ++ v.encrypt nonce raw (recordData peer id index)) raw := by
  constructor
  · rw [List.length_append, hnonce, v.encrypt_length]
    omega
  · rw [List.take_left' hnonce, List.drop_left' hnonce]
    exact v.decrypt_encrypt nonce raw _

theorem writeRecord_eq (h : index * recordSize ≤ content.length) :
    writeRecord v peer id content index raw nonce =
      content.take (index * recordSize) ++
        (nonce ++ v.encrypt nonce raw (recordData peer id index)) := by
  unfold writeRecord ftruncate pwrite
  generalize nonce ++ v.encrypt nonce raw (recordData peer id index) = sealed
  have hlen : (content.take (index * recordSize)).length = index * recordSize :=
    List.length_take_of_le h
  simp only
  rw [Nat.sub_eq_zero_of_le h, List.replicate_zero, List.append_nil,
    List.take_append_of_le_length (by rw [List.length_append, hlen]), List.take_of_length_le (by
      rw [List.length_append, hlen]), Nat.sub_eq_zero_of_le (by
      simp only [List.length_append, hlen]; omega), List.replicate_zero, List.append_nil]

theorem stored_writeRecord (h : (scheme v peer id).Stored content data)
    (hi : index * fileChunk ≤ data.length) (hpos : 0 < raw.length) (hle : raw.length ≤ fileChunk)
    (hnonce : nonce.length = fileNonce) :
    (scheme v peer id).Stored (writeRecord v peer id content index raw nonce)
      (data.take (index * fileChunk) ++ raw) := by
  have hoffset : index * recordSize ≤ content.length := h.offset_le hi
  rw [writeRecord_eq hoffset]
  exact h.write hi hpos hle (seals_encrypt hnonce)

theorem stored_writeRecords (pending : Bytes) (drawn : ℕ) (h : (scheme v peer id).Stored content data)
    (index : ℕ) (hi : index * fileChunk ≤ data.length) :
    ∃ data', (scheme v peer id).Stored (writeRecords v peer id index pending content drawn).1 data' ∧
      data.take (index * fileChunk) ++ pending <+: data' := by
  -- After `k` records, what has been written of the pending bytes follows the stream.
  have hloop : ∀ k ≤ (pending.length + fileChunk - 1) / fileChunk,
      ∃ data', (scheme v peer id).Stored ((List.range k).foldl (fun (c : Bytes × ℕ) position =>
        (writeRecord v peer id c.1 (index + position)
          (slice pending (position * fileChunk) fileChunk) (v.token c.2), c.2 + 1))
        (content, drawn)).1 data' ∧
      data.take (index * fileChunk) ++ pending.take (k * fileChunk) <+: data' := by
    intro k hk
    induction k with
    | zero =>
      refine ⟨data, h, ?_⟩
      rw [Nat.zero_mul, List.take_zero, List.append_nil]
      exact List.take_prefix _ _
    | succ k ih =>
      obtain ⟨data', hstored, hhead⟩ := ih (by omega)
      have hlt : k * fileChunk < pending.length := (scheme v peer id).mul_lt_of_lt_count hk
      have hlen : (data.take (index * fileChunk) ++ pending.take (k * fileChunk)).length =
          (index + k) * fileChunk := by
        rw [List.length_append, List.length_take_of_le hi, List.length_take_of_le hlt.le, Nat.add_mul]
      have htake : data'.take ((index + k) * fileChunk) =
          data.take (index * fileChunk) ++ pending.take (k * fileChunk) := by
        rw [← hlen]
        exact (List.prefix_iff_eq_take.mp hhead).symm
      have hpiece := length_slice pending (k * fileChunk) fileChunk
      rw [List.range_succ, List.foldl_append, List.foldl_cons, List.foldl_nil]
      refine ⟨_, stored_writeRecord hstored ?_ ?_ ?_ (v.token_length _), ?_⟩
      · rw [← hlen]
        exact hhead.length_le
      · rw [hpiece]
        have hpos : 0 < fileChunk := by decide
        omega
      · rw [hpiece]
        exact Nat.min_le_left _ _
      · rw [htake, List.append_assoc, Nat.succ_mul, List.take_add]
        exact List.prefix_refl _
  obtain ⟨data', hstored, hhead⟩ := hloop _ le_rfl
  refine ⟨data', hstored, ?_⟩
  have hall : pending.length ≤ (pending.length + fileChunk - 1) / fileChunk * fileChunk :=
    (scheme v peer id).le_count_mul pending.length
  rwa [List.take_of_length_le hall] at hhead

theorem readRecord_ok (h : (scheme v peer id).Stored content data) {length : ℕ}
    (hi : index * fileChunk < data.length)
    (hl : length ≤ (slice data (index * fileChunk) fileChunk).length) :
    readRecord v peer id content index length =
      .ok ((slice data (index * fileChunk) fileChunk).take length) := by
  obtain ⟨-, hopen⟩ := h.seals index hi
  unfold readRecord
  have hopen' : v.decrypt ((pread content recordSize (index * recordSize)).take fileNonce)
      ((pread content recordSize (index * recordSize)).drop fileNonce) (recordData peer id index) =
      some (slice data (index * fileChunk) fileChunk) := hopen
  simp only [hopen']
  rw [if_neg (Nat.not_lt.mpr hl)]

theorem readRecord_committed (h : (scheme v peer id).Stored content data) {committed : ℕ}
    (hc : committed ≤ data.length) (hi : index * fileChunk < committed) :
    readRecord v peer id content index (min fileChunk (committed - index * fileChunk)) =
      .ok (slice (data.take committed) (index * fileChunk) fileChunk) := by
  rw [readRecord_ok h (by omega), take_slice]
  rw [length_slice]
  omega

theorem readSlice_ok (h : (scheme v peer id).Stored content data) {committed offset length : ℕ}
    (hc : committed ≤ data.length) (hpos : 0 < length) (hle : offset + length ≤ committed) :
    readSlice v peer id content committed offset length =
      .ok (slice (data.take committed) offset length) := by
  have hchunk : 0 < fileChunk := by decide
  have hfirst : offset / fileChunk * fileChunk ≤ offset := Nat.div_mul_le_self _ _
  have hlast : offset + length ≤ ((offset + length - 1) / fileChunk + 1) * fileChunk := by
    have hdiv := Nat.div_add_mod (offset + length - 1) fileChunk
    have hmod := Nat.mod_lt (offset + length - 1) hchunk
    rw [Nat.add_mul, Nat.mul_comm ((offset + length - 1) / fileChunk)]
    omega
  have hmono : offset / fileChunk ≤ (offset + length - 1) / fileChunk :=
    Nat.div_le_div_right (by omega)
  unfold readSlice
  simp only
  rw [Attempt.mapM_ok (g := fun position => slice (data.take committed)
    ((offset / fileChunk + position) * fileChunk) fileChunk)]
  · simp only [Except.map]
    rw [flatten_slices, slice_slice, Nat.add_sub_cancel' hfirst]
    rw [Nat.sub_mul]
    omega
  · intro position hposition
    rw [List.mem_range] at hposition
    refine readRecord_committed h hc ?_
    have hdiv : (offset / fileChunk + position) * fileChunk ≤ offset + length - 1 := by
      rw [← Nat.le_div_iff_mul_le hchunk]
      omega
    omega

theorem readRecords_ok (h : (scheme v peer id).Stored content data) {size : ℕ}
    (hs : size ≤ data.length) : readRecords v peer id content size = .ok (data.take size) := by
  unfold readRecords positions
  rw [Attempt.mapM_ok (g := fun index => slice (data.take size) ((0 + index) * fileChunk) fileChunk)]
  · simp only [Except.map]
    rw [flatten_slices, Nat.zero_mul, slice, List.drop_zero, List.take_of_length_le]
    rw [List.length_take_of_le hs]
    exact (scheme v peer id).le_count_mul size
  · intro index hindex
    rw [List.mem_range] at hindex
    rw [Nat.zero_add]
    exact readRecord_committed h hs ((scheme v peer id).mul_lt_of_lt_count hindex)

theorem readTail_ok (h : (scheme v peer id).Stored content data) {received : ℕ}
    (hr : received ≤ data.length) (hpos : received % fileChunk ≠ 0) :
    readRecord v peer id content (received / fileChunk) (received % fileChunk) =
      .ok (slice (data.take received) (received / fileChunk * fileChunk) fileChunk) := by
  have hdiv := Nat.div_add_mod received fileChunk
  have hmod := Nat.mod_lt received (show 0 < fileChunk by decide)
  rw [Nat.mul_comm] at hdiv
  have hlength : min fileChunk (received - received / fileChunk * fileChunk) =
      received % fileChunk := by omega
  rw [← hlength]
  exact readRecord_committed h hr (by omega)

end

end Raticode.Device
