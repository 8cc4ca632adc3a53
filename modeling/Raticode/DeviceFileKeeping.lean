import Raticode.DeviceFileRecords
import Mathlib.Data.List.Nodup

/-! Rows and record files stay together: what each operation on a file keeps, in the tables
that it works on and in those that are left when its transaction is rolled back. -/
namespace Raticode.Device
open PyDocument SealedRecords Attempt

def FileRow.key (row : FileRow) : Str × Str := (row.peer, row.id)

namespace FileStore
variable (v : Vault) (now : ℚ)

def Holds (f : FileStore) (peer id : Str) (bytes : Bytes) : Prop :=
  ∃ content data, f.disk peer id = some content ∧ (scheme v peer id).Stored content data ∧
    bytes <+: data

abbrev Streams := Str → Str → Bytes

def setStream (B : Streams) (peer id : Str) (bytes : Bytes) : Streams :=
  fun p i => if p = peer ∧ i = id then bytes else B p i

/-- Each row that has not expired has its file, which holds the bytes that were received; and
a file that is available is the one that was offered. -/
structure Whole (B : Streams) (f : FileStore) : Prop where
  keyed : (f.rows.map FileRow.key).Nodup
  sized : ∀ row ∈ f.rows, row.offer.size = row.size
  received : ∀ row ∈ f.rows, now < row.expires → (B row.peer row.id).length = row.received
  held : ∀ row ∈ f.rows, now < row.expires → f.Holds v row.peer row.id (B row.peer row.id)
  complete : ∀ row ∈ f.rows, now < row.expires → row.state = .available →
    row.received = row.size ∧ v.sha256 (B row.peer row.id) = row.offer.sha256

def Continues (row row' : FileRow) : Prop :=
  row'.peer = row.peer ∧ row'.id = row.id ∧ row'.thread = row.thread ∧ row'.expires = row.expires

def Follows (B : Streams) (f : FileStore) (B' : Streams) (g : FileStore) : Prop :=
  ∀ row ∈ f.rows, now < row.expires → (∃ row' ∈ g.rows, Continues row row') ∧
    B row.peer row.id <+: B' row.peer row.id

variable {v now} {B B' B'' : Streams} {f g k : FileStore} {peer id thread : Str}

theorem Holds.mono {bytes bytes' : Bytes} (h : f.Holds v peer id bytes') (hp : bytes <+: bytes') :
    f.Holds v peer id bytes := by
  obtain ⟨content, data, hdisk, hstored, hhead⟩ := h
  exact ⟨content, data, hdisk, hstored, hp.trans hhead⟩

theorem Holds.of_disk {bytes : Bytes} (h : f.Holds v peer id bytes)
    (hg : g.disk peer id = f.disk peer id) : g.Holds v peer id bytes := by
  obtain ⟨content, data, hdisk, hstored, hhead⟩ := h
  exact ⟨content, data, hg.trans hdisk, hstored, hhead⟩

theorem Follows.refl (B : Streams) (f : FileStore) : Follows now B f B f :=
  fun row hrow _ => ⟨⟨row, hrow, rfl, rfl, rfl, rfl⟩, List.prefix_refl _⟩

theorem Follows.trans (h : Follows now B f B' g) (h' : Follows now B' g B'' k) :
    Follows now B f B'' k := by
  intro row hrow hlive
  obtain ⟨⟨row', hrow', hp, hi, ht, he⟩, hhead⟩ := h row hrow hlive
  obtain ⟨⟨row'', hrow'', hp', hi', ht', he'⟩, hhead'⟩ := h' row' hrow' (he ▸ hlive)
  refine ⟨⟨row'', hrow'', hp'.trans hp, hi'.trans hi, ht'.trans ht, he'.trans he⟩, ?_⟩
  rw [hp, hi] at hhead'
  exact hhead.trans hhead'

theorem Whole.eq_of_key (h : Whole v now B f) {row row' : FileRow} (hrow : row ∈ f.rows)
    (hrow' : row' ∈ f.rows) (hp : row'.peer = row.peer) (hi : row'.id = row.id) : row' = row := by
  apply List.inj_on_of_nodup_map h.keyed hrow' hrow
  rw [FileRow.key, FileRow.key, hp, hi]

theorem Whole.rollback (h : Whole v now B f) (hg : Whole v now B' g) (hfollows : Follows now B f B' g) :
    Whole v now B { g with rows := f.rows } := by
  refine ⟨h.keyed, h.sized, h.received, fun row hrow hlive => ?_, h.complete⟩
  obtain ⟨⟨row', hrow', hp, hi, -, he⟩, hhead⟩ := hfollows row hrow hlive
  have hheld := hg.held row' hrow' (he ▸ hlive)
  rw [hp, hi] at hheld
  exact hheld.mono hhead

/-! Expiry. -/

theorem unlinks_disk {rows : List FileRow} (h : ∀ row ∈ rows, ¬ (peer = row.peer ∧ id = row.id)) :
    (rows.foldl (fun f row => f.unlink row.peer row.id) f).disk peer id = f.disk peer id := by
  induction rows generalizing f with
  | nil => rfl
  | cons row rows ih =>
    rw [List.foldl_cons, ih (fun r hr => h r (List.mem_cons_of_mem _ hr))]
    exact if_neg (h row List.mem_cons_self)

theorem unlinks_rows (rows : List FileRow) :
    (rows.foldl (fun f row => f.unlink row.peer row.id) f).rows = f.rows := by
  induction rows generalizing f with
  | nil => rfl
  | cons row rows ih =>
    rw [List.foldl_cons, ih]
    rfl

theorem expire_rows : (f.expire now).rows = f.rows.filter (fun row => now < row.expires) := by
  unfold expire sweep
  simp only
  rw [unlinks_rows]

theorem mem_expire {row : FileRow} : row ∈ (f.expire now).rows ↔ row ∈ f.rows ∧ now < row.expires := by
  rw [expire_rows, List.mem_filter, decide_eq_true_eq]

theorem hasRow_of_mem {row : FileRow} (h : row ∈ f.rows) : f.hasRow row.peer row.id = true :=
  List.any_eq_true.mpr ⟨row, h, by simp [isRow]⟩

theorem expire_disk (h : Whole v now B f) {row : FileRow} (hrow : row ∈ f.rows)
    (hlive : now < row.expires) : (f.expire now).disk row.peer row.id = f.disk row.peer row.id := by
  have hkept : (f.expire now).hasRow row.peer row.id = true := hasRow_of_mem (mem_expire.mpr ⟨hrow, hlive⟩)
  have hdisk : (f.expire now).disk row.peer row.id =
      if (f.expire now).hasRow row.peer row.id then
        ((f.rows.filter (fun row => row.expires ≤ now)).foldl
          (fun f row => f.unlink row.peer row.id) f).disk row.peer row.id
      else none := rfl
  rw [hdisk, if_pos hkept]
  apply unlinks_disk
  intro gone hgone hkey
  rw [List.mem_filter, decide_eq_true_eq] at hgone
  obtain rfl := h.eq_of_key hgone.1 hrow hkey.1 hkey.2
  exact absurd hlive (not_lt.mpr hgone.2)

theorem Whole.expire (h : Whole v now B f) :
    Whole v now B (f.expire now) ∧ Follows now B f B (f.expire now) := by
  refine ⟨⟨?_, ?_, ?_, ?_, ?_⟩, ?_⟩
  · rw [expire_rows]
    exact h.keyed.sublist (List.filter_sublist.map _)
  · exact fun row hrow => h.sized row (mem_expire.mp hrow).1
  · exact fun row hrow => h.received row (mem_expire.mp hrow).1
  · intro row hrow hlive
    have hmem := (mem_expire.mp hrow).1
    exact (h.held row hmem hlive).of_disk (expire_disk h hmem hlive)
  · exact fun row hrow => h.complete row (mem_expire.mp hrow).1
  · exact fun row hrow hlive =>
      ⟨⟨row, mem_expire.mpr ⟨hrow, hlive⟩, rfl, rfl, rfl, rfl⟩, List.prefix_refl _⟩

/-! Operations. -/

variable (v now) in
def Keeps {α : Type} (B : Streams) (f : FileStore) (x : FileTx α) (B' : Streams) : Prop :=
  Wp x (fun _ g => Whole v now B' g ∧ Follows now B f B' g)
    (fun e g => e ≠ .os ∧ Whole v now B g ∧ Follows now B f B g) f

theorem Keeps.pure {α : Type} (h : Whole v now B f) (a : α) :
    Keeps v now B f (Pure.pure a : FileTx α) B := ⟨h, Follows.refl B f⟩

theorem Keeps.raise {α : Type} (h : Whole v now B f) (code : String) :
    Keeps v now B f (raise code : FileTx α) B' := ⟨by simp, h, Follows.refl B f⟩

theorem Keeps.expires {α : Type} {x : FileTx α} (h : Whole v now B f)
    (hx : Whole v now B (f.expire now) → Keeps v now B (f.expire now) x B') :
    Keeps v now B f (FileStore.expires now >>= fun _ => x) B' := by
  obtain ⟨hwhole, hfollows⟩ := h.expire
  refine Wp.mono (hx hwhole) (fun _ g hg => ⟨hg.1, hfollows.trans hg.2⟩)
    (fun e g hg => ⟨hg.1, hg.2.1, hfollows.trans hg.2.2⟩)

theorem Whole.setDisk (h : Whole v now B f) (content : Option Bytes) (n : ℕ)
    (hnew : ∀ row ∈ f.rows, now < row.expires → row.peer = peer → row.id = id →
      ({ f.setDisk peer id content with drawn := n }).Holds v row.peer row.id (B row.peer row.id)) :
    Whole v now B { f.setDisk peer id content with drawn := n } := by
  refine ⟨h.keyed, h.sized, h.received, fun row hrow hlive => ?_, h.complete⟩
  by_cases hkey : row.peer = peer ∧ row.id = id
  · exact hnew row hrow hlive hkey.1 hkey.2
  · exact (h.held row hrow hlive).of_disk (if_neg hkey)

theorem follows_of_rows (hrows : g.rows = f.rows) : Follows now B f B g :=
  fun row hrow _ => ⟨⟨row, hrows ▸ hrow, rfl, rfl, rfl, rfl⟩, List.prefix_refl _⟩

theorem setStream_self (B : Streams) (peer id : Str) (bytes : Bytes) :
    setStream B peer id bytes peer id = bytes := if_pos ⟨rfl, rfl⟩

theorem setStream_of_ne (bytes : Bytes) {p i : Str} (h : ¬ (p = peer ∧ i = id)) :
    setStream B peer id bytes p i = B p i := if_neg h

theorem setStream_same (B : Streams) (peer id : Str) : setStream B peer id (B peer id) = B := by
  funext p i
  unfold setStream
  split_ifs with h
  · rw [h.1, h.2]
  · rfl

theorem not_key_of_hasRow (h : f.hasRow peer id = false) {row : FileRow} (hrow : row ∈ f.rows) :
    ¬ (row.peer = peer ∧ row.id = id) := by
  rintro ⟨rfl, rfl⟩
  rw [hasRow_of_mem hrow] at h
  cases h

theorem Whole.insert (h : Whole v now B f) (row : FileRow) {bytes : Bytes}
    (hnew : f.hasRow row.peer row.id = false) (hsize : row.offer.size = row.size)
    (hlen : bytes.length = row.received) (hheld : f.Holds v row.peer row.id bytes)
    (hcomplete : row.state = .available → row.received = row.size ∧ v.sha256 bytes = row.offer.sha256) :
    Whole v now (setStream B row.peer row.id bytes) { f with rows := f.rows ++ [row] } ∧
      Follows now B f (setStream B row.peer row.id bytes) { f with rows := f.rows ++ [row] } := by
  have hold : ∀ r ∈ f.rows, setStream B row.peer row.id bytes r.peer r.id = B r.peer r.id :=
    fun r hr => setStream_of_ne bytes (not_key_of_hasRow hnew hr)
  have hself := setStream_self B row.peer row.id bytes
  refine ⟨⟨?_, ?_, ?_, ?_, ?_⟩, ?_⟩
  · rw [List.map_append, List.nodup_append]
    refine ⟨h.keyed, List.nodup_singleton _, fun key hkey key' hkey' he => ?_⟩
    obtain ⟨r, hr, rfl⟩ := List.mem_map.mp hkey
    rw [List.map_singleton, List.mem_singleton] at hkey'
    rw [hkey'] at he
    exact not_key_of_hasRow hnew hr ⟨congrArg Prod.fst he, congrArg Prod.snd he⟩
  · intro r hr
    rcases List.mem_append.mp hr with hr | hr
    · exact h.sized r hr
    · rw [List.mem_singleton.mp hr]
      exact hsize
  · intro r hr hlive
    rcases List.mem_append.mp hr with hr | hr
    · rw [hold r hr]
      exact h.received r hr hlive
    · rw [List.mem_singleton.mp hr, hself]
      exact hlen
  · intro r hr hlive
    rcases List.mem_append.mp hr with hr | hr
    · rw [hold r hr]
      exact h.held r hr hlive
    · rw [List.mem_singleton.mp hr, hself]
      exact hheld
  · intro r hr hlive hstate
    rcases List.mem_append.mp hr with hr | hr
    · rw [hold r hr]
      exact h.complete r hr hlive hstate
    · rw [List.mem_singleton.mp hr] at hstate ⊢
      rw [hself]
      exact hcomplete hstate
  · intro r hr hlive
    rw [hold r hr]
    exact ⟨⟨r, List.mem_append_left _ hr, rfl, rfl, rfl, rfl⟩, List.prefix_refl _⟩

theorem reserve_spec (free size : ℕ) :
    Wp (reserve free size) (fun _ g => g = f) (fun e g => e ≠ .os ∧ g = f) f := by
  unfold reserve
  rw [wp_bind, wp_peek]
  split_ifs
  · exact ⟨by simp, rfl⟩
  · exact ⟨by simp, rfl⟩
  · rfl

def offered (B : Streams) (f : FileStore) (peer id : Str) : Streams :=
  if f.hasRow peer id then B else setStream B peer id []

theorem offer_keeps (h : Whole v now B f) (free : ℕ) (o : Offer) (limit : ℕ) :
    Keeps v now B f (offer now free peer thread o limit) (offered B (f.expire now) peer o.fileId) := by
  refine Keeps.expires h (fun h => ?_)
  generalize f.expire now = f at h ⊢
  unfold Keeps
  rw [wp_bind, wp_peek]
  cases hfind : f.rows.find? (isRow peer o.fileId) with
  | some row =>
    have hrow : f.hasRow peer o.fileId = true :=
      List.any_eq_true.mpr ⟨row, List.mem_of_find?_eq_some hfind, List.find?_some hfind⟩
    rw [offered, if_pos hrow]
    simp only
    split_ifs
    · exact Keeps.raise h _
    · exact Keeps.pure h ()
  | none =>
    have hnew : f.hasRow peer o.fileId = false := by
      rw [hasRow, List.any_eq_false]
      exact List.find?_eq_none.mp hfind
    rw [offered, hnew]
    simp only [Bool.false_eq_true, if_false]
    split_ifs with hbounds
    · exact Keeps.raise h _
    simp only [Bool.not_eq_true, Bool.or_eq_false_iff, Bool.not_eq_false', Bool.and_eq_true,
      decide_eq_true_eq] at hbounds
    rw [wp_bind]
    refine (reserve_spec free o.size.toNat).mono ?_ (fun e g hg => ?_)
    · rintro u g rfl
      unfold FileStore.insert
      rw [wp_bind, wp_bind, wp_peek]
      simp only [hnew, Bool.false_eq_true, if_false]
      rw [wp_put]
      -- The row is inserted before its file is created.
      have hdisk := h.setDisk (some (ftruncate ((g.disk peer o.fileId).getD []) 0)) g.drawn
        (fun row hrow _ hp hi => absurd ⟨hp, hi⟩ (not_key_of_hasRow hnew hrow))
      have hempty : ({ g.setDisk peer o.fileId (some (ftruncate ((g.disk peer o.fileId).getD []) 0)) with
          drawn := g.drawn }).Holds v peer o.fileId [] := by
        refine ⟨_, [], if_pos ⟨rfl, rfl⟩, ?_, List.nil_prefix⟩
        have hnil : ftruncate ((g.disk peer o.fileId).getD []) 0 = [] := by simp [ftruncate]
        rw [hnil]
        exact (scheme v peer o.fileId).stored_nil
      obtain ⟨hwhole, hfollows⟩ := hdisk.insert
        ⟨peer, o.fileId, thread, o, o.size.toNat, o.expiresAt, .receiving, 0⟩ hnew
        (Int.toNat_of_nonneg hbounds.2.1).symm rfl hempty
        (fun hstate => by cases hstate)
      exact ⟨hwhole, hfollows⟩
    · rw [hg.2]
      exact ⟨hg.1, h, Follows.refl B f⟩

theorem stream_eq_take {data : Bytes} {n : ℕ} (hp : B peer id <+: data) (hlen : (B peer id).length = n) :
    n ≤ data.length ∧ data.take n = B peer id := by
  subst hlen
  exact ⟨hp.length_le, (List.prefix_iff_eq_take.mp hp).symm⟩

theorem openRecords_ok {content : Bytes} (h : f.disk peer id = some content) :
    openRecords peer id f = .ok content f := by
  unfold openRecords
  rw [run_bind_ok (x := peek) rfl, h]
  rfl

theorem lift_ok {α : Type} {x : Except Fault α} {a : α} (h : x = .ok a) :
    (lift x : FileTx α) f = .ok a f := by
  rw [h]
  rfl

theorem slice_spec (h : Whole v now B f) {row : FileRow} (hrow : row ∈ f.rows)
    (hlive : now < row.expires) (offset length : ℕ) (hle : offset + length ≤ row.received) :
    slice v row.peer row.id row.received offset length f =
      .ok (SealedRecords.slice (B row.peer row.id) offset length) f := by
  obtain ⟨content, data, hdisk, hstored, hhead⟩ := h.held row hrow hlive
  obtain ⟨hlength, htake⟩ := stream_eq_take hhead (h.received row hrow hlive)
  unfold slice
  split_ifs with hzero
  · rw [hzero, SealedRecords.slice, List.take_zero]
    rfl
  · rw [run_bind_ok (openRecords_ok hdisk), ← htake]
    exact lift_ok (readSlice_ok hstored hlength (Nat.pos_of_ne_zero hzero) hle)

theorem tail_spec (h : Whole v now B f) {row : FileRow} (hrow : row ∈ f.rows)
    (hlive : now < row.expires) {content data : Bytes}
    (hstored : (scheme v row.peer row.id).Stored content data) (hhead : B row.peer row.id <+: data) :
    ∃ tail, readTail v row content = .ok tail ∧
      data.take (row.received / fileChunk * fileChunk) ++ tail = B row.peer row.id := by
  obtain ⟨hlength, htake⟩ := stream_eq_take hhead (h.received row hrow hlive)
  have hdiv := Nat.div_add_mod row.received fileChunk
  rw [Nat.mul_comm] at hdiv
  unfold readTail
  simp only
  split_ifs with hstart
  · refine ⟨[], rfl, ?_⟩
    rw [hstart, Nat.add_zero] at hdiv
    rw [hdiv, htake, List.append_nil]
  · refine ⟨_, readTail_ok hstored hlength hstart, ?_⟩
    have hmod := Nat.mod_lt row.received (show 0 < fileChunk by decide)
    have hfull : data.take (row.received / fileChunk * fileChunk) =
        (B row.peer row.id).take (row.received / fileChunk * fileChunk) := by
      rw [← htake, List.take_take, Nat.min_eq_left (by omega)]
    have hlen := h.received row hrow hlive
    have hrest : ((B row.peer row.id).drop (row.received / fileChunk * fileChunk)).take fileChunk =
        (B row.peer row.id).drop (row.received / fileChunk * fileChunk) :=
      List.take_of_length_le (by rw [List.length_drop]; omega)
    rw [htake, hfull, SealedRecords.slice, hrest, List.take_append_drop]

theorem recordsDigest_ok {content data : Bytes} (hstored : (scheme v peer id).Stored content data)
    {size : ℕ} (hs : size ≤ data.length) :
    recordsDigest v peer id content size = .ok (v.sha256 (data.take size)) := by
  rw [recordsDigest, readRecords_ok hstored hs]
  rfl

theorem finish_spec {row : FileRow} {content data bytes : Bytes} (eof : Bool) {received : ℕ}
    (hstored : (scheme v row.peer row.id).Stored content data) (hhead : bytes <+: data)
    (hlen : bytes.length = received) :
    match finish v row eof content received with
    | .ok state => state = .available → received = row.size ∧ v.sha256 bytes = row.offer.sha256
    | .error e => e ≠ .os := by
  unfold finish
  split_ifs with heof hsize
  · exact fun hstate => by cases hstate
  · simp
  · rw [ne_eq, not_not] at hsize
    have htake : data.take row.size = bytes := by
      rw [← hsize, ← hlen]
      exact (List.prefix_iff_eq_take.mp hhead).symm
    have hle : row.size ≤ data.length := by
      rw [← hsize, ← hlen]
      exact hhead.length_le
    rw [recordsDigest_ok hstored hle, htake]
    simp only [bind, Except.bind]
    split_ifs with hdigest
    · simp
    · exact fun _ => ⟨hsize, not_not.mp hdigest⟩

theorem Whole.setRow (h : Whole v now B f) {row : FileRow} (hrow : row ∈ f.rows) {raw : Bytes}
    {state : FileState} (hlen : (B row.peer row.id).length = row.received)
    (hheld : f.Holds v row.peer row.id (B row.peer row.id ++ raw))
    (hcomplete : state = .available → row.received + raw.length = row.size ∧
      v.sha256 (B row.peer row.id ++ raw) = row.offer.sha256) :
    Whole v now (setStream B row.peer row.id (B row.peer row.id ++ raw))
        (f.setRow row.peer row.id state (row.received + raw.length)) ∧
      Follows now B f (setStream B row.peer row.id (B row.peer row.id ++ raw))
        (f.setRow row.peer row.id state (row.received + raw.length)) := by
  have hself := setStream_self B row.peer row.id (B row.peer row.id ++ raw)
  -- A row of the new table is the updated one, or one of another key.
  have hcases : ∀ r ∈ (f.setRow row.peer row.id state (row.received + raw.length)).rows,
      r = { row with state, received := row.received + raw.length } ∨
        r ∈ f.rows ∧ setStream B row.peer row.id (B row.peer row.id ++ raw) r.peer r.id =
          B r.peer r.id := by
    intro r hr
    obtain ⟨old, hold, rfl⟩ := List.mem_map.mp hr
    by_cases hkey : isRow row.peer row.id old = true
    · rw [if_pos hkey]
      simp only [isRow, Bool.and_eq_true, decide_eq_true_eq] at hkey
      rw [h.eq_of_key hrow hold hkey.1 hkey.2]
      exact .inl rfl
    · rw [if_neg hkey]
      simp only [isRow, Bool.and_eq_true, decide_eq_true_eq] at hkey
      exact .inr ⟨hold, setStream_of_ne _ hkey⟩
  refine ⟨⟨?_, ?_, ?_, ?_, ?_⟩, ?_⟩
  · have hkeys : (f.setRow row.peer row.id state (row.received + raw.length)).rows.map FileRow.key =
        f.rows.map FileRow.key := by
      unfold FileStore.setRow
      rw [List.map_map]
      apply List.map_congr_left
      intro r _
      simp only [Function.comp]
      split_ifs <;> rfl
    rw [hkeys]
    exact h.keyed
  · intro r hr
    rcases hcases r hr with rfl | ⟨hold, -⟩
    · exact h.sized row hrow
    · exact h.sized r hold
  · intro r hr hlive
    rcases hcases r hr with rfl | ⟨hold, hsame⟩
    · rw [hself, List.length_append, hlen]
    · rw [hsame]
      exact h.received r hold hlive
  · intro r hr hlive
    rcases hcases r hr with rfl | ⟨hold, hsame⟩
    · rw [hself]
      exact hheld.of_disk rfl
    · rw [hsame]
      exact (h.held r hold hlive).of_disk rfl
  · intro r hr hlive hstate
    rcases hcases r hr with rfl | ⟨hold, hsame⟩
    · rw [hself]
      exact hcomplete hstate
    · rw [hsame]
      exact h.complete r hold hlive hstate
  · intro r hr hlive
    have hmem := List.mem_map_of_mem (f := fun old => if isRow row.peer row.id old = true then
      { old with state, received := row.received + raw.length } else old) hr
    refine ⟨⟨_, hmem, ?_⟩, ?_⟩
    · split_ifs <;> exact ⟨rfl, rfl, rfl, rfl⟩
    · by_cases hkey : r.peer = row.peer ∧ r.id = row.id
      · rw [hkey.1, hkey.2, hself]
        exact List.prefix_append _ _
      · rw [setStream_of_ne _ hkey]

theorem append_keeps (h : Whole v now B f) {row : FileRow} (hrow : row ∈ f.rows)
    (hlive : now < row.expires) (raw : Bytes) (eof : Bool) :
    Keeps v now B f (append v row raw eof)
      (setStream B row.peer row.id (B row.peer row.id ++ raw)) := by
  obtain ⟨content, data, hdisk, hstored, hhead⟩ := h.held row hrow hlive
  have hlen := h.received row hrow hlive
  obtain ⟨tail, htail, hstream⟩ := tail_spec h hrow hlive hstored hhead
  obtain ⟨hlength, -⟩ := stream_eq_take hhead hlen
  obtain ⟨data', hstored', hhead'⟩ := stored_writeRecords (tail ++ raw) f.drawn
    hstored (row.received / fileChunk) (le_trans (Nat.div_mul_le_self _ _) hlength)
  rw [← List.append_assoc, hstream] at hhead'
  unfold Keeps append Wp
  simp only
  rw [run_bind_ok (openRecords_ok hdisk), run_bind_ok (lift_ok htail), run_bind_ok (x := peek) rfl]
  generalize writeRecords v row.peer row.id (row.received / fileChunk) (tail ++ raw) content f.drawn =
    written at hstored' ⊢
  obtain ⟨content', drawn⟩ := written
  simp only
  rw [run_bind_ok (x := put _) rfl]
  -- What was received before is still there, whether or not the row is updated.
  have hheld : ({ f.setDisk row.peer row.id (some content') with drawn }).Holds v row.peer row.id
      (B row.peer row.id ++ raw) := ⟨content', data', if_pos ⟨rfl, rfl⟩, hstored', hhead'⟩
  have hwhole : Whole v now B { f.setDisk row.peer row.id (some content') with drawn } := by
    refine h.setDisk (some content') drawn (fun r hr _ hp hi => ?_)
    rw [hp, hi]
    exact hheld.mono (List.prefix_append _ _)
  have hfollows : Follows now B f B { f.setDisk row.peer row.id (some content') with drawn } :=
    follows_of_rows rfl
  have hreceived : (B row.peer row.id ++ raw).length = row.received + raw.length := by
    rw [List.length_append, hlen]
  have hfinish := finish_spec eof hstored' hhead' hreceived
  cases hf : finish v row eof content' (row.received + raw.length) with
  | error e =>
    rw [hf] at hfinish
    rw [run_bind_error (x := lift _) rfl]
    exact ⟨hfinish, hwhole, hfollows⟩
  | ok state =>
    rw [hf] at hfinish
    rw [run_bind_ok (x := lift _) rfl, run_bind_ok (x := peek) rfl, run_bind_ok (x := put _) rfl]
    obtain ⟨hnew, hnext⟩ := hwhole.setRow hrow hlen hheld hfinish
    exact ⟨hnew, hfollows.trans hnext⟩

def accept (stream : Bytes) (offset : ℤ) (raw : Bytes) : Bytes :=
  if offset = stream.length then stream ++ raw else stream

def received (B : Streams) (peer : Str) (payload : FileChunk) : Streams :=
  match decodeChunk payload.data with
  | none => B
  | some raw =>
    setStream B peer payload.fileId (accept (B peer payload.fileId) payload.offset raw)

theorem isRowOf_iff {row : FileRow} :
    isRowOf peer thread id row = true ↔ row.peer = peer ∧ row.id = id ∧ row.thread = thread := by
  simp only [isRowOf, isRow, Bool.and_eq_true, decide_eq_true_eq, and_assoc]

theorem receive_keeps (h : Whole v now B f) (payload : FileChunk) :
    Keeps v now B f (receive v now peer thread payload) (received B peer payload) := by
  refine Keeps.expires h (fun h => ?_)
  have hlive : ∀ row ∈ (f.expire now).rows, now < row.expires := fun row hrow => (mem_expire.mp hrow).2
  generalize f.expire now = f at h hlive ⊢
  unfold Keeps
  rw [wp_bind, wp_peek]
  cases hfind : f.rows.find? (isRowOf peer thread payload.fileId) with
  | none => exact Keeps.raise h _
  | some row =>
    have hrow := List.mem_of_find?_eq_some hfind
    obtain ⟨rfl, hid, -⟩ := isRowOf_iff.mp (List.find?_some hfind)
    have hlen := h.received row hrow (hlive row hrow)
    unfold received
    rw [← hid]
    simp only
    cases hraw : decodeChunk payload.data with
    | none => exact Keeps.raise h _
    | some raw =>
      simp only
      split_ifs with hagain hbounds horder
      · exact Keeps.raise h _
      · -- A retransmission, which has to match what was received.
        simp only [Bool.not_eq_true, Bool.or_eq_false_iff, Bool.not_eq_false', Bool.and_eq_true,
          decide_eq_true_eq, decide_eq_false_iff_not, not_lt] at hbounds
        have hslice := slice_spec h hrow (hlive row hrow) payload.offset.toNat
          raw.length (by omega)
        have hsame : accept (B row.peer row.id) payload.offset raw = B row.peer row.id := by
          unfold accept
          split_ifs with hend
          · have hnil : raw = [] := List.length_eq_zero_iff.mp (by omega)
            rw [hnil, List.append_nil]
          · rfl
        rw [hsame, setStream_same]
        unfold Wp
        rw [run_bind_ok hslice]
        split_ifs
        · exact ⟨by simp, h, Follows.refl B f⟩
        · exact ⟨h, Follows.refl B f⟩
      · exact Keeps.raise h _
      · simp only [Bool.or_eq_true, not_or, decide_eq_true_eq, ne_eq, not_not] at horder
        have hnext : accept (B row.peer row.id) payload.offset raw = B row.peer row.id ++ raw := by
          rw [accept, if_pos (by rw [hlen]; exact horder.1.1.2)]
        rw [hnext]
        exact append_keeps h hrow (hlive row hrow) raw payload.eof

theorem Whole.find_eq (h : Whole v now B f) {row : FileRow} (hrow : row ∈ f.rows) {p : FileRow → Bool}
    (hp : p row = true) (hkey : ∀ r, p r = true → r.peer = row.peer ∧ r.id = row.id) :
    f.rows.find? p = some row := by
  cases hfind : f.rows.find? p with
  | none => exact absurd hp (List.find?_eq_none.mp hfind row hrow)
  | some r =>
    obtain ⟨hpeer, hid⟩ := hkey r (List.find?_some hfind)
    rw [h.eq_of_key hrow (List.mem_of_find?_eq_some hfind) hpeer hid]

theorem expires_run : expires now f = .ok () (f.expire now) := rfl

theorem available_spec (h : Whole v now B f) {row : FileRow} (hrow : row ∈ f.rows)
    (hlive : now < row.expires) (havailable : row.state = .available) :
    available now row.peer row.thread row.id f = .ok row (f.expire now) := by
  have hfind : (f.expire now).rows.find? (fun r => isRowOf row.peer row.thread row.id r &&
      decide (r.state = .available)) = some row := by
    refine h.expire.1.find_eq (mem_expire.mpr ⟨hrow, hlive⟩) ?_ (fun r hr => ?_)
    · simp [isRowOf, isRow, havailable]
    · rw [Bool.and_eq_true] at hr
      obtain ⟨hp, hi, -⟩ := isRowOf_iff.mp hr.1
      exact ⟨hp, hi⟩
  unfold available
  rw [run_bind_ok expires_run, run_bind_ok (x := peek) rfl, hfind]
  rfl

theorem chunk_spec (h : Whole v now B f) {row : FileRow} (hrow : row ∈ f.rows)
    (hlive : now < row.expires) (havailable : row.state = .available) {offset : ℕ}
    (hoffset : offset ≤ row.size) :
    chunk v now row.peer row.thread row.id offset f =
      .ok (row.offer, ((B row.peer row.id).drop offset).take fileChunk) (f.expire now) := by
  obtain ⟨hsize, -⟩ := h.complete row hrow hlive havailable
  have hlen := h.received row hrow hlive
  have hslice := slice_spec h.expire.1 (mem_expire.mpr ⟨hrow, hlive⟩) hlive offset
    (min fileChunk (row.size - offset)) (by omega)
  have hbytes : SealedRecords.slice (B row.peer row.id) offset (min fileChunk (row.size - offset)) =
      ((B row.peer row.id).drop offset).take fileChunk := by
    rw [SealedRecords.slice, ← hsize, ← hlen, ← List.length_drop, ← List.take_eq_take_min]
  rw [hsize, hbytes] at hslice
  unfold chunk
  rw [run_bind_ok (available_spec h hrow hlive havailable)]
  rw [if_neg (by simpa using hoffset), Int.toNat_natCast, run_bind_ok hslice]
  rfl

theorem content_spec (h : Whole v now B f) {row : FileRow} (hrow : row ∈ f.rows)
    (hlive : now < row.expires) (havailable : row.state = .available) {limit : ℕ}
    (hlimit : row.size ≤ limit) :
    content v now row.peer row.thread row.id limit f =
      .ok (row.offer, B row.peer row.id) (f.expire now) := by
  obtain ⟨hsize, hdigest⟩ := h.complete row hrow hlive havailable
  have hmem := mem_expire.mpr ⟨hrow, hlive⟩
  obtain ⟨records, data, hdisk, hstored, hhead⟩ := h.expire.1.held row hmem hlive
  obtain ⟨hlength, htake⟩ := stream_eq_take hhead (h.received row hrow hlive)
  have hread := readRecords_ok hstored hlength
  rw [htake, hsize] at hread
  unfold content
  rw [run_bind_ok (available_spec h hrow hlive havailable), if_neg (not_lt.mpr hlimit),
    run_bind_ok (openRecords_ok hdisk), run_bind_ok (lift_ok hread), if_neg (not_not.mpr hdigest)]
  rfl

theorem chunk_keeps (h : Whole v now B f) (offset : ℤ) :
    Keeps v now B f (chunk v now peer thread id offset) B := by
  by_cases hrow : ∃ row ∈ f.rows, isRowOf peer thread id row = true ∧ now < row.expires ∧
      row.state = .available
  · obtain ⟨row, hmem, hkey, hlive, havailable⟩ := hrow
    obtain ⟨rfl, rfl, rfl⟩ := isRowOf_iff.mp hkey
    obtain ⟨hwhole, hfollows⟩ := h.expire
    by_cases hoffset : 0 ≤ offset ∧ offset ≤ row.size
    · obtain ⟨n, rfl⟩ := Int.eq_ofNat_of_zero_le hoffset.1
      have hn : n ≤ row.size := by exact_mod_cast hoffset.2
      have hchunk := chunk_spec h hmem hlive havailable hn
      unfold Keeps Wp
      rw [hchunk]
      exact ⟨hwhole, hfollows⟩
    · unfold Keeps Wp chunk
      rw [run_bind_ok (available_spec h hmem hlive havailable),
        if_pos (by simpa [Bool.not_eq_true', not_and, imp_iff_not_or] using hoffset)]
      exact ⟨by simp, hwhole, hfollows⟩
  · have hfind : (f.expire now).rows.find? (fun r => isRowOf peer thread id r &&
        decide (r.state = .available)) = none := by
      rw [List.find?_eq_none]
      intro r hr hp
      rw [Bool.and_eq_true, decide_eq_true_eq] at hp
      exact hrow ⟨r, (mem_expire.mp hr).1, hp.1, (mem_expire.mp hr).2, hp.2⟩
    obtain ⟨hwhole, hfollows⟩ := h.expire
    have hnone : available now peer thread id f =
        .error (.pairing "file_unavailable") (f.expire now) := by
      unfold available
      rw [run_bind_ok expires_run, run_bind_ok (x := peek) rfl, hfind]
      rfl
    unfold Keeps Wp chunk
    rw [run_bind_error hnone]
    exact ⟨by simp, hwhole, hfollows⟩

def cancelled (f : FileStore) (peer thread id : Str) : FileStore :=
  let rest := { f with rows := f.rows.filter (fun row => !isRowOf peer thread id row) }
  if f.rows.any (isRowOf peer thread id) then rest.unlink peer id else rest

theorem cancelled_rows :
    (f.cancelled peer thread id).rows = f.rows.filter (fun row => !isRowOf peer thread id row) := by
  unfold cancelled
  split_ifs <;> rfl

theorem Whole.cancelled (h : Whole v now B f) : Whole v now B (f.cancelled peer thread id) := by
  have hmem : ∀ {row}, row ∈ (f.cancelled peer thread id).rows → row ∈ f.rows ∧
      isRowOf peer thread id row = false := by
    intro row hrow
    rw [cancelled_rows, List.mem_filter, Bool.not_eq_true'] at hrow
    exact hrow
  refine ⟨?_, fun row hrow => h.sized row (hmem hrow).1,
    fun row hrow => h.received row (hmem hrow).1, fun row hrow hlive => ?_,
    fun row hrow => h.complete row (hmem hrow).1⟩
  · rw [cancelled_rows]
    exact h.keyed.sublist (List.filter_sublist.map _)
  · obtain ⟨hold, hother⟩ := hmem hrow
    refine (h.held row hold hlive).of_disk ?_
    unfold FileStore.cancelled
    split_ifs with hany
    · -- The row that is deleted is the only one of its key.
      refine if_neg (fun hkey => ?_)
      obtain ⟨gone, hgone, hpeer⟩ := List.any_eq_true.mp hany
      obtain ⟨hp, hi, -⟩ := isRowOf_iff.mp hpeer
      rw [h.eq_of_key hold hgone (hp.trans hkey.1.symm) (hi.trans hkey.2.symm)] at hpeer
      rw [hpeer] at hother
      cases hother
    · rfl

theorem Follows.cancelled (h : Follows now B f B' g)
    (hnone : ∀ row ∈ f.rows, now < row.expires → isRowOf peer thread id row = false) :
    Follows now B f B' (g.cancelled peer thread id) := by
  intro row hrow hlive
  obtain ⟨⟨row', hrow', hp, hi, ht, he⟩, hhead⟩ := h row hrow hlive
  refine ⟨⟨row', ?_, hp, hi, ht, he⟩, hhead⟩
  have hother : isRowOf peer thread id row' = false := by
    rw [← hnone row hrow hlive]
    simp only [isRowOf, isRow, hp, hi, ht]
  rw [cancelled_rows, List.mem_filter, hother]
  exact ⟨hrow', rfl⟩

theorem copy_spec (h : Whole v now B f) (hnew : f.hasRow peer id = false) (source : Source) :
    Wp (copy v peer id source)
      (fun _ g => Whole v now B g ∧ g.rows = f.rows ∧ source.bytes.length = source.size ∧
        g.Holds v peer id source.bytes)
      (fun e g => e ≠ .os ∧ Whole v now B g ∧ g.rows = f.rows) f := by
  have hother : ∀ {k : FileStore} (content : Option Bytes) (n : ℕ), Whole v now B k → k.rows = f.rows →
      Whole v now B { k.setDisk peer id content with drawn := n } := by
    intro k content n hk hrows
    refine hk.setDisk content n (fun row hrow _ hp hi => ?_)
    rw [hrows] at hrow
    exact absurd ⟨hp, hi⟩ (not_key_of_hasRow hnew hrow)
  have hcreate : create peer id f =
      .ok () (f.setDisk peer id (some (ftruncate ((f.disk peer id).getD []) 0))) := rfl
  unfold copy Wp
  rw [run_bind_ok hcreate, run_bind_ok (x := peek) rfl]
  obtain ⟨data, hstored, hhead⟩ := stored_writeRecords source.bytes
    (f.setDisk peer id (some (ftruncate ((f.disk peer id).getD []) 0))).drawn
    (scheme v peer id).stored_nil 0 (by simp)
  generalize writeRecords v peer id 0 source.bytes [] _ = written at hstored ⊢
  obtain ⟨content, drawn⟩ := written
  simp only
  rw [run_bind_ok (x := put _) rfl]
  have hempty := hother (some (ftruncate ((f.disk peer id).getD []) 0)) f.drawn h rfl
  have hwritten := hother (some content) drawn hempty rfl
  split_ifs with hsize
  · rw [run_bind_ok (x := peek) rfl, run_bind_ok (x := put _) rfl]
    have hgone := hother none drawn hwritten rfl
    exact ⟨by simp, hgone, rfl⟩
  · exact ⟨hwritten, rfl, not_not.mp hsize, content, data, if_pos ⟨rfl, rfl⟩, hstored, hhead⟩

theorem snapshot_keeps (h : Whole v now B f) (free : ℕ) (source : Option Source)
    (hnew : f.hasRow peer id = false) :
    Keeps v now B f (snapshot v now free peer thread id source)
      (setStream B peer id ((source.map Source.bytes).getD [])) := by
  unfold snapshot
  cases source with
  | none => exact Keeps.raise h _
  | some source =>
    refine Keeps.expires h (fun h => ?_)
    have hnew : (f.expire now).hasRow peer id = false := by
      rw [hasRow, List.any_eq_false] at hnew ⊢
      exact fun row hrow => hnew row (mem_expire.mp hrow).1
    generalize f.expire now = f at h hnew ⊢
    unfold Keeps
    rw [wp_bind, wp_peek]
    cases reserve free source.size f with
    | error e t => exact Keeps.raise h _
    | ok u t =>
      simp only
      rw [wp_bind]
      refine (copy_spec h hnew source).mono ?_ (fun e g hg => ⟨hg.1, hg.2.1, follows_of_rows hg.2.2⟩)
      rintro u g ⟨hwhole, hrows, hlen, hheld⟩
      have hnew' : g.hasRow peer id = false := by
        rw [hasRow, hrows]
        exact hnew
      unfold FileStore.insert
      rw [wp_bind, wp_bind, wp_peek]
      simp only [hnew', Bool.false_eq_true, if_false]
      rw [wp_put, wp_pure]
      obtain ⟨hinserted, hfollows⟩ := hwhole.insert
        ⟨peer, id, thread, ⟨id, source.size, v.sha256 source.bytes, (now.floor : ℚ) + 3600,
          v.offerText id source.name source.size (v.sha256 source.bytes) (now.floor + 3600)⟩,
          source.size, (now.floor : ℚ) + 3600, .available, source.size⟩
        hnew' rfl hlen hheld (fun _ => ⟨rfl, rfl⟩)
      exact ⟨hinserted, (follows_of_rows hrows).trans hfollows⟩

end FileStore

end Raticode.Device
