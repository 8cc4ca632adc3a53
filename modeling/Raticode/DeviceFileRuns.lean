import Raticode.DeviceFileKeeping
import Raticode.Guarded

/-! Files over whole runs: what the chunks that were accepted make of a file, and whether
every row has its file, whatever transactions are rolled back and however the clock is set. -/
namespace Raticode.Device
open PyDocument Attempt

/-! Expiry takes the file of a row at once. Where the transaction is rolled back the row is there again,
expired still; it is alive only if the clock is set back. -/
section Expiry
namespace FileStore

/-- The rows that have expired. -/
def expired (f : FileStore) (now : ℚ) : List (Str × Str) :=
  (f.rows.filter (fun row => row.expires ≤ now)).map FileRow.key

/-- None of the rows is alive at the reading. -/
def stayExpired (f : FileStore) (lost : List (Str × Str)) (reading : ℚ) : Bool :=
  f.rows.all (fun row => !lost.contains row.key || decide (row.expires ≤ reading))

variable {v : Vault} {now now' : ℚ} {B : Streams} {f : FileStore} {lost : List (Str × Str)}

theorem stayExpired_iff : f.stayExpired lost now = true ↔
    ∀ row ∈ f.rows, row.key ∈ lost → row.expires ≤ now := by
  simp [stayExpired, imp_iff_not_or]

theorem whole_empty (v : Vault) (now : ℚ) (B : Streams) (drawn : ℕ) :
    Whole v now B ⟨[], fun _ _ => none, drawn⟩ :=
  ⟨List.nodup_nil, fun _ hrow => absurd hrow List.not_mem_nil,
    fun _ hrow => absurd hrow List.not_mem_nil, fun _ hrow => absurd hrow List.not_mem_nil,
    fun _ hrow => absurd hrow List.not_mem_nil⟩

/-- Every row that is not lost has its file, whatever the clock says. -/
structure Safe (v : Vault) (lost : List (Str × Str)) (B : Streams) (f : FileStore) : Prop where
  keyed : (f.rows.map FileRow.key).Nodup
  sized : ∀ row ∈ f.rows, row.offer.size = row.size
  received : ∀ row ∈ f.rows, row.key ∉ lost → (B row.peer row.id).length = row.received
  held : ∀ row ∈ f.rows, row.key ∉ lost → f.Holds v row.peer row.id (B row.peer row.id)
  complete : ∀ row ∈ f.rows, row.key ∉ lost → row.state = .available →
    row.received = row.size ∧ v.sha256 (B row.peer row.id) = row.offer.sha256

theorem Safe.whole (h : f.Safe v lost B) (hstay : f.stayExpired lost now = true) : f.Whole v now B := by
  have hkept : ∀ row ∈ f.rows, now < row.expires → row.key ∉ lost := fun row hrow hlive hlost =>
    absurd hlive (not_lt.mpr (stayExpired_iff.mp hstay row hrow hlost))
  exact ⟨h.keyed, h.sized, fun row hrow hlive => h.received row hrow (hkept row hrow hlive),
    fun row hrow hlive => h.held row hrow (hkept row hrow hlive),
    fun row hrow hlive => h.complete row hrow (hkept row hrow hlive)⟩

/-- Of a store that is whole now, what has expired may be lost. -/
theorem Whole.safe (h : f.Whole v now B) : f.Safe v (f.expired now) B := by
  have hlive : ∀ row ∈ f.rows, row.key ∉ f.expired now → now < row.expires := by
    intro row hrow hkept
    by_contra hgone
    exact hkept (List.mem_map_of_mem (List.mem_filter.mpr ⟨hrow, by simpa using hgone⟩))
  exact ⟨h.keyed, h.sized, fun row hrow hkept => h.received row hrow (hlive row hrow hkept),
    fun row hrow hkept => h.held row hrow (hlive row hrow hkept),
    fun row hrow hkept => h.complete row hrow (hlive row hrow hkept)⟩

theorem safe_empty (v : Vault) (B : Streams) (drawn : ℕ) : Safe v [] B ⟨[], fun _ _ => none, drawn⟩ :=
  (whole_empty v 0 B drawn).safe

theorem Whole.stayExpired_expired (h : f.Whole v now B) : f.stayExpired (f.expired now) now = true := by
  rw [stayExpired_iff]
  intro row hrow hkey
  obtain ⟨gone, hgone, hsame⟩ := List.mem_map.mp hkey
  rw [List.mem_filter, decide_eq_true_eq] at hgone
  rw [← List.inj_on_of_nodup_map h.keyed hgone.1 hrow hsame]
  exact hgone.2

end FileStore
end Expiry

/-! Files that peers send. -/

inductive Transfer where
  | offers (peer thread : Str) (o : Offer) (limit free : ℕ) (commits : Bool)
  | receives (peer thread : Str) (payload : FileChunk) (commits : Bool)
  | passes (reading : ℚ)

/-- The files, a reading of the clock, the chunks that were accepted, and the rows that had expired when
the last transaction ended. -/
structure Arrivals where
  files : FileStore
  now : ℚ
  streams : FileStore.Streams
  lost : List (Str × Str)

namespace Arrivals
open FileStore

variable (v : Vault)

def settle {α : Type} (f : FileStore) (commits : Bool) (x : FileTx α) : Bool × FileStore :=
  match x f with
  | .ok _ g => if commits then (true, g) else (false, { g with rows := f.rows })
  | .error _ g => (false, { g with rows := f.rows })

def act (w : Arrivals) : Transfer → Arrivals
  | .offers peer thread o limit free commits =>
    let (done, files) := settle w.files commits (offer w.now free peer thread o limit)
    { w with
      files
      streams := if done then offered w.streams (w.files.expire w.now) peer o.fileId else w.streams
      lost := files.expired w.now }
  | .receives peer thread payload commits =>
    let (done, files) := settle w.files commits (receive v w.now peer thread payload)
    { w with
      files
      streams := if done then received w.streams peer payload else w.streams
      lost := files.expired w.now }
  | .passes reading => { w with now := reading }

def start (now : ℚ) : Arrivals := ⟨⟨[], fun _ _ => none, 0⟩, now, fun _ _ => [], []⟩

def run (now : ℚ) (acts : List Transfer) : Arrivals := acts.foldl (act v) (start now)

/-- The clock is not set back to before the expiry of a row that is only there because the transaction
that found it expired was rolled back. -/
def admits (w : Arrivals) : Transfer → Bool
  | .passes reading => w.files.stayExpired w.lost reading
  | _ => true

structure Exact (w : Arrivals) (row : FileRow) : Prop where
  received : (w.streams row.peer row.id).length = row.received
  slice : ∀ offset length, offset + length ≤ row.received →
    FileStore.slice v row.peer row.id row.received offset length w.files =
      .ok (((w.streams row.peer row.id).drop offset).take length) w.files
  complete : row.state = .available → row.received = row.size ∧ row.offer.size = row.size ∧
    v.sha256 (w.streams row.peer row.id) = row.offer.sha256
  chunk : row.state = .available → ∀ offset : ℕ, offset ≤ row.size →
    FileStore.chunk v w.now row.peer row.thread row.id offset w.files =
      .ok (row.offer, ((w.streams row.peer row.id).drop offset).take fileChunk)
        (w.files.expire w.now)
  content : row.state = .available → ∀ limit, row.size ≤ limit →
    FileStore.content v w.now row.peer row.thread row.id limit w.files =
      .ok (row.offer, w.streams row.peer row.id) (w.files.expire w.now)

def Faithful (w : Arrivals) : Prop :=
  ∀ row ∈ w.files.rows, w.now < row.expires → Exact v w row

variable {v} {w : Arrivals}

theorem whole_settle {α : Type} {x : FileTx α} {B B' : Streams} {f : FileStore} {now : ℚ}
    (h : f.Whole v now B) (hx : Keeps v now B f x B') (commits : Bool) :
    (settle f commits x).2.Whole v now (if (settle f commits x).1 then B' else B) := by
  unfold Keeps Wp at hx
  unfold settle
  cases hr : x f with
  | error e g =>
    rw [hr] at hx
    exact h.rollback hx.2.1 hx.2.2
  | ok a g =>
    rw [hr] at hx
    cases commits with
    | true => exact hx.1
    | false => exact h.rollback hx.1 hx.2

/-- What a run keeps: the files are safe, and no row that may be lost is alive. -/
structure Sound (v : Vault) (w : Arrivals) : Prop where
  safe : w.files.Safe v w.lost w.streams
  stay : w.files.stayExpired w.lost w.now = true

theorem Sound.whole (h : Sound v w) : w.files.Whole v w.now w.streams := h.safe.whole h.stay

theorem Sound.act (h : Sound v w) {a : Transfer} (ha : w.admits a = true) : Sound v (w.act v a) := by
  cases a with
  | offers peer thread o limit free commits =>
    have hkeeps : Keeps v w.now w.streams w.files (offer w.now free peer thread o limit)
        (offered w.streams (w.files.expire w.now) peer o.fileId) := offer_keeps h.whole free o limit
    have hwhole := whole_settle h.whole hkeeps commits
    exact ⟨hwhole.safe, hwhole.stayExpired_expired⟩
  | receives peer thread payload commits =>
    have hkeeps : Keeps v w.now w.streams w.files (receive v w.now peer thread payload)
        (received w.streams peer payload) := receive_keeps h.whole payload
    have hwhole := whole_settle h.whole hkeeps commits
    exact ⟨hwhole.safe, hwhole.stayExpired_expired⟩
  | passes reading => exact ⟨h.safe, ha⟩

/-- Received files are exactly what was sent, after every sequence of offers and chunks, whichever of
them are rolled back, in which the clock brings no lost row back to life. -/
theorem received_exactly (v : Vault) (now : ℚ) (acts : List Transfer)
    (hacts : Guarded.Along (act v) (fun w a => w.admits a) (start now) acts) :
    (run v now acts).Faithful v := by
  intro row hrow hlive
  have hsound : Sound v (run v now acts) :=
    hacts.invariant (fun w a hw ha => hw.act ha) ⟨safe_empty v _ 0, rfl⟩
  have h := hsound.whole
  refine ⟨h.received row hrow hlive, fun offset length hle => slice_spec h hrow hlive offset length hle,
    fun havailable => ?_, fun havailable offset hoffset => chunk_spec h hrow hlive havailable hoffset,
    fun havailable limit hlimit => content_spec h hrow hlive havailable hlimit⟩
  obtain ⟨hsize, hdigest⟩ := h.complete row hrow hlive havailable
  exact ⟨hsize, h.sized row hrow, hdigest⟩

end Arrivals

/-! All that happens to files. -/

inductive FileOp where
  | offers (peer thread : Str) (o : Offer) (limit free : ℕ)
  | receives (peer thread : Str) (payload : FileChunk)
  | reads (peer thread id : Str) (offset : ℤ)
  | cancels (peer thread id : Str)
  | snapshots (peer thread id : Str) (source : Option FileStore.Source) (free : ℕ)

inductive FileAct where
  | transacts (ops : List FileOp) (commits : Bool)
  /-- `remove_peer` deletes the rows of the peer. -/
  | removes (peer : Str)
  | passes (reading : ℚ)

structure FileDesk where
  files : FileStore
  now : ℚ
  lost : List (Str × Str)

section Outcomes
open FileStore

variable (v : Vault) (now : ℚ)

def outcome {α : Type} (x : FileTx α) (f : FileStore) : Option Fault × FileStore :=
  match x f with
  | .ok _ g => (none, g)
  | .error e g => (some e, g)

def FileOp.perform (f : FileStore) : FileOp → Option Fault × FileStore
  | .offers peer thread o limit free => outcome (offer now free peer thread o limit) f
  | .receives peer thread payload => outcome (receive v now peer thread payload) f
  | .reads peer thread id offset => outcome (chunk v now peer thread id offset) f
  | .cancels peer thread id => outcome (cancel now peer thread id) f
  | .snapshots peer thread id source free =>
    if f.hasRow peer id then (none, f) else outcome (snapshot v now free peer thread id source) f

/-- Whether the operation removes what has expired. -/
def FileOp.expires : FileOp → Bool
  | .snapshots _ _ _ source _ => source.isSome
  | _ => true

def FileOp.spares (f : FileStore) : FileOp → Bool
  | .cancels peer thread id =>
    !f.rows.any (fun row => isRowOf peer thread id row && decide (now < row.expires))
  | _ => true

end Outcomes

namespace FileDesk
open FileStore

variable (v : Vault)

def act (w : FileDesk) : FileAct → FileDesk
  | .transacts ops commits =>
    let after := ops.foldl (fun f op => (op.perform v w.now f).2) w.files
    let files := if commits then after else { after with rows := w.files.rows }
    { w with files, lost := if ops.any FileOp.expires then files.expired w.now else w.lost }
  | .removes peer =>
    { w with
      files := { w.files with rows := w.files.rows.filter (fun row => row.peer ≠ peer) }
      lost := w.lost.filter (fun key => key.1 ≠ peer) }
  | .passes reading => { w with now := reading }

def start (now : ℚ) : FileDesk := ⟨⟨[], fun _ _ => none, 0⟩, now, []⟩

def run (now : ℚ) (acts : List FileAct) : FileDesk := acts.foldl (act v) (start now)

/-- A transaction that is rolled back cancels no file that has not expired, and the clock is not set back
to before the expiry of a row that is only there because such a transaction found it expired. -/
def admits (w : FileDesk) : FileAct → Bool
  | .transacts ops commits => commits || ops.all (FileOp.spares w.now w.files)
  | .removes _ => true
  | .passes reading => w.files.stayExpired w.lost reading

/-- Each row that has not expired has its record file, which holds at least what was received,
and no operation on files fails with an error of the operating system. -/
structure Together (w : FileDesk) : Prop where
  backed : ∀ row ∈ w.files.rows, w.now < row.expires → ∃ content data,
    w.files.disk row.peer row.id = some content ∧
    (scheme v row.peer row.id).Stored content data ∧ row.received ≤ data.length
  works : ∀ op : FileOp, (op.perform v w.now w.files).1 ≠ some .os

variable {v} {w : FileDesk}

theorem outcome_spec {α : Type} {x : FileTx α} {now : ℚ} {B B' : Streams} {g : FileStore}
    (hx : Keeps v now B g x B') :
    ∃ B'', (outcome x g).2.Whole v now B'' ∧ (outcome x g).1 ≠ some .os ∧
      Follows now B g B'' (outcome x g).2 := by
  unfold Keeps Wp at hx
  unfold outcome
  cases hr : x g with
  | ok a k =>
    rw [hr] at hx
    exact ⟨B', hx.1, by simp, hx.2⟩
  | error e k =>
    rw [hr] at hx
    exact ⟨B, hx.2.1, by simpa using hx.1, hx.2.2⟩

theorem perform_spec {now : ℚ} {B' : Streams} {g : FileStore} (h : g.Whole v now B') (op : FileOp) :
    ∃ B'', (op.perform v now g).2.Whole v now B'' ∧ (op.perform v now g).1 ≠ some .os ∧
      ∀ B f, Follows now B f B' g → op.spares now f = true →
        Follows now B f B'' (op.perform v now g).2 := by
  -- All but a cancellation keep every file.
  have hkeeps : ∀ {α : Type} {x : FileTx α} {B₁ : Streams}, Keeps v now B' g x B₁ →
      ∃ B'', (outcome x g).2.Whole v now B'' ∧ (outcome x g).1 ≠ some .os ∧
        ∀ B f, Follows now B f B' g → op.spares now f = true →
          Follows now B f B'' (outcome x g).2 := by
    intro α x B₁ hx
    obtain ⟨B'', hwhole, hfault, hnext⟩ := outcome_spec hx
    exact ⟨B'', hwhole, hfault, fun B f hfollows _ => hfollows.trans hnext⟩
  cases op with
  | offers peer thread o limit free => exact hkeeps (offer_keeps h free o limit)
  | receives peer thread payload => exact hkeeps (receive_keeps h payload)
  | reads peer thread id offset => exact hkeeps (chunk_keeps h offset)
  | snapshots peer thread id source free =>
    have hperform : (FileOp.snapshots peer thread id source free).perform v now g =
        if g.hasRow peer id then (none, g)
        else outcome (snapshot v now free peer thread id source) g := rfl
    rw [hperform]
    split_ifs with hused
    · exact ⟨B', h, by simp, fun B f hfollows _ => hfollows⟩
    · exact hkeeps (snapshot_keeps h free source (by simpa using hused))
  | cancels peer thread id =>
    have hperform : (FileOp.cancels peer thread id).perform v now g =
        (none, (g.cancelled peer thread id).expire now) := rfl
    have hcancelled : Whole v now B' (g.cancelled peer thread id) := h.cancelled
    obtain ⟨hwhole, hnext⟩ := hcancelled.expire
    rw [hperform]
    refine ⟨B', hwhole, by simp, fun B f hfollows hspares => Follows.trans ?_ hnext⟩
    refine hfollows.cancelled (fun row hrow hlive => ?_)
    simp only [FileOp.spares, Bool.not_eq_true', List.any_eq_false, Bool.and_eq_true,
      decide_eq_true_eq, not_and] at hspares
    by_contra hhit
    rw [Bool.not_eq_false] at hhit
    exact hspares row hrow hhit hlive

theorem transaction_spec {now : ℚ} {B : Streams} {f : FileStore} (h : f.Whole v now B)
    (ops : List FileOp) :
    ∃ B', (ops.foldl (fun f op => (op.perform v now f).2) f).Whole v now B' ∧
      (ops.all (FileOp.spares now f) = true →
        Follows now B f B' (ops.foldl (fun f op => (op.perform v now f).2) f)) := by
  induction ops using List.reverseRecOn with
  | nil => exact ⟨B, h, fun _ => Follows.refl B f⟩
  | append_singleton ops op ih =>
    obtain ⟨B', hwhole, hfollows⟩ := ih
    obtain ⟨B'', hwhole', -, hnext⟩ := perform_spec hwhole op
    rw [List.foldl_append, List.foldl_cons, List.foldl_nil]
    refine ⟨B'', hwhole', fun hspares => ?_⟩
    rw [List.all_append, Bool.and_eq_true, List.all_cons, List.all_nil, Bool.and_true] at hspares
    exact hnext B f (hfollows hspares.1) hspares.2

theorem perform_of_not_expires {now : ℚ} {op : FileOp} (hop : op.expires = false) (f : FileStore) :
    (op.perform v now f).2 = f := by
  cases op with
  | snapshots peer thread id source free =>
    cases source with
    | none =>
      simp only [FileOp.perform]
      split_ifs <;> rfl
    | some source => cases hop
  | _ => cases hop

theorem transaction_of_not_expires {now : ℚ} {ops : List FileOp} (hops : ops.any FileOp.expires = false)
    (f : FileStore) : ops.foldl (fun f op => (op.perform v now f).2) f = f := by
  induction ops with
  | nil => rfl
  | cons op ops ih =>
    rw [List.any_cons, Bool.or_eq_false_iff] at hops
    rw [List.foldl_cons, perform_of_not_expires hops.1]
    exact ih hops.2

/-- What a run keeps: the files are safe, and no row that may be lost is alive. -/
structure Sound (v : Vault) (w : FileDesk) : Prop where
  safe : ∃ B, w.files.Safe v w.lost B
  stay : w.files.stayExpired w.lost w.now = true

theorem Sound.whole (h : Sound v w) : ∃ B, w.files.Whole v w.now B := by
  obtain ⟨B, hsafe⟩ := h.safe
  exact ⟨B, hsafe.whole h.stay⟩

theorem Sound.transact (h : Sound v w) {ops : List FileOp} {commits : Bool}
    (ha : w.admits (.transacts ops commits) = true) : Sound v (w.act v (.transacts ops commits)) := by
  cases hops : ops.any FileOp.expires with
  | true =>
    obtain ⟨B, hwhole⟩ := h.whole
    obtain ⟨B', hafter, hfollows⟩ := transaction_spec hwhole ops
    obtain ⟨B'', hresult⟩ : ∃ B'', (w.act v (.transacts ops commits)).files.Whole v w.now B'' := by
      cases commits with
      | true => exact ⟨B', hafter⟩
      | false => exact ⟨B, hwhole.rollback hafter (hfollows ha)⟩
    have hlost : (w.act v (.transacts ops commits)).lost =
        (w.act v (.transacts ops commits)).files.expired w.now := by
      simp only [FileDesk.act, hops, if_true]
    exact ⟨⟨B'', hlost ▸ hresult.safe⟩, hlost ▸ hresult.stayExpired_expired⟩
  | false =>
    have hsame : w.act v (.transacts ops commits) = w := by
      simp only [FileDesk.act, hops, transaction_of_not_expires hops, ite_self, Bool.false_eq_true, if_false]
    rw [hsame]
    exact h

theorem Sound.remove (h : Sound v w) (peer : Str) : Sound v (w.act v (.removes peer)) := by
  have hmem : ∀ {row}, row ∈ (w.act v (.removes peer)).files.rows → row ∈ w.files.rows ∧
      (row.key ∈ w.lost ↔ row.key ∈ (w.act v (.removes peer)).lost) := by
    intro row hrow
    obtain ⟨hold, hother⟩ := List.mem_filter.mp hrow
    refine ⟨hold, fun hlost => List.mem_filter.mpr ⟨hlost, hother⟩, fun hlost => (List.mem_filter.mp hlost).1⟩
  obtain ⟨B, hsafe⟩ := h.safe
  constructor
  · refine ⟨B, hsafe.keyed.sublist (List.filter_sublist.map _), fun row hrow => hsafe.sized row (hmem hrow).1,
      fun row hrow hkept => hsafe.received row (hmem hrow).1 (fun hlost => hkept ((hmem hrow).2.mp hlost)),
      fun row hrow hkept => ?_,
      fun row hrow hkept => hsafe.complete row (hmem hrow).1 (fun hlost => hkept ((hmem hrow).2.mp hlost))⟩
    exact (hsafe.held row (hmem hrow).1 (fun hlost => hkept ((hmem hrow).2.mp hlost))).of_disk rfl
  · rw [stayExpired_iff]
    exact fun row hrow hlost => stayExpired_iff.mp h.stay row (hmem hrow).1 ((hmem hrow).2.mpr hlost)

theorem Sound.act (h : Sound v w) {a : FileAct} (ha : w.admits a = true) : Sound v (w.act v a) := by
  cases a with
  | transacts ops commits => exact h.transact ha
  | removes peer => exact h.remove peer
  | passes reading => exact ⟨h.safe, ha⟩

/-- Rows and record files stay together in every run whose transactions cancel no file when they are
rolled back, and in which the clock brings no lost row back to life. -/
theorem stay_together (v : Vault) (now : ℚ) (acts : List FileAct)
    (h : Guarded.Along (act v) (fun w a => w.admits a) (start now) acts) :
    (run v now acts).Together v := by
  have hsound : Sound v (run v now acts) :=
    h.invariant (fun w a hw ha => hw.act ha) ⟨⟨fun _ _ => [], safe_empty v _ 0⟩, rfl⟩
  obtain ⟨B, hwhole⟩ := hsound.whole
  refine ⟨fun row hrow hlive => ?_, fun op => ?_⟩
  · obtain ⟨content, data, hdisk, hstored, hhead⟩ := hwhole.held row hrow hlive
    exact ⟨content, data, hdisk, hstored, (stream_eq_take hhead (hwhole.received row hrow hlive)).1⟩
  · obtain ⟨-, -, hfault, -⟩ := perform_spec hwhole op
    exact hfault

end FileDesk

/-! A cancellation that is rolled back. -/
section Examples

def plainVault : Vault where
  encrypt _ raw _ := raw ++ List.replicate fileTag 0
  decrypt _ sealed _ := some (sealed.take (sealed.length - fileTag))
  token _ := List.replicate fileNonce 0
  sha256 raw := raw.map UInt8.toNat
  offerText _ _ _ _ _ := []
  decrypt_encrypt _ raw _ := by
    rw [List.length_append, List.length_replicate, Nat.add_sub_cancel, List.take_left]
  encrypt_length _ raw _ := by rw [List.length_append, List.length_replicate]
  token_length _ := List.length_replicate

def exampleOffer : Offer := ⟨[1], 3, [1, 2, 3], 100, []⟩

def exampleChunk : FileChunk := ⟨[1], 0, urlsafeB64encode [1, 2, 3], true⟩

def exampleFree : ℕ := 1000000000

-- The bytes of a chunk that was rolled back are not what a file receives.
example : ((Arrivals.run plainVault 0 [.offers [7] [8] exampleOffer 10 exampleFree true,
      .receives [7] [8] ⟨[1], 0, urlsafeB64encode [9, 9], false⟩ false,
      .receives [7] [8] exampleChunk true]).files.rows.map (fun row => (row.state, row.received))) =
    [(.available, 3)] := by
  decide +kernel

def receivedFile : List Transfer :=
  [.offers [7] [8] exampleOffer 10 exampleFree true, .receives [7] [8] exampleChunk true]

/-- The clock may be set back while the file has not expired. -/
def sentLate : List Transfer :=
  receivedFile ++ [.passes 50, .receives [7] [8] exampleChunk false, .passes 20]

theorem sentLate_exactly : (Arrivals.run plainVault 0 sentLate).Faithful plainVault ∧
    (Arrivals.run plainVault 0 sentLate).files.rows.map (fun row => (row.state, row.received, row.expires)) =
      [(.available, 3, 100)] := by
  refine ⟨Arrivals.received_exactly plainVault 0 sentLate ?_, ?_⟩
  · decide +kernel
  · decide +kernel

def clockSetBack : List Transfer :=
  receivedFile ++ [.passes 100, .receives [7] [8] exampleChunk false, .passes 50]

/-- The rolled back transaction has taken the file, and the clock gives the row back its life. -/
theorem expired_file_lost : ¬ (Arrivals.run plainVault 0 clockSetBack).Faithful plainVault := by
  intro h
  have hrows : (Arrivals.run plainVault 0 clockSetBack).files.rows.any (fun row =>
      decide ((Arrivals.run plainVault 0 clockSetBack).now < row.expires ∧ row.state = .available ∧
        row.peer = [7] ∧ row.thread = [8] ∧ row.id = [1])) = true := by decide +kernel
  obtain ⟨row, hrow, hlive⟩ := List.any_eq_true.mp hrows
  obtain ⟨hlive, havailable, hpeer, hthread, hid⟩ := of_decide_eq_true hlive
  have hchunk := (h row hrow hlive).chunk havailable 0 (Nat.zero_le _)
  rw [hpeer, hthread, hid] at hchunk
  have hfault : (outcome (FileStore.chunk plainVault (Arrivals.run plainVault 0 clockSetBack).now [7] [8] [1]
      (0 : ℕ)) (Arrivals.run plainVault 0 clockSetBack).files).1 = some .os := by decide +kernel
  rw [outcome, hchunk] at hfault
  cases hfault

def sentAgain : List FileAct :=
  [.transacts [.offers [7] [8] exampleOffer 10 exampleFree] true,
    .transacts [.receives [7] [8] exampleChunk] false,
    .transacts [.receives [7] [8] exampleChunk] true,
    .transacts [.cancels [7] [8] [1]] true]

theorem sentAgain_together : (FileDesk.run plainVault 0 sentAgain).Together plainVault :=
  FileDesk.stay_together plainVault 0 sentAgain (by decide +kernel)

def cancelRolledBack : List FileAct :=
  [.transacts [.offers [7] [8] exampleOffer 10 exampleFree] true,
    .transacts [.cancels [7] [8] [1]] false]

theorem cancelled_file_lost : ¬ (FileDesk.run plainVault 0 cancelRolledBack).Together plainVault := by
  intro h
  have hfault : ((FileOp.receives [7] [8] exampleChunk).perform plainVault
      (FileDesk.run plainVault 0 cancelRolledBack).now
      (FileDesk.run plainVault 0 cancelRolledBack).files).1 = some .os := by decide +kernel
  exact h.works _ hfault

end Examples

end Raticode.Device
