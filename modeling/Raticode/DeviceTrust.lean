import Mathlib.Data.List.Nodup
import Raticode.DeviceRegistry

/-! What every run of the registry keeps: a row moves forward through its states or is
revoked, and a pin is trusted because this row was approved here. -/
namespace Raticode.Device
open PyDocument

inductive Moves : PeerState → PeerState → Prop
  | confirm : Moves .pending .confirmed
  | ready : Moves .confirmed .active
  | accept : Moves .outboundPending .active
  | revoke (state : PeerState) : Moves state .revoked

structure Peer.SameAs (row row' : Peer) : Prop where
  deviceId : row'.deviceId = row.deviceId
  pin : row'.pin = row.pin
  role : row'.role = row.role
  generation : row'.generation = row.generation

theorem Peer.SameAs.refl (row : Peer) : row.SameAs row := ⟨rfl, rfl, rfl, rfl⟩

theorem Peer.SameAs.trans {a b c : Peer} (h : a.SameAs b) (h' : b.SameAs c) : a.SameAs c :=
  ⟨h'.deviceId.trans h.deviceId, h'.pin.trans h.pin, h'.role.trans h.role,
    h'.generation.trans h.generation⟩

def Peer.Unexpired (row : Peer) (now : ℚ) : Prop := ∃ expires, row.expires = some expires ∧ now < expires

theorem of_ensure {holds : Bool} {e : PairingError} {u : Unit} (h : ensure holds e = .ok u) :
    holds = true := by
  unfold ensure at h
  split at h
  · assumption
  · cases h

theorem unexpired_of_isExpired {row : Peer} {now : ℚ} {expired : Bool}
    (h : isExpired row now = .ok expired) (hfalse : (!expired) = true) : row.Unexpired now := by
  unfold isExpired at h
  split at h
  next expires hexpires =>
    cases h
    exact ⟨expires, hexpires, by simpa using hfalse⟩
  · cases h

namespace Registry

def Succeeds (s : Registry) (op : Op) : Prop := ∃ s', s.step op = .ok s'

inductive Transition (op : Op) (row : Peer) : PeerState → Prop
  | confirm {now : ℚ} {routes : Routes}
      (hop : op = .confirm row.deviceId (hexText row.pin) now routes)
      (hstate : row.state = .pending) (hexpires : row.Unexpired now) : Transition op row .confirmed
  | acknowledge (htrusted : isTrusted row = true) : Transition op row .active
  | accept {record : Record} {now seen : ℚ}
      (hop : op = .acceptRemote row.deviceId row.pin record now seen ∨
        op = .recoverRemote row.deviceId row.pin record now seen)
      (hstate : row.state = .outboundPending) (hexpires : row.Unexpired now) :
      Transition op row .active
  | revoke : Transition op row .revoked

/-- An operation changes a row's state at most, and only along a transition it is named for. -/
structure Change (op : Op) (row row' : Peer) : Prop where
  same : row.SameAs row'
  state : row'.state = row.state ∨ Transition op row row'.state

theorem Change.refl (op : Op) (row : Peer) : Change op row row := ⟨.refl row, .inl rfl⟩

def Disappears (s : Registry) (op : Op) (row : Peer) : Prop :=
  s.Succeeds op ∧ ((∃ revokedOnly, op = .removePeer row.deviceId revokedOnly) ∨
    ∃ peer pin role expires outbound now created generation,
      op = .propose peer pin role expires outbound now created generation ∧ lapsed now row = true)

def Proposes (s : Registry) (op : Op) (row : Peer) : Prop :=
  s.Succeeds op ∧ ∃ expires outbound now created,
    op = .propose row.deviceId row.pin row.role expires outbound now created row.generation

structure Unique (s : Registry) : Prop where
  ids : (s.peers.map Peer.deviceId).Nodup
  pins : (s.peers.map Peer.pin).Nodup

theorem Unique.eq_of_id {s : Registry} (h : s.Unique) {row row' : Peer} (hr : row ∈ s.peers)
    (hr' : row' ∈ s.peers) (he : row.deviceId = row'.deviceId) : row = row' :=
  List.inj_on_of_nodup_map h.ids hr hr' he

theorem Unique.eq_of_pin {s : Registry} (h : s.Unique) {row row' : Peer} (hr : row ∈ s.peers)
    (hr' : row' ∈ s.peers) (he : row.pin = row'.pin) : row = row' :=
  List.inj_on_of_nodup_map h.pins hr hr' he

theorem row_spec {s : Registry} {peer : Str} {row : Peer} (h : s.row peer = .ok row) :
    row ∈ s.peers ∧ row.deviceId = peer := by
  obtain ⟨_, -, h⟩ := Attempt.bind_ok h
  split at h
  next p hp =>
    cases h
    exact ⟨List.mem_of_find?_eq_some hp, by simpa using List.find?_some hp⟩
  · cases h

theorem unique_update {s : Registry} (h : s.Unique) {peer : Str} {f : Peer → Peer}
    (hf : ∀ row : Peer, row.SameAs (f row)) : (s.update peer f).Unique := by
  have hid : ∀ row, (if row.deviceId = peer then f row else row).deviceId = row.deviceId := by
    intro row
    split_ifs
    · exact (hf row).deviceId
    · rfl
  have hpin : ∀ row, (if row.deviceId = peer then f row else row).pin = row.pin := by
    intro row
    split_ifs
    · exact (hf row).pin
    · rfl
  refine ⟨?_, ?_⟩
  · simpa [update, Function.comp_def, hid] using h.ids
  · simpa [update, Function.comp_def, hpin] using h.pins

inductive Effect (s : Registry) (op : Op) : Registry → Prop
  | none (hstays : ∀ row, ¬ s.Disappears op row) : Effect s op s
  | update {peer : Str} {f : Peer → Peer} {row : Peer} (hrow : row ∈ s.peers)
      (hpeer : row.deviceId = peer) (hsame : ∀ row : Peer, row.SameAs (f row))
      (hstate : Transition op row (f row).state) (hstays : ∀ row, ¬ s.Disappears op row) :
      Effect s op (s.update peer f)
  | propose {peer : Str} {pin : Bytes} {role : Str} {expires : ℚ} {outbound : Bool}
      {now created : ℚ} {generation : Str} {row : Peer}
      (hop : op = .propose peer pin role expires outbound now created generation)
      (hrow : row.deviceId = peer ∧ row.pin = pin ∧ row.role = role ∧ row.generation = generation)
      (hstate : row.state = .pending ∨ row.state = .outboundPending)
      (hnew : ∀ p ∈ s.peers, lapsed now p = false → p.deviceId ≠ peer ∧ p.pin ≠ pin) :
      Effect s op { s with peers := s.peers.filter (fun p => !lapsed now p) ++ [row] }
  | remove {peer : Str} {revokedOnly : Bool} (hop : op = .removePeer peer revokedOnly) :
      Effect s op { s with peers := s.peers.filter (fun p => p.deviceId ≠ peer) }

theorem not_disappears {s : Registry} {op : Op}
    (h : ∀ peer revokedOnly, op ≠ .removePeer peer revokedOnly)
    (h' : ∀ peer pin role expires outbound now created generation,
      op ≠ .propose peer pin role expires outbound now created generation) (row : Peer) :
    ¬ s.Disappears op row := by
  rintro ⟨-, ⟨revokedOnly, he⟩ | ⟨_, _, _, _, _, _, _, _, he, -⟩⟩
  · exact h _ _ he
  · exact h' _ _ _ _ _ _ _ _ he

section Effects

variable {s s' : Registry}

theorem propose_effect {peer : Str} {pin : Bytes} {role : Str} {expires : ℚ} {outbound : Bool}
    {now created : ℚ} {generation : Str}
    (h : s.propose peer pin role expires outbound now created generation = .ok s') :
    Effect s (.propose peer pin role expires outbound now created generation) s' := by
  obtain ⟨_, -, h⟩ := Attempt.bind_ok h
  obtain ⟨_, -, h⟩ := Attempt.bind_ok h
  obtain ⟨_, -, h⟩ := Attempt.bind_ok h
  obtain ⟨_, hnew, h⟩ := Attempt.bind_ok h
  cases h
  refine .propose rfl ⟨rfl, rfl, rfl, rfl⟩ ?_ ?_
  · cases outbound
    · exact .inl rfl
    · exact .inr rfl
  · intro p hp hlapsed
    have hall := List.all_eq_true.mp (of_ensure hnew) p (List.mem_filter.mpr ⟨hp, by simp [hlapsed]⟩)
    simpa using hall

theorem confirm_effect {peer pinHex : Str} {now : ℚ} {routes : Routes}
    (h : s.confirm peer pinHex now routes = .ok s') :
    Effect s (.confirm peer pinHex now routes) s' := by
  obtain ⟨row, hrow, h⟩ := Attempt.bind_ok h
  obtain ⟨_, hstate, h⟩ := Attempt.bind_ok h
  obtain ⟨expired, hexpired, h⟩ := Attempt.bind_ok h
  obtain ⟨_, hfalse, h⟩ := Attempt.bind_ok h
  obtain ⟨_, -, h⟩ := Attempt.bind_ok h
  obtain ⟨_, hpin, h⟩ := Attempt.bind_ok h
  cases h
  obtain ⟨hmem, rfl⟩ := row_spec hrow
  have hhex : hexText row.pin = pinHex := by simpa using of_ensure hpin
  subst hhex
  exact .update hmem rfl (fun _ => ⟨rfl, rfl, rfl, rfl⟩)
    (.confirm rfl (by simpa using of_ensure hstate)
      (unexpired_of_isExpired hexpired (of_ensure hfalse)))
    (not_disappears (by simp) (by simp))

theorem authenticate_spec {peer : Str} {pin : Bytes} {role : Str} {u : Unit}
    (h : s.authenticate peer pin role = .ok u) {row : Peer} (hrow : s.row peer = .ok row) :
    isTrusted row = true := by
  obtain ⟨row', hrow', h⟩ := Attempt.bind_ok h
  rw [hrow] at hrow'
  cases hrow'
  have hall := of_ensure h
  simp only [Bool.and_eq_true] at hall
  exact hall.1.1

theorem acknowledge_effect {peer : Str} {pin : Bytes} {role : Str} {record : Record} {now : ℚ}
    (h : s.acknowledge peer pin role record now = .ok s') :
    Effect s (.acknowledge peer pin role record now) s' := by
  obtain ⟨_, hauthenticate, h⟩ := Attempt.bind_ok h
  obtain ⟨row, hrow, h⟩ := Attempt.bind_ok h
  obtain ⟨_, -, h⟩ := Attempt.bind_ok h
  cases h
  obtain ⟨hmem, hpeer⟩ := row_spec hrow
  exact .update hmem hpeer (fun _ => ⟨rfl, rfl, rfl, rfl⟩)
    (.acknowledge (authenticate_spec hauthenticate hrow)) (not_disappears (by simp) (by simp))

theorem revoke_effect {peer : Str} (h : s.revoke peer = .ok s') : Effect s (.revoke peer) s' := by
  obtain ⟨row, hrow, h⟩ := Attempt.bind_ok h
  cases h
  obtain ⟨hmem, hpeer⟩ := row_spec hrow
  exact .update hmem hpeer (fun _ => ⟨rfl, rfl, rfl, rfl⟩) .revoke
    (not_disappears (by simp) (by simp))

theorem acceptRemote_effect {peer : Str} {pin : Bytes} {record : Record} {now seen : ℚ}
    (h : s.acceptRemote peer pin record now seen = .ok s') {op : Op}
    (hop : op = .acceptRemote peer pin record now seen ∨
      op = .recoverRemote peer pin record now seen) : Effect s op s' := by
  obtain ⟨routes, -, h⟩ := Attempt.bind_ok h
  obtain ⟨row, hrow, h⟩ := Attempt.bind_ok h
  obtain ⟨_, hstate, h⟩ := Attempt.bind_ok h
  obtain ⟨expired, hexpired, h⟩ := Attempt.bind_ok h
  obtain ⟨_, hrest, h⟩ := Attempt.bind_ok h
  cases h
  obtain ⟨hmem, rfl⟩ := row_spec hrow
  have hall := of_ensure hrest
  simp only [Bool.and_eq_true, decide_eq_true_eq] at hall
  obtain ⟨⟨hfalse, rfl⟩, -⟩ := hall
  refine .update hmem rfl (fun _ => ⟨rfl, rfl, rfl, rfl⟩)
    (.accept hop (by simpa using of_ensure hstate) (unexpired_of_isExpired hexpired hfalse)) ?_
  rcases hop with rfl | rfl
  · exact not_disappears (by simp) (by simp)
  · exact not_disappears (by simp) (by simp)

theorem recoverRemote_effect {peer : Str} {pin : Bytes} {record : Record} {now seen : ℚ}
    (h : s.recoverRemote peer pin record now seen = .ok s') :
    Effect s (.recoverRemote peer pin record now seen) s' := by
  obtain ⟨row, -, h⟩ := Attempt.bind_ok h
  split at h
  · exact acceptRemote_effect h (.inr rfl)
  · obtain ⟨_, -, h⟩ := Attempt.bind_ok h
    obtain ⟨_, -, h⟩ := Attempt.bind_ok h
    cases h
    exact .none (not_disappears (by simp) (by simp))

theorem removePeer_effect {peer : Str} {revokedOnly : Bool}
    (h : s.removePeer peer revokedOnly = .ok s') : Effect s (.removePeer peer revokedOnly) s' := by
  obtain ⟨_, -, h⟩ := Attempt.bind_ok h
  obtain ⟨_, -, h⟩ := Attempt.bind_ok h
  obtain ⟨_, -, h⟩ := Attempt.bind_ok h
  cases h
  exact .remove rfl

theorem step_effect {op : Op} (h : s.step op = .ok s') : Effect s op s' := by
  cases op with
  | propose peer pin role expires outbound now created generation => exact propose_effect h
  | confirm peer pinHex now routes => exact confirm_effect h
  | ready peer pin role =>
    simp only [step] at h
    cases hready : s.ready peer pin role with
    | error e => simp [hready, Except.map] at h
    | ok record =>
      simp only [hready, Except.map, Except.ok.injEq] at h
      subst h
      exact .none (not_disappears (by simp) (by simp))
  | acknowledge peer pin role record now => exact acknowledge_effect h
  | acceptRemote peer pin record now seen => exact acceptRemote_effect h (.inl rfl)
  | recoverRemote peer pin record now seen => exact recoverRemote_effect h
  | revoke peer => exact revoke_effect h
  | removePeer peer revokedOnly => exact removePeer_effect h

end Effects

section Steps

variable {s s' : Registry} {op : Op}

theorem mem_update {peer : Str} {f : Peer → Peer} {row' : Peer} (h : row' ∈ (s.update peer f).peers) :
    ∃ row ∈ s.peers, row' = if row.deviceId = peer then f row else row := by
  obtain ⟨row, hrow, rfl⟩ := List.mem_map.mp h
  exact ⟨row, hrow, rfl⟩

theorem change_update (hs : s.Unique) {peer : Str} {f : Peer → Peer} {row₀ : Peer}
    (hmem : row₀ ∈ s.peers) (hpeer : row₀.deviceId = peer)
    (hsame : ∀ row : Peer, row.SameAs (f row)) (hstate : Transition op row₀ (f row₀).state)
    {row : Peer} (hrow : row ∈ s.peers) :
    Change op row (if row.deviceId = peer then f row else row) := by
  split_ifs with he
  · obtain rfl := hs.eq_of_id hrow hmem (he.trans hpeer.symm)
    exact ⟨hsame row, .inr hstate⟩
  · exact .refl op row

theorem Effect.row_after (h : Effect s op s') (hs : s.Unique) (hok : s.Succeeds op) {row' : Peer}
    (hrow' : row' ∈ s'.peers) :
    (∃ row ∈ s.peers, Change op row row' ∧ ¬ s.Disappears op row) ∨
      (s.Proposes op row' ∧ (row'.state = .pending ∨ row'.state = .outboundPending)) := by
  cases h with
  | none hstays => exact .inl ⟨row', hrow', .refl op row', hstays row'⟩
  | update hmem hpeer hsame hstate hstays =>
    obtain ⟨row, hrow, rfl⟩ := mem_update hrow'
    exact .inl ⟨row, hrow, change_update hs hmem hpeer hsame hstate hrow, hstays row⟩
  | @propose peer pin role expires outbound now created generation row hop hnames hstate hnew =>
    rcases List.mem_append.mp hrow' with hkept | hnewRow
    · obtain ⟨hmem, hlapsed⟩ := List.mem_filter.mp hkept
      refine .inl ⟨row', hmem, .refl op row', ?_⟩
      rintro ⟨-, ⟨_, he⟩ | ⟨_, _, _, _, _, _, _, _, he, hl⟩⟩
      · rw [hop] at he
        cases he
      · rw [hop] at he
        cases he
        simp [hl] at hlapsed
    · obtain rfl := List.mem_singleton.mp hnewRow
      obtain ⟨rfl, rfl, rfl, rfl⟩ := hnames
      exact .inr ⟨⟨hok, _, _, _, _, hop⟩, hstate⟩
  | @remove peer revokedOnly hop =>
    obtain ⟨hmem, hne⟩ := List.mem_filter.mp hrow'
    refine .inl ⟨row', hmem, .refl op row', ?_⟩
    rintro ⟨-, ⟨_, he⟩ | ⟨_, _, _, _, _, _, _, _, he, -⟩⟩
    · rw [hop] at he
      cases he
      simp at hne
    · rw [hop] at he
      cases he

theorem Effect.row_kept (h : Effect s op s') (hs : s.Unique) (hok : s.Succeeds op) {row : Peer}
    (hrow : row ∈ s.peers) : (∃ row' ∈ s'.peers, Change op row row') ∨ s.Disappears op row := by
  cases h with
  | none => exact .inl ⟨row, hrow, .refl op row⟩
  | update hmem hpeer hsame hstate =>
    exact .inl ⟨_, List.mem_map_of_mem hrow, change_update hs hmem hpeer hsame hstate hrow⟩
  | @propose peer pin role expires outbound now created generation new hop =>
    by_cases hlapsed : lapsed now row = true
    · exact .inr ⟨hok, .inr ⟨_, _, _, _, _, _, _, _, hop, hlapsed⟩⟩
    · refine .inl ⟨row, List.mem_append_left _ (List.mem_filter.mpr ⟨hrow, ?_⟩), .refl op row⟩
      simpa using hlapsed
  | @remove peer revokedOnly hop =>
    by_cases he : row.deviceId = peer
    · subst he
      exact .inr ⟨hok, .inl ⟨revokedOnly, hop⟩⟩
    · exact .inl ⟨row, List.mem_filter.mpr ⟨hrow, by simpa using he⟩, .refl op row⟩

theorem Effect.unique (h : Effect s op s') (hs : s.Unique) : s'.Unique := by
  cases h with
  | none => exact hs
  | update _ _ hsame => exact unique_update hs hsame
  | @propose peer pin role expires outbound now created generation row hop hnames hstate hnew =>
    obtain ⟨rfl, rfl, rfl, rfl⟩ := hnames
    have hkept : ∀ p ∈ s.peers.filter (fun p => !lapsed now p),
        p.deviceId ≠ row.deviceId ∧ p.pin ≠ row.pin := by
      intro p hp
      obtain ⟨hmem, hlapsed⟩ := List.mem_filter.mp hp
      exact hnew p hmem (by simpa using hlapsed)
    refine ⟨?_, ?_⟩
    · rw [List.map_append, List.map_singleton, ← List.concat_eq_append]
      refine List.Nodup.concat ?_ (hs.ids.sublist (List.filter_sublist.map _))
      intro hm
      obtain ⟨p, hp, he⟩ := List.mem_map.mp hm
      exact (hkept p hp).1 he
    · rw [List.map_append, List.map_singleton, ← List.concat_eq_append]
      refine List.Nodup.concat ?_ (hs.pins.sublist (List.filter_sublist.map _))
      intro hm
      obtain ⟨p, hp, he⟩ := List.mem_map.mp hm
      exact (hkept p hp).2 he
  | remove =>
    exact ⟨hs.ids.sublist (List.filter_sublist.map _), hs.pins.sublist (List.filter_sublist.map _)⟩

theorem after_cases (s : Registry) (op : Op) :
    (s.Succeeds op ∧ Effect s op (s.after op)) ∨ (¬ s.Succeeds op ∧ s.after op = s) := by
  unfold after
  cases h : s.step op with
  | ok s' => exact .inl ⟨⟨s', h⟩, step_effect h⟩
  | error e =>
    refine .inr ⟨?_, rfl⟩
    rintro ⟨s', hs'⟩
    rw [h] at hs'
    cases hs'

theorem unique_after (hs : s.Unique) (op : Op) : (s.after op).Unique := by
  rcases after_cases s op with ⟨-, h⟩ | ⟨-, h⟩
  · exact h.unique hs
  · rw [h]
    exact hs

theorem row_after (hs : s.Unique) {row' : Peer} (hrow' : row' ∈ (s.after op).peers) :
    (∃ row ∈ s.peers, Change op row row' ∧ ¬ s.Disappears op row ∧ (s.Succeeds op ∨ row' = row)) ∨
      (s.Proposes op row' ∧ (row'.state = .pending ∨ row'.state = .outboundPending)) := by
  rcases after_cases s op with ⟨hok, h⟩ | ⟨hfails, h⟩
  · exact (h.row_after hs hok hrow').imp_left (fun ⟨row, hrow, hchange, hd⟩ =>
      ⟨row, hrow, hchange, hd, .inl hok⟩)
  · rw [h] at hrow'
    exact .inl ⟨row', hrow', .refl op row', fun hd => hfails hd.1, .inr rfl⟩

theorem row_kept (hs : s.Unique) {row : Peer} (hrow : row ∈ s.peers) :
    (∃ row' ∈ (s.after op).peers, Change op row row') ∨ s.Disappears op row := by
  rcases after_cases s op with ⟨hok, h⟩ | ⟨-, h⟩
  · exact h.row_kept hs hok hrow
  · rw [h]
    exact .inl ⟨row, hrow, .refl op row⟩

theorem Change.moves {row row' : Peer} (h : Change op row row') :
    row'.state = row.state ∨ Moves row.state row'.state := by
  rcases h.state with he | ht
  · exact .inl he
  · generalize row'.state = state at ht ⊢
    cases ht with
    | confirm _ hstate =>
      rw [hstate]
      exact .inr .confirm
    | acknowledge htrusted =>
      simp only [isTrusted, Bool.or_eq_true, decide_eq_true_eq] at htrusted
      rcases htrusted with he | he
      · rw [he]
        exact .inr .ready
      · exact .inl he.symm
    | accept _ hstate =>
      rw [hstate]
      exact .inr .accept
    | revoke => exact .inr (.revoke _)

theorem Change.revoked {row row' : Peer} (h : Change op row row') (hr : row.state = .revoked) :
    row'.state = .revoked := by
  rcases h.state with he | ht
  · exact he.trans hr
  · generalize row'.state = state at ht ⊢
    cases ht with
    | confirm _ hstate => simp [hr] at hstate
    | acknowledge htrusted => simp [isTrusted, hr] at htrusted
    | accept _ hstate => simp [hr] at hstate
    | revoke => rfl

end Steps

section Runs

variable {identity : Str}

@[simp] theorem run_concat (ops : List Op) (op : Op) :
    run identity (ops ++ [op]) = (run identity ops).after op := by
  simp [run]

/-- Each device has one row in every registry a run of operations reaches. -/
theorem unique_run (identity : Str) (ops : List Op) : (run identity ops).Unique := by
  induction ops using List.reverseRecOn with
  | nil => exact ⟨List.nodup_nil, List.nodup_nil⟩
  | append_singleton ops op ih =>
    rw [run_concat]
    exact unique_after ih op

/-- A call that approves a row: its pin is confirmed here, or the ready of the desktop
it was proposed for is accepted in time. -/
def Approves (s : Registry) (op : Op) (row : Peer) : Prop :=
  s.Succeeds op ∧ ((∃ now routes, op = .confirm row.deviceId (hexText row.pin) now routes) ∨
    ∃ record now seen, (op = .acceptRemote row.deviceId row.pin record now seen ∨
      op = .recoverRemote row.deviceId row.pin record now seen) ∧
      row.state = .outboundPending ∧ row.Unexpired now)

def Stays (identity : Str) (before later : List Op) (row : Peer) : Prop :=
  ∀ mid op rest, later = mid ++ op :: rest → ∃ r ∈ (run identity (before ++ mid)).peers,
    r.SameAs row ∧ ¬ (run identity (before ++ mid)).Disappears op r

def Approved (identity : Str) (before later : List Op) (row : Peer) : Prop :=
  ∃ mid op rest, later = mid ++ op :: rest ∧ ∃ r ∈ (run identity (before ++ mid)).peers,
    r.SameAs row ∧ (run identity (before ++ mid)).Approves op r

/-- Every row comes from a proposal, has stayed since, and is trusted only through an approval
that no later operation undid. -/
structure Accounted (identity : Str) (before : List Op) (op : Op) (later : List Op) (row : Peer) :
    Prop where
  proposed : (run identity before).Proposes op row
  stays : Stays identity (before ++ [op]) later row
  approved : isTrusted row = true → Approved identity (before ++ [op]) later row

theorem Proposes.sameAs {s : Registry} {op : Op} {row row' : Peer} (h : s.Proposes op row)
    (hsame : row.SameAs row') : s.Proposes op row' := by
  obtain ⟨hok, expires, outbound, now, created, hop⟩ := h
  refine ⟨hok, expires, outbound, now, created, ?_⟩
  rw [hop, hsame.deviceId, hsame.pin, hsame.role, hsame.generation]

theorem Approved.concat {before later : List Op} {row row' : Peer}
    (h : Approved identity before later row) (hsame : row.SameAs row') (op : Op) :
    Approved identity before (later ++ [op]) row' := by
  obtain ⟨mid, o, rest, rfl, r, hr, hs, ha⟩ := h
  exact ⟨mid, o, rest ++ [op], by simp, r, hr, hs.trans hsame, ha⟩

theorem Stays.concat {before later : List Op} {row row' : Peer}
    (h : Stays identity before later row) (hsame : row.SameAs row') {op : Op}
    (hrow : row ∈ (run identity (before ++ later)).peers)
    (hd : ¬ (run identity (before ++ later)).Disappears op row) :
    Stays identity before (later ++ [op]) row' := by
  intro mid o rest he
  rcases List.eq_nil_or_concat rest with rfl | ⟨rest', o', rfl⟩
  · obtain ⟨rfl, hlast⟩ := List.append_inj' he rfl
    cases hlast
    exact ⟨row, hrow, hsame, hd⟩
  · have hsplit : later ++ [op] = (mid ++ o :: rest') ++ [o'] := by
      rw [he]
      simp [List.concat_eq_append]
    obtain ⟨hlater, -⟩ := List.append_inj' hsplit rfl
    obtain ⟨r, hr, hs, hd'⟩ := h mid o rest' hlater
    exact ⟨r, hr, hs.trans hsame, hd'⟩

theorem Change.approves {s : Registry} {op : Op} {row row' : Peer} (h : Change op row row')
    (hok : s.Succeeds op ∨ row' = row) (ht : isTrusted row' = true) :
    isTrusted row = true ∨ s.Approves op row := by
  rcases hok with hok | rfl
  swap
  · exact .inl ht
  rcases h.state with he | hstep
  · rw [isTrusted, he] at ht
    exact .inl ht
  · generalize hstate : row'.state = state at hstep
    cases hstep with
    | confirm hop => exact .inr ⟨hok, .inl ⟨_, _, hop⟩⟩
    | acknowledge htrusted => exact .inl htrusted
    | accept hop hoff hexpires => exact .inr ⟨hok, .inr ⟨_, _, _, hop, hoff, hexpires⟩⟩
    | revoke => simp [isTrusted, hstate] at ht

theorem accounted (ops : List Op) {row : Peer} (hrow : row ∈ (run identity ops).peers) :
    ∃ before op later, ops = before ++ op :: later ∧ Accounted identity before op later row := by
  induction ops using List.reverseRecOn generalizing row with
  | nil => simp [run, init] at hrow
  | append_singleton ops o ih =>
    rw [run_concat] at hrow
    rcases row_after (unique_run identity ops) hrow with
      ⟨row₀, hrow₀, hchange, hstays, hok⟩ | ⟨hproposes, hstate⟩
    · obtain ⟨before, op, later, rfl, h⟩ := ih hrow₀
      have hwhole : before ++ op :: later = (before ++ [op]) ++ later := by simp
      rw [hwhole] at hrow₀ hstays hok
      refine ⟨before, op, later ++ [o], by simp, h.proposed.sameAs hchange.same,
        h.stays.concat hchange.same hrow₀ hstays, fun htrusted => ?_⟩
      rcases hchange.approves hok htrusted with hbefore | happroves
      · exact (h.approved hbefore).concat hchange.same o
      · exact ⟨later, o, [], rfl, row₀, hrow₀, hchange.same, happroves⟩
    · refine ⟨ops, o, [], rfl, hproposes, fun mid op rest he => ?_, fun htrusted => ?_⟩
      · cases mid <;> cases he
      · rcases hstate with he | he <;> simp [isTrusted, he] at htrusted

theorem revoked_or_removed (ops later : List Op) {row : Peer}
    (hrow : row ∈ (run identity ops).peers) (hrevoked : row.state = .revoked) :
    (∃ r ∈ (run identity (ops ++ later)).peers, row.SameAs r ∧ r.state = .revoked) ∨
    ∃ mid revokedOnly rest, later = mid ++ .removePeer row.deviceId revokedOnly :: rest ∧
      (run identity (ops ++ mid)).Succeeds (.removePeer row.deviceId revokedOnly) ∧
      ∀ r ∈ (run identity (ops ++ later)).peers, r.deviceId = row.deviceId ∨ r.pin = row.pin →
        ∃ mid' op rest', rest = mid' ++ op :: rest' ∧
          (run identity (ops ++ mid ++ .removePeer row.deviceId revokedOnly :: mid')).Proposes op r := by
  induction later using List.reverseRecOn with
  | nil =>
    rw [List.append_nil]
    exact .inl ⟨row, hrow, .refl row, hrevoked⟩
  | append_singleton later o ih =>
    rw [← List.append_assoc, run_concat]
    have hs := unique_run identity (ops ++ later)
    rcases ih with ⟨r, hr, hsame, hstate⟩ | ⟨mid, revokedOnly, rest, rfl, hok, hrest⟩
    · have hkept : (∃ r' ∈ ((run identity (ops ++ later)).after o).peers, Change o r r') ∨
          (run identity (ops ++ later)).Disappears o r := row_kept hs hr
      rcases hkept with ⟨r', hr', hchange⟩ | ⟨hok, ⟨revokedOnly, rfl⟩ | hlapsed⟩
      · exact .inl ⟨r', hr', hsame.trans hchange.same, hchange.revoked hstate⟩
      · refine .inr ⟨later, revokedOnly, [], by rw [hsame.deviceId], ?_, fun q hq hnames => ?_⟩
        · rw [← hsame.deviceId]
          exact hok
        · -- Nothing else has the device or the pin of the row that goes.
          exfalso
          rcases row_after hs hq with ⟨q₀, hq₀, hchange, hstays, -⟩ | ⟨⟨-, _, _, _, _, he⟩, -⟩
          · have hqr : q₀ = r := by
              rcases hnames with he | he
              · apply hs.eq_of_id hq₀ hr
                rw [← hchange.same.deviceId, he, hsame.deviceId]
              · apply hs.eq_of_pin hq₀ hr
                rw [← hchange.same.pin, he, hsame.pin]
            subst hqr
            exact hstays ⟨hok, .inl ⟨revokedOnly, rfl⟩⟩
          · cases he
      · obtain ⟨_, _, _, _, _, _, _, _, -, hlapsed⟩ := hlapsed
        simp [lapsed, hstate] at hlapsed
    · refine .inr ⟨mid, revokedOnly, rest ++ [o], by simp, hok, fun q hq hnames => ?_⟩
      rcases row_after hs hq with ⟨q₀, hq₀, hchange, -⟩ | ⟨hproposes, -⟩
      · obtain ⟨mid', op, rest', rfl, hproposes⟩ := hrest q₀ hq₀ (by
          rw [← hchange.same.deviceId, ← hchange.same.pin]
          exact hnames)
        exact ⟨mid', op, rest' ++ [o], by simp, hproposes.sameAs hchange.same⟩
      · refine ⟨rest, o, [], rfl, ?_⟩
        rw [List.append_assoc]
        exact hproposes

/-- The trust state machine, over every run. A call moves a row forward or revokes it
and keeps what names it, unless the row is removed or had expired while pending; a new
row is pending; a pin is trusted because its row was approved after it was proposed;
and after a revocation a device or a pin is trusted again only through a removal and a
new proposal. -/
theorem trust_state_machine (identity : Str) (ops : List Op) :
    (∀ op, ∀ row ∈ (run identity ops).peers,
      (∃ row' ∈ (run identity (ops ++ [op])).peers, row.SameAs row' ∧
        (row'.state = row.state ∨ Moves row.state row'.state)) ∨
      (run identity ops).Disappears op row) ∧
    (∀ op, ∀ row' ∈ (run identity (ops ++ [op])).peers,
      (∃ row ∈ (run identity ops).peers, row.SameAs row' ∧
        (row'.state = row.state ∨ Moves row.state row'.state)) ∨
      ((run identity ops).Proposes op row' ∧
        (row'.state = .pending ∨ row'.state = .outboundPending))) ∧
    (∀ pin ∈ (run identity ops).trustedPins, ∃ row ∈ (run identity ops).peers, row.pin = pin ∧
      ∃ before op later, ops = before ++ op :: later ∧ (run identity before).Proposes op row ∧
        Stays identity (before ++ [op]) later row ∧
        Approved identity (before ++ [op]) later row) ∧
    (∀ later, ∀ row ∈ (run identity ops).peers, row.state = .revoked →
      ∀ row' ∈ (run identity (ops ++ later)).peers, isTrusted row' = true →
        row'.deviceId = row.deviceId ∨ row'.pin = row.pin →
          ∃ mid revokedOnly mid' op rest,
            later = mid ++ .removePeer row.deviceId revokedOnly :: (mid' ++ op :: rest) ∧
            (run identity (ops ++ mid)).Succeeds (.removePeer row.deviceId revokedOnly) ∧
            (run identity (ops ++ mid ++ .removePeer row.deviceId revokedOnly :: mid')).Proposes op
              row') := by
  have hs := unique_run identity ops
  refine ⟨fun op row hrow => ?_, fun op row' hrow' => ?_, fun pin hpin => ?_, ?_⟩
  · rw [run_concat]
    exact (row_kept hs hrow).imp_left (fun ⟨row', hrow', hchange⟩ =>
      ⟨row', hrow', hchange.same, hchange.moves⟩)
  · rw [run_concat] at hrow'
    exact (row_after hs hrow').imp_left (fun ⟨row, hrow, hchange, _⟩ =>
      ⟨row, hrow, hchange.same, hchange.moves⟩)
  · obtain ⟨row, hrow, rfl⟩ := List.mem_map.mp hpin
    obtain ⟨hmem, htrusted⟩ := List.mem_filter.mp hrow
    obtain ⟨before, op, later, he, h⟩ := accounted ops hmem
    exact ⟨row, hmem, rfl, before, op, later, he, h.proposed, h.stays, h.approved htrusted⟩
  · intro later row hrow hrevoked row' hrow' htrusted hnames
    rcases revoked_or_removed ops later hrow hrevoked with
      ⟨r, hr, hsame, hstate⟩ | ⟨mid, revokedOnly, rest, rfl, hok, hrest⟩
    · exfalso
      have hu := unique_run identity (ops ++ later)
      have heq : row' = r := by
        rcases hnames with he | he
        · exact hu.eq_of_id hrow' hr (he.trans hsame.deviceId.symm)
        · exact hu.eq_of_pin hrow' hr (he.trans hsame.pin.symm)
      rw [heq, isTrusted, hstate] at htrusted
      simp at htrusted
    · obtain ⟨mid', op, rest', rfl, hproposes⟩ := hrest row' hrow' hnames
      exact ⟨mid, revokedOnly, mid', op, rest', rfl, hok, hproposes⟩

def examplePeer : Str := text "01234567-89ab-cdef-0123-456789abcdef"

def examplePin : Bytes := List.replicate 32 7

example : (run [] [.propose examplePeer examplePin (text "desktop") 10 false 0 0 [],
    .confirm examplePeer (hexText examplePin) 5 ⟨[], []⟩]).trustedPins = [examplePin] := by
  decide +kernel

end Runs

end Registry

end Raticode.Device
