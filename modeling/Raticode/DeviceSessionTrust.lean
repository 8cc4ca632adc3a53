import Raticode.DeviceSession
import Raticode.DeviceTrust

/-! No session outlives the pairing it was opened under, whatever the order in which
sessions are called and trust is given and taken. -/
namespace Raticode.Device
open PyDocument Attempt

/-! What the log says of a session. -/

def Acknowledges (registry : Registry) (peer generation : Str) (record : Record) : Prop :=
  ∃ row ∈ registry.peers, row.deviceId = peer ∧ row.generation = generation ∧
    Registry.isTrusted row = true ∧
    eqValue (.dict record) (.dict [(.str (text "type"), .str (text "session.ready_ack")),
      (.str (text "device_id"), .str peer), (.str (text "trust_revision"), .int row.revision)]) = true

def HasRow (registry : Registry) (peer generation : Str) : Prop :=
  ∃ row ∈ registry.peers, row.deviceId = peer ∧ row.generation = generation

def ClaimPath (number : ℕ) (mode peer generation : Str) (pin : Bytes) (path : List Event) : Prop :=
  ∃ registry claimed, HasRow claimed peer generation ∧
    path = [.opened number mode registry, .claimed number peer pin claimed]

/-- A session was opened under a generation and bound, or it claimed an invitation and
the local user confirmed the pin it was claimed with; then it was ready. -/
def ReadyPath (number : ℕ) (mode peer generation : Str) (path : List Event) : Prop :=
  (mode ≠ text "pair" ∧ ∃ registry, HasRow registry peer generation ∧
    path = [.opened number mode registry, .bound number peer, .readied number peer]) ∨
  (mode = text "pair" ∧ ∃ claim pin now routes, ClaimPath number mode peer generation pin claim ∧
    path = claim ++ [.called (.confirm peer (hexText pin) now routes), .readied number peer])

def Admitted (log : List Event) (number : ℕ) (mode peer generation : Str) : Prop :=
  ∃ path record registry, ReadyPath number mode peer generation path ∧
    Acknowledges registry peer generation record ∧
    (path ++ [Event.acknowledged number peer record registry]).Sublist log

/-- A record went to the application for an active peer, whose pin TLS reports and whose
generation is the one the session was admitted under. -/
def Justified (log : List Event) : Event → Prop
  | .handled number peer pin _ registry => ∃ row ∈ registry.peers, row.deviceId = peer ∧
      row.state = .active ∧ pin = some row.pin ∧ ∃ mode, Admitted log number mode peer row.generation
  | _ => True

theorem Admitted.mono {log log' : List Event} {number : ℕ} {mode peer generation : Str}
    (h : Admitted log number mode peer generation) (hlog : log.Sublist log') :
    Admitted log' number mode peer generation := by
  obtain ⟨path, record, registry, hpath, hack, hsub⟩ := h
  exact ⟨path, record, registry, hpath, hack, hsub.trans hlog⟩

/-! The time of a peer's last record bears on nothing else. -/
namespace Ledger

theorem seen_log (l : Ledger) (peer : Str) (now : Option ℚ) : (l.seen peer now).log = l.log := by
  cases now <;> rfl

theorem seen_drawn (l : Ledger) (peer : Str) (now : Option ℚ) :
    (l.seen peer now).drawn = l.drawn := by
  cases now <;> rfl

theorem mem_seen {l : Ledger} {peer : Str} {now : Option ℚ} {row' : Peer}
    (h : row' ∈ (l.seen peer now).registry.peers) :
    ∃ row ∈ l.registry.peers, row.SameAs row' ∧ row'.state = row.state := by
  cases now with
  | none => exact ⟨row', h, .refl row', rfl⟩
  | some now =>
    obtain ⟨row, hrow, rfl⟩ := Registry.mem_update h
    refine ⟨row, hrow, ?_⟩
    split_ifs
    · exact ⟨⟨rfl, rfl, rfl, rfl⟩, rfl⟩
    · exact ⟨.refl row, rfl⟩

theorem seen_mem {l : Ledger} {row : Peer} (h : row ∈ l.registry.peers) (peer : Str)
    (now : Option ℚ) :
    ∃ row' ∈ (l.seen peer now).registry.peers, row.SameAs row' ∧ row'.state = row.state := by
  cases now with
  | none => exact ⟨row, h, .refl row, rfl⟩
  | some now =>
    refine ⟨_, List.mem_map_of_mem h, ?_⟩
    split_ifs
    · exact ⟨⟨rfl, rfl, rfl, rfl⟩, rfl⟩
    · exact ⟨.refl row, rfl⟩

theorem unique_seen {l : Ledger} (h : l.registry.Unique) (peer : Str) (now : Option ℚ) :
    (l.seen peer now).registry.Unique := by
  cases now with
  | none => exact h
  | some now => exact Registry.unique_update h (fun _ => ⟨rfl, rfl, rfl, rfl⟩)

end Ledger

section Invariants

variable {T A : Type} (b : Backend T A)

def Knows (l : Ledger) (generation : Str) : Prop := ∃ k < l.drawn, b.uuid4 k = generation

structure Ledger.Sound (l : Ledger) : Prop where
  unique : l.registry.Unique
  known : ∀ row ∈ l.registry.peers, Knows b l row.generation
  log : ∀ before e, before ++ [e] <+: l.log → Justified before e

def Waits (l : Ledger) (number : ℕ) (mode peer generation : Str) : Prop :=
  mode = text "pair" ∧ ∃ pin path, ClaimPath number mode peer generation pin path ∧
    path.Sublist l.log ∧
    ∀ row ∈ l.registry.peers, row.deviceId = peer → row.generation = generation →
      row.pin = pin ∧ (row.state = .pending ∨ row.state = .revoked ∨
        ∃ now routes, (path ++ [Event.called (.confirm peer (hexText pin) now routes)]).Sublist l.log)

structure Own (l : Ledger) (number : ℕ) (s : Session T) : Prop where
  opened : ∃ registry, [Event.opened number s.mode registry].Sublist l.log ∧
    (s.mode ≠ text "pair" → ∀ peer generation, s.generations.lookup peer = some generation →
      HasRow registry peer generation)
  known : ∀ peer generation, s.generations.lookup peer = some generation → Knows b l generation
  identified : s.stage ≠ .binding → ∃ pin role, b.tls.peerPin s.tls = some pin ∧ s.role = some role
  pending : s.stage = .pending → ∃ peer generation, s.peer = some peer ∧
    s.generations.lookup peer = some generation ∧ Waits l number s.mode peer generation
  ack : s.stage = .ack → ∃ peer generation, s.peer = some peer ∧
    s.generations.lookup peer = some generation ∧
    ∃ path, ReadyPath number s.mode peer generation path ∧ path.Sublist l.log
  active : s.stage = .active → ∃ peer generation, s.peer = some peer ∧
    s.generations.lookup peer = some generation ∧ Admitted l.log number s.mode peer generation ∧
    ∀ row ∈ l.registry.peers, row.deviceId = peer → row.generation = generation →
      row.state = .active ∨ row.state = .revoked

inductive Advance (l : Ledger) : Ledger → Prop
  | note {e : Event} (h : Justified l.log e) : Advance l (l.note e)
  | seen (peer : Str) (now : Option ℚ) : Advance l (l.seen peer now)
  | drawn {n : ℕ} (h : l.drawn ≤ n) : Advance l { l with drawn := n }
  | called {op : Op} {registry : Registry} {n : ℕ} (hstep : l.registry.step op = .ok registry)
      (hdrawn : l.drawn ≤ n)
      (hnew : ∀ row, l.registry.Proposes op row →
        ∃ k, l.drawn ≤ k ∧ k < n ∧ b.uuid4 k = row.generation) :
      Advance l (Ledger.note { l with registry, drawn := n } (.called op))

variable {b}

theorem Knows.mono {l l' : Ledger} {generation : Str} (h : Knows b l generation)
    (hl : l.drawn ≤ l'.drawn) : Knows b l' generation := by
  obtain ⟨k, hk, he⟩ := h
  exact ⟨k, hk.trans_le hl, he⟩

namespace Advance
variable {l l' : Ledger}

theorem log_sublist (h : Advance b l l') : l.log.Sublist l'.log := by
  cases h with
  | note => exact List.sublist_append_left _ _
  | seen peer now =>
    rw [Ledger.seen_log]
  | drawn => exact List.Sublist.refl _
  | called => exact List.sublist_append_left _ _

theorem drawn_le (h : Advance b l l') : l.drawn ≤ l'.drawn := by
  cases h with
  | note => exact le_rfl
  | seen peer now => rw [Ledger.seen_drawn]
  | drawn hn => exact hn
  | called _ hn => exact hn

theorem row_from (h : Advance b l l') (hl : l.Sound b) {row' : Peer}
    (hrow' : row' ∈ l'.registry.peers) :
    (∃ row ∈ l.registry.peers, row.SameAs row' ∧ (row'.state = row.state ∨
      row'.state = .revoked ∨ Registry.isTrusted row = true ∧ row'.state = .active ∨
      row.state = .outboundPending ∨
      row.state = .pending ∧ ∃ now routes,
        l'.log = l.log ++ [.called (.confirm row.deviceId (hexText row.pin) now routes)])) ∨
      ∃ k, l.drawn ≤ k ∧ k < l'.drawn ∧ b.uuid4 k = row'.generation := by
  cases h with
  | note => exact .inl ⟨row', hrow', .refl row', .inl rfl⟩
  | drawn => exact .inl ⟨row', hrow', .refl row', .inl rfl⟩
  | seen peer now =>
    obtain ⟨row, hrow, hsame, hstate⟩ := Ledger.mem_seen hrow'
    exact .inl ⟨row, hrow, hsame, .inl hstate⟩
  | @called op registry n hstep hn hnew =>
    rcases (Registry.step_effect hstep).row_after hl.unique ⟨registry, hstep⟩ hrow' with
      ⟨row, hrow, hchange, -⟩ | ⟨hproposes, -⟩
    · refine .inl ⟨row, hrow, hchange.same, ?_⟩
      rcases hchange.state with he | ht
      · exact .inl he
      · generalize row'.state = state at ht ⊢
        cases ht with
        | confirm hop hstate =>
          rw [hop]
          exact .inr (.inr (.inr (.inr ⟨hstate, _, _, rfl⟩)))
        | acknowledge htrusted => exact .inr (.inr (.inl ⟨htrusted, rfl⟩))
        | accept _ hstate => exact .inr (.inr (.inr (.inl hstate)))
        | revoke => exact .inr (.inl rfl)
    · exact .inr (hnew row' hproposes)

theorem sound (h : Advance b l l') (hl : l.Sound b) : l'.Sound b := by
  refine ⟨?_, fun row' hrow' => ?_, ?_⟩
  · cases h with
    | note => exact hl.unique
    | drawn => exact hl.unique
    | seen peer now => exact Ledger.unique_seen hl.unique peer now
    | called hstep => exact (Registry.step_effect hstep).unique hl.unique
  · rcases h.row_from hl hrow' with ⟨row, hrow, hsame, -⟩ | ⟨k, -, hk, he⟩
    · rw [hsame.generation]
      exact (hl.known row hrow).mono h.drawn_le
    · exact ⟨k, hk, he⟩
  · have hnote : ∀ {e : Event}, Justified l.log e → ∀ before e', before ++ [e'] <+: l.log ++ [e] →
        Justified before e' := by
      intro e he before e' hprefix
      rcases List.prefix_concat_iff.mp hprefix with heq | hp
      · obtain ⟨rfl, hlast⟩ := List.append_inj' heq rfl
        cases hlast
        exact he
      · exact hl.log before e' hp
    cases h with
    | note he => exact hnote he
    | drawn => exact hl.log
    | seen peer now =>
      rw [Ledger.seen_log]
      exact hl.log
    | called => exact hnote trivial

theorem known_row (h : Advance b l l') (hl : l.Sound b) (hinj : Function.Injective b.uuid4)
    {row' : Peer} (hrow' : row' ∈ l'.registry.peers) (hknown : Knows b l row'.generation) :
    ∃ row ∈ l.registry.peers, row.SameAs row' ∧ (row'.state = row.state ∨
      row'.state = .revoked ∨ Registry.isTrusted row = true ∧ row'.state = .active ∨
      row.state = .outboundPending ∨
      row.state = .pending ∧ ∃ now routes,
        l'.log = l.log ++ [.called (.confirm row.deviceId (hexText row.pin) now routes)]) := by
  rcases h.row_from hl hrow' with hrow | ⟨k, hk, -, he⟩
  · exact hrow
  · obtain ⟨k', hk', he'⟩ := hknown
    have : k' = k := hinj (he'.trans he.symm)
    omega

theorem waits (h : Advance b l l') (hl : l.Sound b) (hinj : Function.Injective b.uuid4) {number : ℕ}
    {mode peer generation : Str} (hknown : Knows b l generation)
    (hw : Waits l number mode peer generation) : Waits l' number mode peer generation := by
  obtain ⟨hmode, pin, path, hclaim, hsub, hrows⟩ := hw
  refine ⟨hmode, pin, path, hclaim, hsub.trans h.log_sublist, fun row' hrow' hid hgen => ?_⟩
  obtain ⟨row, hrow, hsame, hstate⟩ := h.known_row hl hinj hrow' (by rwa [hgen])
  obtain ⟨hpin, hbefore⟩ := hrows row hrow (hsame.deviceId.symm.trans hid)
    (hsame.generation.symm.trans hgen)
  refine ⟨hsame.pin.trans hpin, ?_⟩
  -- Once the confirmation is in the log, nothing more has to be said of the row.
  have hlogged : (∃ now routes,
      (path ++ [Event.called (.confirm peer (hexText pin) now routes)]).Sublist l.log) →
      ∃ now routes, (path ++ [Event.called (.confirm peer (hexText pin) now routes)]).Sublist l'.log :=
    fun ⟨now, routes, hs⟩ => ⟨now, routes, hs.trans h.log_sublist⟩
  rcases hbefore with hpending | hrevoked | hconfirmed
  · rcases hstate with he | hr | ⟨ht, -⟩ | ho | ⟨-, now, routes, hlog⟩
    · exact .inl (he.trans hpending)
    · exact .inr (.inl hr)
    · simp [Registry.isTrusted, hpending] at ht
    · rw [hpending] at ho
      cases ho
    · refine .inr (.inr ⟨now, routes, ?_⟩)
      rw [hlog, ← hid, ← hpin, hsame.deviceId]
      exact hsub.append (List.Sublist.refl _)
  · rcases hstate with he | hr | ⟨ht, -⟩ | ho | ⟨hp, -⟩
    · exact .inr (.inl (he.trans hrevoked))
    · exact .inr (.inl hr)
    · simp [Registry.isTrusted, hrevoked] at ht
    · rw [hrevoked] at ho
      cases ho
    · rw [hrevoked] at hp
      cases hp
  · exact .inr (.inr (hlogged hconfirmed))

theorem own (h : Advance b l l') (hl : l.Sound b) (hinj : Function.Injective b.uuid4) {number : ℕ}
    {s : Session T} (hs : Own b l number s) : Own b l' number s where
  opened := by
    obtain ⟨registry, hsub, hrows⟩ := hs.opened
    exact ⟨registry, hsub.trans h.log_sublist, hrows⟩
  known := fun peer generation hlookup => (hs.known peer generation hlookup).mono h.drawn_le
  identified := hs.identified
  pending := fun hstage => by
    obtain ⟨peer, generation, hpeer, hlookup, hw⟩ := hs.pending hstage
    exact ⟨peer, generation, hpeer, hlookup, h.waits hl hinj (hs.known _ _ hlookup) hw⟩
  ack := fun hstage => by
    obtain ⟨peer, generation, hpeer, hlookup, path, hpath, hsub⟩ := hs.ack hstage
    exact ⟨peer, generation, hpeer, hlookup, path, hpath, hsub.trans h.log_sublist⟩
  active := fun hstage => by
    obtain ⟨peer, generation, hpeer, hlookup, hadmitted, hrows⟩ := hs.active hstage
    refine ⟨peer, generation, hpeer, hlookup, hadmitted.mono h.log_sublist, ?_⟩
    intro row' hrow' hid hgen
    have hknown : Knows b l row'.generation := by
      rw [hgen]
      exact hs.known _ _ hlookup
    obtain ⟨row, hrow, hsame, hstate⟩ := h.known_row hl hinj hrow' hknown
    have hbefore := hrows row hrow (hsame.deviceId.symm.trans hid)
      (hsame.generation.symm.trans hgen)
    rcases hstate with he | hr | ⟨-, ha⟩ | ho | ⟨hp, -⟩
    · rwa [he]
    · exact .inr hr
    · exact .inl ha
    · rw [ho] at hbefore
      simp at hbefore
    · rw [hp] at hbefore
      simp at hbefore

end Advance

/-! What holds while a session is served. -/

variable (b)

/-- What holds of a site while it serves one message: its ledger is sound, its session agrees
with the ledger, and every other session that agreed with the ledger still does. -/
structure Inv (l₀ : Ledger) (number : ℕ) (site : Site T A) : Prop where
  here : site.number = number
  sound : site.ledger.Sound b
  own : Own b site.ledger number site.session
  others : ∀ j t, Own b l₀ j t → Own b site.ledger j t

def Current (site : Site T A) : Prop :=
  site.session.stage = .ack ∨ site.session.stage = .active →
    ∃ peer, site.session.peer = some peer ∧ ∃ row ∈ site.ledger.registry.peers,
      row.deviceId = peer ∧ site.session.generations.lookup peer = some row.generation ∧
      Registry.isTrusted row = true ∧ b.tls.peerPin site.session.tls = some row.pin

structure Quiet (site site' : Site T A) : Prop where
  ledger : site'.ledger = site.ledger
  number : site'.number = site.number
  mode : site'.session.mode = site.session.mode
  generations : site'.session.generations = site.session.generations
  peer : site'.session.peer = site.session.peer
  role : site'.session.role = site.session.role
  stage : site'.session.stage = site.session.stage
  pin : ∀ pin, b.tls.peerPin site.session.tls = some pin →
    b.tls.peerPin site'.session.tls = some pin

end Invariants

section Serving

variable {T A α β : Type} {b : Backend T A} {site site' : Site T A} {l₀ : Ledger} {number : ℕ}

theorem Quiet.refl (site : Site T A) : Quiet b site site :=
  ⟨rfl, rfl, rfl, rfl, rfl, rfl, rfl, fun _ h => h⟩

theorem Quiet.trans {site'' : Site T A} (h : Quiet b site site') (h' : Quiet b site' site'') :
    Quiet b site site'' :=
  ⟨h'.ledger.trans h.ledger, h'.number.trans h.number, h'.mode.trans h.mode,
    h'.generations.trans h.generations, h'.peer.trans h.peer, h'.role.trans h.role,
    h'.stage.trans h.stage, fun pin hpin => h'.pin pin (h.pin pin hpin)⟩

theorem Inv.quiet (h : Inv b l₀ number site) (hq : Quiet b site site') : Inv b l₀ number site' := by
  have hown := h.own
  refine ⟨hq.number.trans h.here, ?_, ?_, ?_⟩
  · rw [hq.ledger]
    exact h.sound
  · refine ⟨?_, ?_, ?_, ?_, ?_, ?_⟩
    · rw [hq.ledger, hq.mode, hq.generations]
      exact hown.opened
    · rw [hq.ledger, hq.generations]
      exact hown.known
    · intro hstage
      rw [hq.stage] at hstage
      obtain ⟨pin, role, hpin, hrole⟩ := hown.identified hstage
      exact ⟨pin, role, hq.pin pin hpin, hq.role.trans hrole⟩
    · rw [hq.ledger, hq.mode, hq.generations, hq.peer, hq.stage]
      exact hown.pending
    · rw [hq.ledger, hq.mode, hq.generations, hq.peer, hq.stage]
      exact hown.ack
    · rw [hq.ledger, hq.mode, hq.generations, hq.peer, hq.stage]
      exact hown.active
  · rw [hq.ledger]
    exact h.others

theorem Current.quiet (h : Current b site) (hq : Quiet b site site') : Current b site' := by
  intro hstage
  rw [hq.stage] at hstage
  obtain ⟨peer, hpeer, row, hrow, hid, hlookup, htrusted, hpin⟩ := h hstage
  refine ⟨peer, hq.peer.trans hpeer, row, ?_, hid, ?_, htrusted, hq.pin _ hpin⟩
  · rw [hq.ledger]
    exact hrow
  · rw [hq.generations]
    exact hlookup

theorem Inv.advance (h : Inv b l₀ number site) (hinj : Function.Injective b.uuid4) {l : Ledger}
    (hl : Advance b site.ledger l) : Inv b l₀ number { site with ledger := l } :=
  ⟨h.here, hl.sound h.sound, hl.own h.sound hinj h.own,
    fun j t ht => hl.own h.sound hinj (h.others j t ht)⟩

/-! Programs that change nothing that bears on trust. -/

variable (b) in
def Still (x : Serve T A α) : Prop :=
  ∀ site, Wp x (fun _ t => Quiet b site t) (fun _ t => Quiet b site t) site

namespace Still
open Serve

theorem pure (a : α) : Still b (Pure.pure a : Serve T A α) := fun site => Quiet.refl site

theorem fail (e : SessionError) : Still b (Attempt.fail e : Serve T A α) := fun site => Quiet.refl site

theorem lift (x : Except SessionError α) : Still b (Attempt.lift x : Serve T A α) := by
  cases x with
  | ok a => exact pure a
  | error e => exact fail e

theorem bind {x : Serve T A α} {f : α → Serve T A β} (hx : Still b x) (hf : ∀ a, Still b (f a)) :
    Still b (x >>= f) := by
  intro site
  rw [wp_bind]
  refine (hx site).mono (fun a t hq => ?_) (fun _ _ hq => hq)
  exact (hf a t).mono (fun _ _ hq' => hq.trans hq') (fun _ _ hq' => hq.trans hq')

theorem session : Still b (Serve.session : Serve T A (Session T)) := fun site => Quiet.refl site

theorem change {f : Session T → Session T}
    (h : ∀ s, (f s).mode = s.mode ∧ (f s).generations = s.generations ∧ (f s).peer = s.peer ∧
      (f s).role = s.role ∧ (f s).stage = s.stage ∧
      ∀ pin, b.tls.peerPin s.tls = some pin → b.tls.peerPin (f s).tls = some pin) :
    Still b (Serve.change f : Serve T A Unit) := by
  intro site
  obtain ⟨hmode, hgenerations, hpeer, hrole, hstage, hpin⟩ := h site.session
  exact ⟨rfl, rfl, hmode, hgenerations, hpeer, hrole, hstage, hpin⟩

theorem monotonic : Still b (Serve.monotonic b) :=
  fun _ => ⟨rfl, rfl, rfl, rfl, rfl, rfl, rfl, fun _ h => h⟩

theorem clock : Still b (Serve.clock b) :=
  fun _ => ⟨rfl, rfl, rfl, rfl, rfl, rfl, rfl, fun _ h => h⟩

theorem onTls {f : T → Except Unit α × T}
    (h : ∀ t pin, b.tls.peerPin t = some pin → b.tls.peerPin (f t).2 = some pin) :
    Still b (Serve.onTls f : Serve T A α) := by
  refine session.bind (fun _ => bind (change fun s => ?_) (fun _ => lift _))
  exact ⟨rfl, rfl, rfl, rfl, rfl, fun pin => h s.tls pin⟩

theorem send (record : Record) : Still b (Serve.send b record) :=
  (lift _).bind (fun data => onTls (fun t pin => b.tls.send_pin t data pin))

theorem checkDeadline : Still b (Serve.checkDeadline b) := by
  refine session.bind (fun s => monotonic.bind (fun tick => ?_))
  split
  · exact fail _
  · exact pure _

theorem sendAll (responses : List Record) : Still b (Serve.sendAll b responses) := by
  induction responses with
  | nil => exact pure _
  | cons response rest ih =>
    refine (send response).bind (fun _ => ?_)
    split
    · refine bind (change fun s => ?_) (fun _ => ih)
      exact ⟨rfl, rfl, rfl, rfl, rfl, fun _ h => h⟩
    · exact (fail _).bind (fun _ => ih)

theorem pollActive (app : Application A) (peer : Str) : Still b (Serve.pollActive b app peer) := by
  intro site
  unfold Serve.pollActive
  rw [wp_bind, wp_peek]
  exact (lift _).bind (fun responses => sendAll responses) site

theorem frameAll (count : ℕ) (ciphertext : Bytes) : Still b (Serve.frameAll b count ciphertext) := by
  induction count generalizing ciphertext with
  | zero => exact pure _
  | succ count ih =>
    unfold Serve.frameAll
    split
    · exact pure _
    · refine session.bind (fun s => (lift _).bind (fun data => ?_))
      refine bind (change fun s => ?_) (fun _ => (ih _).bind (fun rest => pure _))
      exact ⟨rfl, rfl, rfl, rfl, rfl, fun _ h => h⟩

end Still

theorem Still.step {x : Serve T A α} {f : α → Serve T A β} {Q : β → Site T A → Prop}
    {E : SessionError → Site T A → Prop} (hx : Still b x)
    (hf : ∀ a t, Quiet b site t → Wp (f a) Q E t) (he : ∀ e t, Quiet b site t → E e t) :
    Wp (x >>= f) Q E site := by
  rw [wp_bind]
  exact (hx site).mono hf he

/-! The parts of a session that look at trust or change it. -/

namespace Serve

theorem wp_session {Q : Session T → Site T A → Prop} {E : SessionError → Site T A → Prop} :
    Wp (session : Serve T A (Session T)) Q E site ↔ Q site.session site := Iff.rfl

theorem wp_registry {Q : Registry → Site T A → Prop} {E : SessionError → Site T A → Prop} :
    Wp (registry : Serve T A Registry) Q E site ↔ Q site.ledger.registry site := Iff.rfl

theorem wp_change {Q : Unit → Site T A → Prop} {E : SessionError → Site T A → Prop}
    {f : Session T → Session T} :
    Wp (change f : Serve T A Unit) Q E site ↔ Q () { site with session := f site.session } := Iff.rfl

theorem wp_note {Q : Unit → Site T A → Prop} {E : SessionError → Site T A → Prop}
    {e : ℕ → Registry → Event} :
    Wp (note e : Serve T A Unit) Q E site ↔
      Q () { site with ledger := site.ledger.note (e site.number site.ledger.registry) } := Iff.rfl

theorem wp_clock {Q : ℚ → Site T A → Prop} {E : SessionError → Site T A → Prop} :
    Wp (clock b) Q E site ↔
      Q (b.clock site.readings) { site with readings := site.readings + 1 } := Iff.rfl

theorem wp_draw {Q : Str → Site T A → Prop} {E : SessionError → Site T A → Prop} :
    Wp (draw b) Q E site ↔ Q (b.uuid4 site.ledger.drawn)
      { site with ledger := { site.ledger with drawn := site.ledger.drawn + 1 } } := Iff.rfl

theorem wp_pairing {x : Pairing α} {Q : α → Site T A → Prop} {E : SessionError → Site T A → Prop}
    (hok : ∀ a, x = .ok a → Q a site) (he : ∀ e, E e site) :
    Wp (pairing x : Serve T A α) Q E site := by
  cases x with
  | ok a => exact hok a rfl
  | error e => exact he _

theorem checkGeneration_spec (peer : Str) :
    Wp (checkGeneration peer : Serve T A Unit)
      (fun _ t => t = site ∧ ∃ row ∈ site.ledger.registry.peers, row.deviceId = peer ∧
        site.session.generations.lookup peer = some row.generation)
      (fun _ t => t = site) site := by
  unfold checkGeneration
  rw [wp_bind, wp_session]
  split
  · rfl
  next captured hcaptured =>
    rw [wp_bind]
    unfold generation
    rw [wp_bind, wp_registry, wp_bind]
    refine wp_pairing (fun row hrow => ?_) (fun _ => rfl)
    obtain ⟨hmem, hid⟩ := Registry.row_spec hrow
    rw [wp_pure]
    split
    · rfl
    next hsame =>
      rw [not_not] at hsame
      exact ⟨rfl, row, hmem, hid, by rw [hcaptured, hsame]⟩

theorem authenticate_row {registry : Registry} {peer : Str} {pin : Bytes} {role : Str} {u : Unit}
    (h : registry.authenticate peer pin role = .ok u) :
    ∃ row ∈ registry.peers, row.deviceId = peer ∧ Registry.isTrusted row = true ∧ row.pin = pin := by
  obtain ⟨row, hrow, h⟩ := Attempt.bind_ok h
  obtain ⟨hmem, hid⟩ := Registry.row_spec hrow
  have hall := of_ensure h
  simp only [Bool.and_eq_true, decide_eq_true_eq] at hall
  exact ⟨row, hmem, hid, hall.1.1, hall.2⟩

theorem authenticate_spec (peer : Str) (pin : Bytes) (role : Str) :
    Wp (authenticate peer pin role : Serve T A Unit)
      (fun _ t => t = site ∧ ∃ row ∈ site.ledger.registry.peers, row.deviceId = peer ∧
        Registry.isTrusted row = true ∧ row.pin = pin)
      (fun _ t => t = site) site := by
  unfold authenticate
  rw [wp_bind]
  refine wp_pairing (fun u hu => ⟨rfl, authenticate_row hu⟩) (fun _ => rfl)

theorem authority_spec (h : Inv b l₀ number site) :
    Wp (authority b) (fun _ t => t = site ∧ Current b t) (fun _ t => t = site) site := by
  unfold authority
  rw [wp_bind, wp_session]
  have hnone : (site.session.peer = none ∨ site.session.role = none) → Current b site := by
    intro hor hstage
    obtain ⟨pin, role, -, hrole⟩ := h.own.identified (by rcases hstage with he | he <;> simp [he])
    rcases hstage with he | he
    · obtain ⟨peer, _, hpeer, -⟩ := h.own.ack he
      simp [hpeer, hrole] at hor
    · obtain ⟨peer, _, hpeer, -⟩ := h.own.active he
      simp [hpeer, hrole] at hor
  split
  next peer role hpeer hrole =>
    split
    next hpending =>
      refine ⟨rfl, fun hstage => ?_⟩
      simp [hpending] at hstage
    · rw [wp_bind]
      refine (checkGeneration_spec peer).mono ?_ (fun _ _ ht => ht)
      rintro _ t ⟨rfl, row, hrow, hid, hlookup⟩
      refine (authenticate_spec peer _ role).mono ?_ (fun _ _ ht => ht)
      rintro _ t' ⟨rfl, row', hrow', hid', htrusted, hpin⟩
      obtain rfl := h.sound.unique.eq_of_id hrow hrow' (hid.trans hid'.symm)
      refine ⟨rfl, fun hstage => ⟨peer, hpeer, row, hrow, hid, hlookup, htrusted, ?_⟩⟩
      obtain ⟨pin, _, hreported, -⟩ := h.own.identified (by rcases hstage with he | he <;> simp [he])
      rw [hreported] at hpin ⊢
      exact congrArg some hpin.symm
  next hnot =>
    refine ⟨rfl, hnone ?_⟩
    cases hpeer : site.session.peer with
    | none => exact .inl rfl
    | some peer =>
      cases hrole : site.session.role with
      | none => exact .inr rfl
      | some role => exact absurd hrole (hnot peer role hpeer)

theorem ready_spec (h : Inv b l₀ number site) (hinj : Function.Injective b.uuid4) {peer role : Str}
    {pin : Bytes} {row : Peer} (path : List Event) (hpeer : site.session.peer = some peer)
    (hrole : site.session.role = some role) (hpin : b.tls.peerPin site.session.tls = some pin)
    (hrow : row ∈ site.ledger.registry.peers) (hid : row.deviceId = peer)
    (hlookup : site.session.generations.lookup peer = some row.generation)
    (hpath : ReadyPath number site.session.mode peer row.generation
      (path ++ [.readied number peer])) (hsub : path.Sublist site.ledger.log) :
    Wp (ready b peer role pin) (fun _ t => Inv b l₀ number t ∧ Current b t)
      (fun _ t => Inv b l₀ number t) site := by
  unfold ready
  rw [wp_bind, wp_registry, wp_bind]
  refine wp_pairing (fun record hready => ?_) (fun _ => h)
  obtain ⟨_, hauthenticate, -⟩ := Attempt.bind_ok hready
  obtain ⟨row', hrow', hid', htrusted, hsame⟩ := authenticate_row hauthenticate
  obtain rfl := h.sound.unique.eq_of_id hrow hrow' (hid.trans hid'.symm)
  refine (Still.send record).step (fun _ t hq => ?_) (fun _ t hq => h.quiet hq)
  have ht : Inv b l₀ number t := h.quiet hq
  have hadvance : Advance b t.ledger (t.ledger.note (.readied t.number peer)) := .note trivial
  have hnext := ht.advance hinj hadvance
  refine ⟨⟨ht.here, hnext.sound, ?_, hnext.others⟩, fun _ => ?_⟩
  · refine ⟨hnext.own.opened, hnext.own.known, fun _ => ?_, fun hs => (by cases hs),
      fun _ => ?_, fun hs => (by cases hs)⟩
    · exact ⟨pin, role, hq.pin _ hpin, hq.role.trans hrole⟩
    · refine ⟨peer, row.generation, hq.peer.trans hpeer, ?_, path ++ [.readied number peer], ?_, ?_⟩
      · exact (congrArg (List.lookup peer) hq.generations).trans hlookup
      · change ReadyPath number t.session.mode peer row.generation _
        rw [hq.mode]
        exact hpath
      · change (path ++ [Event.readied number peer]).Sublist (t.ledger.log ++ [.readied t.number peer])
        rw [hq.ledger, ht.here]
        exact hsub.append (List.Sublist.refl _)
  · refine ⟨peer, hq.peer.trans hpeer, row, ?_, hid, ?_, htrusted, ?_⟩
    · change row ∈ t.ledger.registry.peers
      rw [hq.ledger]
      exact hrow
    · exact (congrArg (List.lookup peer) hq.generations).trans hlookup
    · rw [hsame]
      exact hq.pin _ hpin

theorem inv_binding (h : Inv b l₀ number site) {s : Session T} (hstage : s.stage = .binding)
    (hmode : s.mode = site.session.mode)
    (hknown : ∀ peer generation, s.generations.lookup peer = some generation →
      Knows b site.ledger generation)
    (hgenerations : s.mode ≠ text "pair" → s.generations = site.session.generations) :
    Inv b l₀ number { site with session := s } := by
  refine ⟨h.here, h.sound, ?_, h.others⟩
  obtain ⟨registry, hsub, hrows⟩ := h.own.opened
  refine ⟨⟨registry, ?_, fun hpair => ?_⟩, hknown, fun hne => absurd hstage hne, ?_, ?_, ?_⟩
  · change [Event.opened number s.mode registry].Sublist site.ledger.log
    rw [hmode]
    exact hsub
  · change ∀ peer generation, s.generations.lookup peer = some generation → _
    rw [hgenerations hpair]
    rw [hmode] at hpair
    exact hrows hpair
  all_goals
    intro hs
    change s.stage = _ at hs
    rw [hstage] at hs
    cases hs

theorem bindResume_spec (h : Inv b l₀ number site) (hinj : Function.Injective b.uuid4)
    (hstage : site.session.stage = .binding) (hmode : site.session.mode ≠ text "pair")
    {pin : Bytes} (hpin : b.tls.peerPin site.session.tls = some pin) (received : Record) :
    Wp (bindResume b received pin) (fun _ t => Inv b l₀ number t ∧ Current b t)
      (fun _ t => Inv b l₀ number t) site := by
  unfold bindResume
  rw [wp_bind]
  refine wp_pairing (fun peer _ => ?_) (fun _ => h)
  rw [wp_bind, wp_change, wp_bind, wp_lift]
  have h₁ : Inv b l₀ number { site with session := { site.session with peer := some peer } } :=
    inv_binding h hstage rfl h.own.known (fun _ => rfl)
  refine ⟨fun role _ => ?_, fun _ _ => h₁⟩
  rw [wp_bind, wp_change]
  generalize hnext : ({ site with session := { site.session with
    peer := some peer, role := some role } } : Site T A) = next
  have h₂ : Inv b l₀ number next := by
    rw [← hnext]
    exact inv_binding h hstage rfl h.own.known (fun _ => rfl)
  have hpeer₂ : next.session.peer = some peer := by rw [← hnext]
  have hrole₂ : next.session.role = some role := by rw [← hnext]
  have hpin₂ : b.tls.peerPin next.session.tls = some pin := by
    rw [← hnext]
    exact hpin
  have hmode₂ : next.session.mode ≠ text "pair" := by
    rw [← hnext]
    exact hmode
  split
  · exact h₂
  · rw [wp_bind, wp_session, wp_bind, wp_registry, wp_bind, wp_lift]
    refine ⟨fun _ _ => ?_, fun _ _ => h₂⟩
    rw [wp_bind]
    refine (checkGeneration_spec peer).mono ?_ (fun _ _ ht => by rw [ht]; exact h₂)
    rintro _ t ⟨rfl, row, hrow, hid, hlookup⟩
    rw [wp_bind]
    refine (authenticate_spec peer pin role).mono ?_ (fun _ _ ht => by rw [ht]; exact h₂)
    rintro _ t' ⟨rfl, -⟩
    rw [wp_bind, wp_note]
    have hadvance : Advance b t'.ledger (t'.ledger.note (.bound t'.number peer)) := .note trivial
    have h₃ := h₂.advance hinj hadvance
    refine (Still.send received).step (fun _ u hq => ?_) (fun _ _ hq => h₃.quiet hq)
    obtain ⟨registry, hsub, hrows⟩ := h₂.own.opened
    -- The session was opened under the generation that the row has now.
    have hfrom : HasRow registry peer row.generation := hrows hmode₂ _ _ hlookup
    refine ready_spec (h₃.quiet hq) hinj
      [.opened number t'.session.mode registry, .bound number peer] (hq.peer.trans hpeer₂) (hq.role.trans hrole₂) (hq.pin _ hpin₂) ?_ hid ?_ ?_ ?_
    · rw [hq.ledger]
      exact hrow
    · exact (congrArg (List.lookup peer) hq.generations).trans hlookup
    · rw [hq.mode]
      exact .inl ⟨hmode₂, registry, hfrom, rfl⟩
    · rw [hq.ledger]
      change List.Sublist _ (t'.ledger.log ++ [.bound t'.number peer])
      rw [h₂.here]
      exact hsub.append (List.Sublist.refl [Event.bound number peer])

theorem acknowledge_spec (h : Inv b l₀ number site) (hinj : Function.Injective b.uuid4)
    (hcurrent : Current b site) (hstage : site.session.stage = .ack) {peer role : Str}
    (hpeer : site.session.peer = some peer) {pin : Bytes} (received : Record) :
    Wp (acknowledge b received pin peer role) (fun _ t => Inv b l₀ number t ∧ Current b t)
      (fun _ t => Inv b l₀ number t) site := by
  unfold acknowledge
  rw [wp_bind, wp_registry]
  refine Still.clock.step (fun now t hq => ?_) (fun _ _ hq => h.quiet hq)
  have ht : Inv b l₀ number t := h.quiet hq
  have hcurrent' : Current b t := hcurrent.quiet hq
  have hstage' : t.session.stage = .ack := hq.stage.trans hstage
  have hpeer' : t.session.peer = some peer := hq.peer.trans hpeer
  rw [wp_bind]
  unfold call
  rw [wp_bind, wp_peek, wp_bind]
  refine wp_pairing (fun registry hstep => ?_) (fun _ => ht)
  rw [← hq.ledger]
  obtain ⟨peer', generation, hpeer'', hlookup, path, hpath, hsub⟩ := ht.own.ack hstage'
  rw [hpeer'] at hpeer''
  cases hpeer''
  obtain ⟨peer'', he, row, hrow, hid, hlookup', htrusted, hpin⟩ := hcurrent' (.inl hstage')
  rw [hpeer'] at he
  cases he
  rw [hlookup] at hlookup'
  cases hlookup'
  have hnone : ∀ r, ¬ t.ledger.registry.Proposes (.acknowledge peer pin role received now) r := by
    rintro r ⟨-, _, _, _, _, he⟩
    cases he
  have hcalled : Advance b t.ledger (Ledger.note { t.ledger with registry }
      (.called (.acknowledge peer pin role received now))) :=
    .called hstep le_rfl (fun r hr => absurd hr (hnone r))
  have h₁ := ht.advance hinj hcalled
  have hnoted : Advance b _ ((Ledger.note { t.ledger with registry }
      (.called (.acknowledge peer pin role received now))).note
      (.acknowledged t.number peer received t.ledger.registry)) := .note trivial
  have h₂ := h₁.advance hinj hnoted
  -- The row that is acknowledged is the one the session is bound to.
  obtain ⟨_, -, hrest⟩ := Attempt.bind_ok hstep
  obtain ⟨row', hrow', hrest⟩ := Attempt.bind_ok hrest
  obtain ⟨_, hmatch, hrest⟩ := Attempt.bind_ok hrest
  cases hrest
  obtain ⟨hmem', hid'⟩ := Registry.row_spec hrow'
  obtain rfl := ht.sound.unique.eq_of_id hrow hmem' (hid.trans hid'.symm)
  have hack : Acknowledges t.ledger.registry peer row.generation received := by
    have hall := of_ensure hmatch
    rw [Bool.and_eq_true] at hall
    exact ⟨row, hrow, hid, rfl, htrusted, hall.1⟩
  have hadmitted : Admitted ((t.ledger.log ++ [.called (.acknowledge peer pin role received now)]) ++
      [.acknowledged t.number peer received t.ledger.registry]) number t.session.mode peer
      row.generation := by
    refine ⟨path, received, t.ledger.registry, hpath, hack, ?_⟩
    rw [ht.here]
    exact (hsub.trans (List.sublist_append_left _ _)).append (List.Sublist.refl _)
  have hupdated : ∀ r ∈ (t.ledger.registry.update peer (fun p => { p with
      state := .active, lastSeen := some now })).peers, r.deviceId = peer → r.state = .active := by
    intro r hr hrid
    obtain ⟨r₀, -, rfl⟩ := Registry.mem_update hr
    split_ifs at hrid ⊢ with he
    · rfl
    · exact absurd hrid he
  refine ⟨⟨ht.here, h₂.sound, ?_, h₂.others⟩, fun _ => ?_⟩
  · refine ⟨h₂.own.opened, h₂.own.known, fun _ => ?_, fun hs => (by cases hs), fun hs => (by cases hs),
      fun _ => ?_⟩
    · exact ht.own.identified (by rw [hstage']; decide)
    · exact ⟨peer, row.generation, hpeer', hlookup, hadmitted,
        fun r hr hrid _ => .inl (hupdated r hr hrid)⟩
  · refine ⟨peer, hpeer', { row with state := .active, lastSeen := some now }, ?_, hid, hlookup, rfl,
      hpin⟩
    exact List.mem_map.mpr ⟨row, hrow, by rw [if_pos hid]⟩

theorem propose_spec (h : Inv b l₀ number site) (hinj : Function.Injective b.uuid4) (peer : Str)
    (pin : Bytes) (role : Str) (expires : ℚ) :
    Wp (propose b peer pin role expires)
      (fun _ t => Inv b l₀ number t ∧ t.session = site.session ∧
        ∀ row ∈ t.ledger.registry.peers, row.deviceId = peer →
          row.pin = pin ∧ row.state = .pending)
      (fun _ t => Inv b l₀ number t) site := by
  unfold propose
  rw [wp_bind, wp_clock, wp_bind, wp_clock, wp_bind, wp_draw]
  unfold call
  rw [wp_bind, wp_peek, wp_bind]
  refine wp_pairing (fun registry hstep => ?_) (fun _ => ?_)
  · have hnew : ∀ row, site.ledger.registry.Proposes (.propose peer pin role expires false
        (b.clock site.readings) (b.clock (site.readings + 1)) (b.uuid4 site.ledger.drawn)) row →
        ∃ k, site.ledger.drawn ≤ k ∧ k < site.ledger.drawn + 1 ∧ b.uuid4 k = row.generation := by
      rintro row ⟨-, _, _, _, _, hop⟩
      injection hop with _ _ _ _ _ _ _ hgeneration
      exact ⟨site.ledger.drawn, le_rfl, Nat.lt_succ_self _, hgeneration⟩
    have hadvance : Advance b site.ledger _ := .called hstep (Nat.le_succ _) hnew
    have hnext := h.advance hinj hadvance
    refine ⟨⟨h.here, hnext.sound, hnext.own, hnext.others⟩, rfl, fun row hrow hid => ?_⟩
    obtain ⟨_, -, hrest⟩ := Attempt.bind_ok hstep
    obtain ⟨_, -, hrest⟩ := Attempt.bind_ok hrest
    obtain ⟨_, -, hrest⟩ := Attempt.bind_ok hrest
    obtain ⟨_, hconflict, hrest⟩ := Attempt.bind_ok hrest
    cases hrest
    rcases List.mem_append.mp hrow with hkept | hlast
    · have hall := List.all_eq_true.mp (of_ensure hconflict) row hkept
      simp [hid] at hall
    · obtain rfl := List.mem_singleton.mp hlast
      exact ⟨rfl, rfl⟩
  · have hnext := h.advance hinj (Advance.drawn (Nat.le_succ site.ledger.drawn))
    exact ⟨h.here, hnext.sound, hnext.own, hnext.others⟩

theorem currentInvitation_still : Still b (currentInvitation b) := by
  intro site
  unfold currentInvitation
  rw [wp_bind, wp_peek]
  split
  · exact Quiet.refl site
  · split
    · exact Quiet.refl site
    · refine (Still.clock.bind (fun now => ?_)) site
      split
      · exact Still.fail _
      · refine Still.monotonic.bind (fun tick => ?_)
        split
        · exact Still.fail _
        · exact Still.pure _

theorem claim_spec (h : Inv b l₀ number site) (hinj : Function.Injective b.uuid4) (received : Record)
    (sessionId : Str) (pin : Bytes) :
    Wp (claim b received sessionId pin)
      (fun r t => Inv b l₀ number t ∧ (∃ t₀, Quiet b site t₀ ∧ t.session = t₀.session) ∧
        ∀ row ∈ t.ledger.registry.peers, row.deviceId = r.1 → row.pin = pin ∧ row.state = .pending)
      (fun _ t => Inv b l₀ number t) site := by
  unfold claim
  refine currentInvitation_still.step (fun invite t hq => ?_) (fun _ _ hq => h.quiet hq)
  rw [wp_bind, wp_peek, wp_bind, wp_put]
  generalize hnext : ({ t with invitation := some { invite with
    failures := invite.failures + 1 } } : Site T A) = next
  have hq' : Quiet b site next := by
    rw [← hnext]
    exact hq.trans ⟨rfl, rfl, rfl, rfl, rfl, rfl, rfl, fun _ hp => hp⟩
  have hinv : Inv b l₀ number next := h.quiet hq'
  rw [wp_bind, wp_lift]
  refine ⟨fun data _ => ?_, fun _ _ => hinv⟩
  rw [wp_bind]
  refine wp_pairing (fun peer _ => ?_) (fun _ => hinv)
  rw [wp_bind, wp_lift]
  refine ⟨fun role _ => ?_, fun _ _ => hinv⟩
  rw [wp_bind, wp_lift]
  refine ⟨fun secret _ => ?_, fun _ _ => hinv⟩
  rw [wp_bind, wp_registry, wp_bind, wp_lift]
  refine ⟨fun _ _ => ?_, fun _ _ => hinv⟩
  rw [wp_bind]
  refine (propose_spec hinv hinj peer pin role invite.expires).mono ?_ (fun _ _ ht => ht)
  rintro _ u ⟨hu, hsession, hrows⟩
  rw [wp_bind, wp_peek, wp_bind, wp_put, wp_pure]
  exact ⟨⟨hu.here, hu.sound, hu.own, hu.others⟩, ⟨next, hq', hsession⟩, hrows⟩

theorem lookup_cons_cases {peer key generation : Str} {captured : Str} {generations : List (Str × Str)}
    (h : List.lookup key ((peer, captured) :: generations) = some generation) :
    key = peer ∧ generation = captured ∨ generations.lookup key = some generation := by
  rw [List.lookup_cons] at h
  split at h
  next he =>
    cases h
    exact .inl ⟨by simpa using he, rfl⟩
  · exact .inr h

theorem bindPair_spec (h : Inv b l₀ number site) (hinj : Function.Injective b.uuid4)
    (hstage : site.session.stage = .binding) (hmode : site.session.mode = text "pair")
    {pin : Bytes} (hpin : b.tls.peerPin site.session.tls = some pin) (received : Record) :
    Wp (bindPair b received pin) (fun _ t => Inv b l₀ number t ∧ Current b t)
      (fun _ t => Inv b l₀ number t) site := by
  unfold bindPair
  rw [wp_bind, wp_session, wp_bind]
  refine (claim_spec h hinj received site.session.sessionId pin).mono ?_ (fun _ _ ht => ht)
  rintro ⟨peer, role⟩ t ⟨ht, ⟨t₀, hq, hsession⟩, hrows⟩
  simp only at hrows ⊢
  rw [wp_bind]
  unfold generation
  rw [wp_bind, wp_registry, wp_bind]
  refine wp_pairing (fun row hrow => ?_) (fun _ => ht)
  obtain ⟨hmem, hid⟩ := Registry.row_spec hrow
  rw [wp_pure, wp_bind, wp_change, wp_bind, wp_note]
  have hstage' : t.session.stage = .binding := by
    rw [hsession, hq.stage]
    exact hstage
  have hmode' : t.session.mode = text "pair" := by
    rw [hsession, hq.mode]
    exact hmode
  -- The generation is captured when the invitation is claimed.
  have h₁ : Inv b l₀ number { t with session := { t.session with
      peer := some peer, role := some role,
      generations := (peer, row.generation) :: t.session.generations } } := by
    refine inv_binding ht hstage' rfl ?_ (fun hne => absurd hmode' hne)
    intro key generation hlookup
    rcases lookup_cons_cases hlookup with ⟨-, rfl⟩ | hlookup
    · exact ht.sound.known row hmem
    · exact ht.own.known key generation hlookup
  have hadvance : Advance b t.ledger
      (t.ledger.note (.claimed t.number peer pin t.ledger.registry)) := .note trivial
  have h₂ := h₁.advance hinj hadvance
  refine (Still.send received).step (fun _ u hu => ?_) (fun _ _ hu => h₂.quiet hu)
  have h₃ : Inv b l₀ number u := h₂.quiet hu
  obtain ⟨registry, hsub, -⟩ := ht.own.opened
  have hclaim : ClaimPath number u.session.mode peer row.generation pin
      [.opened number t.session.mode registry, .claimed number peer pin t.ledger.registry] := by
    rw [hu.mode]
    exact ⟨registry, t.ledger.registry, ⟨row, hmem, hid, rfl⟩, rfl⟩
  have hlogged : [Event.opened number t.session.mode registry,
      .claimed number peer pin t.ledger.registry].Sublist u.ledger.log := by
    rw [hu.ledger]
    change List.Sublist _ (t.ledger.log ++ [.claimed t.number peer pin t.ledger.registry])
    rw [ht.here]
    exact hsub.append (List.Sublist.refl [Event.claimed number peer pin t.ledger.registry])
  rw [wp_bind, wp_change]
  have h₄ : Inv b l₀ number { u with session := { u.session with stage := .pending } } := by
    refine ⟨h₃.here, h₃.sound, ?_, h₃.others⟩
    refine ⟨h₃.own.opened, h₃.own.known, fun _ => ?_, fun _ => ?_, fun hs => (by cases hs),
      fun hs => (by cases hs)⟩
    · refine ⟨pin, role, ?_, hu.role⟩
      apply hu.pin
      change b.tls.peerPin t.session.tls = some pin
      rw [hsession]
      exact hq.pin _ hpin
    · refine ⟨peer, row.generation, hu.peer, ?_, ?_, pin, _, hclaim, hlogged, ?_⟩
      · exact (congrArg (List.lookup peer) hu.generations).trans (by simp)
      · exact hu.mode.trans hmode'
      · intro r hr hrid _
        change r ∈ u.ledger.registry.peers at hr
        rw [hu.ledger] at hr
        obtain ⟨hpin', hpending⟩ := hrows r hr hrid
        exact ⟨hpin', .inl hpending⟩
  have hcurrent : ∀ v : Site T A, v.session.stage = .pending → Current b v := by
    intro v hv hs
    simp [hv] at hs
  rw [wp_bind, wp_registry, wp_bind]
  refine wp_pairing (fun row' _ => ?_) (fun _ => h₄)
  split
  · exact h₄
  next expires _ =>
    refine Still.monotonic.step (fun tick v hv => ?_) (fun _ _ hv => h₄.quiet hv)
    refine Still.clock.step (fun now w hw => ?_) (fun _ _ hw => h₄.quiet (hv.trans hw))
    have hrest : Still b (do
        change (fun s => { s with deadline := tick + max 0 (expires - now) })
        send b (pendingRecord peer expires)) := by
      refine Still.bind (Still.change fun s => ?_) (fun _ => Still.send _)
      exact ⟨rfl, rfl, rfl, rfl, rfl, fun _ hp => hp⟩
    refine (hrest w).mono (fun _ x hx => ?_) (fun _ x hx => h₄.quiet ((hv.trans hw).trans hx))
    have hquiet := (hv.trans hw).trans hx
    exact ⟨h₄.quiet hquiet, hcurrent x hquiet.stage⟩

/-- The end of `handle`. -/
def renew (b : Backend T A) (received : Record) : Serve T A Unit := do
  if Registry.isString (member received "type") (text "sync.request") then
    match afterSequence received with
    | some sequence => change (fun s => { s with sentSequence := sequence })
    | none => fail (.application .other)
  let tick ← monotonic b
  change (fun s => { s with deadline := tick + 300 })

theorem handle_spec (h : Inv b l₀ number site) (hinj : Function.Injective b.uuid4)
    (hcurrent : Current b site) (hstage : site.session.stage = .active) {peer : Str}
    (hpeer : site.session.peer = some peer) (app : Application A) (received : Record) :
    Wp (handle b app received peer) (fun _ t => Inv b l₀ number t ∧ Current b t)
      (fun _ t => Inv b l₀ number t) site := by
  obtain ⟨peer', he, row, hrow, hid, hlookup, htrusted, hpin⟩ := hcurrent (.inr hstage)
  rw [hpeer] at he
  cases he
  obtain ⟨peer', generation, he, hlookup', hadmitted, hrows⟩ := h.own.active hstage
  rw [hpeer] at he
  cases he
  rw [hlookup] at hlookup'
  cases hlookup'
  have hactive : row.state = .active := by
    rcases hrows row hrow hid rfl with ha | hr
    · exact ha
    · simp [Registry.isTrusted, hr] at htrusted
  have hjustified : Justified site.ledger.log (.handled site.number peer
      (b.tls.peerPin site.session.tls) received site.ledger.registry) := by
    refine ⟨row, hrow, hid, hactive, hpin, site.session.mode, ?_⟩
    rw [h.here]
    exact hadmitted
  have h₁ := h.advance hinj (Advance.note hjustified)
  have hseen := h₁.advance hinj (Advance.seen peer
    (app.handle site.application peer received).lastSeen)
  have h₂ : Inv b l₀ number { site with
      application := (app.handle site.application peer received).next
      ledger := (site.ledger.note (.handled site.number peer (b.tls.peerPin site.session.tls)
        received site.ledger.registry)).seen peer
        (app.handle site.application peer received).lastSeen } :=
    ⟨hseen.here, hseen.sound, hseen.own, hseen.others⟩
  have hcurrent₂ : Current b { site with
      application := (app.handle site.application peer received).next
      ledger := (site.ledger.note (.handled site.number peer (b.tls.peerPin site.session.tls)
        received site.ledger.registry)).seen peer
        (app.handle site.application peer received).lastSeen } := by
    intro _
    have hnoted : row ∈ (site.ledger.note (.handled site.number peer
      (b.tls.peerPin site.session.tls) received site.ledger.registry)).registry.peers := hrow
    obtain ⟨row', hrow', hsame, hstate⟩ := Ledger.seen_mem hnoted peer
      (app.handle site.application peer received).lastSeen
    refine ⟨peer, hpeer, row', hrow', hsame.deviceId.trans hid, ?_, ?_, ?_⟩
    · rw [hsame.generation]
      exact hlookup
    · rw [Registry.isTrusted, hstate]
      exact htrusted
    · rw [hsame.pin]
      exact hpin
  have hafter : Still b (do
      let tick ← monotonic b
      change (fun s => { s with deadline := tick + 300 })) := by
    refine Still.monotonic.bind (fun tick => Still.change fun s => ?_)
    exact ⟨rfl, rfl, rfl, rfl, rfl, fun _ hp => hp⟩
  have hrest : Still b (renew b received) := by
    unfold renew
    split
    · split
      · refine Still.bind (Still.change fun s => ?_) (fun _ => hafter)
        exact ⟨rfl, rfl, rfl, rfl, rfl, fun _ hp => hp⟩
      · exact (Still.fail _).bind (fun _ => hafter)
    · exact hafter
  unfold handle
  rw [wp_bind, wp_session, wp_bind, wp_note, wp_bind, wp_peek, wp_bind, wp_put]
  split
  · exact h₂
  · exact (hrest _).mono (fun _ _ hq => ⟨h₂.quiet hq, hcurrent₂.quiet hq⟩)
      (fun _ _ hq => h₂.quiet hq)

theorem record_spec (h : Inv b l₀ number site) (hinj : Function.Injective b.uuid4)
    (hcurrent : Current b site) (received : Record) :
    Wp (record b received) (fun _ t => Inv b l₀ number t ∧ Current b t)
      (fun _ t => Inv b l₀ number t) site := by
  unfold record
  rw [wp_bind, wp_session]
  split
  · exact h
  next pin hpin =>
    split
    next hstage =>
      split
      next hmode => exact bindPair_spec h hinj hstage hmode hpin received
      next hmode => exact bindResume_spec h hinj hstage hmode hpin received
    next peer role hstage hpeer _ => exact acknowledge_spec h hinj hcurrent hstage hpeer received
    next peer app hstage hpeer _ => exact handle_spec h hinj hcurrent hstage hpeer app received
    · exact h

theorem recordAll_spec (hinj : Function.Injective b.uuid4) (received : List Record)
    (h : Inv b l₀ number site) (hcurrent : Current b site) :
    Wp (recordAll b received) (fun _ t => Inv b l₀ number t ∧ Current b t)
      (fun _ t => Inv b l₀ number t) site := by
  induction received generalizing site with
  | nil => exact ⟨h, hcurrent⟩
  | cons first rest ih =>
    unfold recordAll
    rw [wp_bind]
    exact (record_spec h hinj hcurrent first).mono (fun _ t ht => ih ht.1 ht.2) (fun _ _ ht => ht)

theorem chunkAll_spec (hinj : Function.Injective b.uuid4) (chunks : List Bytes)
    (h : Inv b l₀ number site) (hcurrent : Current b site) :
    Wp (chunkAll b chunks) (fun _ t => Inv b l₀ number t ∧ Current b t)
      (fun _ t => Inv b l₀ number t) site := by
  induction chunks generalizing site with
  | nil => exact ⟨h, hcurrent⟩
  | cons chunk rest ih =>
    unfold chunkAll
    rw [wp_bind, wp_session]
    have hfed : Still b (change (fun s => { s with records := (s.records.feed b.limits chunk).2 }) :
        Serve T A Unit) := Still.change fun s => ⟨rfl, rfl, rfl, rfl, rfl, fun _ hp => hp⟩
    refine hfed.step (fun _ t hq => ?_) (fun _ _ hq => h.quiet hq)
    rw [wp_bind, wp_lift]
    refine ⟨fun received _ => ?_, fun _ _ => h.quiet hq⟩
    rw [wp_bind]
    exact (recordAll_spec hinj received (h.quiet hq) (hcurrent.quiet hq)).mono
      (fun _ u hu => ih hu.1 hu.2) (fun _ _ hu => hu)

theorem pump_spec (hinj : Function.Injective b.uuid4) (rounds : ℕ) (h : Inv b l₀ number site)
    (hcurrent : Current b site) :
    Wp (pump b rounds) (fun _ t => Inv b l₀ number t) (fun _ t => Inv b l₀ number t) site := by
  induction rounds generalizing site with
  | zero => exact h
  | succ rounds ih =>
    unfold pump
    have hreceive : Still b (onTls b.tls.receive) :=
      Still.onTls (fun t pin => b.tls.receive_pin t pin)
    refine hreceive.step (fun chunks t hq => ?_) (fun _ _ hq => h.quiet hq)
    split
    · exact h.quiet hq
    · rw [wp_bind]
      exact (chunkAll_spec hinj chunks (h.quiet hq) (hcurrent.quiet hq)).mono
        (fun _ u hu => ih hu.1 hu.2) (fun _ _ hu => hu)

theorem pollPending_spec (h : Inv b l₀ number site) (hinj : Function.Injective b.uuid4)
    (hstage : site.session.stage = .pending) {peer : Str} (hpeer : site.session.peer = some peer) :
    Wp (pollPending b peer) (fun _ t => Inv b l₀ number t) (fun _ t => Inv b l₀ number t) site := by
  unfold pollPending
  rw [wp_bind]
  refine (checkGeneration_spec peer).mono ?_ (fun _ _ ht => by rw [ht]; exact h)
  rintro _ t ⟨rfl, row, hrow, hid, hlookup⟩
  rw [wp_bind, wp_registry, wp_bind]
  refine wp_pairing (fun row' hrow' => ?_) (fun _ => h)
  obtain ⟨hmem', hid'⟩ := Registry.row_spec hrow'
  obtain rfl := h.sound.unique.eq_of_id hrow hmem' (hid.trans hid'.symm)
  refine Still.clock.step (fun now u hu => ?_) (fun _ _ hu => h.quiet hu)
  rw [wp_bind]
  refine wp_pairing (fun state hstate => ?_) (fun _ => h.quiet hu)
  split
  · exact h.quiet hu
  · split
    next hconfirmed =>
      rw [wp_bind, wp_session]
      split
      next role pin hrole hpin =>
        have hrowState : row.state = .confirmed := by
          unfold shownState at hstate
          split at hstate
          · obtain ⟨expired, -, hstate⟩ := Attempt.bind_ok hstate
            rw [hconfirmed] at hstate
            cases expired
            · simpa [pure, Except.pure] using hstate
            · simp [pure, Except.pure] at hstate
          · rw [hconfirmed] at hstate
            simpa [pure, Except.pure] using hstate
        obtain ⟨peer', generation, he, hlookup', hmode, pin', path, hclaim, hsub, hrows⟩ :=
          h.own.pending hstage
        rw [hpeer] at he
        cases he
        rw [hlookup] at hlookup'
        cases hlookup'
        obtain ⟨-, hpending | hrevoked | ⟨confirmedAt, routes, hlogged⟩⟩ := hrows row hrow hid rfl
        · rw [hrowState] at hpending
          cases hpending
        · rw [hrowState] at hrevoked
          cases hrevoked
        · have hready := ready_spec (h.quiet hu) hinj
            (path ++ [.called (.confirm peer (hexText pin') confirmedAt routes)])
            (hu.peer.trans hpeer) hrole hpin (by rw [hu.ledger]; exact hrow) hid
            (by rw [hu.generations]; exact hlookup)
            (by
              rw [hu.mode, List.append_assoc]
              exact .inr ⟨hmode, path, pin', confirmedAt, routes, hclaim, rfl⟩)
            (by rw [hu.ledger]; exact hlogged)
          exact hready.mono (fun _ _ ht => ht.1) (fun _ _ ht => ht)
      · exact h.quiet hu
    · exact h.quiet hu

/-- The end of `pollBody`. -/
def pollPeer (b : Backend T A) : Serve T A (List Bytes) := do
  authority b
  let s ← session
  match s.stage, s.peer, b.application with
  | .active, some peer, some app => pollActive b app peer
  | _, _, _ => pure ()
  let ciphertext ← onTls b.tls.drain
  frameAll b ciphertext.length ciphertext

theorem pollBody_spec (h : Inv b l₀ number site) (hinj : Function.Injective b.uuid4) :
    Wp (pollBody b) (fun _ t => Inv b l₀ number t) (fun _ t => Inv b l₀ number t) site := by
  unfold pollBody
  refine Still.monotonic.step (fun tick t ht => ?_) (fun _ _ ht => h.quiet ht)
  rw [wp_bind, wp_session]
  have hdeadline : Still b (change (fun s => { s with frames := (s.frames.checkDeadline tick).2 }) :
      Serve T A Unit) := Still.change fun s => ⟨rfl, rfl, rfl, rfl, rfl, fun _ hp => hp⟩
  refine hdeadline.step (fun _ u hu => ?_) (fun _ _ hu => h.quiet (ht.trans hu))
  have h₁ : Inv b l₀ number u := h.quiet (ht.trans hu)
  refine (Still.lift _).step (fun _ v hv => ?_) (fun _ _ hv => h₁.quiet hv)
  refine Still.checkDeadline.step (fun _ w hw => ?_) (fun _ _ hw => h₁.quiet (hv.trans hw))
  have h₂ : Inv b l₀ number w := h₁.quiet (hv.trans hw)
  rw [wp_bind, wp_session]
  have hlast : ∀ x : Site T A, Inv b l₀ number x →
      Wp (pollPeer b) (fun _ t => Inv b l₀ number t) (fun _ t => Inv b l₀ number t) x := by
    intro x hx
    unfold pollPeer
    have hframes : Still b (do
        let ciphertext ← onTls b.tls.drain
        frameAll b ciphertext.length ciphertext) :=
      (Still.onTls (fun t pin => b.tls.drain_pin t pin)).bind (fun _ => Still.frameAll _ _)
    rw [wp_bind]
    refine (authority_spec hx).mono ?_ (fun _ _ he => by rw [he]; exact hx)
    rintro _ y ⟨rfl, -⟩
    rw [wp_bind, wp_session]
    split
    · exact ((Still.pollActive _ _).bind (fun _ => hframes) y).mono (fun _ _ hq => hx.quiet hq)
        (fun _ _ hq => hx.quiet hq)
    · exact (hframes y).mono (fun _ _ hq => hx.quiet hq) (fun _ _ hq => hx.quiet hq)
  split
  next peer hstage hpeer =>
    rw [wp_bind]
    exact (pollPending_spec h₂ hinj hstage hpeer).mono (fun _ x hx => hlast x hx) (fun _ _ hx => hx)
  · exact h₂
  · exact hlast w h₂

theorem closing_spec (kinds : List ExceptionKind) {x : Serve T A α}
    (h : Wp x (fun _ t => Inv b l₀ number t) (fun _ t => Inv b l₀ number t) site) :
    Wp (closing kinds x) (fun _ t => Inv b l₀ number t) (fun _ t => Inv b l₀ number t) site := by
  unfold Wp closing at *
  cases hx : x site with
  | ok a t =>
    rw [hx] at h
    exact h
  | error e t =>
    rw [hx] at h
    simp only
    by_cases he : e.kind ∈ kinds
    · rw [if_pos he]
      exact h.quiet ⟨rfl, rfl, rfl, rfl, rfl, rfl, rfl, fun _ hp => hp⟩
    · rw [if_neg he]
      exact h

theorem poll_spec (h : Inv b l₀ number site) (hinj : Function.Injective b.uuid4) :
    Wp (poll b) (fun _ t => Inv b l₀ number t) (fun _ t => Inv b l₀ number t) site := by
  unfold poll
  rw [wp_bind, wp_session]
  split
  · exact h
  · exact closing_spec _ (pollBody_spec h hinj)

theorem receive_spec (h : Inv b l₀ number site) (hinj : Function.Injective b.uuid4) (raw : Bytes) :
    Wp (receive b raw) (fun _ t => Inv b l₀ number t) (fun _ t => Inv b l₀ number t) site := by
  unfold receive
  rw [wp_bind, wp_session]
  split
  · exact h
  refine closing_spec _ ?_
  unfold receiveBody
  refine Still.checkDeadline.step (fun _ t ht => ?_) (fun _ _ ht => h.quiet ht)
  have h₁ : Inv b l₀ number t := h.quiet ht
  rw [wp_bind]
  refine (authority_spec h₁).mono ?_ (fun _ _ he => by rw [he]; exact h₁)
  rintro _ u ⟨rfl, hcurrent⟩
  have hread : Still b (do
      let tick ← monotonic b
      let s ← session
      change (fun s => { s with frames := (s.frames.accept b.limits raw tick).2 })
      let ciphertext ← lift ((s.frames.accept b.limits raw tick).1.mapError .frame)
      onTls (fun t => b.tls.feed t ciphertext)) := by
    refine Still.monotonic.bind (fun tick => Still.session.bind (fun s => ?_))
    refine Still.bind (Still.change fun s => ?_) (fun _ => (Still.lift _).bind (fun ciphertext => ?_))
    · exact ⟨rfl, rfl, rfl, rfl, rfl, fun _ hp => hp⟩
    · exact Still.onTls (fun t pin => b.tls.feed_pin t ciphertext pin)
  have hpump : ∀ v : Site T A, Quiet b u v →
      Wp (do
        let s ← session
        pump b (b.tls.unread s.tls + 1)
        poll b) (fun _ t => Inv b l₀ number t) (fun _ t => Inv b l₀ number t) v := by
    intro v hv
    rw [wp_bind, wp_session, wp_bind]
    exact (pump_spec hinj _ (h₁.quiet hv) (hcurrent.quiet hv)).mono
      (fun _ w hw => poll_spec hw hinj) (fun _ _ hw => hw)
  have hwhole := hread.step (fun _ v hv => hpump v hv) (fun _ _ hv => h₁.quiet hv)
  simpa only [bind_assoc] using hwhole

end Serve

end Serving

/-! Every run of the backend. -/
namespace World

variable {T A : Type} {b : Backend T A}

variable (b) in
/-- The ledger is sound and every session of the world agrees with it. -/
structure Sound (w : World T A) : Prop where
  ledger : w.ledger.Sound b
  own : ∀ (number : ℕ) (s : Session T), w.sessions[number]? = some s → Own b w.ledger number s

theorem Sound.advance {w : World T A} (h : w.Sound b) (hinj : Function.Injective b.uuid4) {l : Ledger}
    (hl : Advance b w.ledger l) : World.Sound b { w with ledger := l } :=
  ⟨hl.sound h.ledger, fun number s hs => hl.own h.ledger hinj (h.own number s hs)⟩

theorem Sound.calls {w : World T A} (h : w.Sound b) (hinj : Function.Injective b.uuid4) (op : Op) :
    (w.calls b op).Sound b := by
  unfold World.calls
  split
  · exact h.advance hinj (.drawn (Nat.le_succ _))
  next registry hstep =>
    refine h.advance hinj (.called hstep (Nat.le_succ _) ?_)
    rintro row ⟨-, _, _, _, _, hop⟩
    cases op with
    | propose peer pin role expires outbound now created generation =>
      injection hop with _ _ _ _ _ _ _ hgeneration
      exact ⟨w.ledger.drawn, le_rfl, Nat.lt_succ_self _, hgeneration⟩
    | _ => cases hop

theorem lookup_map_some {rows : List Peer} {peer generation : Str}
    (h : (rows.map (fun p => (p.deviceId, p.generation))).lookup peer = some generation) :
    ∃ row ∈ rows, row.deviceId = peer ∧ row.generation = generation := by
  induction rows with
  | nil => cases h
  | cons row rows ih =>
    rcases Serve.lookup_cons_cases h with ⟨rfl, rfl⟩ | hrest
    · exact ⟨row, List.mem_cons_self, rfl, rfl⟩
    · obtain ⟨r, hr, hids⟩ := ih hrest
      exact ⟨r, List.mem_cons_of_mem _ hr, hids⟩

theorem Sound.openSession {w : World T A} (h : w.Sound b) (hinj : Function.Injective b.uuid4)
    (first : Frame) (tls : T) : (w.openSession b first tls).Sound b := by
  unfold World.openSession
  split
  · exact h
  have hnoted := h.advance hinj (.note (e := .opened w.sessions.length first.mode w.ledger.registry)
    trivial)
  refine ⟨hnoted.ledger, fun number s hs => ?_⟩
  rcases Nat.lt_trichotomy number w.sessions.length with hlt | rfl | hgt
  · rw [List.getElem?_append_left hlt] at hs
    exact hnoted.own number s hs
  · rw [List.getElem?_append_right le_rfl, Nat.sub_self] at hs
    simp only [List.getElem?_cons_zero, Option.some.injEq] at hs
    subst hs
    refine ⟨⟨w.ledger.registry, ?_, fun _ peer generation hlookup => lookup_map_some hlookup⟩,
      fun peer generation hlookup => ?_, fun hs => absurd rfl hs, fun hs => (by cases hs),
      fun hs => (by cases hs), fun hs => (by cases hs)⟩
    · exact List.sublist_append_right _ _
    · obtain ⟨row, hrow, -, rfl⟩ := lookup_map_some hlookup
      exact h.ledger.known row hrow
  · rw [List.getElem?_eq_none (by simp only [List.length_append, List.length_singleton]; omega)] at hs
    cases hs

theorem Sound.serve {w : World T A} (h : w.Sound b) {x : Serve T A (List Bytes)}
    (hx : ∀ number site, Inv b w.ledger number site →
      Wp x (fun _ t => Inv b w.ledger number t) (fun _ t => Inv b w.ledger number t) site)
    (number : ℕ) : (w.serve number x).Sound b := by
  unfold World.serve
  split
  · exact h
  next session hsession =>
    have hstart : Inv b w.ledger number
        ⟨w.ledger, w.invitation, w.application, w.readings, number, session⟩ :=
      ⟨rfl, h.ledger, h.own number session hsession, fun _ _ ht => ht⟩
    have hend := hx number _ hstart
    have hkeep : ∀ t : Site T A, Inv b w.ledger number t →
        World.Sound b ⟨t.ledger, t.invitation, t.application, t.readings,
          w.sessions.set number t.session⟩ := by
      intro t ht
      refine ⟨ht.sound, fun j s hs => ?_⟩
      rw [List.getElem?_set] at hs
      split_ifs at hs with he hlt
      · cases hs
        rw [← he]
        exact ht.own
      · exact ht.others j s (h.own j s hs)
    unfold Wp at hend
    simp only
    split at hend
    next heq =>
      rw [heq]
      exact hkeep _ hend
    next heq =>
      rw [heq]
      exact hkeep _ hend

theorem Sound.act {w : World T A} (h : w.Sound b) (hinj : Function.Injective b.uuid4) (a : Act T A) :
    (w.act b a).Sound b := by
  cases a with
  | opens first tls => exact h.openSession hinj first tls
  | receive number raw =>
    exact h.serve (fun number site hsite => Serve.receive_spec hsite hinj raw) number
  | poll number => exact h.serve (fun number site hsite => Serve.poll_spec hsite hinj) number
  | calls op => exact h.calls hinj op
  | invites invitation => exact ⟨h.ledger, h.own⟩
  | works application => exact ⟨h.ledger, h.own⟩

/-- No order of sessions, messages and revocations breaks that, by induction on the acts. -/
theorem sound_run (hinj : Function.Injective b.uuid4) (identity : Str) (application : A)
    (acts : List (Act T A)) : (run b identity application acts).Sound b := by
  induction acts using List.reverseRecOn with
  | nil =>
    refine ⟨⟨⟨List.nodup_nil, List.nodup_nil⟩, fun row hrow => absurd hrow List.not_mem_nil,
      fun before e hprefix => ?_⟩, fun number s hs => ?_⟩
    rotate_left
    · have hnone : ([] : List (Session T))[number]? = none := List.getElem?_nil
      exact absurd (hs.symm.trans hnone) (by simp)
    exact absurd (List.prefix_nil.mp hprefix) (by simp)
  | append_singleton acts a ih =>
    have hrun : run b identity application (acts ++ [a]) =
        (run b identity application acts).act b a := by
      simp only [run, List.foldl_append, List.foldl_cons, List.foldl_nil]
    rw [hrun]
    exact ih.act hinj a

/-- No session outlives the pairing it was opened under. Whenever a record is handed to
the application, its peer is active, has the pin that TLS reports, and has the generation
that it had when the session was opened or its invitation claimed; and a session takes
such records only after it was bound, or claimed its invitation and was confirmed, then
ready, and then acknowledged. -/
theorem sessions_within_pairing (b : Backend T A) (hinj : Function.Injective b.uuid4) (identity : Str)
    (application : A) (acts : List (Act T A)) :
    (∀ before number peer pin record registry,
      before ++ [.handled number peer pin record registry] <+:
        (run b identity application acts).ledger.log →
      ∃ row ∈ registry.peers, row.deviceId = peer ∧ row.state = .active ∧ pin = some row.pin ∧
        ∃ mode, Admitted before number mode peer row.generation) ∧
    ∀ number s, (run b identity application acts).sessions[number]? = some s → s.stage = .active →
      ∃ peer generation, s.peer = some peer ∧
        Admitted (run b identity application acts).ledger.log number s.mode peer generation := by
  have h := sound_run hinj identity application acts
  refine ⟨fun before number peer pin record registry hprefix => ?_, fun number s hs hstage => ?_⟩
  · exact h.ledger.log before _ hprefix
  · obtain ⟨peer, generation, hpeer, -, hadmitted, -⟩ := (h.own number s hs).active hstage
    exact ⟨peer, generation, hpeer, hadmitted⟩

def exampleTls : Tls Bytes where
  feed t data := (.ok (), t ++ data)
  receive t := (.ok (if t.isEmpty then [] else [t]), [])
  send t _ := (.ok (), t)
  drain t := (.ok [], t)
  unread t := t.length
  peerPin _ := some Registry.examplePin
  feed_pin _ _ _ h := h
  receive_pin _ _ h := h
  send_pin _ _ _ h := h
  drain_pin _ _ h := h

def exampleHandler : Application Unit where
  handle _ _ _ := ⟨(), none, none⟩
  pending _ _ _ _ := .ok []

def exampleBackend : Backend Bytes Unit where
  limits := ⟨none, 1000⟩
  tls := exampleTls
  application := some exampleHandler
  sha256 _ := []
  monotonic := fun n => n
  clock := fun n => n
  uuid4 := fun n => List.replicate n 0

theorem exampleBackend_uuid4 : Function.Injective exampleBackend.uuid4 := by
  intro m n h
  simpa [exampleBackend] using congrArg List.length h

/-- What the phone says: it resumes, acknowledges that it is ready, and asks for something. -/
def exampleRecords : List Record :=
  [SessionBinding.record ⟨OrderedFrames.exampleSession, text "resume", Registry.examplePeer,
      text "desk", text "desktop", none, none⟩,
    [(.str (text "type"), .str (text "session.ready_ack")),
      (.str (text "device_id"), .str Registry.examplePeer), (.str (text "trust_revision"), .int 1)],
    [(.str (text "type"), .str (text "thread.list"))]]

def exampleFrame : Frame :=
  ⟨OrderedFrames.exampleSession, text "resume", text "initiator_to_responder", 0,
    exampleRecords.flatMap fun record =>
      (((dumpBytes exampleBackend.limits ⟨false, false⟩ (.dict record)).map fun body =>
        toBytes4 body.length ++ body).toOption).getD []⟩

def exampleActs : List (Act Bytes Unit) :=
  [.calls (.propose Registry.examplePeer Registry.examplePin (text "desktop") 10 false 0 0 []),
    .calls (.confirm Registry.examplePeer (hexText Registry.examplePin) 5 ⟨[], []⟩),
    .opens exampleFrame [],
    .receive 0 (((dumpBytes exampleBackend.limits ⟨true, true⟩ exampleFrame.record).toOption).getD [])]

def Event.handledBy : Event → Option (ℕ × Str)
  | .handled number peer _ _ _ => some (number, peer)
  | _ => none

theorem sessions_within_pairing_example :
    ∃ before pin record registry,
      before ++ [.handled 0 Registry.examplePeer pin record registry] <+:
        (run exampleBackend (text "desk") () exampleActs).ledger.log ∧
      ∃ row ∈ registry.peers, row.deviceId = Registry.examplePeer ∧ row.state = .active ∧
        pin = some row.pin ∧ ∃ mode, Admitted before 0 mode Registry.examplePeer row.generation := by
  have hlast : (run exampleBackend (text "desk") () exampleActs).ledger.log.getLast?.bind Event.handledBy =
      some (0, Registry.examplePeer) := by decide +kernel
  obtain ⟨e, he, hby⟩ := Option.bind_eq_some_iff.mp hlast
  cases e with
  | handled number peer pin record registry =>
    cases hby
    have hprefix := List.dropLast_append_getLast? _ he
    refine ⟨_, pin, record, registry, ⟨[], (List.append_nil _).trans hprefix⟩, ?_⟩
    exact (sessions_within_pairing exampleBackend exampleBackend_uuid4 (text "desk") () exampleActs).1
      _ 0 _ pin record registry ⟨[], (List.append_nil _).trans hprefix⟩
  | _ => cases hby

end World

end Raticode.Device
