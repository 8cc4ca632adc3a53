import Mathlib.Algebra.Order.BigOperators.Group.List
import Raticode.OrganizationLinks

/-! The accounts of an organization against its runs: an account of a month holds what the runs that
were reserved in that month are charged to it. -/
namespace Raticode.Organizations
open PyDocument OrderedDict MarkedList Attempt

/-- What a run adds to an account of a month. -/
def RunRecord.share (month id : Str) (r : RunRecord) : ℤ :=
  if r.reservationMonth = month ∧ id ∈ r.accounts then r.charged else 0

/-- What the runs reserved in a month are charged to an account. -/
def Company.owed (c : Company) (month id : Str) : ℤ :=
  (c.runs.map (fun p => p.2.share month id)).sum

/-- The accounts hold what the runs are charged; a run in `_active` that has not ended is charged what
it has reserved. -/
structure Balanced (c : Company) : Prop where
  keys : c.runs.keys.Nodup
  charged : ∀ p ∈ c.runs, 0 ≤ p.2.charged
  accounts : ∀ month id, (c.account month id).used = c.owed month id
  reserved : ∀ run w, c.active.get run = some w → w.finished = false →
    ∃ r, c.runs.get run = some r ∧ r.reservationMonth = w.month ∧ r.accounts = w.accounts ∧
      r.reservedTurns = w.reserved ∧ r.usedTurns = none

/-- A run that was started is within every limit on turns, with what it has reserved. -/
def Affords (c c' : Company) (run : Str) (w : Worker) : Prop :=
  ∃ e ∈ c.config.employees, w.employeeId = e.id ∧
    (∀ p ∈ policies c.config e w.initiativeId, p.2.monthlyTurnLimit ≠ 0 →
      (c'.account w.month p.1).used ≤ p.2.monthlyTurnLimit) ∧
    ∃ t ∈ c'.tasks, t.claim = some run ∧ t.turns ≤ c.config.caps.maxTaskTurns

section Accounts

variable {m : Moment} {c c' a : Company} {elsewhere : Elsewhere} {run : Str} {fresh : ℕ → Str} {i : ℕ}
  {t : Task} {reserved : ℤ} {rootKey month id : Str} {r r' : RunRecord}

theorem append_ne {u v : Str} (hu : 1 ≤ u.length) (hv : 1 ≤ v.length) (h : u.take 1 ≠ v.take 1)
    (w w' : Str) : u ++ w ≠ v ++ w' := by
  intro heq
  have htake := congrArg (List.take 1) heq
  rw [List.take_append_of_le_length hu, List.take_append_of_le_length hv] at htake
  exact h htake

theorem RunRecord.nodup_accounts (r : RunRecord) : r.accounts.Nodup := by
  have hemployee : companyAccount ≠ employeeAccount r.employeeId := by
    have hne := append_ne (u := companyAccount) (v := text "employee:") (by decide) (by decide) (by decide) []
    rw [List.append_nil] at hne
    exact hne r.employeeId
  have hinitiative : companyAccount ≠ initiativeAccount r.initiativeId := by
    have hne := append_ne (u := companyAccount) (v := text "initiative:") (by decide) (by decide) (by decide) []
    rw [List.append_nil] at hne
    exact hne _
  have hother : employeeAccount r.employeeId ≠ initiativeAccount r.initiativeId :=
    append_ne (by decide) (by decide) (by decide) _ _
  simp [RunRecord.accounts, hemployee, hinitiative, hother]

theorem account_eq (h : c'.usage = c.usage) (month id : Str) : c'.account month id = c.account month id := by
  rw [Company.account, Company.account, h]

theorem get_charged (f : Account → Account) {ids : List Str} (hn : ids.Nodup) (d : Accounts) :
    Dict.get (ids.foldl (fun a id => Dict.set a id (f ((Dict.get a id).getD {}))) d) id =
      if id ∈ ids then some (f ((d.get id).getD {})) else d.get id := by
  induction ids generalizing d with
  | nil => rfl
  | cons k ids ih =>
    obtain ⟨hk, hrest⟩ := List.nodup_cons.mp hn
    rw [List.foldl_cons, ih hrest, Dict.get_set]
    by_cases hid : k = id
    · subst hid
      simp [hk]
    · have hne : id ≠ k := fun h => hid h.symm
      simp [hid, hne]

theorem account_charge (c : Company) (f : Account → Account) {ids : List Str} (hn : ids.Nodup)
    (month month' id : Str) : (c.charge month ids f).account month' id =
      if month = month' ∧ id ∈ ids then f (c.account month' id) else c.account month' id := by
  simp only [Company.account, Company.charge, Dict.get_set]
  by_cases hm : month = month'
  · subst hm
    rw [if_pos rfl, Option.getD_some, get_charged f hn]
    by_cases hid : id ∈ ids
    · rw [if_pos hid, if_pos ⟨rfl, hid⟩, Option.getD_some]
    · rw [if_neg hid, if_neg (fun h => hid h.2)]
  · rw [if_neg hm, if_neg (fun h => hm h.1)]

theorem share_nonneg (h : 0 ≤ r.charged) (month id : Str) : 0 ≤ r.share month id := by
  rw [RunRecord.share]
  split_ifs
  · exact h
  · exact le_rfl

/-- What the record of a run adds to an account, where there is one. -/
def Company.shareOf (c : Company) (run month id : Str) : ℤ :=
  ((c.runs.get run).map (RunRecord.share month id)).getD 0

theorem owed_set (hb : Balanced c) (run : Str) (r : RunRecord) (month id : Str) :
    ((c.runs.set run r).map (fun p => p.2.share month id)).sum =
      c.owed month id - c.shareOf run month id + r.share month id ∧
    c.shareOf run month id ≤ c.owed month id := by
  set share := fun p : Str × RunRecord => p.2.share month id with hshare
  have hsum (s : RunRecord) : ((c.runs.set run s).map share).sum =
      ((c.runs.erase run).map share).sum + s.share month id := Dict.sum_set hb.keys share run s
  have hrest (d : Dict Str RunRecord) (hd : ∀ p ∈ d, p ∈ c.runs) : 0 ≤ (d.map share).sum := by
    apply List.sum_nonneg
    intro x hx
    obtain ⟨p, hp, rfl⟩ := List.mem_map.mp hx
    exact share_nonneg (hb.charged p (hd p hp)) month id
  cases hr : c.runs.get run with
  | none =>
    have hbefore := hrest c.runs (fun _ hp => hp)
    rw [Company.shareOf, hr, Dict.set_of_none hr, List.map_append, List.sum_append]
    simp only [Option.map_none, Option.getD_none, List.map_cons, List.map_nil, List.sum_singleton]
    exact ⟨by rw [Company.owed, sub_zero], hbefore⟩
  | some old =>
    have hbefore := hsum old
    rw [Dict.set_of_get hr] at hbefore
    have hothers := hrest (c.runs.erase run) (fun _ hp => List.mem_of_mem_filter hp)
    rw [hsum r, Company.shareOf, hr, Option.map_some, Option.getD_some, Company.owed, hbefore]
    constructor
    · omega
    · omega

/-- The record of a run is written, and its accounts take over what changes for them. -/
theorem Balanced.charge (hb : Balanced c) (run : Str) (r : RunRecord) (f : Account → Account)
    (hruns : c'.runs = c.runs.set run r)
    (husage : c'.usage = (c.charge r.reservationMonth r.accounts f).usage) (hr : 0 ≤ r.charged)
    (hold : ∀ old, c.runs.get run = some old →
      old.reservationMonth = r.reservationMonth ∧ old.accounts = r.accounts)
    (hf : ∀ b : Account, ((c.runs.get run).map RunRecord.charged).getD 0 ≤ b.used →
      (f b).used = b.used - ((c.runs.get run).map RunRecord.charged).getD 0 + r.charged)
    (hreserved : ∀ run w, c'.active.get run = some w → w.finished = false →
      ∃ r, c'.runs.get run = some r ∧ r.reservationMonth = w.month ∧ r.accounts = w.accounts ∧
        r.reservedTurns = w.reserved ∧ r.usedTurns = none) : Balanced c' := by
  refine ⟨?_, ?_, ?_, hreserved⟩
  · rw [hruns]
    exact Dict.nodup_keys_set hb.keys run r
  · intro p hp
    rw [hruns] at hp
    rcases Dict.mem_set hp with hp | rfl
    · exact hb.charged p hp
    · exact hr
  · intro month id
    obtain ⟨hsum, hle⟩ := owed_set hb run r month id
    rw [Company.owed, hruns, hsum, account_eq husage,
      account_charge c f r.nodup_accounts, ← hb.accounts]
    rw [← hb.accounts] at hle
    have hshare : c.shareOf run month id =
        if r.reservationMonth = month ∧ id ∈ r.accounts then
          ((c.runs.get run).map RunRecord.charged).getD 0 else 0 := by
      rw [Company.shareOf]
      cases hget : c.runs.get run with
      | none => simp
      | some old =>
        obtain ⟨hmonth, haccounts⟩ := hold old hget
        rw [Option.map_some, Option.getD_some, RunRecord.share, hmonth, haccounts]
        rfl
    by_cases hsame : r.reservationMonth = month ∧ id ∈ r.accounts
    · rw [if_pos hsame] at hshare
      rw [if_pos hsame, hf _ (hshare ▸ hle), hshare, RunRecord.share, if_pos hsame]
    · rw [if_neg hsame] at hshare
      rw [if_neg hsame, hshare, RunRecord.share, if_neg hsame, sub_zero, add_zero]

theorem Unbilled.balanced (h : Unbilled c c') (hn : c.active.keys.Nodup) (hb : Balanced c) :
    Balanced c' := by
  have hkeys : c'.runs.keys = c.runs.keys := by
    have hmap := congrArg (List.map Prod.fst) h.runs
    rw [List.map_map, List.map_map] at hmap
    exact hmap
  have hrecord : ∀ run r', c'.runs.get run = some r' →
      ∃ r, c.runs.get run = some r ∧ r.bill = r'.bill := by
    intro run r' hr'
    have hget := Dict.get_map RunRecord.bill c'.runs run
    rw [h.runs, Dict.get_map, hr', Option.map_some] at hget
    exact Option.map_eq_some_iff.mp hget
  have hrecord' : ∀ run r, c.runs.get run = some r →
      ∃ r', c'.runs.get run = some r' ∧ r'.bill = r.bill := by
    intro run r hr
    have hget := Dict.get_map RunRecord.bill c.runs run
    rw [← h.runs, Dict.get_map, hr, Option.map_some] at hget
    exact Option.map_eq_some_iff.mp hget
  have hn' : c'.runs.keys.Nodup := hkeys ▸ hb.keys
  constructor
  · exact hn'
  · rintro ⟨run, r'⟩ hp
    obtain ⟨r, hr, hbill⟩ := hrecord run r' (Dict.get_of_mem hn' hp)
    have hsame : r'.charged = r.charged := (congrArg RunRecord.charged hbill).symm
    rw [hsame]
    exact hb.charged _ (Dict.mem_of_get hr)
  · intro month id
    have howed : c'.owed month id = c.owed month id := by
      have hmap := congrArg (fun d => (List.map (fun p => p.2.share month id) d).sum) h.runs
      simp only [List.map_map] at hmap
      exact hmap
    rw [howed, ← hb.accounts, account_eq h.usage]
  · intro run w' hw' hopen
    obtain ⟨w, hw, hpost, -, hfinished⟩ := h.thins.get hn hw'
    have hopen' : w.finished = false := by
      cases hf : w.finished with
      | false => rfl
      | true => exact absurd (hfinished hf) (by simp [hopen])
    obtain ⟨r, hr, hmonth, haccounts, hreserved, hused⟩ := hb.reserved run w hw hopen'
    obtain ⟨r', hr', hbill⟩ := hrecord' run r hr
    have hmonth' : w.post.month = w'.post.month := congrArg Worker.month hpost
    have haccounts' : w.post.accounts = w'.post.accounts := congrArg Worker.accounts hpost
    have hreserved' : w.post.reserved = w'.post.reserved := congrArg Worker.reserved hpost
    refine ⟨r', hr', ?_, ?_, ?_, ?_⟩
    · have heq : r'.bill.reservationMonth = r.bill.reservationMonth := congrArg _ hbill
      exact heq.trans (hmonth.trans hmonth')
    · have heq : r'.bill.accounts = r.bill.accounts := congrArg _ hbill
      exact heq.trans (haccounts.trans haccounts')
    · have heq : r'.bill.reservedTurns = r.bill.reservedTurns := congrArg _ hbill
      exact heq.trans (hreserved.trans hreserved')
    · have heq : r'.bill.usedTurns = r.bill.usedTurns := congrArg _ hbill
      exact heq.trans hused

theorem reservation_nonneg {config : OrganizationConfig} (h : reservation config t = .ok reserved) :
    0 ≤ reserved := by
  unfold reservation at h
  split at h
  · cases h
    decide
  · split_ifs at h
    · cases h
      decide
    · split at h
      · split_ifs at h with hn
        cases h
        simp only [Bool.and_eq_true, decide_eq_true_eq] at hn
        omega
      · contradiction
    · cases hx : targetFor config t with
      | error e =>
        rw [hx] at h
        contradiction
      | ok x =>
        rw [hx] at h
        cases h
        exact Int.natCast_nonneg _

theorem account_start (a : Company) (month id : Str) :
    (a.startRun m i run reserved rootKey t).account month id =
      if m.month m.now = month ∧ id ∈ (a.chosen m reserved rootKey t).accounts then
        { a.account month id with turns := some ((a.account month id).used + reserved) }
      else a.account month id := by
  let r : RunRecord := {
    employeeId := t.assignee.getD []
    initiativeId := t.project
    reservedTurns := reserved
    reservationMonth := m.month m.now }
  have hcharged := account_charge a (fun b => { b with turns := some (b.used + reserved) })
    r.nodup_accounts (m.month m.now) month id
  exact (account_eq rfl month id).trans hcharged

theorem balanced_start (hb : Balanced a) (hv : a.verdict m elsewhere t = .start reserved rootKey)
    (hrun : a.runs.get run = none) : Balanced (a.startRun m i run reserved rootKey t) := by
  obtain ⟨e, he⟩ := startable_of_verdict hv
  refine hb.charge run _ (fun b => { b with turns := some (b.used + reserved) }) rfl rfl
    (reservation_nonneg he.reservation) ?_ ?_ ?_
  · intro old hold
    rw [hrun] at hold
    contradiction
  · intro b _
    rw [hrun]
    change b.used + reserved = b.used - 0 + reserved
    rw [sub_zero]
  · intro run' w hw hopen
    change ∃ r, Dict.get (a.runs.set run _) run' = some r ∧ _
    rw [Dict.get_set]
    rw [Company.startRun, Dict.get_set] at hw
    by_cases heq : run = run'
    · rw [if_pos heq] at hw ⊢
      cases hw
      exact ⟨_, rfl, rfl, rfl, rfl, rfl⟩
    · rw [if_neg heq] at hw ⊢
      exact hb.reserved run' w hw hopen

theorem balanced_finish (hb : Balanced c) (m : Moment) (run : Str) (x : Ending) :
    Balanced (c.finish m run x) := by
  unfold Company.finish
  cases hw : c.active.get run with
  | none => exact hb
  | some w =>
    simp only
    split_ifs with hstop
    · exact hb
    simp only [Bool.or_eq_true, not_or, Bool.not_eq_true] at hstop
    obtain ⟨r, hr, hmonth, haccounts, hreserved, hused⟩ := hb.reserved run w hw hstop.1.2
    have hcharged : r.charged = w.reserved := by
      rw [RunRecord.charged, hused, hreserved]
      rfl
    have hnonneg : 0 ≤ w.reserved := hcharged ▸ hb.charged _ (Dict.mem_of_get hr)
    have hlow : 0 ≤ w.used x := le_min hnonneg (le_max_left _ _)
    have hhigh : w.used x ≤ w.reserved := min_le_left _ _
    have hrecord : Company.record (c.charge w.month w.accounts (w.settleAccount x)) run (w.recordEnd x) =
        { c.charge w.month w.accounts (w.settleAccount x) with
          runs := c.runs.set run (w.recordEnd x r) } := by
      have hget : (c.charge w.month w.accounts (w.settleAccount x)).runs.get run = some r := hr
      rw [Company.record, hget]
      rfl
    rw [hrecord]
    refine hb.charge run (w.recordEnd x r) (w.settleAccount x) rfl ?_ hlow ?_ ?_ ?_
    · change (c.charge w.month w.accounts (w.settleAccount x)).usage = _
      rw [← hmonth, ← haccounts]
      rfl
    · intro old hold
      obtain rfl := Option.some.inj (hold.symm.trans hr)
      exact ⟨rfl, rfl⟩
    · intro b hb'
      rw [hr, Option.map_some, Option.getD_some, hcharged] at hb' ⊢
      change max 0 (b.turns.getD w.reserved - (w.reserved - w.used x)) = b.used - w.reserved + w.used x
      rw [Account.used] at hb' ⊢
      cases hturns : b.turns with
      | none =>
        rw [hturns, Option.getD_none] at hb'
        simp only [Option.getD_none]
        omega
      | some n =>
        rw [hturns, Option.getD_some] at hb'
        simp only [Option.getD_some]
        omega
    · intro run' w' hw' hopen
      change Dict.get (c.active.set run { w with finished := true }) run' = some w' at hw'
      change ∃ r, Dict.get (c.runs.set run _) run' = some r ∧ _
      rw [Dict.get_set] at hw' ⊢
      by_cases heq : run = run'
      · rw [if_pos heq] at hw'
        cases hw'
        contradiction
      · rw [if_neg heq] at hw' ⊢
        exact hb.reserved run' w' hw' hopen

theorem balanced_reconcile (hb : Balanced c) (run : Str) (x : Settlement) :
    Balanced (c.reconcile run x) := by
  unfold Company.reconcile
  cases hr : c.runs.get run with
  | none => exact hb
  | some r =>
    cases hattempt : c.org.attempts.get run with
    | none => exact hb
    | some taskId =>
      simp only
      split_ifs with hstop hsettled
      · exact hb
      · exact hb
      cases c.org.find taskId with
      | none => exact hb
      | some found =>
        simp only [Bool.or_eq_true, not_or, Bool.not_eq_true, Option.isSome_eq_false_iff,
          Option.isNone_iff_eq_none] at hstop
        have hcharged : 0 ≤ r.charged := hb.charged _ (Dict.mem_of_get hr)
        have hlow : 0 ≤ Company.settledTurns r x := by
          unfold Company.settledTurns
          split
          · split_ifs with hn
            · simp only [Bool.and_eq_true, decide_eq_true_eq] at hn
              exact hn.1
            · exact hcharged
          · exact hcharged
        refine hb.charge run _ (Company.settledAccount r x) rfl rfl hlow ?_ ?_ ?_
        · intro old hold
          obtain rfl := Option.some.inj (hold.symm.trans hr)
          exact ⟨rfl, rfl⟩
        · intro b hb'
          rw [hr, Option.map_some, Option.getD_some] at hb' ⊢
          change max 0 (b.used + Company.settledTurns r x - r.charged) = b.used - r.charged + Company.settledTurns r x
          omega
        · intro run' w hw hopen
          have hne : ¬run = run' := by
            intro heq
            subst heq
            rw [show Dict.get c.active run = some w from hw] at hstop
            exact absurd hstop.2 (by simp)
          change ∃ r, Dict.get (c.runs.set run _) run' = some r ∧ _
          rw [Dict.get_set, if_neg hne]
          exact hb.reserved run' w hw hopen

theorem Starts.balanced (hs : Starts m elsewhere run fresh c a i t reserved rootKey)
    (hn : c.active.keys.Nodup) (hb : Balanced c) :
    Balanced a ∧ Balanced (a.startRun m i run reserved rootKey t) := by
  have hbefore : Balanced a := hs.books.unbilled.balanced hn hb
  refine ⟨hbefore, balanced_start hbefore hs.verdict ?_⟩
  have hbill := Dict.get_map RunRecord.bill a.runs run
  rw [hs.books.runs, Dict.get_map, hs.unrecorded] at hbill
  exact Option.map_eq_none_iff.mp hbill.symm

theorem act_balanced (c : Company) (step : Moment × Event) (h : Linked c ∧ Balanced c) :
    Linked (c.act step) ∧ Balanced (c.act step) := by
  obtain ⟨hlinked, hb⟩ := h
  refine ⟨act_linked c step hlinked, ?_⟩
  obtain ⟨m, event⟩ := step
  cases event with
  | dispatch elsewhere run fresh =>
    rcases schedule_cases m c elsewhere run fresh with
      ⟨n, hmoves⟩ | ⟨a, i, t, reserved, rootKey, hstarts, heq⟩
    · exact hmoves.books.unbilled.balanced hlinked.keys hb
    · change Balanced (c.schedule m elsewhere run fresh)
      rw [heq]
      exact (hstarts.balanced hlinked.keys hb).2
  | finish run x => exact balanced_finish hb m run x
  | reconcile run x => exact balanced_reconcile hb run x
  | _ =>
    refine (act_unbilled ?_ ?_ ?_).balanced hlinked.keys hb
    · exact fun _ _ _ h => by cases h
    · exact fun _ _ h => by cases h
    · exact fun _ _ h => by cases h

theorem found_balanced {config : OrganizationConfig} {package : List PackageTask}
    (hfound : found m config package = .ok c) : Balanced c := by
  obtain ⟨-, hc, -⟩ := found_cases hfound
  rw [hc]
  refine ⟨List.nodup_nil, ?_, fun _ _ => rfl, ?_⟩
  · intro p hp
    exact absurd hp List.not_mem_nil
  · intro run w hw
    contradiction

theorem affords_of_start (hlinked : Linked c) {w : Worker} (hw : c.active.get run = none)
    (hw' : (c.schedule m elsewhere run fresh).active.get run = some w) :
    Affords c (c.schedule m elsewhere run fresh) run w := by
  rcases schedule_cases m c elsewhere run fresh with
    ⟨n, hmoves⟩ | ⟨a, i, t, reserved, rootKey, hstarts, heq⟩
  · obtain ⟨w₀, hw₀, -⟩ := hmoves.books.unbilled.thins.get hlinked.keys hw'
    rw [hw] at hw₀
    contradiction
  · rw [heq] at hw' ⊢
    rw [Company.startRun, Dict.get_set_self] at hw'
    cases hw'
    obtain ⟨e, he⟩ := startable_of_verdict hstarts.verdict
    have hconfig : a.config = c.config := hstarts.books.config
    have hassignee : t.assignee = some e.id := by simpa using List.find?_some he.employee
    refine ⟨e, ?_, ?_, ?_, ?_⟩
    · rw [← hconfig]
      exact List.mem_of_mem_filter (List.mem_of_find?_eq_some he.employee)
    · change t.assignee.getD [] = e.id
      rw [hassignee, Option.getD_some]
    · intro p hp hlimit
      have hreserved := reservation_nonneg he.reservation
      have hroom := he.limits p (hconfig ▸ hp)
      simp only [exceeds, Bool.and_eq_false_iff, decide_eq_false_iff_not, not_not, not_lt] at hroom
      have hafter : ∃ b, ((a.startRun m i run reserved rootKey t).account (m.month m.now) p.1).used = b ∧
          (b = (a.account (m.month m.now) p.1).used + reserved ∨
            b = (a.account (m.month m.now) p.1).used) := by
        refine ⟨_, rfl, ?_⟩
        rw [account_start]
        split_ifs
        · exact .inl rfl
        · exact .inr rfl
      obtain ⟨b, hb, hcases⟩ := hafter
      change ((a.startRun m i run reserved rootKey t).account (m.month m.now) p.1).used ≤ _
      rw [hb]
      omega
    · obtain ⟨hlt, -⟩ := List.getElem?_eq_some_iff.mp hstarts.task
      refine ⟨claimTask run reserved t, List.mem_of_getElem? (List.getElem?_set_self hlt), rfl, ?_⟩
      rw [← hconfig]
      exact he.allowance

end Accounts

/-- In every month each account holds what the runs reserved in that month are charged to it: what they
have used, or what they have reserved until they end. No run that is started takes an account above
the limit in force, or its task above the limit of a task. -/
theorem accounts_exact {m₀ : Moment} {config : OrganizationConfig} {package : List PackageTask}
    {c : Company} (hfound : found m₀ config package = .ok c) (steps : List (Moment × Event)) :
    (∀ month id, ((c.run steps).account month id).used = (c.run steps).owed month id) ∧
      ∀ m elsewhere run fresh w, (c.run steps).active.get run = none →
        ((c.run steps).schedule m elsewhere run fresh).active.get run = some w →
          Affords (c.run steps) ((c.run steps).schedule m elsewhere run fresh) run w := by
  obtain ⟨hlinked, hb⟩ := run_invariant act_balanced ⟨found_linked hfound, found_balanced hfound⟩ steps
  exact ⟨hb.accounts, fun _ _ _ _ _ hw hw' => affords_of_start hlinked hw hw'⟩

/-! Ann may have one run a month, and has it. -/

def frugalConfig : OrganizationConfig where
  employees := [{ id := text "ann", name := text "Ann", limits := { monthlyTurnLimit := 1 } }]
  projectRoots := [text "/srv/archive"]

def frugalCompany : Company := { world := { org := { config := frugalConfig, running := false } } }

def frugalSteps : List (Moment × Event) :=
  [(plainMoment 1, .create { actor := .user } (text "one")
      { id := [], title := text "Move the archive", assignee := some (text "ann") }),
    (plainMoment 2, .control true)]

theorem accounts_exact_frugal :
    ∃ w, Affords (frugalCompany.run frugalSteps)
        ((frugalCompany.run frugalSteps).schedule (plainMoment 3) {} (text "run") (fun _ => [])) (text "run") w ∧
      ((frugalCompany.run frugalSteps).account (text "2026-01") companyAccount).used =
        (frugalCompany.run frugalSteps).owed (text "2026-01") companyAccount := by
  have hfound : found (plainMoment 0) frugalConfig [] = .ok frugalCompany := rfl
  have hstarted : (((frugalCompany.run frugalSteps).schedule (plainMoment 3) {} (text "run")
      (fun _ => [])).active.get (text "run")).isSome := by decide +kernel
  obtain ⟨w, hw⟩ := Option.isSome_iff_exists.mp hstarted
  exact ⟨w, (accounts_exact hfound frugalSteps).2 _ _ _ _ w (by decide +kernel) hw,
    (accounts_exact hfound frugalSteps).1 _ _⟩

end Raticode.Organizations
