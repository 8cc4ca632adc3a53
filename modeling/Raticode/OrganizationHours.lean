import Mathlib.Data.Int.LeastGreatest
import Mathlib.Data.List.Dedup
import Mathlib.Data.List.Sort
import Raticode.OrganizationCompany

/-! `organization_hours`: when the workers of an organization may work. The hours are weekly windows
in one time zone; they are read at an instant, so that nothing is stored for a zone's changes. -/
namespace Raticode.Organizations
open PyDocument

/-! Instants and wall times count microseconds, the resolution of a `datetime`. -/
def minuteLength : ℤ := 60000000

def dayLength : ℤ := 1440 * minuteLength

def weekLength : ℤ := 7 * dayLength

/-- A time zone: how far its wall time is ahead of UTC at an instant, and how far `utcoffset`
takes a wall time to be ahead. A wall time that is shown twice is taken for its first showing
(`fold=0`), and nothing is said of one that is skipped. -/
structure Zone where
  offset : ℤ → ℤ
  utcoffset : ℤ → ℤ
  first : ∀ t, t + offset t - utcoffset (t + offset t) ≤ t ∧
    t + offset t - utcoffset (t + offset t) +
      offset (t + offset t - utcoffset (t + offset t)) = t + offset t

namespace Zone

def wall (z : Zone) (t : ℤ) : ℤ := t + z.offset t

def toUtc (z : Zone) (wall : ℤ) : ℤ := wall - z.utcoffset wall

def StepsSeldom (z : Zone) : Prop :=
  ∀ s, z.offset s ≠ z.offset (s - 1) → |z.offset s - z.offset (s - 1)| < dayLength ∧
    ∀ r, s < r → z.offset r ≠ z.offset (r - 1) → s + weekLength ≤ r

end Zone

/-- An aware `datetime`: its wall time, and the name of its `ZoneInfo`, if it is not plain UTC. -/
structure Aware where
  zone : Option Str
  wall : ℤ

def instant (t : ℤ) : Aware := ⟨none, t⟩

def clockOf (wall : ℤ) : ℕ × ℕ :=
  (((wall / dayLength + 3) % 7).toNat, (wall % dayLength / minuteLength).toNat)

def Zone.clock (z : Zone) (t : ℤ) : ℕ × ℕ := clockOf (z.wall t)

def HoursWindow.admits (w : HoursWindow) (clock : ℕ × ℕ) : Bool :=
  if w.start < w.stop then
    w.days.contains clock.1 && decide (w.start ≤ clock.2) && decide (clock.2 < w.stop)
  -- Overnight: from the start on a listed day until the end of the next morning.
  else (w.days.contains clock.1 && decide (w.start ≤ clock.2)) ||
    (w.days.contains ((clock.1 + 6) % 7) && decide (clock.2 < w.stop))

def OperatingHours.admits (hours : OperatingHours) (clock : ℕ × ℕ) : Bool :=
  hours.windows.any (·.admits clock)

/-- What `HoursWindow` checks. -/
structure HoursWindow.Valid (w : HoursWindow) : Prop where
  days_ne : w.days ≠ []
  sorted : w.days.Pairwise (· < ·)
  day_le : ∀ day ∈ w.days, day ≤ 6
  start_lt : w.start < 1440
  stop_lt : w.stop < 1440
  differ : w.start ≠ w.stop

/-- What `OperatingHours` checks. -/
structure OperatingHours.Valid (hours : OperatingHours) : Prop where
  size : hours.windows.length ≤ 28
  windows : ∀ w ∈ hours.windows, w.Valid
  scheduled : hours.mode = .scheduled → hours.windows ≠ []

section Reading

variable (zones : Str → Zone)

/-- `at.astimezone(ZoneInfo(name))`, which leaves a time of the same zone as it is. -/
def astimezone (at' : Aware) (name : Str) : ℤ :=
  match at'.zone with
  | none => (zones name).wall at'.wall
  | some zone =>
    if zone = name then at'.wall else (zones name).wall ((zones zone).toUtc at'.wall)

/-- `is_open`. -/
def isOpenAt (hours : Option OperatingHours) (at' : Aware) : Bool :=
  match hours with
  | none => true
  | some hours =>
    hours.mode = .always || hours.admits (clockOf (astimezone zones at' hours.timezone))

/-- `datetime(2026, 1, 5)`, a Monday. -/
def monday : ℤ := 20458 * dayLength

def momentOf (name : Str) (step : ℕ) : Aware := ⟨some name, monday + step * minuteLength⟩

def widens (before after : Option OperatingHours) : Bool :=
  match after with
  | none => before.any (·.mode ≠ .always)
  | some new =>
    if new.mode = .always then before.any (·.mode ≠ .always)
    else
      match before with
      | none => false
      | some old =>
        if old.mode = .always then false
        else if new.finishes && !old.finishes then true
        else
          (List.range (7 * 24 * 60)).any (fun step =>
            isOpenAt zones (some new) (momentOf new.timezone step) &&
              !isOpenAt zones (some old) (momentOf new.timezone step))

def beside (old new : Str) (clock : ℕ × ℕ) : ℕ × ℕ :=
  clockOf (astimezone zones (momentOf new (clock.1 * 1440 + clock.2)) old)

/-- At a minute of the week that is compared the new hours are open and the old ones closed. -/
def ShowsInWeek (before after : OperatingHours) : Prop :=
  ∃ step < 7 * 24 * 60, isOpenAt zones (some after) (momentOf after.timezone step) = true ∧
    isOpenAt zones (some before) (momentOf after.timezone step) = false

/-- While the new hours are open, the old hours are what they are in the compared week when the
clock of the new zone shows the same. -/
def LikeInWeek (before after : OperatingHours) : Prop :=
  ∀ t, after.admits ((zones after.timezone).clock t) = true →
    before.admits ((zones before.timezone).clock t) =
      before.admits (beside zones before.timezone after.timezone ((zones after.timezone).clock t))

def Accepted (name : Str) (setting : Option OperatingHours) : Prop :=
  ∀ hours ∈ setting, hours.Valid ∧ hours.timezone = name

def Covered (before after : Option OperatingHours) : Prop :=
  ∀ t, isOpenAt zones after (instant t) = true → isOpenAt zones before (instant t) = true

end Reading

/-! Clocks. -/
section Clocks

def IsClock (clock : ℕ × ℕ) : Prop := clock.1 < 7 ∧ clock.2 < 1440

theorem isClock_clockOf (wall : ℤ) : IsClock (clockOf wall) := by
  simp only [IsClock, clockOf, dayLength, minuteLength]
  omega

theorem clockOf_monday {clock : ℕ × ℕ} (h : IsClock clock) :
    clockOf (monday + (clock.1 * 1440 + clock.2 : ℕ) * minuteLength) = clock := by
  obtain ⟨hday, hminute⟩ := h
  apply Prod.ext
  · simp only [clockOf, monday, dayLength, minuteLength]
    omega
  · simp only [clockOf, monday, dayLength, minuteLength]
    omega

def onlyAt (clock : ℕ × ℕ) : HoursWindow := ⟨[clock.1], clock.2, (clock.2 + 1) % 1440⟩

theorem valid_onlyAt {clock : ℕ × ℕ} (h : IsClock clock) : (onlyAt clock).Valid where
  days_ne := by simp [onlyAt]
  sorted := by simp [onlyAt]
  day_le := by
    have hday := h.1
    simp only [onlyAt, List.mem_singleton, forall_eq]
    omega
  start_lt := h.2
  stop_lt := Nat.mod_lt _ (by omega)
  differ := by
    have hminute := h.2
    simp only [onlyAt]
    omega

theorem admits_onlyAt {clock other : ℕ × ℕ} (hclock : IsClock clock) (hother : IsClock other) :
    (onlyAt clock).admits other = true ↔ other = clock := by
  obtain ⟨hday, hminute⟩ := hclock
  obtain ⟨hday', hminute'⟩ := hother
  rw [Prod.ext_iff]
  by_cases hlast : clock.2 = 1439
  · -- The last minute of a day is a window that ends at midnight.
    have hnight : ¬ clock.2 < (clock.2 + 1) % 1440 := by omega
    have hend : (clock.2 + 1) % 1440 = 0 := by omega
    rw [HoursWindow.admits, onlyAt, if_neg hnight, hend]
    simp only [List.contains_eq_mem, List.mem_singleton, Bool.or_eq_true, Bool.and_eq_true,
      decide_eq_true_eq]
    omega
  · have hwithin : clock.2 < (clock.2 + 1) % 1440 := by omega
    rw [HoursWindow.admits, onlyAt, if_pos hwithin]
    simp only [List.contains_eq_mem, List.mem_singleton, Bool.and_eq_true, decide_eq_true_eq]
    omega

end Clocks

/-! What is compared, and what is missed. -/
section Widening

variable {zones : Str → Zone} {old new : Str}

def minuteHours (name : Str) (clock : ℕ × ℕ) : OperatingHours :=
  { mode := .scheduled, timezone := name, windows := [onlyAt clock] }

theorem accepted_minuteHours (name : Str) {clock : ℕ × ℕ} (h : IsClock clock) :
    Accepted name (some (minuteHours name clock)) := by
  intro hours hhours
  cases hhours
  refine ⟨⟨by simp [minuteHours], ?_, by simp [minuteHours]⟩, rfl⟩
  intro w hw
  rw [List.mem_singleton.mp hw]
  exact valid_onlyAt h

theorem isOpenAt_minuteHours {name : Str} {clock : ℕ × ℕ} (h : IsClock clock) (at' : Aware) :
    isOpenAt zones (some (minuteHours name clock)) at' = true ↔
      clockOf (astimezone zones at' name) = clock := by
  have hread : isOpenAt zones (some (minuteHours name clock)) at' =
      (onlyAt clock).admits (clockOf (astimezone zones at' name)) := by
    simp [isOpenAt, minuteHours, OperatingHours.admits]
  rw [hread]
  exact admits_onlyAt h (isClock_clockOf _)

theorem astimezone_momentOf (name : Str) (step : ℕ) :
    astimezone zones (momentOf name step) name = monday + step * minuteLength := by
  simp [astimezone, momentOf]

theorem clock_momentOf {clock : ℕ × ℕ} (h : IsClock clock) :
    clockOf (astimezone zones (momentOf new (clock.1 * 1440 + clock.2)) new) = clock := by
  rw [astimezone_momentOf]
  exact clockOf_monday h

theorem widens_scheduled {before after : OperatingHours} (hbefore : before.mode = .scheduled)
    (hafter : after.mode = .scheduled) :
    widens zones (some before) (some after) = false ↔
      (after.finishes = true → before.finishes = true) ∧
        ∀ step < 7 * 24 * 60, isOpenAt zones (some after) (momentOf after.timezone step) = true →
          isOpenAt zones (some before) (momentOf after.timezone step) = true := by
  simp only [widens, hbefore, hafter, reduceCtorEq, if_false]
  by_cases hfinish : (after.finishes && !before.finishes) = true
  · rw [if_pos hfinish]
    simp only [Bool.and_eq_true, Bool.not_eq_true'] at hfinish
    simp [hfinish]
  · rw [if_neg hfinish]
    simp only [Bool.and_eq_true, Bool.not_eq_true', not_and, Bool.not_eq_false] at hfinish
    simp only [List.any_eq_false, List.mem_range, Bool.and_eq_true, Bool.not_eq_true', not_and,
      Bool.not_eq_false]
    exact ⟨fun h => ⟨hfinish, h⟩, fun h => h.2⟩

theorem widens_minuteHours {clock : ℕ × ℕ} (h : IsClock clock) :
    widens zones (some (minuteHours old (beside zones old new clock)))
      (some (minuteHours new clock)) = false := by
  apply (widens_scheduled rfl rfl).mpr
  refine ⟨fun hfinish => hfinish, fun step hstep hopen => ?_⟩
  have hshown := (isOpenAt_minuteHours h _).mp hopen
  have hsame : step = clock.1 * 1440 + clock.2 := by
    -- The clock of a step gives the step back.
    change clockOf (astimezone zones (momentOf new step) new) = clock at hshown
    rw [astimezone_momentOf] at hshown
    subst hshown
    simp only [clockOf, monday, dayLength, minuteLength]
    omega
  apply (isOpenAt_minuteHours (isClock_clockOf _) _).mpr
  rw [hsame]
  rfl

theorem not_covered_of_differs {t : ℤ}
    (h : (zones old).clock t ≠ beside zones old new ((zones new).clock t)) :
    ¬ Covered zones (some (minuteHours old (beside zones old new ((zones new).clock t))))
      (some (minuteHours new ((zones new).clock t))) := by
  intro hcovered
  have hopen := hcovered t ((isOpenAt_minuteHours (isClock_clockOf _) _).mpr rfl)
  exact h ((isOpenAt_minuteHours (isClock_clockOf _) _).mp hopen)

theorem isOpenAt_scheduled {hours : OperatingHours} (hmode : hours.mode = .scheduled) (t : ℤ) :
    isOpenAt zones (some hours) (instant t) = hours.admits ((zones hours.timezone).clock t) := by
  simp only [isOpenAt, hmode, reduceCtorEq, decide_false, Bool.false_or]
  rfl

theorem covered_iff_likeInWeek {before after : OperatingHours} (hbefore : before.mode = .scheduled)
    (hafter : after.mode = .scheduled) (hweek : ¬ ShowsInWeek zones before after) :
    Covered zones (some before) (some after) ↔ LikeInWeek zones before after := by
  -- The step of the week that shows a clock of the new zone.
  have hstep : ∀ clock, IsClock clock → after.admits clock = true →
      before.admits (beside zones before.timezone after.timezone clock) = true := by
    intro clock hclock hopen
    by_contra hclosed
    refine hweek ⟨clock.1 * 1440 + clock.2, ?_, ?_, ?_⟩
    · have hday := hclock.1
      have hminute := hclock.2
      omega
    · simp only [isOpenAt, hafter, reduceCtorEq, decide_false, Bool.false_or, clock_momentOf hclock,
        hopen]
    · simp only [isOpenAt, hbefore, reduceCtorEq, decide_false, Bool.false_or]
      exact Bool.eq_false_of_not_eq_true hclosed
  constructor
  · intro hcovered t hopen
    have hold := hcovered t (by rw [isOpenAt_scheduled hafter]; exact hopen)
    rw [isOpenAt_scheduled hbefore] at hold
    rw [hold]
    exact (hstep _ (isClock_clockOf _) hopen).symm
  · intro hlike t hopen
    rw [isOpenAt_scheduled hafter] at hopen
    rw [isOpenAt_scheduled hbefore, hlike t hopen]
    exact hstep _ (isClock_clockOf _) hopen

theorem widens_scheduled_false {before after : OperatingHours} (hbefore : before.mode = .scheduled)
    (hafter : after.mode = .scheduled) :
    widens zones (some before) (some after) = false ↔
      (after.finishes = true → before.finishes = true) ∧ ¬ ShowsInWeek zones before after := by
  rw [widens_scheduled hbefore hafter, ShowsInWeek]
  simp only [not_exists, not_and, Bool.not_eq_false]

/-- Nothing is missed of two settings exactly if, where both are scheduled and the week shows nothing,
the old hours are at every time what they are in that week. -/
theorem misses_nothing_iff (before after : Option OperatingHours) :
    (widens zones before after = false → Covered zones before after) ↔
      ∀ previous ∈ before, ∀ next ∈ after, previous.mode = .scheduled → next.mode = .scheduled →
        (next.finishes = true → previous.finishes = true) → ¬ ShowsInWeek zones previous next →
          LikeInWeek zones previous next := by
  constructor
  · rintro h previous ⟨⟩ next ⟨⟩ hold hnew hfinish hweek
    exact (covered_iff_likeInWeek hold hnew hweek).mp
      (h ((widens_scheduled_false hold hnew).mpr ⟨hfinish, hweek⟩))
  · intro h hwidens
    cases before with
    | none => exact fun _ _ => rfl
    | some previous =>
      cases hold : previous.mode with
      | always => exact fun _ _ => by simp [isOpenAt, hold]
      | scheduled =>
        cases after with
        | none => simp [widens, hold] at hwidens
        | some next =>
          cases hnew : next.mode with
          | always => simp [widens, hold, hnew] at hwidens
          | scheduled =>
            obtain ⟨hfinish, hweek⟩ := (widens_scheduled_false hold hnew).mp hwidens
            exact (covered_iff_likeInWeek hold hnew hweek).mpr
              (h previous rfl next rfl hold hnew hfinish hweek)

end Widening

/-! Zones that are read in what follows. -/
section Zones

def utc : Zone where
  offset _ := 0
  utcoffset _ := 0
  first t := by omega

def newYork : Zone where
  offset t := if 1772953200000000 ≤ t ∧ t < 1793512800000000 then -14400000000 else -18000000000
  utcoffset wall :=
    if 1772938800000000 ≤ wall ∧ wall < 1793498400000000 then -14400000000 else -18000000000
  first t := by
    -- The hour that is shown twice is taken for summer time.
    split_ifs <;> omega

def worldZones (name : Str) : Zone := if name = text "America/New_York" then newYork else utc

theorem stepsSeldom_worldZones (name : Str) : (worldZones name).StepsSeldom := by
  rw [worldZones]
  split
  · intro s hstep
    simp only [newYork] at hstep ⊢
    constructor
    · rw [abs_lt]
      simp only [dayLength, minuteLength]
      split_ifs <;> omega
    · intro r hlater hagain
      simp only [weekLength, dayLength, minuteLength]
      split_ifs at hstep hagain <;> omega
  · intro s hstep
    exact absurd rfl hstep

end Zones

/-! The next time at which the hours open or close. -/
section Changes

variable (zones : Str → Zone)

def candidates (hours : OperatingHours) (t : ℤ) : List ℤ :=
  let zone := zones hours.timezone
  let found := (List.range 9).flatMap (fun offset : ℕ =>
    hours.windows.flatMap (fun w => [w.start, w.stop].map (fun clock : ℕ =>
      zone.toUtc ((zone.wall t / dayLength + offset) * dayLength + clock * minuteLength))))
  found.dedup.insertionSort (· ≤ ·)

def nextChange (hours : Option OperatingHours) (t : ℤ) : Option ℤ :=
  match hours with
  | none => none
  | some schedule =>
    if schedule.mode = .always then none
    else
      (candidates zones schedule t).find? (fun candidate => decide (t < candidate) &&
        isOpenAt zones hours (instant candidate) != isOpenAt zones hours (instant t))

/-- The first instant at which the hours are no longer what they are at `t`. -/
structure FirstChange (hours : Option OperatingHours) (t u : ℤ) : Prop where
  later : t < u
  changed : isOpenAt zones hours (instant u) ≠ isOpenAt zones hours (instant t)
  first : ∀ v, t < v → v < u → isOpenAt zones hours (instant v) = isOpenAt zones hours (instant t)

/-- The answer is the first change after `t`, and no answer means that there is none. -/
structure Exact (hours : Option OperatingHours) (t : ℤ) (answer : Option ℤ) : Prop where
  least : ∀ u ∈ answer, FirstChange zones hours t u
  never : answer = none →
    ∀ u, t < u → isOpenAt zones hours (instant u) = isOpenAt zones hours (instant t)

/-- To `u` the zone takes the start or the end of a window, on the local day of `t` or one of the
eight days after it. -/
def AtBoundary (hours : OperatingHours) (t u : ℤ) : Prop :=
  ∃ offset : ℕ, offset < 9 ∧ ∃ w ∈ hours.windows, ∃ clock : ℕ, (clock = w.start ∨ clock = w.stop) ∧
    u = (zones hours.timezone).toUtc (((zones hours.timezone).wall t / dayLength + offset) *
      dayLength + clock * minuteLength)

def AtClock (hours : OperatingHours) (wall : ℤ) : Prop :=
  ∃ w ∈ hours.windows, ∃ clock : ℕ, (clock = w.start ∨ clock = w.stop) ∧
    wall % dayLength = clock * minuteLength

/-- What the zone does at `u`: its wall time is of the day of `t` or one of the eight days after it, is
shown for the first time, and is one to which the zone does not step, or steps to the start or the end
of a window. -/
structure Regular (hours : OperatingHours) (t u : ℤ) : Prop where
  near : ∃ offset : ℕ, offset < 9 ∧ (zones hours.timezone).wall u / dayLength =
    (zones hours.timezone).wall t / dayLength + offset
  once : (zones hours.timezone).utcoffset ((zones hours.timezone).wall u) =
    (zones hours.timezone).offset u
  lands : (zones hours.timezone).offset u = (zones hours.timezone).offset (u - 1) ∨
    AtClock hours ((zones hours.timezone).wall u)

/-- The zone skips the start or the end of a window, and takes it for `u`. -/
def SkipsTo (hours : OperatingHours) (t u : ℤ) : Prop :=
  ∃ offset : ℕ, offset < 9 ∧ ∃ wall, AtClock hours wall ∧
    wall / dayLength = (zones hours.timezone).wall t / dayLength + offset ∧
    (∀ v, (zones hours.timezone).wall v ≠ wall) ∧ u = (zones hours.timezone).toUtc wall

/-- Between `t` and `u` the zone does not step, and what it shows at `u` it shows for the first time. -/
structure Zone.Steady (z : Zone) (t u : ℤ) : Prop where
  kept : ∀ v, t < v → v ≤ u → z.offset v = z.offset t
  once : z.utcoffset (z.wall u) = z.offset u

variable {zones} {hours : OperatingHours} {t u : ℤ}

theorem mem_candidates : u ∈ candidates zones hours t ↔ AtBoundary zones hours t u := by
  simp only [candidates, List.mem_insertionSort, List.mem_dedup, List.mem_flatMap, List.mem_range,
    List.mem_map, List.mem_cons, List.not_mem_nil, or_false, AtBoundary, eq_comm]

theorem le_of_find? {l : List ℤ} {p : ℤ → Bool} {a b : ℤ} (hl : l.Pairwise (· ≤ ·))
    (ha : l.find? p = some a) (hb : b ∈ l) (hp : p b = true) : a ≤ b := by
  induction l with
  | nil => cases hb
  | cons x l ih =>
    rw [List.pairwise_cons] at hl
    cases hx : p x with
    | true =>
      rw [List.find?_cons_of_pos hx, Option.some.injEq] at ha
      subst ha
      rcases List.mem_cons.mp hb with rfl | hb
      · exact le_refl b
      · exact hl.1 b hb
    | false =>
      rw [List.find?_cons_of_neg (by simp [hx])] at ha
      rcases List.mem_cons.mp hb with rfl | hb
      · rw [hp] at hx
        cases hx
      · exact ih hl.2 ha hb

theorem exists_firstChange {setting : Option OperatingHours} (h : t < u)
    (hchange : isOpenAt zones setting (instant u) ≠ isOpenAt zones setting (instant t)) :
    ∃ v ≤ u, FirstChange zones setting t v := by
  obtain ⟨v, ⟨hlater, hchanged⟩, hleast⟩ := Int.exists_least_of_bdd
    (P := fun v => t < v ∧ isOpenAt zones setting (instant v) ≠ isOpenAt zones setting (instant t))
    ⟨t, fun v hv => hv.1.le⟩ ⟨u, h, hchange⟩
  refine ⟨v, hleast u ⟨h, hchange⟩, hlater, hchanged, ?_⟩
  intro w hw hbefore
  by_contra hw'
  have hle := hleast w ⟨hw, hw'⟩
  omega

theorem FirstChange.unique {setting : Option OperatingHours} {v : ℤ}
    (h : FirstChange zones setting t u) (h' : FirstChange zones setting t v) : u = v := by
  rcases lt_trichotomy u v with hlt | heq | hgt
  · exact absurd (h'.first u h.later hlt) h.changed
  · exact heq
  · exact absurd (h.first v h'.later hgt) h'.changed

theorem nextChange_scheduled (hmode : hours.mode = .scheduled) :
    nextChange zones (some hours) t =
      (candidates zones hours t).find? (fun candidate => decide (t < candidate) &&
        isOpenAt zones (some hours) (instant candidate) !=
          isOpenAt zones (some hours) (instant t)) := by
  rw [nextChange, if_neg (by simp [hmode])]

theorem exact_iff_atBoundary (hmode : hours.mode = .scheduled) :
    Exact zones (some hours) t (nextChange zones (some hours) t) ↔
      ∀ u, FirstChange zones (some hours) t u → AtBoundary zones hours t u := by
  rw [nextChange_scheduled hmode]
  constructor
  · intro hexact u hu
    cases hanswer : (candidates zones hours t).find? _ with
    | none => exact absurd (hexact.never hanswer u hu.later) hu.changed
    | some v =>
      have hv := hexact.least v hanswer
      rw [hu.unique hv]
      exact mem_candidates.mp (List.mem_of_find?_eq_some hanswer)
  · intro hboundary
    -- A change after `t` has a first one before it, which is among the candidates.
    have hcandidate {u : ℤ} (hlater : t < u) (hchange : isOpenAt zones (some hours) (instant u) ≠
        isOpenAt zones (some hours) (instant t)) :
        ∃ v ∈ candidates zones hours t, v ≤ u ∧ (decide (t < v) &&
          isOpenAt zones (some hours) (instant v) !=
            isOpenAt zones (some hours) (instant t)) = true := by
      obtain ⟨v, hle, hv⟩ := exists_firstChange hlater hchange
      refine ⟨v, mem_candidates.mpr (hboundary v hv), hle, ?_⟩
      rw [Bool.and_eq_true, decide_eq_true_eq, bne_iff_ne]
      exact ⟨hv.later, hv.changed⟩
    constructor
    · intro u hu
      have hfound := List.find?_some hu
      rw [Bool.and_eq_true, decide_eq_true_eq, bne_iff_ne] at hfound
      refine ⟨hfound.1, hfound.2, ?_⟩
      intro v hlater hbefore
      by_contra hchange
      obtain ⟨w, hw, hle, hp⟩ := hcandidate hlater hchange
      have hleast := le_of_find? (List.pairwise_insertionSort (· ≤ ·) _) hu hw hp
      omega
    · intro hnone u hlater
      by_contra hchange
      obtain ⟨v, hv, -, hp⟩ := hcandidate hlater hchange
      exact List.find?_eq_none.mp hnone v hv hp

theorem admits_of_between {w : HoursWindow} (hw : w.Valid) {clock before : ℕ × ℕ}
    (hnext : clock.1 = before.1 ∧ clock.2 = before.2 + 1 ∨
      (clock.1 + 6) % 7 = before.1 ∧ clock.2 = 0 ∧ before.2 = 1439)
    (hstart : clock.2 ≠ w.start) (hstop : clock.2 ≠ w.stop) :
    w.admits clock = w.admits before := by
  have hstart' := hw.start_lt
  have hstop' := hw.stop_lt
  have hdiffer := hw.differ
  obtain ⟨hday, hminute⟩ | ⟨hday, hzero, hlast⟩ := hnext
  · have hopen : w.start ≤ clock.2 ↔ w.start ≤ before.2 := by omega
    have hclose : clock.2 < w.stop ↔ before.2 < w.stop := by omega
    simp only [HoursWindow.admits, hday, hopen, hclose]
  · -- Midnight: what an evening leaves open, the morning has open.
    have hopen : ¬ w.start ≤ 0 := by omega
    have hclose : ¬ 1439 < w.stop := by omega
    have hevening : w.start ≤ 1439 := by omega
    have hmorning : 0 < w.stop := by omega
    simp only [HoursWindow.admits, hday, hzero, hlast]
    by_cases hspan : w.start < w.stop
    · simp [hspan, hopen, hclose]
    · simp [hspan, hopen, hclose, hevening, hmorning]

theorem clockOf_pred {wall : ℤ} (h : ¬ minuteLength ∣ wall) :
    clockOf (wall - 1) = clockOf wall := by
  simp only [minuteLength] at h
  apply Prod.ext
  · simp only [clockOf, dayLength, minuteLength]
    omega
  · simp only [clockOf, dayLength, minuteLength]
    omega

theorem boundary_of_admits {w : HoursWindow} (hw : w.Valid) {wall : ℤ}
    (h : w.admits (clockOf wall) ≠ w.admits (clockOf (wall - 1))) :
    ∃ clock, (clock = w.start ∨ clock = w.stop) ∧
      wall = wall / dayLength * dayLength + (clock : ℕ) * minuteLength := by
  have hminute : minuteLength ∣ wall := by
    by_contra hwithin
    apply h
    rw [clockOf_pred hwithin]
  refine ⟨(clockOf wall).2, ?_, ?_⟩
  · by_contra hnone
    rw [not_or] at hnone
    apply h
    apply admits_of_between hw _ hnone.1 hnone.2
    by_cases hmidnight : dayLength ∣ wall
    · right
      simp only [clockOf, dayLength, minuteLength] at hmidnight ⊢
      omega
    · left
      simp only [clockOf, dayLength, minuteLength] at hmidnight hminute ⊢
      omega
  · simp only [clockOf, dayLength, minuteLength] at hminute ⊢
    omega

theorem exists_of_admits_ne {clock before : ℕ × ℕ}
    (h : hours.admits clock ≠ hours.admits before) :
    ∃ w ∈ hours.windows, w.admits clock ≠ w.admits before := by
  by_contra hnone
  push Not at hnone
  apply h
  rw [Bool.eq_iff_iff, OperatingHours.admits, OperatingHours.admits, List.any_eq_true,
    List.any_eq_true]
  constructor
  · rintro ⟨w, hw, hopen⟩
    exact ⟨w, hw, hnone w hw ▸ hopen⟩
  · rintro ⟨w, hw, hopen⟩
    exact ⟨w, hw, (hnone w hw).symm ▸ hopen⟩

theorem clockOf_week (wall k : ℤ) : clockOf (wall + k * weekLength) = clockOf wall := by
  apply Prod.ext
  · simp only [clockOf, weekLength, dayLength, minuteLength]
    omega
  · simp only [clockOf, weekLength, dayLength, minuteLength]
    omega

theorem FirstChange.within (hmode : hours.mode = .scheduled)
    (hsteady : (zones hours.timezone).Steady t u) (h : FirstChange zones (some hours) t u) :
    u < t + weekLength := by
  set zone := zones hours.timezone with hzone
  by_contra hfar
  have hlater := h.later
  -- The instant of the first week that shows the clock of `u`.
  set v := t + (zone.wall u - zone.wall t) % weekLength with hv
  have hweek : 0 < weekLength := by decide
  have hnonneg := Int.emod_nonneg (zone.wall u - zone.wall t) hweek.ne'
  have hlt := Int.emod_lt_of_pos (zone.wall u - zone.wall t) hweek
  have hoffset : zone.offset v = zone.offset t := by
    rcases eq_or_lt_of_le (show t ≤ v by omega) with heq | hlater
    · rw [← heq]
    · exact hsteady.kept v hlater (by omega)
  have hwall : zone.wall v + (zone.wall u - zone.wall t) / weekLength * weekLength =
      zone.wall u := by
    have hdivide := Int.emod_add_mul_ediv (zone.wall u - zone.wall t) weekLength
    have hwallt : zone.wall t = t + zone.offset t := rfl
    have hwallv : zone.wall v = v + zone.offset v := rfl
    rw [mul_comm] at hdivide
    omega
  have hshows : isOpenAt zones (some hours) (instant u) = isOpenAt zones (some hours) (instant v) := by
    rw [isOpenAt_scheduled hmode, isOpenAt_scheduled hmode, ← hzone, Zone.clock, Zone.clock, ← hwall,
      clockOf_week]
  have hne : v ≠ t := by
    intro heq
    rw [heq] at hshows
    exact h.changed hshows
  have hbefore := h.first v (by omega) (by omega)
  rw [← hshows] at hbefore
  exact h.changed hbefore

theorem day_of_atClock {wall day : ℤ} (h : AtClock hours wall)
    (hday : wall / dayLength = day) : ∃ w ∈ hours.windows, ∃ clock : ℕ,
      (clock = w.start ∨ clock = w.stop) ∧ wall = day * dayLength + clock * minuteLength := by
  obtain ⟨w, hw, clock, hclock, hat⟩ := h
  refine ⟨w, hw, clock, hclock, ?_⟩
  rw [← hat, ← hday, Int.ediv_mul_add_emod]

theorem atClock_of_boundary {wall day : ℤ} (hvalid : hours.Valid) {w : HoursWindow}
    (hw : w ∈ hours.windows) {clock : ℕ} (hclock : clock = w.start ∨ clock = w.stop)
    (hat : wall = day * dayLength + clock * minuteLength) :
    AtClock hours wall ∧ wall / dayLength = day := by
  have hstart := (hvalid.windows w hw).start_lt
  have hstop := (hvalid.windows w hw).stop_lt
  refine ⟨⟨w, hw, clock, hclock, ?_⟩, ?_⟩
  · simp only [dayLength, minuteLength] at hat ⊢
    omega
  · simp only [dayLength, minuteLength] at hat ⊢
    omega

/-- Where the zone does not step, the hours change at the start or the end of a window. -/
theorem FirstChange.atClock (hvalid : hours.Valid) (hmode : hours.mode = .scheduled)
    (h : FirstChange zones (some hours) t u)
    (hkept : (zones hours.timezone).offset u = (zones hours.timezone).offset (u - 1)) :
    AtClock hours ((zones hours.timezone).wall u) := by
  set zone := zones hours.timezone with hzone
  have hlater := h.later
  have hwall' : zone.wall (u - 1) = zone.wall u - 1 := by
    rw [Zone.wall, Zone.wall, hkept]
    omega
  -- Just before `u` the hours were still what they were at `t`.
  have hbefore : isOpenAt zones (some hours) (instant (u - 1)) =
      isOpenAt zones (some hours) (instant t) := by
    rcases eq_or_lt_of_le (show t ≤ u - 1 by omega) with heq | hlt
    · rw [← heq]
    · exact h.first (u - 1) hlt (by omega)
  have hflips := h.changed
  rw [← hbefore, isOpenAt_scheduled hmode, isOpenAt_scheduled hmode, ← hzone, Zone.clock, Zone.clock,
    hwall'] at hflips
  obtain ⟨w, hw, hflips⟩ := exists_of_admits_ne hflips
  obtain ⟨clock, hclock, hat⟩ := boundary_of_admits (hvalid.windows w hw) hflips
  exact (atClock_of_boundary hvalid hw hclock hat).1

theorem atBoundary_iff (hvalid : hours.Valid) (hmode : hours.mode = .scheduled)
    (h : FirstChange zones (some hours) t u) :
    AtBoundary zones hours t u ↔ Regular zones hours t u ∨ SkipsTo zones hours t u := by
  constructor
  · rintro ⟨offset, hoffset, w, hw, clock, hclock, hu⟩
    set wall := ((zones hours.timezone).wall t / dayLength + offset) * dayLength +
      clock * minuteLength with hwall
    obtain ⟨hat, hday⟩ := atClock_of_boundary hvalid hw hclock hwall
    by_cases hshown : ∃ v, (zones hours.timezone).wall v = wall
    · -- A time that is shown is taken for its first showing, which is `u`.
      obtain ⟨v, hv⟩ := hshown
      have hfirst : (zones hours.timezone).wall u = wall := by
        have hshows : (zones hours.timezone).wall ((zones hours.timezone).toUtc
            ((zones hours.timezone).wall v)) = (zones hours.timezone).wall v :=
          ((zones hours.timezone).first v).2
        rwa [hv, ← hu] at hshows
      refine .inl ⟨⟨offset, hoffset, by rw [hfirst, hday]⟩, ?_, .inr (hfirst ▸ hat)⟩
      rw [hfirst]
      rw [Zone.wall] at hfirst
      rw [Zone.toUtc] at hu
      omega
    · exact .inr ⟨offset, hoffset, wall, hat, hday, not_exists.mp hshown, hu⟩
  · rintro (⟨⟨offset, hoffset, hday⟩, honce, hlands⟩ | ⟨offset, hoffset, wall, hat, hday, -, hu⟩)
    · have hat : AtClock hours ((zones hours.timezone).wall u) := by
        rcases hlands with hkept | hat
        · exact h.atClock hvalid hmode hkept
        · exact hat
      obtain ⟨w, hw, clock, hclock, hwall⟩ := day_of_atClock hat hday
      refine ⟨offset, hoffset, w, hw, clock, hclock, ?_⟩
      rw [← hwall, Zone.toUtc, honce, Zone.wall]
      omega
    · obtain ⟨w, hw, clock, hclock, hwall⟩ := day_of_atClock hat hday
      exact ⟨offset, hoffset, w, hw, clock, hclock, by rw [← hwall]; exact hu⟩

theorem regular_of_steady (hmode : hours.mode = .scheduled)
    (hsteady : (zones hours.timezone).Steady t u) (h : FirstChange zones (some hours) t u) :
    Regular zones hours t u := by
  have hwithin := h.within hmode hsteady
  have hlater := h.later
  have hoffset := hsteady.kept u hlater le_rfl
  have hstart : (zones hours.timezone).wall t = t + (zones hours.timezone).offset t := rfl
  have hend : (zones hours.timezone).wall u = u + (zones hours.timezone).offset u := rfl
  refine ⟨⟨((zones hours.timezone).wall u / dayLength -
    (zones hours.timezone).wall t / dayLength).toNat, ?_, ?_⟩, hsteady.once, .inl ?_⟩
  · simp only [weekLength, dayLength, minuteLength] at hwithin ⊢
    omega
  · simp only [dayLength, minuteLength]
    omega
  · rcases eq_or_lt_of_le (show t ≤ u - 1 by omega) with heq | hlt
    · rw [hoffset, ← heq]
    · rw [hoffset, hsteady.kept (u - 1) hlt (by omega)]

/-- The answer is the first change after `t` exactly if at that change, where there is one, the zone
shows a time for the first time, of one of the nine days, to which it does not step unless to the start
or the end of a window, or else takes one that it skips for it; so it is if the zone does not step
between the two. -/
theorem nextChange_exact (zones : Str → Zone) {hours : OperatingHours} (hvalid : hours.Valid)
    (hmode : hours.mode = .scheduled) (t : ℤ) :
    (Exact zones (some hours) t (nextChange zones (some hours) t) ↔
        ∀ u, FirstChange zones (some hours) t u →
          Regular zones hours t u ∨ SkipsTo zones hours t u) ∧
      ((∀ u, FirstChange zones (some hours) t u → (zones hours.timezone).Steady t u) →
        Exact zones (some hours) t (nextChange zones (some hours) t)) := by
  have hiff : Exact zones (some hours) t (nextChange zones (some hours) t) ↔
      ∀ u, FirstChange zones (some hours) t u →
        Regular zones hours t u ∨ SkipsTo zones hours t u := by
    rw [exact_iff_atBoundary hmode]
    exact forall₂_congr (fun u hu => atBoundary_iff hvalid hmode hu)
  refine ⟨hiff, fun hsteady => hiff.mpr (fun u hu => ?_)⟩
  exact .inl (regular_of_steady hmode (hsteady u hu) hu)

def dayHours : OperatingHours :=
  { mode := .scheduled, windows := [⟨[0, 1, 2, 3, 4, 5, 6], 540, 1020⟩] }

theorem valid_dayHours : dayHours.Valid where
  size := by decide
  windows := by
    intro w hw
    rw [List.mem_singleton.mp hw]
    exact ⟨by decide, by decide, by decide, by decide, by decide, by decide⟩
  scheduled := by
    intro _ hnone
    cases hnone

theorem nextChange_exact_utc :
    Exact (fun _ => utc) (some dayHours) 0 (nextChange (fun _ => utc) (some dayHours) 0) :=
  (nextChange_exact (fun _ => utc) valid_dayHours rfl 0).2
    (fun _ _ => ⟨fun _ _ _ => rfl, rfl⟩)

def sundayHours : OperatingHours :=
  { mode := .scheduled, timezone := text "America/New_York", windows := [⟨[6], 150, 540⟩] }

theorem valid_sundayHours : sundayHours.Valid where
  size := by decide
  windows := by
    intro w hw
    rw [List.mem_singleton.mp hw]
    exact ⟨by decide, by decide, by decide, by decide, by decide, by decide⟩
  scheduled := by
    intro _ hnone
    cases hnone

/-- On 8 March 2026 the clocks go from two to three and the hours open, but half past two, which is
skipped, is taken for half past three. -/
theorem nextChange_late :
    ¬ ∀ zones : Str → Zone, (∀ name, (zones name).StepsSeldom) → ∀ hours : OperatingHours,
      hours.Valid → hours.mode = .scheduled → ∀ t,
        Exact zones (some hours) t (nextChange zones (some hours) t) := by
  intro hall
  have hexact := hall worldZones stepsSeldom_worldZones sundayHours valid_sundayHours rfl
    1772949600000000
  have hanswer : nextChange worldZones (some sundayHours) 1772949600000000 =
      some 1772955000000000 := by decide
  have hfirst := (hexact.least _ hanswer).first 1772953200000000 (by decide) (by decide)
  exact absurd hfirst (by decide)

end Changes
end Raticode.Organizations
