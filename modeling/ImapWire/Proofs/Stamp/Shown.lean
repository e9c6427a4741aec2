/-
  The clock that a stamp shows leads back to the stamp.

  `Clock.clock_of_stamp?` starts from a clock; here the stamp comes first.  Every number is the
  number of a day of the calendar (`Date.toDays_ofDays`), so a stamp can always be shown, and what
  it shows is a time of day.  The way back exists if nothing of the stamp is lost on the way: a
  clock shows no fractions of seconds, and it shows the second 60 only at the end of a minute
  (`Stamp.IsWhole`).  Then the clock and the offset give the stamp again (`Stamp.stamp?_clock`).

  Conversely a stamp that comes from a clock and an offset of whole minutes is of that kind
  (`Clock.isWhole_of_stamp?`), and every reader of dates gives such offsets
  (`Stamp.isWhole_of_read?`).
-/
import ImapWire.Proofs.Stamp.Years

namespace ImapWire

namespace Date

/-! ## Every number is the number of a day -/

/-- The year of a day is at least `y` if the day is none before `y`. -/
theorem le_yearOfDay {n y : Int} : y ≤ yearOfDay n ↔ daysBeforeYear y ≤ n := by
  have hbelow := daysBeforeYear_le n
  have habove := lt_daysBeforeYear n
  constructor
  · intro h
    exact Int.le_trans (daysBeforeYear_mono h) hbelow
  · intro h
    refine Int.not_lt.1 fun hlt => ?_
    have := daysBeforeYear_mono (Int.add_one_le_of_lt hlt)
    omega

/-- Each day of a year lies in one of its months. -/
theorem exists_month {lengths : List Nat} {day : Nat} (h : day < total lengths) :
    ∃ before length later k,
      lengths = before ++ length :: later ∧ day = total before + k ∧ k < length := by
  induction lengths generalizing day with
  | nil => exact absurd h (Nat.not_lt_zero day)
  | cons length later ih =>
    by_cases hfirst : day < length
    · exact ⟨[], length, later, day, rfl, (Nat.zero_add day).symm, hfirst⟩
    · rw [total_cons] at h
      have hlater : day - length < total later := by omega
      obtain ⟨before, length', later', k, rfl, hday, hk⟩ := ih hlater
      refine ⟨length :: before, length', later', k, rfl, ?_, hk⟩
      rw [total_cons]
      omega

/-- What the day with a number is. -/
theorem ofDays_spec (n : Int) :
    ∃ before length later k, monthLengths (isLeap (yearOfDay n)) = before ++ length :: later ∧
      n = daysBeforeYear (yearOfDay n) + (total before + k : Nat) ∧ k < length ∧
      ofDays n = ⟨yearOfDay n, 1 + before.length, k + 1⟩ := by
  have hbelow := daysBeforeYear_le n
  have habove := lt_daysBeforeYear n
  rw [daysBeforeYear_succ] at habove
  have hinside : (n - daysBeforeYear (yearOfDay n)).toNat
      < total (monthLengths (isLeap (yearOfDay n))) := by
    rw [total_monthLengths]
    by_cases hleap : isLeap (yearOfDay n) = true
    · rw [if_pos hleap] at habove ⊢
      omega
    · rw [if_neg hleap] at habove ⊢
      omega
  obtain ⟨before, length, later, k, hlengths, hday, hk⟩ := exists_month hinside
  refine ⟨before, length, later, k, hlengths, by omega, hk, ?_⟩
  simp only [ofDays, hday]
  rw [hlengths, monthOfDay_append 1 before later hk]

theorem monthLength_append {leap : Bool} {before later : List Nat} {length : Nat}
    (h : monthLengths leap = before ++ length :: later) :
    monthLength leap (1 + before.length) = length
      ∧ daysBeforeMonth leap (1 + before.length) = total before := by
  constructor
  · rw [monthLength, if_neg (by omega), h]
    simp
  · rw [daysBeforeMonth_eq_total, h]
    simp

theorem isValid_ofDays (n : Int) : (ofDays n).isValid = true := by
  obtain ⟨before, length, later, k, hlengths, -, hk, hdate⟩ := ofDays_spec n
  simp only [hdate, isValid, (monthLength_append hlengths).1, Bool.and_eq_true, decide_eq_true_eq]
  omega

/-- **The day with a number has that number.** -/
theorem toDays_ofDays (n : Int) : (ofDays n).toDays = n := by
  obtain ⟨before, length, later, k, hlengths, hn, -, hdate⟩ := ofDays_spec n
  simp only [hdate, toDays, (monthLength_append hlengths).2]
  omega

end Date

/-! ## Stamps and what they show -/

namespace Stamp

/-- A stamp of a whole second on a clock that is off by whole minutes, less than a day.  A leap
    second is a whole second too; it is the last one of its minute. -/
structure IsWhole (s : Stamp) : Prop where
  isOffset : isOffset s.offset = true
  minutes : s.offset % 60 = 0
  second : s.nanos = 0 ∨ s.nanos = secondNanos ∧ s.unix % 60 = 59

/-- The year on the clock is that of the day that the clock shows. -/
theorem year_eq (s : Stamp) : s.year = Date.yearOfDay (s.shown / daySeconds + epochDay) := rfl

theorem IsWhole.toUtc {s : Stamp} (h : s.IsWhole) : s.toUtc.IsWhole where
  isOffset := by
    show ImapWire.isOffset 0 = true
    decide
  minutes := rfl
  second := h.second

theorem isTime_clock {s : Stamp} (h : s.IsWhole) : s.clock.isTime = true := by
  have hlow : 0 ≤ s.shown % daySeconds := Int.emod_nonneg _ (by decide)
  have hhigh : s.shown % daySeconds < 86400 := Int.emod_lt_of_pos _ (by decide)
  have hmore : s.nanos / secondNanos ≤ 1 := by
    rcases h.second with hzero | ⟨hleap, -⟩
    · rw [hzero]
      decide
    · rw [hleap]
      decide
  have hbelow : (s.shown % daySeconds).toNat < 86400 := by omega
  rw [Clock.isTime, Bool.and_eq_true, Bool.and_eq_true, decide_eq_true_eq, decide_eq_true_eq,
    decide_eq_true_eq]
  simp only [clock]
  omega

/-- The second that is kept for the one on the clock, and whether that is a leap second. -/
theorem second_clock {s : Stamp} (h : s.IsWhole) :
    (if s.clock.second == 60 then 59 else s.clock.second) = (s.shown % daySeconds).toNat % 60 ∧
      (if s.clock.second == 60 then secondNanos else 0) = s.nanos := by
  have hclock : s.clock.second = (s.shown % daySeconds).toNat % 60 + s.nanos / secondNanos := rfl
  rcases h.second with hzero | ⟨hnanos, hlast⟩
  · rw [hzero, Nat.zero_div, Nat.add_zero] at hclock
    have hshort : ¬ (s.clock.second == 60) = true := by
      rw [beq_iff_eq]
      omega
    rw [if_neg hshort, if_neg hshort]
    exact ⟨hclock, hzero.symm⟩
  · -- the second that a leap second is kept as is the last of its minute on the clock as well
    have hlast' : (s.shown % daySeconds).toNat % 60 = 59 := by
      have hminutes := h.minutes
      unfold shown daySeconds
      omega
    rw [hnanos, Nat.div_self (by decide), hlast'] at hclock
    rw [hclock, hlast']
    exact ⟨rfl, hnanos.symm⟩

/-- What the clock shows is so many seconds into its day. -/
theorem seconds_clock {s : Stamp} (h : s.IsWhole) :
    s.shown = s.shown / daySeconds * daySeconds
      + (s.clock.hour * 3600 + s.clock.minute * 60
          + (if s.clock.second == 60 then 59 else s.clock.second) : Nat) := by
  have hlow : 0 ≤ s.shown % daySeconds := Int.emod_nonneg _ (by decide)
  have hdivide := Int.ediv_mul_add_emod s.shown daySeconds
  have hhour : s.clock.hour = (s.shown % daySeconds).toNat / 3600 := rfl
  have hminute : s.clock.minute = (s.shown % daySeconds).toNat / 60 % 60 := rfl
  rw [(second_clock h).1, hhour, hminute]
  omega

/-- **The clock that a stamp shows gives the stamp again**, if its years are kept. -/
theorem stamp?_clock {s : Stamp} (h : s.IsWhole) (hyear : isKeptYear s.year = true)
    (hutc : isKeptYear s.toUtc.year = true) : s.clock.stamp? s.offset = some s := by
  have hdate : s.clock.date = Date.ofDays (s.shown / daySeconds + epochDay) := rfl
  have hunix : (s.clock.date.toDays - epochDay) * daySeconds
      + (s.clock.hour * 3600 + s.clock.minute * 60
          + (if s.clock.second == 60 then 59 else s.clock.second) : Nat) - s.offset = s.unix := by
    rw [hdate, Date.toDays_ofDays, Int.add_sub_cancel, ← seconds_clock h, shown,
      Int.add_sub_cancel]
  have hutc' : isKeptYear (Date.ofDays (s.unix / daySeconds + epochDay)).year = true := by
    rw [year_eq, shown, toUtc, Int.add_zero] at hutc
    exact hutc
  have hvalid : (s.clock.date.isValid && s.clock.isTime && isOffset s.offset
      && isKeptYear s.clock.date.year) = true := by
    rw [hdate, Date.isValid_ofDays, isTime_clock h, h.isOffset]
    exact hyear
  rw [Clock.stamp?, if_pos hvalid]
  simp only [hunix, (second_clock h).2, hutc', if_true]

/-- A year of four digits is kept, and so is the year at the same instant at UTC. -/
theorem isKeptYear_of_le {s : Stamp} (hoffset : isOffset s.offset = true) (hlow : 0 ≤ s.year)
    (hhigh : s.year ≤ 9999) : isKeptYear s.year = true ∧ isKeptYear s.toUtc.year = true := by
  have hbefore : Date.daysBeforeYear 0 ≤ s.shown / daySeconds + epochDay :=
    Date.le_yearOfDay.1 hlow
  have hbehind : ¬ Date.daysBeforeYear 10000 ≤ s.shown / daySeconds + epochDay :=
    fun h => absurd (Date.le_yearOfDay.2 h) (by rw [← year_eq]; omega)
  have hutc : s.toUtc.shown = s.shown - s.offset := by
    simp only [shown, toUtc]
    omega
  rw [ImapWire.isOffset, Bool.and_eq_true, decide_eq_true_eq, decide_eq_true_eq] at hoffset
  -- the day at UTC is the one on the clock, or one next to it
  have hlow' : (-1 : Int) ≤ s.toUtc.year := by
    refine Date.le_yearOfDay.2 ?_
    simp only [Date.daysBeforeYear, epochDay, daySeconds, hutc] at hoffset hbefore ⊢
    omega
  have hhigh' : ¬ (10001 : Int) ≤ s.toUtc.year := by
    refine fun h => absurd (Date.le_yearOfDay.1 h) ?_
    simp only [Date.daysBeforeYear, epochDay, daySeconds, hutc] at hoffset hbehind ⊢
    omega
  simp only [isKeptYear, Bool.and_eq_true, decide_eq_true_eq]
  omega

end Stamp

/-! ## Stamps that were read -/

theorem Clock.isWhole_of_stamp? {c : Clock} {offset : Int} {s : Stamp}
    (h : c.stamp? offset = some s) (hminutes : offset % 60 = 0) : s.IsWhole := by
  obtain ⟨-, htime, hoffset, -, rfl⟩ := stamp?_eq_some h
  refine ⟨hoffset, hminutes, ?_⟩
  by_cases hleap : c.second = 60
  · refine Or.inr ⟨by simp [hleap], ?_⟩
    simp only [hleap, beq_self_eq_true, if_true]
    unfold daySeconds
    omega
  · exact Or.inl (by simp [hleap])

/-- An offset in digits is one of whole minutes. -/
theorem DateField.offset?_minutes {minuses : List Char} {skip : List Char → List Char}
    {cs rest : List Char} {offset : Int} (h : offset? minuses skip cs = some (offset, rest)) :
    offset % 60 = 0 := by
  -- what is read behind the sign
  have hread : ∀ negative : Bool, ((number? 2 2 cs.tail).bind fun hours =>
      (number? 2 2 (skip hours.2)).bind fun minutes => if minutes.1 < 60 then
        some (if negative = true then -((hours.1 * 3600 + minutes.1 * 60 : Nat) : Int)
          else (hours.1 * 3600 + minutes.1 * 60 : Nat), minutes.2)
      else none) = some (offset, rest) → offset % 60 = 0 := by
    intro negative h
    obtain ⟨hours, -, h⟩ := Option.bind_eq_some_iff.1 h
    obtain ⟨minutes, -, h⟩ := Option.bind_eq_some_iff.1 h
    obtain ⟨-, hoffset⟩ := Option.ite_none_right_eq_some.1 h
    obtain ⟨rfl, -⟩ := Prod.mk.inj (Option.some.inj hoffset)
    split <;> omega
  obtain ⟨sign, -, h⟩ := Option.bind_eq_some_iff.1 h
  split at h
  · exact hread false h
  · split at h
    · exact hread true h
    · cases h

theorem MessageDate.zone?_minutes {cs rest : List Char} {offset : Int}
    (h : zone? cs = some (offset, rest)) : offset % 60 = 0 := by
  unfold zone? at h
  split at h
  · unfold namedZone? at h
    dsimp only at h
    split at h
    · obtain ⟨rfl, -⟩ := Prod.mk.inj (Option.some.inj h)
      omega
    · obtain ⟨-, h⟩ := Option.ite_none_right_eq_some.1 h
      obtain ⟨rfl, -⟩ := Prod.mk.inj (Option.some.inj h)
      rfl
  · exact DateField.offset?_minutes h

theorem MessageDate.isWhole_of_read? {cs : List Char} {s : Stamp} (h : read? cs = some s) :
    s.IsWhole := by
  -- twelve fields stand in front of the zone
  iterate 12 obtain ⟨⟨_, _⟩, -, h⟩ := Option.bind_eq_some_iff.1 h
  obtain ⟨⟨offset, _⟩, hzone, h⟩ := Option.bind_eq_some_iff.1 h
  obtain ⟨stamp, hstamp, h⟩ := Option.bind_eq_some_iff.1 h
  obtain ⟨-, hsame⟩ := Option.ite_none_right_eq_some.1 h
  obtain rfl := Option.some.inj hsame
  exact Clock.isWhole_of_stamp? hstamp (zone?_minutes hzone)

theorem InternalDate.isWhole_of_read? {cs : List Char} {s : Stamp} (h : read? cs = some s) :
    s.IsWhole := by
  -- ten fields stand in front of the offset
  iterate 10 obtain ⟨⟨_, _⟩, -, h⟩ := Option.bind_eq_some_iff.1 h
  obtain ⟨⟨offset, _⟩, hoffset, h⟩ := Option.bind_eq_some_iff.1 h
  obtain ⟨stamp, hstamp, h⟩ := Option.bind_eq_some_iff.1 h
  obtain ⟨-, hsame⟩ := Option.ite_none_right_eq_some.1 h
  obtain rfl := Option.some.inj hsame
  exact Clock.isWhole_of_stamp? hstamp (DateField.offset?_minutes hoffset)

theorem LooseDate.zone?_minutes {f : List Char} {offset : Int} (h : zone? f = some offset) :
    offset % 60 = 0 := by
  unfold zone? at h
  split at h
  · obtain rfl := Option.some.inj h
    omega
  · extract_lets negative ds at h
    split at h
    · obtain rfl := Option.some.inj h
      split <;> omega
    · obtain ⟨-, h⟩ := Option.ite_none_right_eq_some.1 h
      obtain rfl := Option.some.inj h
      rfl

theorem LooseDate.isWhole_of_read? {cs : List Char} {s : Stamp} (h : read? cs = some s) :
    s.IsWhole := by
  obtain ⟨_, _, _, _, _, c, offset, -, -, -, -, -, hoffset, hstamp⟩ := read?_eq_some h
  refine Clock.isWhole_of_stamp? hstamp ?_
  rcases hoffset with rfl | ⟨zone, hzone⟩
  · rfl
  · exact zone?_minutes hzone

/-- **A date that was read is whole**, whichever form it was written in. -/
theorem Stamp.isWhole_of_read? {text : Bytes} {toUtc : Bool} {s : Stamp}
    (h : read? text toUtc = some s) : s.IsWhole := by
  obtain ⟨s', hs', rfl⟩ := Option.map_eq_some_iff.1 h
  have hwhole : s'.IsWhole := by
    simp only [readAs?, Option.orElse_eq_or, Option.orElse_eq_orElse, Option.or_eq_some_iff] at hs'
    rcases hs' with hmessage | ⟨-, hinternal | ⟨-, hloose⟩⟩
    · exact MessageDate.isWhole_of_read? hmessage
    · exact InternalDate.isWhole_of_read? hinternal
    · exact LooseDate.isWhole_of_read? hloose
  cases toUtc
  · exact hwhole
  · exact hwhole.toUtc

end ImapWire
