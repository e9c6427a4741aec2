/-
  A stamp shows the clock that it was read from.

  A clock is a date, a time of day and an offset; a stamp is an instant and an offset.  Going from a
  valid clock to its stamp and reading the stamp's clock again gives the first clock back
  (`Clock.clock_of_stamp?`), leap seconds included.  In particular the year of a stamp is the year
  that was written.

  The way there and back is one of numbers: a date is the number of its day, a time of day the
  number of its second.  The second undoes itself by division.  For the day, the year is the one
  whose days it lies among (`Date.yearOfDay_eq`), and the month is found by walking along the
  lengths of the months (`Date.monthOfDay_append`).
-/
import ImapWire.Stamp

namespace ImapWire

namespace Date

/-! ## The year of a day -/

/-- Later years start later. -/
theorem daysBeforeYear_mono {y y' : Int} (h : y ≤ y') : daysBeforeYear y ≤ daysBeforeYear y' := by
  simp only [daysBeforeYear]
  omega

/-- A day lies in one year only. -/
theorem yearOfDay_eq {n y : Int} (hlow : daysBeforeYear y ≤ n) (hhigh : n < daysBeforeYear (y + 1)) :
    yearOfDay n = y := by
  have hbelow := daysBeforeYear_le n
  have habove := lt_daysBeforeYear n
  -- another year would end before the day or start behind it
  have hle : ¬ yearOfDay n + 1 ≤ y := by
    intro h
    have := daysBeforeYear_mono h
    omega
  have hge : ¬ y + 1 ≤ yearOfDay n := by
    intro h
    have := daysBeforeYear_mono h
    omega
  omega

/-! ## The month of a day -/

/-- The days of some months. -/
def total (lengths : List Nat) : Nat := lengths.foldl (fun days length => days + length) 0

theorem total_append (before later : List Nat) :
    total (before ++ later) = total before + total later := by
  have hfrom : ∀ (lengths : List Nat) (n : Nat),
      lengths.foldl (fun days length => days + length) n = n + total lengths := by
    intro lengths
    induction lengths with
    | nil => intro n; rfl
    | cons l lengths ih =>
      intro n
      have hfirst : total (l :: lengths) = 0 + l + total lengths := ih (0 + l)
      rw [List.foldl_cons, ih, hfirst]
      omega
  unfold total
  rw [List.foldl_append, hfrom]
  rfl

theorem total_cons (l : Nat) (lengths : List Nat) : total (l :: lengths) = l + total lengths := by
  rw [← List.singleton_append, total_append]
  show 0 + l + total lengths = l + total lengths
  rw [Nat.zero_add]

/-- The day `day + 1` of a month is found behind the days of the months before it. -/
theorem monthOfDay_append (month : Nat) (before later : List Nat) {length day : Nat}
    (h : day < length) :
    monthOfDay month (before ++ length :: later) (total before + day)
      = (month + before.length, day + 1) := by
  induction before generalizing month with
  | nil => simp [monthOfDay, total, h]
  | cons l before ih =>
    have hpast : ¬ total (l :: before) + day < l := by
      rw [total_cons]
      omega
    have hbehind : total (l :: before) + day - l = total before + day := by
      rw [total_cons]
      omega
    rw [List.cons_append, monthOfDay, if_neg hpast, hbehind, ih, List.length_cons, Nat.add_assoc,
      Nat.add_comm 1]

theorem daysBeforeMonth_eq_total (leap : Bool) (month : Nat) :
    daysBeforeMonth leap month = total ((monthLengths leap).take (month - 1)) := rfl

/-- The lengths of the months, cut before a month that has days. -/
theorem monthLengths_cut {leap : Bool} {month : Nat} (h : 0 < monthLength leap month) :
    0 < month ∧ month - 1 < (monthLengths leap).length ∧
      monthLengths leap = (monthLengths leap).take (month - 1)
        ++ monthLength leap month :: (monthLengths leap).drop month := by
  have hpos : 0 < month := by
    rcases Nat.eq_zero_or_pos month with rfl | hpos
    · exact absurd h (by simp [monthLength])
    · exact hpos
  have hlength : monthLength leap month = ((monthLengths leap)[month - 1]?).getD 0 := by
    rw [monthLength, if_neg (Nat.ne_of_gt hpos)]
  rw [hlength] at h ⊢
  cases hget : (monthLengths leap)[month - 1]? with
  | none =>
    rw [hget] at h
    exact absurd h (Nat.lt_irrefl 0)
  | some length =>
    obtain ⟨hlt, hat⟩ := List.getElem?_eq_some_iff.1 hget
    refine ⟨hpos, hlt, ?_⟩
    show _ = (monthLengths leap).take (month - 1) ++ length :: _
    rw [← hat]
    conv => lhs; rw [← List.take_append_drop (month - 1) (monthLengths leap)]
    rw [List.drop_eq_getElem_cons hlt, Nat.sub_add_cancel hpos]

/-! ## There and back -/

/-- The days of a year, month by month. -/
theorem total_monthLengths (leap : Bool) :
    total (monthLengths leap) = if leap then 366 else 365 := by
  cases leap <;> rfl

/-- A day of the calendar lies in its year. -/
theorem toDays_bounds {d : Date} (h : d.isValid = true) :
    daysBeforeYear d.year ≤ d.toDays ∧ d.toDays < daysBeforeYear (d.year + 1) := by
  simp only [isValid, Bool.and_eq_true, decide_eq_true_eq] at h
  obtain ⟨-, -, hcut⟩ := monthLengths_cut (Nat.lt_of_lt_of_le h.1 h.2)
  have hsum := congrArg total hcut
  rw [total_monthLengths, total_append, total_cons, ← daysBeforeMonth_eq_total] at hsum
  rw [daysBeforeYear_succ]
  unfold toDays
  cases hleap : isLeap d.year <;> simp only [hleap] at h hsum ⊢ <;> simp at hsum ⊢ <;> omega

/-- **The day with the number of a date is that date.** -/
theorem ofDays_toDays {d : Date} (h : d.isValid = true) : ofDays d.toDays = d := by
  obtain ⟨hlow, hhigh⟩ := toDays_bounds h
  have hyear : yearOfDay d.toDays = d.year := yearOfDay_eq hlow hhigh
  simp only [isValid, Bool.and_eq_true, decide_eq_true_eq] at h
  obtain ⟨hpos, hlt, hcut⟩ := monthLengths_cut (Nat.lt_of_lt_of_le h.1 h.2)
  have hday : (d.toDays - daysBeforeYear d.year).toNat
      = total ((monthLengths (isLeap d.year)).take (d.month - 1)) + (d.day - 1) := by
    rw [← daysBeforeMonth_eq_total]
    unfold toDays
    omega
  have hinside : d.day - 1 < monthLength (isLeap d.year) d.month := by omega
  have hmonth := monthOfDay_append 1 ((monthLengths (isLeap d.year)).take (d.month - 1))
    ((monthLengths (isLeap d.year)).drop d.month) hinside
  rw [← hcut, List.length_take, Nat.min_eq_left (Nat.le_of_lt hlt)] at hmonth
  have hfound : monthOfDay 1 (monthLengths (isLeap d.year))
      (d.toDays - daysBeforeYear d.year).toNat = (d.month, d.day) := by
    rw [hday, hmonth]
    congr 1 <;> omega
  simp only [ofDays, hyear, hfound]

end Date

/-! ## Clocks -/

namespace Clock

/-- A stamp that a clock gives: the clock is valid, and the stamp counts its seconds. -/
theorem stamp?_eq_some {c : Clock} {offset : Int} {s : Stamp} (h : c.stamp? offset = some s) :
    c.date.isValid = true ∧ c.isTime = true ∧ isOffset offset = true ∧
      isKeptYear c.date.year = true ∧
      s = ⟨(c.date.toDays - epochDay) * daySeconds
          + (c.hour * 3600 + c.minute * 60 + (if c.second == 60 then 59 else c.second) : Nat)
          - offset,
        if c.second == 60 then secondNanos else 0, offset⟩ := by
  simp only [stamp?, Option.ite_none_right_eq_some, Option.some.injEq, Bool.and_eq_true] at h
  obtain ⟨⟨⟨⟨hdate, htime⟩, hoffset⟩, hyear⟩, -, hs⟩ := h
  exact ⟨hdate, htime, hoffset, hyear, hs.symm⟩

/-- **A stamp shows the clock that it was read from.** -/
theorem clock_of_stamp? {c : Clock} {offset : Int} {s : Stamp} (h : c.stamp? offset = some s) :
    s.clock = c ∧ s.offset = offset := by
  obtain ⟨hdate, htime, -, -, rfl⟩ := stamp?_eq_some h
  refine ⟨?_, rfl⟩
  obtain ⟨date, hour, minute, second⟩ := c
  simp only [isTime, Bool.and_eq_true, decide_eq_true_eq] at htime
  obtain ⟨⟨hhour, hminute⟩, hsecond⟩ := htime
  -- a leap second is kept as the second before it
  have hleap : ∃ kept more : Nat, kept < 60 ∧ second = kept + more ∧
      (if second == 60 then 59 else second) = kept ∧
      (if second == 60 then secondNanos else 0) / secondNanos = more := by
    by_cases h60 : second = 60
    · exact ⟨59, 1, by omega, h60, by simp [h60], by simp [h60, secondNanos]⟩
    · exact ⟨second, 0, by omega, rfl, by simp [h60], by simp [h60]⟩
  obtain ⟨kept, more, hkept, hsum, hsecond', hnanos⟩ := hleap
  have hshown : (date.toDays - epochDay) * daySeconds
      + ((hour * 3600 + minute * 60 + kept : Nat) : Int) - offset + offset
        = (hour * 3600 + minute * 60 + kept : Nat) + (date.toDays - epochDay) * daySeconds := by
    omega
  have hday : ((hour * 3600 + minute * 60 + kept : Nat)
      + (date.toDays - epochDay) * daySeconds) / daySeconds = date.toDays - epochDay := by
    unfold daySeconds
    omega
  have hrest : ((hour * 3600 + minute * 60 + kept : Nat)
      + (date.toDays - epochDay) * daySeconds) % daySeconds
        = (hour * 3600 + minute * 60 + kept : Nat) := by
    unfold daySeconds
    omega
  simp only [Stamp.clock, Stamp.shown, hsecond', hnanos, hshown, hday, hrest, Int.toNat_natCast,
    Int.sub_add_cancel, Date.ofDays_toDays hdate]
  congr 1 <;> omega

/-- The year of a stamp is the year that was written. -/
theorem year_of_stamp? {c : Clock} {offset : Int} {s : Stamp} (h : c.stamp? offset = some s) :
    s.year = c.date.year := by
  unfold Stamp.year
  rw [(clock_of_stamp? h).1]

end Clock

end ImapWire
