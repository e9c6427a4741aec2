/-
  The years of dates.

  A loosely written date has a year of two to four digits, so every such date that is read has a
  year from 0 to 9999 (`LooseDate.year_of_read?`).  The other two forms make no such promise: the
  date of a message header may have a year of any number of digits, the wire form a year with a
  sign.
-/
import ImapWire.Proofs.Stamp.Clock
import ImapWire.Stamp.Read

namespace ImapWire

namespace DateField

/-- Digits behind a number stand for no more than as many nines behind a greater one. -/
theorem foldl_digits_le_nines {ds : List Char} (h : ds.all isDigit = true) {n m : Nat}
    (hnm : n ≤ m) :
    ds.foldl (fun n d => n * 10 + (d.toNat - 0x30)) n
      ≤ (List.replicate ds.length '9').foldl (fun n d => n * 10 + (d.toNat - 0x30)) m := by
  induction ds generalizing n m with
  | nil => exact hnm
  | cons d ds ih =>
    rw [List.all_cons, Bool.and_eq_true] at h
    have hrange := h.1
    simp only [isDigit, Bool.and_eq_true, decide_eq_true_eq] at hrange
    have hle : d.toNat ≤ '9'.toNat := hrange.2
    have hstep : n * 10 + (d.toNat - 0x30) ≤ m * 10 + ('9'.toNat - 0x30) := by omega
    exact ih h.2 hstep

/-- No number of so many digits is greater than the one of nines alone. -/
theorem value_le_nines {ds : List Char} (h : ds.all isDigit = true) :
    value ds ≤ value (List.replicate ds.length '9') :=
  foldl_digits_le_nines h (Nat.le_refl 0)

end DateField

namespace LooseDate

theorem year?_le {f : List Char} {year : Nat} (h : year? f = some year) : year ≤ 9999 := by
  unfold year? at h
  split at h
  · next hshape =>
    obtain ⟨hleast, hmost, hdigits⟩ := hshape
    have hvalue := DateField.value_le_nines hdigits
    have hyear := Option.some.inj h
    have hlength : f.length = 2 ∨ f.length = 3 ∨ f.length = 4 := by omega
    -- a year of two digits gains at most 2000
    rcases hlength with hlength | hlength | hlength
    · have hnines : DateField.value (List.replicate 2 '9') = 99 := rfl
      rw [hlength, hnines] at hvalue
      rw [if_pos hlength] at hyear
      split at hyear <;> omega
    · have hnines : DateField.value (List.replicate 3 '9') = 999 := rfl
      rw [hlength, hnines] at hvalue
      rw [if_neg (by omega)] at hyear
      omega
    · have hnines : DateField.value (List.replicate 4 '9') = 9999 := rfl
      rw [hlength, hnines] at hvalue
      rw [if_neg (by omega)] at hyear
      omega
  · cases h

/-- **What a loosely written date is read from**: the clock of its day, month and year, and a zone if
    there is one, whatever the time says and whatever comes behind. -/
theorem read?_eq_some {cs : List Char} {s : Stamp} (h : read? cs = some s) :
    ∃ dayField monthField yearField rest, ∃ year : Nat, ∃ c : Clock, ∃ offset : Int,
      dayFirst (dropWord (fields cs)) = dayField :: monthField :: yearField :: rest ∧
        DateField.wholeNumber? dayField = some c.date.day ∧
        DateField.monthOf? monthField = some c.date.month ∧
        year? yearField = some year ∧ c.date.year = year ∧
        (offset = 0 ∨ ∃ zone, zone? zone = some offset) ∧ c.stamp? offset = some s := by
  unfold read? at h
  split at h
  · next dayField monthField yearField rest hfields =>
    simp only [Option.bind_eq_bind, Option.bind_eq_some_iff] at h
    obtain ⟨year, hyear, month, hmonth, day, hday, h⟩ := h
    suffices htime : ∃ hour minute second offset,
        (offset = 0 ∨ ∃ zone, zone? zone = some offset) ∧
          (Clock.mk ⟨year, month, day⟩ hour minute second).stamp? offset = some s by
      obtain ⟨hour, minute, second, offset, hoffset, hstamp⟩ := htime
      exact ⟨dayField, monthField, yearField, rest, year, _, offset, hfields, hday, hmonth, hyear,
        rfl, hoffset, hstamp⟩
    -- time and zone may be missing
    cases rest with
    | nil => exact ⟨0, 0, 0, 0, .inl rfl, h⟩
    | cons time rest =>
      obtain ⟨⟨hour, minute, second⟩, -, h⟩ := Option.bind_eq_some_iff.1 h
      cases rest with
      | nil => exact ⟨hour, minute, second, 0, .inl rfl, h⟩
      | cons zone rest =>
        obtain ⟨offset, hzone, h⟩ := Option.bind_eq_some_iff.1 h
        exact ⟨hour, minute, second, offset, .inr ⟨zone, hzone⟩, h⟩
  · cases h

/-- **A loosely written date has a year from 0 to 9999.** -/
theorem year_of_read? {cs : List Char} {s : Stamp} (h : read? cs = some s) :
    0 ≤ s.year ∧ s.year ≤ 9999 := by
  obtain ⟨_, _, _, _, year, c, _, -, -, -, hyear, hdate, -, hstamp⟩ := read?_eq_some h
  have hle := year?_le hyear
  rw [Clock.year_of_stamp? hstamp]
  omega

end LooseDate

/-- What neither stricter form fits has a year from 0 to 9999, on the clock that it was written
    with. -/
theorem Stamp.year_of_read?_loose {text : Bytes} {s : Stamp}
    (hmessage : MessageDate.read? (dateText text) = none)
    (hinternal : InternalDate.read? (dateText text) = none) (h : read? text false = some s) :
    0 ≤ s.year ∧ s.year ≤ 9999 := by
  simp only [read?, readAs?, hmessage, hinternal] at h
  obtain ⟨s', hs', hs⟩ := Option.map_eq_some_iff.1 h
  have hloose : LooseDate.read? (dateText text) = some s' := by simpa using hs'
  have hsame : s' = s := by simpa using hs
  exact hsame ▸ LooseDate.year_of_read? hloose

end ImapWire
