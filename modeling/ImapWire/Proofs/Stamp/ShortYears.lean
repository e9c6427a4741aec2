/-
  Years of two and three digits.

  RFC 2822 says what a year of two or three digits means (`DateField.meantYear`).  Two of the three
  forms of dates do not keep to it: the wire form reads such a year as it is written, the loose form
  does so with three digits (`DateForm.year_short`).

  Which form a text is read in depends on how it is spelled, so **the spelling of a date can change
  its year** (`Stamp.read?_shortYear`).
-/
import ImapWire.Proofs.Stamp.Respelled
import ImapWire.Proofs.Stamp.YearWord

namespace ImapWire

open DateField

/-! ## Which forms keep the rule -/

namespace DateForm

/-- Reads years of two and three digits as RFC 2822 says: the message header does, and the loose form
    does with two digits. -/
def Keeps (f : DateForm) (ds : List Char) : Prop := f = message ∨ f = loose ∧ ds.length = 2

instance (f : DateForm) (ds : List Char) : Decidable (f.Keeps ds) :=
  inferInstanceAs (Decidable (f = message ∨ f = loose ∧ ds.length = 2))

/-- The year of a date whose year is written with two or three digits. -/
theorem year_short {f : DateForm} {cs : List Char} {s : Stamp} (h : f.read? cs = some s) :
    ∃ ds, f.yearDigits? cs = some ds ∧ (ds.all isDigit = true → ds.length = 2 ∨ ds.length = 3 →
      if f.Keeps ds then s.year = meantYear ds else s.year.natAbs = value ds) := by
  cases f with
  | message =>
    obtain ⟨ds, hds, -, hyear⟩ := year_message h
    refine ⟨ds, hds, fun _ hlength => ?_⟩
    rw [if_pos (.inl rfl), hyear, fullYear_eq_meantYear hlength]
  | internal =>
    obtain ⟨ds, hds, hshape⟩ := year_internal h
    refine ⟨ds, hds, fun _ hlength => ?_⟩
    rw [if_neg (by simp [Keeps])]
    rcases hshape with hlong | ⟨-, hyear⟩
    · omega
    · exact hyear
  | loose =>
    obtain ⟨ds, hds, -, hyear⟩ := year_loose h
    refine ⟨ds, hds, fun _ hlength => ?_⟩
    rw [hyear]
    by_cases htwo : ds.length = 2
    · rw [if_pos htwo, if_pos (.inr ⟨rfl, htwo⟩), ← fullYear_eq_meantYear hlength, htwo]
    · rw [if_neg htwo, if_neg (by simp [Keeps, htwo])]
      exact Int.natAbs_natCast _

end DateForm

/-! ## Every text, and every spelling of a date -/

/-- **Which short years are read as RFC 2822 says.**  A date is read in the first form that it fits.
    Its year, if it is written with two or three digits, is the one that RFC 2822 gives these exactly
    if that form is the message header, or the loose form and they are two; otherwise they are the
    year itself.  So two spellings of a date may have two years: the last part says what each of
    the four is read as. -/
theorem Stamp.read?_shortYear (text : Bytes) :
    (∀ s, read? text false = some s ↔ ∃ f : DateForm, f.Reads (dateText text) s) ∧
    (∀ s, ∀ f : DateForm, f.Reads (dateText text) s →
      ∃ ds, f.yearDigits? (dateText text) = some ds ∧
        (ds.all isDigit = true → ds.length = 2 ∨ ds.length = 3 →
          (s.year = meantYear ds ↔ f.Keeps ds) ∧ (¬ f.Keeps ds → s.year.natAbs = value ds))) ∧
    ∀ (d : ShortDate) dateMark timeMark, dateMark = Bytes.space ∨ dateMark = Bytes.minus →
      timeMark = ShortDate.colon ∨ timeMark = ShortDate.dot → text = d.spelled dateMark timeMark →
        read? text false =
          (if timeMark = ShortDate.colon then
            d.at? (if dateMark = Bytes.space then d.meantYear else d.writtenYear)
          else none).or d.loosely? := by
  refine ⟨?_, ?_, ?_⟩
  · intro s
    rw [read?, ← DateForm.readAs?_eq_some_iff]
    simp
  · rintro s f ⟨hread, -⟩
    obtain ⟨ds, hds, hyear⟩ := DateForm.year_short hread
    refine ⟨ds, hds, fun hall hlength => ?_⟩
    obtain ⟨hbelow, habove⟩ := value_lt_meantYear hall hlength
    have hyear := hyear hall hlength
    by_cases hkeeps : f.Keeps ds
    · rw [if_pos hkeeps] at hyear
      exact ⟨⟨fun _ => hkeeps, fun _ => hyear⟩, fun hnot => absurd hkeeps hnot⟩
    · rw [if_neg hkeeps] at hyear
      refine ⟨⟨fun heq => ?_, fun hkept => absurd hkept hkeeps⟩, fun _ => hyear⟩
      rw [heq, Int.natAbs_natCast] at hyear
      omega
  · rintro d dateMark timeMark hdate htime rfl
    exact d.read?_spelled hdate htime

/-- The first of January of the year `07`. -/
def newYear : ShortDate where
  day := 1
  month := 1
  year := Bytes.ofString "07"
  hour := 10
  minute := 0
  second := 0
  offset := 0
  day_lt := by decide
  month_pos := by decide
  month_le := by decide
  year_digits := by decide +kernel
  year_length := by decide +kernel
  hour_lt := by decide
  minute_lt := by decide
  second_lt := by decide
  isOffset_offset := by decide
  offset_minutes := by decide

/-- With spaces or with dots it is the year 2007, with dashes and colons the year 7. -/
theorem Stamp.read?_newYear :
    read? (Bytes.ofString "01 Jan 07 10:00:00 +0000") false = some ⟨1167645600, 0, 0⟩ ∧
    read? (Bytes.ofString "01 Jan 07 10.00.00 +0000") false = some ⟨1167645600, 0, 0⟩ ∧
    read? (Bytes.ofString "01-Jan-07 10.00.00 +0000") false = some ⟨1167645600, 0, 0⟩ ∧
    read? (Bytes.ofString "01-Jan-07 10:00:00 +0000") false = some ⟨-61946258400, 0, 0⟩ ∧
    ∃ f : DateForm, f.Reads (dateText (Bytes.ofString "01 Jan 07 10:00:00 +0000"))
      ⟨1167645600, 0, 0⟩ ∧ f.Keeps ['0', '7'] := by
  have hspaces := (read?_shortYear (Bytes.ofString "01 Jan 07 10:00:00 +0000")).2.2 newYear
    Bytes.space ShortDate.colon (.inl rfl) (.inl rfl) (by decide +kernel)
  have hdotted := (read?_shortYear (Bytes.ofString "01 Jan 07 10.00.00 +0000")).2.2 newYear
    Bytes.space ShortDate.dot (.inl rfl) (.inr rfl) (by decide +kernel)
  have hdashed := (read?_shortYear (Bytes.ofString "01-Jan-07 10.00.00 +0000")).2.2 newYear
    Bytes.minus ShortDate.dot (.inr rfl) (.inr rfl) (by decide +kernel)
  have hwire := (read?_shortYear (Bytes.ofString "01-Jan-07 10:00:00 +0000")).2.2 newYear
    Bytes.minus ShortDate.colon (.inr rfl) (.inl rfl) (by decide +kernel)
  have hread : read? (Bytes.ofString "01 Jan 07 10:00:00 +0000") false = some ⟨1167645600, 0, 0⟩ :=
    hspaces.trans (by decide +kernel)
  obtain ⟨f, hf⟩ := ((read?_shortYear _).1 _).1 hread
  obtain ⟨ds, hds, hyear⟩ := (read?_shortYear _).2.1 _ f hf
  have hdigits : f.yearDigits? (dateText (Bytes.ofString "01 Jan 07 10:00:00 +0000")) =
      some ['0', '7'] := by
    cases f <;> decide +kernel
  obtain rfl : ds = ['0', '7'] := Option.some.inj (hds.symm.trans hdigits)
  refine ⟨hread, hdotted.trans (by decide +kernel), hdashed.trans (by decide +kernel),
    hwire.trans (by decide +kernel), f, hf, ?_⟩
  exact (hyear (by decide) (.inl rfl)).1.1 (by decide +kernel)

/-- **A year of two digits that is read as it is written.** -/
theorem Stamp.read?_yearSeven :
    ¬ ∀ text s, ∀ f : DateForm, f.Reads (dateText text) s → ∀ ds,
      f.yearDigits? (dateText text) = some ds → ds.all isDigit = true →
        ds.length = 2 ∨ ds.length = 3 → s.year = meantYear ds := by
  intro hall
  have hreads : DateForm.internal.Reads (dateText (Bytes.ofString "1-Jan-07 10:00:00 +0000"))
      ⟨-61946258400, 0, 0⟩ := ⟨by decide +kernel, by decide +kernel⟩
  have hyear := hall _ _ _ hreads ['0', '7'] (by decide +kernel) (by decide) (.inl rfl)
  exact absurd hyear (by decide +kernel)

end ImapWire
