/-
  The spellings of a date.

  A date whose year is written with two or three digits (`ShortDate`) can be spelled with spaces or
  dashes between day, month and year, and with colons or dots between hours, minutes and seconds.
  Each form is worked out on all spellings:

    1. with spaces and colons it is a date of a message header (`ShortDate.message_spaces`);
    2. with dashes and colons it is in wire form (`ShortDate.internal_dashes`);
    3. in every spelling it is a loosely written date, since each of them is cut into the same fields
       (`ShortDate.fields_spelled`, `ShortDate.loose_spelled`).

  So the marks decide which year is read (`ShortDate.read?_spelled`).
-/
import ImapWire.Proofs.Stamp.Words
import ImapWire.Proofs.Stamp.Years

namespace ImapWire

open DateField

/-! ## Short years -/

namespace DateField

/-- The year that two or three digits mean: two digits up to 49 count from 2000, from 50 on from
    1900, three digits from 1900. -/
def meantYear (ds : List Char) : Nat :=
  if ds.length = 2 ∧ value ds < 50 then value ds + 2000 else value ds + 1900

theorem fullYear_eq_meantYear {ds : List Char} (h : ds.length = 2 ∨ ds.length = 3) :
    MessageDate.fullYear (value ds) ds.length = meantYear ds := by
  rcases h with h | h <;> simp [MessageDate.fullYear, meantYear, h]

/-- Two or three digits never mean the number that they are. -/
theorem value_lt_meantYear {ds : List Char} (hall : ds.all isDigit = true)
    (h : ds.length = 2 ∨ ds.length = 3) : value ds < 1000 ∧ 1900 ≤ meantYear ds := by
  have hnines := value_le_nines hall
  have hbounds : value (List.replicate 2 '9') = 99 ∧ value (List.replicate 3 '9') = 999 := ⟨rfl, rfl⟩
  unfold meantYear
  rcases h with h | h <;> rw [h] at hnines <;> split <;> omega

end DateField

/-- A year in wire form, of four digits at most. -/
theorem InternalDate.year?_digits {ds : Bytes} (hdigits : ds.all Bytes.isDigit = true)
    (hne : ds ≠ []) (hmost : (chars ds).length ≤ 4) (hvalue : value (chars ds) < Decimal.signedSize)
    (cs : List Char) :
    year? (chars ds ++ ' ' :: cs) = some ((value (chars ds) : Int), ' ' :: cs) := by
  have hall : (chars ds).all isDigit = true := by rw [all_isDigit_chars, hdigits]
  have hpos : 0 < (chars ds).length :=
    List.length_pos_iff.2 fun hnil => hne (List.map_eq_nil_iff.1 hnil)
  have hnumber : number? 1 4 (chars ds ++ ' ' :: cs) = some (value (chars ds), ' ' :: cs) :=
    number?_append hall hpos hmost (.inr (NoDigit.space cs)) hvalue
  obtain ⟨c, rest, hcons⟩ := List.exists_cons_of_ne_nil (List.ne_nil_of_length_pos hpos)
  have hc : isDigit c = true := List.all_eq_true.1 hall c (by simp [hcons])
  have hhead : ∀ sign, isDigit sign = false → (chars ds ++ ' ' :: cs).head? ≠ some sign := by
    intro sign hsign heq
    rw [hcons] at heq
    rw [← Option.some.inj heq, hc] at hsign
    cases hsign
  have hfield : IsField ds := isField_of_digits hdigits hne
  simp only [year?, skipBlanks_eq (hfield.noBlank _), hhead '-' rfl, hhead '+' rfl, if_false,
    hnumber, Option.map_some]

/-! ## Spellings of a date -/

/-- A date with a year of two or three digits. -/
structure ShortDate where
  day : Nat
  month : Nat
  /-- The digits of the year. -/
  year : Bytes
  hour : Nat
  minute : Nat
  second : Nat
  offset : Int
  day_lt : day < 100
  month_pos : 0 < month
  month_le : month ≤ 12
  year_digits : year.all Bytes.isDigit = true
  year_length : year.length = 2 ∨ year.length = 3
  hour_lt : hour < 100
  minute_lt : minute < 100
  second_lt : second < 100
  isOffset_offset : isOffset offset = true
  offset_minutes : offset % 60 = 0

namespace ShortDate

variable (d : ShortDate)

abbrev colon : UInt8 := 0x3A
abbrev dot : UInt8 := 0x2E

/-- The date in front of the time, with a mark between day, month and year. -/
def dateBytes (mark : UInt8) : Bytes :=
  Stamp.padded 2 d.day ++ [mark] ++ Stamp.monthBytes d.month ++ [mark] ++ d.year

/-- The time, with a mark between hours, minutes and seconds. -/
def timeBytes (mark : UInt8) : Bytes :=
  Stamp.padded 2 d.hour ++ [mark] ++ Stamp.padded 2 d.minute ++ [mark] ++ Stamp.padded 2 d.second

/-- The whole date, with its marks. -/
def spelled (dateMark timeMark : UInt8) : Bytes :=
  d.dateBytes dateMark ++ [Bytes.space] ++ d.timeBytes timeMark ++ [Bytes.space] ++
    Stamp.offsetBytes d.offset

/-- The stamp of the date in a year, if there is such a date and time. -/
def at? (year : Nat) : Option Stamp :=
  (Clock.mk ⟨year, d.month, d.day⟩ d.hour d.minute d.second).stamp? d.offset

/-- The year as it is written. -/
def writtenYear : Nat := value (chars d.year)

/-- The year that is meant. -/
def meantYear : Nat := DateField.meantYear (chars d.year)

/-- The stamp that the loose form gives: three digits are the year itself, and there is no leap
    second. -/
def loosely? : Option Stamp :=
  if d.second < 60 then d.at? (if d.year.length = 2 then d.meantYear else d.writtenYear) else none

/-! ### The text of a spelling -/

theorem isField_year : IsField d.year :=
  isField_of_digits d.year_digits fun hnil => by
    have hlength := d.year_length
    simp [hnil] at hlength

theorem isField_dateBytes {mark : UInt8} (hmark : mark = Bytes.space ∨ mark = Bytes.minus) :
    IsField (d.dateBytes mark) := by
  have htext : [mark].all isTextByte = true := by rcases hmark with rfl | rfl <;> decide
  exact ((isField_padded 1 _).append htext (isField_monthBytes d.month_pos d.month_le)).append htext
    d.isField_year

theorem isField_timeBytes {mark : UInt8} (hmark : mark = colon ∨ mark = dot) :
    IsField (d.timeBytes mark) := by
  have htext : [mark].all isTextByte = true := by rcases hmark with rfl | rfl <;> decide
  exact ((isField_padded 1 _).append htext (isField_padded 1 _)).append htext (isField_padded 1 _)

theorem isField_spelled {dateMark timeMark : UInt8}
    (hdate : dateMark = Bytes.space ∨ dateMark = Bytes.minus)
    (htime : timeMark = colon ∨ timeMark = dot) : IsField (d.spelled dateMark timeMark) :=
  ((d.isField_dateBytes hdate).append (by decide) (d.isField_timeBytes htime)).append (by decide)
    (isField_offsetBytes _)

theorem chars_dateBytes (mark : UInt8) (cs : List Char) :
    chars (d.dateBytes mark) ++ cs =
      chars (Stamp.padded 2 d.day) ++ Char.ofNat mark.toNat ::
        (chars (Stamp.monthBytes d.month) ++ Char.ofNat mark.toNat :: (chars d.year ++ cs)) := by
  simp [dateBytes, chars]

theorem chars_timeBytes (mark : UInt8) (cs : List Char) :
    chars (d.timeBytes mark) ++ cs =
      chars (Stamp.padded 2 d.hour) ++ Char.ofNat mark.toNat ::
        (chars (Stamp.padded 2 d.minute) ++ Char.ofNat mark.toNat ::
          (chars (Stamp.padded 2 d.second) ++ cs)) := by
  simp [timeBytes, chars]

theorem chars_spelled (dateMark timeMark : UInt8) :
    chars (d.spelled dateMark timeMark) =
      chars (d.dateBytes dateMark) ++ ' ' ::
        (chars (d.timeBytes timeMark) ++ ' ' :: chars (Stamp.offsetBytes d.offset)) := by
  simp only [spelled, chars_append, List.append_assoc]
  rfl

/-! ### Fields -/

theorem skipBlanks_padded (n : Nat) (cs : List Char) :
    Text.skipBlanks (chars (Stamp.padded 2 n) ++ cs) = chars (Stamp.padded 2 n) ++ cs :=
  skipBlanks_eq ((isField_padded 1 n).noBlank cs)

theorem pair?_padded {n : Nat} (h : n < 100) (cs : List Char) :
    InternalDate.pair? (chars (Stamp.padded 2 n) ++ cs) = some (n, cs) := by
  rw [InternalDate.pair?, skipBlanks_padded]
  exact number?_padded (by decide) h cs

theorem pair?_space {n : Nat} (h : n < 100) (cs : List Char) :
    InternalDate.pair? (' ' :: (chars (Stamp.padded 2 n) ++ cs)) = some (n, cs) := by
  rw [InternalDate.pair?, skipBlanks_space ((isField_padded 1 n).noBlank cs)]
  exact number?_padded (by decide) h cs

/-- A number of two digits begins with a digit. -/
theorem padded_eq_cons (n : Nat) :
    ∃ c rest, chars (Stamp.padded 2 n) = c :: rest ∧ isDigit c = true := by
  have hall : (chars (Stamp.padded 2 n)).all isDigit = true := by
    rw [all_isDigit_chars, Decimal.all_isDigit_padded]
  obtain ⟨c, rest, hcons⟩ : ∃ c rest, chars (Stamp.padded 2 n) = c :: rest :=
    List.exists_cons_of_ne_nil fun hnil => (isField_padded 1 n).ne_nil (List.map_eq_nil_iff.1 hnil)
  rw [hcons] at hall
  exact ⟨c, rest, hcons, List.all_eq_true.1 hall c List.mem_cons_self⟩

/-- Nothing stands between the hours of an offset and its minutes. -/
theorem skipGap_padded (n : Nat) (cs : List Char) :
    InternalDate.skipGap (chars (Stamp.padded 2 n) ++ cs) = chars (Stamp.padded 2 n) ++ cs := by
  obtain ⟨c, rest, hcons, hdigit⟩ := padded_eq_cons n
  have hblank : Text.isBlank c = false := by
    have hfront := (isField_padded 1 n).front
    rw [hcons] at hfront
    exact hfront
  have hcolon : c ≠ ':' := by
    rintro rfl
    exact absurd hdigit (by decide)
  rw [hcons]
  exact List.dropWhile_cons_of_neg (by simp [hblank, hcolon])

/-- A date that begins with a number has no day of the week. -/
theorem weekdayBefore?_padded (n : Nat) (cs : List Char) :
    MessageDate.weekdayBefore? (chars (Stamp.padded 2 n) ++ cs) =
      some (none, chars (Stamp.padded 2 n) ++ cs) := by
  obtain ⟨c, rest, hcons, hdigit⟩ := padded_eq_cons n
  have hnone : nameIndex? Stamp.weekdayNames (chars (Stamp.padded 2 n) ++ cs) = none := by
    rw [Option.eq_none_iff_forall_ne_some]
    intro i hi
    obtain ⟨-, hletters⟩ := letters_of_nameIndex? (by decide +kernel) hi
    rw [hcons] at hletters
    have hletter : isLetter c = true := List.all_eq_true.1 hletters c (by simp)
    rw [isLetter_eq_false hdigit] at hletter
    cases hletter
  rw [MessageDate.weekdayBefore?, weekday?, hnone]
  rfl

/-- The digits of the year, as characters. -/
theorem chars_year : (chars d.year).all isDigit = true ∧
    ((chars d.year).length = 2 ∨ (chars d.year).length = 3) ∧
      value (chars d.year) < Decimal.signedSize := by
  have hall : (chars d.year).all isDigit = true := by rw [all_isDigit_chars, d.year_digits]
  have hlength : (chars d.year).length = 2 ∨ (chars d.year).length = 3 := by
    rw [chars, List.length_map]
    exact d.year_length
  exact ⟨hall, hlength, Nat.lt_trans (value_lt_meantYear hall hlength).1 (by decide)⟩

theorem digits?_year (cs : List Char) :
    digits? 2 (chars d.year ++ ' ' :: cs) =
      some ((d.writtenYear, (chars d.year).length), ' ' :: cs) := by
  obtain ⟨hall, hlength, hvalue⟩ := d.chars_year
  exact digits?_append hall (by omega) (NoDigit.space cs) hvalue

theorem year?_year (cs : List Char) :
    InternalDate.year? (chars d.year ++ ' ' :: cs) = some ((d.writtenYear : Int), ' ' :: cs) := by
  obtain ⟨hall, hlength, hvalue⟩ := d.chars_year
  exact InternalDate.year?_digits d.year_digits d.isField_year.ne_nil (by omega) hvalue cs

/-! ### The stricter forms -/

theorem bind_of_eq_some {α β : Type} {x : Option α} {a : α} (h : x = some a) (f : α → Option β) :
    x.bind f = f a := by
  rw [h, Option.bind_some]

theorem bind_of_eq_none {α β : Type} {x : Option α} (h : x = none) (f : α → Option β) :
    x.bind f = none := by
  rw [h, Option.bind_none]

/-- The offset ends the text. -/
theorem offset_end {minuses : List Char} {skip : List Char → List Char}
    (hminus : minuses.contains '-' = true)
    (hskip : ∀ n cs, skip (chars (Stamp.padded 2 n) ++ cs) = chars (Stamp.padded 2 n) ++ cs) :
    offset? minuses skip (chars (Stamp.offsetBytes d.offset)) = some (d.offset, []) := by
  have hread := offset?_offsetBytes hminus hskip d.isOffset_offset d.offset_minutes []
  rwa [List.append_nil] at hread

/-- **With spaces** a date is one of a message header, as far as colons stand in its time. -/
theorem message_spaces {mark : UInt8} (hmark : mark = colon ∨ mark = dot) :
    MessageDate.read? (chars (d.spelled Bytes.space mark)) =
      if mark = colon then d.at? d.meantYear else none := by
  have hmonth : ∀ cs, NoBlank (chars (Stamp.monthBytes d.month) ++ cs) :=
    (isField_monthBytes d.month_pos d.month_le).noBlank
  have hzone := MessageDate.zone?_offsetBytes d.isOffset_offset d.offset_minutes []
  rw [List.append_nil] at hzone
  have hyear : MessageDate.fullYear d.writtenYear (chars d.year).length = d.meantYear :=
    fullYear_eq_meantYear d.chars_year.2.1
  rw [chars_spelled, chars_dateBytes, chars_timeBytes]
  refine (bind_of_eq_some (by
    rw [skipBlanks_padded]
    exact weekdayBefore?_padded d.day _) _).trans ?_
  refine (bind_of_eq_some (by
    rw [skipBlanks_padded]
    exact number?_padded (by decide) d.day_lt _) _).trans ?_
  refine (bind_of_eq_some (blanks?_space (hmonth _)) _).trans ?_
  refine (bind_of_eq_some (month?_append d.month_pos d.month_le _) _).trans ?_
  refine (bind_of_eq_some (blanks?_space (d.isField_year.noBlank _)) _).trans ?_
  refine (bind_of_eq_some (d.digits?_year _) _).trans ?_
  refine (bind_of_eq_some (blanks?_space ((isField_padded 1 _).noBlank _)) _).trans ?_
  refine (bind_of_eq_some (number?_padded (Nat.le_refl 2) d.hour_lt _) _).trans ?_
  rcases hmark with rfl | rfl
  · rw [if_pos rfl]
    refine (bind_of_eq_some (MessageDate.colon? _) _).trans ?_
    refine (bind_of_eq_some (by
      rw [skipBlanks_padded]
      exact number?_padded (Nat.le_refl 2) d.minute_lt _) _).trans ?_
    refine (bind_of_eq_some (number?_padded (Nat.le_refl 2) d.second_lt _) _).trans ?_
    refine (bind_of_eq_some (blanks?_space (isField_offsetBytes d.offset).front) _).trans ?_
    refine (bind_of_eq_some hzone _).trans ?_
    -- nothing is behind the zone, and there is no day of the week to be wrong
    simp only [hyear]
    exact Option.bind_fun_some (d.at? d.meantYear)
  · rw [if_neg (by decide)]
    exact bind_of_eq_none rfl _

/-- With dashes it is none: white space has to stand behind the day. -/
theorem message_dashes (mark : UInt8) :
    MessageDate.read? (chars (d.spelled Bytes.minus mark)) = none := by
  rw [chars_spelled, chars_dateBytes]
  refine (bind_of_eq_some (by
    rw [skipBlanks_padded]
    exact weekdayBefore?_padded d.day _) _).trans ?_
  refine (bind_of_eq_some (by
    rw [skipBlanks_padded]
    exact number?_padded (by decide) d.day_lt _) _).trans ?_
  exact bind_of_eq_none rfl _

/-- **With dashes** a date is in wire form, with the year as it is written, as far as colons stand in
    its time. -/
theorem internal_dashes {mark : UInt8} (hmark : mark = colon ∨ mark = dot) :
    InternalDate.read? (chars (d.spelled Bytes.minus mark)) =
      if mark = colon then d.at? d.writtenYear else none := by
  rw [chars_spelled, chars_dateBytes, chars_timeBytes]
  refine (bind_of_eq_some (pair?_padded d.day_lt _) _).trans ?_
  refine (bind_of_eq_some rfl _).trans ?_
  refine (bind_of_eq_some (month?_append d.month_pos d.month_le _) _).trans ?_
  refine (bind_of_eq_some rfl _).trans ?_
  refine (bind_of_eq_some (d.year?_year _) _).trans ?_
  refine (bind_of_eq_some (pair?_space d.hour_lt _) _).trans ?_
  rcases hmark with rfl | rfl
  · rw [if_pos rfl]
    refine (bind_of_eq_some rfl _).trans ?_
    refine (bind_of_eq_some (pair?_padded d.minute_lt _) _).trans ?_
    refine (bind_of_eq_some rfl _).trans ?_
    refine (bind_of_eq_some (pair?_padded d.second_lt _) _).trans ?_
    refine (bind_of_eq_some (by
      rw [skipBlanks_space (isField_offsetBytes d.offset).front]
      exact d.offset_end (by decide) skipGap_padded) _).trans ?_
    exact Option.bind_fun_some (d.at? d.writtenYear)
  · rw [if_neg (by decide)]
    exact bind_of_eq_none rfl _

/-- With spaces it is not: a dash has to stand behind the day. -/
theorem internal_spaces (mark : UInt8) :
    InternalDate.read? (chars (d.spelled Bytes.space mark)) = none := by
  rw [chars_spelled, chars_dateBytes]
  refine (bind_of_eq_some (pair?_padded d.day_lt _) _).trans ?_
  exact bind_of_eq_none rfl _

/-! ### The loose form -/

/-- A name of a zone begins with a letter. -/
theorem zoneHours?_eq_none {c : Char} {cs : List Char} (h : isLetter c.toUpper = false) :
    zoneHours? (c :: cs) = none := by
  have hhead : ∀ {name : String}, String.ofList ((c :: cs).map Char.toUpper) = name →
      ∀ d ∈ name.toList.head?, isLetter d = false := by
    rintro name rfl d hd
    rw [String.toList_ofList] at hd
    exact Option.some.inj hd ▸ h
  unfold zoneHours?
  split
  all_goals first
    | rfl
    | next heq => exact absurd (hhead heq _ rfl) (by decide)

theorem wholeNumber?_digits {ds : Bytes} (hdigits : ds.all Bytes.isDigit = true) (hne : ds ≠ [])
    (hsmall : Decimal.value ds < UInt32.size) :
    wholeNumber? (chars ds) = some (Decimal.value ds) := by
  have hall : (chars ds).all isDigit = true := by rw [all_isDigit_chars, hdigits]
  obtain ⟨c, rest, hcons⟩ : ∃ c rest, chars ds = c :: rest :=
    List.exists_cons_of_ne_nil fun hnil => hne (List.map_eq_nil_iff.1 hnil)
  have hplus : (chars ds).head? ≠ some '+' := by
    rw [hcons] at hall ⊢
    intro heq
    obtain rfl := Option.some.inj heq
    exact absurd (List.all_eq_true.1 hall '+' List.mem_cons_self) (by decide)
  have hempty : (chars ds).isEmpty = false := by rw [hcons]; rfl
  simp only [wholeNumber?, if_neg hplus, hempty, hall, Bool.not_false, Bool.and_self, if_true,
    valueBelow?_eq, value_chars, if_pos hsmall]

theorem wholeNumber?_padded {n : Nat} (h : n < 100) :
    wholeNumber? (chars (Stamp.padded 2 n)) = some n := by
  have hsmall : n < UInt32.size := Nat.lt_trans h (by decide)
  have hread := wholeNumber?_digits (Decimal.all_isDigit_padded 2 n) (isField_padded 1 n).ne_nil
    (by rwa [Decimal.value_padded])
  rwa [Decimal.value_padded] at hread

/-- The time is cut at its marks. -/
theorem time?_padded {mark : UInt8} (hmark : mark = colon ∨ mark = dot) {hour minute second : Nat}
    (hhour : hour < 100) (hminute : minute < 100) (hsecond : second < 100) :
    LooseDate.time? (chars (Stamp.padded 2 hour) ++ Char.ofNat mark.toNat ::
        (chars (Stamp.padded 2 minute) ++ Char.ofNat mark.toNat :: chars (Stamp.padded 2 second))) =
      if second < 60 then some (hour, minute, second) else none := by
  have hdigits : ∀ n, ∀ c ∈ chars (Stamp.padded 2 n), (c == ':' || c == '.') = false := by
    intro n c hc
    have hall : (chars (Stamp.padded 2 n)).all isDigit = true := by
      rw [all_isDigit_chars, Decimal.all_isDigit_padded]
    have hdigit := List.all_eq_true.1 hall c hc
    refine Bool.eq_false_iff.2 fun hmark => ?_
    rw [Bool.or_eq_true, beq_iff_eq, beq_iff_eq] at hmark
    rcases hmark with rfl | rfl <;> exact absurd hdigit (by decide)
  have hsplits : (fun c => c == ':' || c == '.') (Char.ofNat mark.toNat) = true := by
    rcases hmark with rfl | rfl <;> decide
  have hnumbers : [chars (Stamp.padded 2 hour), chars (Stamp.padded 2 minute),
      chars (Stamp.padded 2 second)].mapM wholeNumber? = some [hour, minute, second] := by
    simp only [List.mapM_cons, List.mapM_nil, wholeNumber?_padded hhour,
      wholeNumber?_padded hminute, wholeNumber?_padded hsecond]
    rfl
  unfold LooseDate.time?
  rw [List.splitOnP_append_cons_of_forall_mem (hdigits _) _ hsplits,
    List.splitOnP_append_cons_of_forall_mem (hdigits _) _ hsplits,
    List.splitOnP_eq_singleton (hdigits _), hnumbers]
  rfl

theorem time?_timeBytes {mark : UInt8} (hmark : mark = colon ∨ mark = dot) :
    LooseDate.time? (chars (d.timeBytes mark)) =
      if d.second < 60 then some (d.hour, d.minute, d.second) else none := by
  have htext := d.chars_timeBytes mark []
  rw [List.append_nil, List.append_nil] at htext
  rw [htext]
  exact time?_padded hmark d.hour_lt d.minute_lt d.second_lt

/-- A zone of four digits behind a sign. -/
theorem zone?_cons {sign : Char} {ds : List Char} (hsign : sign = '-' ∨ sign = '+')
    (hlength : ds.length = 4) (hall : ds.all isDigit = true) :
    LooseDate.zone? (sign :: ds) =
      some (if sign = '-' then -((value (ds.take 2) * 3600 + value (ds.drop 2) * 60 : Nat) : Int)
        else (value (ds.take 2) * 3600 + value (ds.drop 2) * 60 : Nat)) := by
  have hletter : isLetter sign.toUpper = false ∧ sign.toUpper ≠ 'U' := by
    rcases hsign with rfl | rfl <;> decide
  have hutc : (sign :: ds).map Char.toUpper ≠ ['U', 'T', 'C'] :=
    fun heq => hletter.2 (List.cons.inj heq).1
  unfold LooseDate.zone?
  rw [if_neg hutc, zoneHours?_eq_none hletter.1]
  rcases hsign with rfl | rfl <;> simp [hlength, hall]

/-- Hours and minutes in four digits. -/
theorem chars_pair {hours minutes : Nat} (hhours : hours < 100) (hminutes : minutes < 100) :
    (chars (Stamp.padded 2 hours ++ Stamp.padded 2 minutes)).length = 4 ∧
      (chars (Stamp.padded 2 hours ++ Stamp.padded 2 minutes)).all isDigit = true ∧
      value ((chars (Stamp.padded 2 hours ++ Stamp.padded 2 minutes)).take 2) = hours ∧
      value ((chars (Stamp.padded 2 hours ++ Stamp.padded 2 minutes)).drop 2) = minutes := by
  obtain ⟨hall, hlength, hvalue⟩ := chars_padded (k := 1) hhours
  obtain ⟨hall', hlength', hvalue'⟩ := chars_padded (k := 1) hminutes
  rw [chars_append, List.length_append, List.all_append, hlength, hlength', hall, hall',
    List.take_left' hlength, List.drop_left' hlength]
  exact ⟨rfl, rfl, hvalue, hvalue'⟩

theorem zone?_pair {sign : Char} (hsign : sign = '-' ∨ sign = '+') {hours minutes : Nat}
    (hhours : hours < 100) (hminutes : minutes < 100) :
    LooseDate.zone? (sign :: chars (Stamp.padded 2 hours ++ Stamp.padded 2 minutes)) =
      some (if sign = '-' then -((hours * 3600 + minutes * 60 : Nat) : Int)
        else (hours * 3600 + minutes * 60 : Nat)) := by
  obtain ⟨hlength, hall, hvalue, hvalue'⟩ := chars_pair hhours hminutes
  rw [zone?_cons hsign hlength hall, hvalue, hvalue']

theorem zone?_offsetBytes : LooseDate.zone? (chars (Stamp.offsetBytes d.offset)) = some d.offset := by
  obtain ⟨hours, minutes, hhours, hbelow, hseconds, hbytes⟩ :=
    offsetBytes_eq d.isOffset_offset d.offset_minutes
  have hzone : ∀ sign, sign = '-' ∨ sign = '+' →
      LooseDate.zone? (sign :: chars (Stamp.padded 2 hours ++ Stamp.padded 2 minutes)) =
        some (if sign = '-' then -(d.offset.natAbs : Int) else d.offset.natAbs) := by
    intro sign hsign
    rw [zone?_pair hsign hhours (Nat.lt_trans hbelow (by decide)), hseconds]
  rw [hbytes]
  by_cases hneg : d.offset < 0
  · rw [if_pos hneg]
    exact (hzone '-' (.inl rfl)).trans (congrArg some (by rw [if_pos rfl]; omega))
  · rw [if_neg hneg]
    exact (hzone '+' (.inr rfl)).trans (congrArg some (by rw [if_neg (by decide)]; omega))

/-- A byte that stands in a word, dashes included. -/
def isWordByte (b : UInt8) : Bool := 0x21 ≤ b && b < 0x80 && b != 0x2C

/-- Stands in a word of a date, and holds no dash. -/
structure IsWord (bs : Bytes) : Prop where
  ne_nil : chars bs ≠ []
  word : bs.all isWordByte = true
  whole : '-' ∉ chars bs

/-- What is written with such bytes is not cut at blanks. -/
theorem parts_of_isWordByte {bs : Bytes} (h : bs.all isWordByte = true) (hne : chars bs ≠ []) :
    LooseDate.parts (fun c => Text.isAsciiBlank c || c == ',') (chars bs) = [chars bs] := by
  have hall : ∀ b : UInt8, isWordByte b = true →
      (Text.isAsciiBlank (Char.ofNat b.toNat) || Char.ofNat b.toNat == ',') = false :=
    Bytes.forall_of_fin (by decide +kernel)
  refine LooseDate.parts_of_word hne fun c hc => ?_
  obtain ⟨b, hb, rfl⟩ := List.mem_map.1 hc
  exact hall b (List.all_eq_true.1 h b hb)

/-- A word without a dash is not cut at dashes. -/
theorem IsWord.parts_dash {bs : Bytes} (h : IsWord bs) :
    LooseDate.parts (· == '-') (chars bs) = [chars bs] := by
  refine LooseDate.parts_of_word h.ne_nil fun c hc => ?_
  rw [beq_eq_false_iff_ne]
  rintro rfl
  exact h.whole hc

theorem isWord_of_digits {ds : Bytes} (h : ds.all Bytes.isDigit = true) (hne : ds ≠ []) :
    IsWord ds := by
  have hdigit : ∀ b : UInt8, Bytes.isDigit b = true →
      isWordByte b = true ∧ Char.ofNat b.toNat ≠ '-' := Bytes.forall_of_fin (by decide +kernel)
  refine ⟨fun hnil => hne (List.map_eq_nil_iff.1 hnil), ?_, ?_⟩
  · exact List.all_eq_true.2 fun b hb => (hdigit b (List.all_eq_true.1 h b hb)).1
  · intro hmem
    obtain ⟨b, hb, heq⟩ := List.mem_map.1 hmem
    exact (hdigit b (List.all_eq_true.1 h b hb)).2 heq

theorem isWord_padded (n : Nat) : IsWord (Stamp.padded 2 n) :=
  isWord_of_digits (Decimal.all_isDigit_padded 2 n) (isField_padded 1 n).ne_nil

theorem isWord_year : IsWord d.year := isWord_of_digits d.year_digits d.isField_year.ne_nil

/-- The name of a month is a word, and that of the month. -/
theorem isWord_monthBytes :
    IsWord (Stamp.monthBytes d.month) ∧ monthOf? (chars (Stamp.monthBytes d.month)) = some d.month := by
  have hall : ∀ m ∈ List.range 12, (chars (Stamp.monthBytes (m + 1)) ≠ [] ∧
      (Stamp.monthBytes (m + 1)).all isWordByte = true ∧ '-' ∉ chars (Stamp.monthBytes (m + 1))) ∧
        monthOf? (chars (Stamp.monthBytes (m + 1))) = some (m + 1) := by decide +kernel
  obtain ⟨⟨hne, hword, hwhole⟩, hmonth⟩ :=
    hall (d.month - 1) (List.mem_range.2 (by have := d.month_le; omega))
  rw [Nat.sub_add_cancel d.month_pos] at hne hword hwhole hmonth
  exact ⟨⟨hne, hword, hwhole⟩, hmonth⟩

/-- Two words with a mark between them are one word. -/
theorem IsWord.append {a b : Bytes} {mark : UInt8} (ha : IsWord a) (hmark : mark = colon ∨ mark = dot)
    (hb : IsWord b) : IsWord (a ++ [mark] ++ b) := by
  have hword : [mark].all isWordByte = true ∧ '-' ∉ chars [mark] := by
    rcases hmark with rfl | rfl <;> decide
  refine ⟨?_, ?_, ?_⟩
  · rw [chars_append, chars_append]
    exact List.append_ne_nil_of_right_ne_nil _ hb.ne_nil
  · simp only [List.all_append, ha.word, hword, hb.word, Bool.and_self]
  · simp only [chars_append, List.mem_append, ha.whole, hword, hb.whole, or_self, not_false_eq_true]

theorem isWord_timeBytes {mark : UInt8} (hmark : mark = colon ∨ mark = dot) :
    IsWord (d.timeBytes mark) :=
  ((isWord_padded _).append hmark (isWord_padded _)).append hmark (isWord_padded _)

/-- An offset stands in a word, and is left whole behind its sign. -/
theorem splitDashes_offsetBytes : (Stamp.offsetBytes d.offset).all isWordByte = true ∧
    LooseDate.splitDashes (chars (Stamp.offsetBytes d.offset)) =
      [chars (Stamp.offsetBytes d.offset)] := by
  obtain ⟨hours, minutes, -, -, -, hbytes⟩ := offsetBytes_eq d.isOffset_offset d.offset_minutes
  have hdigits : (Stamp.padded 2 hours ++ Stamp.padded 2 minutes).all isWordByte = true := by
    rw [List.all_append, (isWord_padded hours).word, (isWord_padded minutes).word]
    rfl
  rw [hbytes, List.all_cons, hdigits]
  split
  · exact ⟨rfl, LooseDate.splitDashes_sign (.inl rfl) _⟩
  · exact ⟨rfl, LooseDate.splitDashes_sign (.inr rfl) _⟩

/-- A date is cut at its dashes: it begins with a digit. -/
theorem splitDashes_date {day month year : Bytes} (hday : day.all Bytes.isDigit = true)
    (hne : day ≠ []) (hmonth : IsWord month) (hyear : IsWord year) :
    LooseDate.splitDashes (chars day ++ '-' :: (chars month ++ '-' :: chars year)) =
      [chars day, chars month, chars year] := by
  have hword := isWord_of_digits hday hne
  obtain ⟨c, rest, hcons⟩ := List.exists_cons_of_ne_nil hword.ne_nil
  have hdigit : isDigit c = true := by
    rw [← all_isDigit_chars, hcons] at hday
    exact List.all_eq_true.1 hday c List.mem_cons_self
  have hcut : LooseDate.splitDashes (chars day ++ '-' :: (chars month ++ '-' :: chars year)) =
      LooseDate.parts (· == '-') (chars day ++ '-' :: (chars month ++ '-' :: chars year)) := by
    rw [hcons]
    rcases LooseDate.splitDashes_cases (List.cons_ne_nil c _) with hcut | ⟨-, -, hsign⟩
    · exact hcut
    · rcases hsign with hsign | hsign
      · obtain rfl := Option.some.inj hsign
        exact absurd hdigit (by decide)
      · obtain rfl := Option.some.inj hsign
        exact absurd hdigit (by decide)
  have hdash : ∀ a b : List Char, LooseDate.parts (· == '-') (a ++ '-' :: b) =
      LooseDate.parts (· == '-') a ++ LooseDate.parts (· == '-') b :=
    LooseDate.parts_append_cons (by decide)
  rw [hcut, hdash, hdash, hword.parts_dash, hmonth.parts_dash, hyear.parts_dash]
  rfl

/-- A date with dashes stands in a word, and is cut at them. -/
theorem splitDashes_dateBytes : (d.dateBytes Bytes.minus).all isWordByte = true ∧
    LooseDate.splitDashes (chars (d.dateBytes Bytes.minus)) =
      [chars (Stamp.padded 2 d.day), chars (Stamp.monthBytes d.month), chars d.year] := by
  have htext := d.chars_dateBytes Bytes.minus []
  rw [List.append_nil, List.append_nil] at htext
  constructor
  · simp only [dateBytes, List.all_append, (isWord_padded _).word, d.isWord_monthBytes.1.word,
      d.isWord_year.word, Bool.and_true]
    decide
  · rw [htext]
    exact splitDashes_date (Decimal.all_isDigit_padded 2 d.day) (isField_padded 1 d.day).ne_nil
      d.isWord_monthBytes.1 d.isWord_year

/-- The fields of the date, with a mark in its time. -/
def fields (timeMark : UInt8) : List (List Char) :=
  [chars (Stamp.padded 2 d.day), chars (Stamp.monthBytes d.month), chars d.year,
    chars (d.timeBytes timeMark), chars (Stamp.offsetBytes d.offset)]

/-- **Every spelling is cut into the same fields.** -/
theorem fields_spelled {dateMark timeMark : UInt8}
    (hdate : dateMark = Bytes.space ∨ dateMark = Bytes.minus)
    (htime : timeMark = colon ∨ timeMark = dot) :
    LooseDate.fields (chars (d.spelled dateMark timeMark)) = d.fields timeMark := by
  have htimeWord := d.isWord_timeBytes htime
  obtain ⟨hoffsetWord, hoffsetWhole⟩ := d.splitDashes_offsetBytes
  obtain ⟨hdateWord, hdateCut⟩ := d.splitDashes_dateBytes
  have hblank : ∀ a b : List Char, LooseDate.parts (fun c => Text.isAsciiBlank c || c == ',')
      (a ++ ' ' :: b) = LooseDate.parts (fun c => Text.isAsciiBlank c || c == ',') a ++
        LooseDate.parts (fun c => Text.isAsciiBlank c || c == ',') b :=
    LooseDate.parts_append_cons (by decide)
  have hword : ∀ {w : Bytes}, IsWord w →
      LooseDate.parts (fun c => Text.isAsciiBlank c || c == ',') (chars w) = [chars w] :=
    fun hw => parts_of_isWordByte hw.word hw.ne_nil
  have hoffset := parts_of_isWordByte hoffsetWord fun hnil =>
    (isField_offsetBytes d.offset).ne_nil (List.map_eq_nil_iff.1 hnil)
  have hspace : Char.ofNat Bytes.space.toNat = ' ' := rfl
  rw [LooseDate.fields, chars_spelled]
  rcases hdate with rfl | rfl
  · rw [chars_dateBytes, hspace, hblank, hblank, hblank, hblank, hword (isWord_padded _),
      hword d.isWord_monthBytes.1, hword d.isWord_year, hword htimeWord, hoffset]
    simp only [List.flatMap_append, List.flatMap_singleton, hoffsetWhole,
      LooseDate.splitDashes_of_not_mem (isWord_padded _).whole,
      LooseDate.splitDashes_of_not_mem d.isWord_monthBytes.1.whole,
      LooseDate.splitDashes_of_not_mem d.isWord_year.whole,
      LooseDate.splitDashes_of_not_mem htimeWord.whole]
    rfl
  · have hdate := parts_of_isWordByte hdateWord fun hnil =>
      (d.isField_dateBytes (.inr rfl)).ne_nil (List.map_eq_nil_iff.1 hnil)
    rw [hblank, hblank, hdate, hword htimeWord, hoffset]
    simp only [List.flatMap_append, List.flatMap_singleton, hoffsetWhole, hdateCut,
      LooseDate.splitDashes_of_not_mem htimeWord.whole]
    rfl

/-- The day is no month, and stays in front. -/
theorem dayFirst_fields (timeMark : UInt8) :
    LooseDate.dayFirst (LooseDate.dropWord (d.fields timeMark)) = d.fields timeMark := by
  obtain ⟨hall, hlength, -⟩ := chars_padded (k := 1) d.day_lt
  have hnotMonth : monthOf? (chars (Stamp.padded 2 d.day)) = none := by
    rw [Option.eq_none_iff_forall_ne_some]
    intro m hm
    -- a month has three letters
    have hthree := (letters_of_monthOf? hm).1
    rw [List.length_take, hlength] at hthree
    omega
  rw [fields, dropWord_of_digits (isWord_padded _).ne_nil hall, LooseDate.dayFirst, hnotMonth]
  rfl

/-- The digits of the year are read by the rule of the loose form. -/
theorem looseYear_year : LooseDate.year? (chars d.year) =
    some (if d.year.length = 2 then d.meantYear else d.writtenYear) := by
  obtain ⟨hall, hshort, -⟩ := d.chars_year
  have hlength : (chars d.year).length = d.year.length := List.length_map _
  rw [LooseDate.year?, if_pos ⟨by omega, by omega, hall⟩, hlength]
  by_cases htwo : d.year.length = 2 <;>
    simp [htwo, meantYear, DateField.meantYear, writtenYear, hlength]

/-- **In every spelling** a date is loosely written. -/
theorem loose_spelled {dateMark timeMark : UInt8}
    (hdate : dateMark = Bytes.space ∨ dateMark = Bytes.minus)
    (htime : timeMark = colon ∨ timeMark = dot) :
    LooseDate.read? (chars (d.spelled dateMark timeMark)) = d.loosely? := by
  unfold LooseDate.read?
  rw [d.fields_spelled hdate htime, dayFirst_fields]
  dsimp only [fields]
  rw [looseYear_year, d.isWord_monthBytes.2, wholeNumber?_padded d.day_lt, d.time?_timeBytes htime,
    d.zone?_offsetBytes, loosely?]
  -- no leap second is read loosely
  by_cases hsecond : d.second < 60
  · rw [if_pos hsecond, if_pos hsecond]
    rfl
  · rw [if_neg hsecond, if_neg hsecond]
    rfl

/-! ### All forms -/

/-- **What a spelling is read as.**  With colons the year depends on the marks of the date, with dots
    it does not. -/
theorem read?_spelled {dateMark timeMark : UInt8}
    (hdate : dateMark = Bytes.space ∨ dateMark = Bytes.minus)
    (htime : timeMark = colon ∨ timeMark = dot) :
    Stamp.read? (d.spelled dateMark timeMark) false =
      (if timeMark = colon then d.at? (if dateMark = Bytes.space then d.meantYear else d.writtenYear)
        else none).or d.loosely? := by
  have hread : Stamp.readAs? (chars (d.spelled dateMark timeMark)) =
      (if timeMark = colon then d.at? (if dateMark = Bytes.space then d.meantYear else d.writtenYear)
        else none).or d.loosely? := by
    have hfirst : ∀ x y : Option Stamp, (x <|> none <|> y) = x.or y := by
      intro x y
      cases x <;> rfl
    have hsecond : ∀ x y : Option Stamp, (none <|> x <|> y) = x.or y := by
      intro x y
      cases x <;> rfl
    rw [Stamp.readAs?, d.loose_spelled hdate htime]
    rcases hdate with rfl | rfl
    · rw [d.message_spaces htime, d.internal_spaces, if_pos rfl]
      exact hfirst _ _
    · have hne : Bytes.minus ≠ Bytes.space := by decide
      rw [d.message_dashes, d.internal_dashes htime, if_neg hne]
      exact hsecond _ _
  rw [Stamp.read?, Stamp.dateText_eq (d.isField_spelled hdate htime), hread]
  exact Option.map_id'

end ShortDate

end ImapWire
