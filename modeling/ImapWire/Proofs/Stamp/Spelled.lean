/-
  The tolerated spellings of a date.

  Mail programs write one and the same date in many ways.  `Spelled.OfText` says which of them are
  tolerated, without any reader in mind: a text is made of a word for the day of the week (or any
  other word that is no month), a date with spaces or with dashes, a time with colons or with dots, a
  zone or none, and perhaps a comment.

  The second half says what each part looks like to a reader of fields, with anything behind it: a
  run of spaces is skipped (`IsGap.skipBlanks`), a word is cut off at the run behind it
  (`IsGap.fields`), the name of a month or of a zone is known in any case
  (`monthOf?_of_month`, `zoneHours?_of_name`).
-/
import ImapWire.Proofs.Stamp.Respelled

namespace ImapWire

open DateField

namespace Spelled

/-! ## What may be written -/

abbrev comma : UInt8 := 0x2C

/-- Spaces, at least one. -/
def IsGap (bs : Bytes) : Prop := bs ≠ [] ∧ ∀ b ∈ bs, b = Bytes.space

/-- In front of the date: nothing, or a word that does not begin with the name of a month, with
    spaces and commas behind it. -/
inductive Front : Bytes → Prop
  | none : Front []
  | word {w marks : Bytes} (hne : w ≠ []) (hletters : (chars w).all isLetter = true)
      (hmonth : ∀ name ∈ Stamp.monthNames, Bytes.sameName (w.take 3) (Bytes.ofString name) = false)
      (hmarks : marks ≠ []) (hseparate : ∀ b ∈ marks, b = Bytes.space ∨ b = comma) :
      Front (w ++ marks)

/-- The day in one or two digits, the name of the month in any case, the year in four digits. -/
structure DateFields (d : Date) (day month year : Bytes) : Prop where
  day_digits : day.all Bytes.isDigit = true
  day_length : day.length = 1 ∨ day.length = 2
  day_value : Decimal.value day = d.day
  month_name : Bytes.sameName month (Stamp.monthBytes d.month) = true
  year_digits : year.all Bytes.isDigit = true
  year_length : year.length = 4
  year_value : (Decimal.value year : Int) = d.year

/-- A date, with spaces or with dashes between its fields. -/
inductive OfDate (d : Date) : Bytes → Prop
  | spaces {day month year gap gap' : Bytes} (hfields : DateFields d day month year)
      (hgap : IsGap gap) (hgap' : IsGap gap') : OfDate d (day ++ gap ++ month ++ gap' ++ year)
  | dashes {day month year : Bytes} (hfields : DateFields d day month year) :
      OfDate d (day ++ [Bytes.minus] ++ month ++ [Bytes.minus] ++ year)

/-- A time in three times two digits, with colons or with dots between them. -/
inductive OfTime (c : Clock) : Bytes → Prop
  | marks {mark : UInt8} (hmark : mark = ShortDate.colon ∨ mark = ShortDate.dot) :
      OfTime c (Stamp.padded 2 c.hour ++ [mark] ++ Stamp.padded 2 c.minute ++ [mark] ++
        Stamp.padded 2 c.second)

/-- The zones that have a name, in hours. -/
def zoneNames : List (String × Int) :=
  [("UT", 0), ("GMT", 0), ("EST", -5), ("EDT", -4), ("CST", -6), ("CDT", -5), ("MST", -7),
    ("MDT", -6), ("PST", -8), ("PDT", -7)]

/-- Hours and minutes, in seconds. -/
def seconds (hours minutes : Nat) : Int := (hours * 3600 + minutes * 60 : Nat)

/-- A zone behind spaces: an offset with or without a sign, or a name in any case.  No zone at all is
    UTC. -/
inductive OfZone : Int → Bytes → Prop
  | absent : OfZone 0 []
  | east {gap : Bytes} (hgap : IsGap gap) {hours minutes : Nat} (hhours : hours < 24)
      (hminutes : minutes < 60) : OfZone (seconds hours minutes)
        (gap ++ Bytes.plus :: (Stamp.padded 2 hours ++ Stamp.padded 2 minutes))
  | west {gap : Bytes} (hgap : IsGap gap) {hours minutes : Nat} (hhours : hours < 24)
      (hminutes : minutes < 60) : OfZone (-seconds hours minutes)
        (gap ++ Bytes.minus :: (Stamp.padded 2 hours ++ Stamp.padded 2 minutes))
  | unsigned {gap : Bytes} (hgap : IsGap gap) {hours minutes : Nat} (hhours : hours < 24)
      (hminutes : minutes < 60) : OfZone (seconds hours minutes)
        (gap ++ (Stamp.padded 2 hours ++ Stamp.padded 2 minutes))
  | named {gap : Bytes} (hgap : IsGap gap) {name : String} {hours : Int} {zone : Bytes}
      (hname : (name, hours) ∈ zoneNames)
      (hzone : Bytes.sameName zone (Bytes.ofString name) = true) :
      OfZone (hours * 3600) (gap ++ zone)

/-- A whole text: with spaces around it, and a comment of any bytes behind it. -/
inductive OfText (c : Clock) (offset : Int) : Bytes → Prop
  | parts {before after : Nat} {front date gap time zone comment : Bytes} (hfront : Front front)
      (hdate : OfDate c.date date) (hgap : IsGap gap) (htime : OfTime c time)
      (hzone : OfZone offset zone) (hcomment : ∀ b ∈ comment.head?, b = Bytes.openRound) :
      OfText c offset (List.replicate before Bytes.space ++
        (front ++ (date ++ (gap ++ (time ++ zone)))) ++
        List.replicate after Bytes.space ++ comment)

/-! ## Letters and names -/

theorem chars_injective : Function.Injective chars := by
  refine List.map_injective_iff.2 fun a b hab => ?_
  have hnat := congrArg Char.toNat hab
  rw [toNat_ofNat, toNat_ofNat] at hnat
  exact UInt8.toNat_inj.1 hnat

theorem chars_lower (bs : Bytes) : chars (Bytes.lower bs) = (chars bs).map Char.toLower := by
  have hall : ∀ b : UInt8, Char.ofNat (Bytes.lowerByte b).toNat = (Char.ofNat b.toNat).toLower :=
    Bytes.forall_of_fin (by decide +kernel)
  simp only [chars, Bytes.lower, List.map_map, Function.comp_def, hall]

/-- The same name has the same characters, up to their case. -/
theorem map_toLower_of_sameName {a b : Bytes} (h : Bytes.sameName a b = true) :
    (chars a).map Char.toLower = (chars b).map Char.toLower := by
  rw [← chars_lower, ← chars_lower, Bytes.sameName_iff.1 h]

theorem length_of_sameName {a b : Bytes} (h : Bytes.sameName a b = true) :
    (chars a).length = (chars b).length := by
  have hlower := congrArg List.length (map_toLower_of_sameName h)
  rwa [List.length_map, List.length_map] at hlower

theorem map_toUpper_of_sameName {a b : Bytes} (h : Bytes.sameName a b = true) :
    (chars a).map Char.toUpper = (chars b).map Char.toUpper := by
  have hall : ∀ b : UInt8, (Char.ofNat b.toNat).toUpper = (Char.ofNat b.toNat).toLower.toUpper :=
    Bytes.forall_of_fin (by decide +kernel)
  have hlowered : ∀ bs, (chars bs).map Char.toUpper =
      ((chars bs).map Char.toLower).map Char.toUpper := by
    intro bs
    simp only [chars, List.map_map]
    exact List.map_congr_left fun b _ => hall b
  rw [hlowered a, hlowered b, map_toLower_of_sameName h]

theorem all_isLetter_of_sameName {a b : Bytes} (h : Bytes.sameName a b = true)
    (hb : (chars b).all isLetter = true) : (chars a).all isLetter = true := by
  have hlowered : ∀ cs : List Char, (cs.map Char.toLower).all isLetter = cs.all isLetter := by
    intro cs
    have halpha : isLetter = Char.isAlpha := funext isLetter_eq_isAlpha
    rw [List.all_map, halpha]
    exact congrArg cs.all (funext Char.isAlpha_toLower_eq_isAlpha)
  rw [← hlowered, map_toLower_of_sameName h, hlowered, hb]

/-- The case of a name does not matter. -/
theorem nameIndex?_congr {names : List String} {a b : List Char}
    (h : a.map Char.toLower = b.map Char.toLower) : nameIndex? names a = nameIndex? names b := by
  simp only [nameIndex?, List.map_take, h]

/-- A letter is an ordinary byte of a date text. -/
theorem letter_byte : ∀ b : UInt8, isLetter (Char.ofNat b.toNat) = true →
    (isTextByte b = true ∧ Text.isBlank (Char.ofNat b.toNat) = false) ∧
      ShortDate.isWordByte b = true ∧ Char.ofNat b.toNat ≠ '-' :=
  Bytes.forall_of_fin (by decide +kernel)

section Letters

variable {w : Bytes}

theorem isLetter_of_mem (h : (chars w).all isLetter = true) {b : UInt8} (hb : b ∈ w) :
    isLetter (Char.ofNat b.toNat) = true :=
  List.all_eq_true.1 h _ (List.mem_map_of_mem hb)

theorem isField_of_letters (h : (chars w).all isLetter = true) (hne : w ≠ []) : IsField w :=
  isField_of_forall hne fun _ hb => (letter_byte _ (isLetter_of_mem h hb)).1

theorem isWord_of_letters (h : (chars w).all isLetter = true) (hne : w ≠ []) :
    ShortDate.IsWord w where
  ne_nil := fun hnil => hne (List.map_eq_nil_iff.1 hnil)
  word := List.all_eq_true.2 fun _ hb => (letter_byte _ (isLetter_of_mem h hb)).2.1
  whole := by
    intro hmem
    obtain ⟨b, hb, heq⟩ := List.mem_map.1 hmem
    exact (letter_byte b (isLetter_of_mem h hb)).2.2 heq

theorem noDigit_of_letters (h : (chars w).all isLetter = true) (hne : w ≠ []) (cs : List Char) :
    NoDigit (chars w ++ cs) := by
  obtain ⟨c, rest, hcons⟩ := List.exists_cons_of_ne_nil (isWord_of_letters h hne).ne_nil
  rw [hcons] at h ⊢
  exact Bool.eq_false_iff.2 fun hc => Bool.false_ne_true <|
    (isLetter_eq_false hc).symm.trans (List.all_eq_true.1 h c List.mem_cons_self)

end Letters

/-- A number begins with a digit. -/
theorem number?_eq_none {least most : Nat} (hleast : 0 < least) {cs : List Char} (h : NoDigit cs) :
    number? least most cs = none := by
  have hnone : cs.takeWhile isDigit = [] := by
    cases cs with
    | nil => rfl
    | cons c cs => exact List.takeWhile_cons_of_neg (Bool.not_eq_true _ ▸ h)
  have hshort : ¬ least ≤ ([] : List Char).length := Nat.not_le.2 hleast
  simp only [number?, hnone, List.take_nil, if_neg hshort]

/-- The name of a month, in any case, is read as the month. -/
theorem monthOf?_of_month {month : Nat} (hpos : 0 < month) (hle : month ≤ 12) {bs : Bytes}
    (h : Bytes.sameName bs (Stamp.monthBytes month) = true) :
    monthOf? (chars bs) = some month ∧ (chars bs).length = 3 ∧
      (chars bs).all isLetter = true := by
  have hall : ∀ m ∈ List.range 12, monthOf? (chars (Stamp.monthBytes (m + 1))) = some (m + 1) ∧
      (chars (Stamp.monthBytes (m + 1))).length = 3 ∧
        (chars (Stamp.monthBytes (m + 1))).all isLetter = true := by decide +kernel
  obtain ⟨hmonth, hlength, hletters⟩ := hall (month - 1) (List.mem_range.2 (by omega))
  rw [Nat.sub_add_cancel hpos] at hmonth hlength hletters
  refine ⟨?_, (length_of_sameName h).trans hlength, all_isLetter_of_sameName h hletters⟩
  rw [monthOf?, nameIndex?_congr (map_toLower_of_sameName h)]
  exact hmonth

/-- A word that does not begin with the name of a month is none. -/
theorem monthOf?_of_word {w : Bytes}
    (h : ∀ name ∈ Stamp.monthNames, Bytes.sameName (w.take 3) (Bytes.ofString name) = false) :
    monthOf? (chars w) = none := by
  have hall : ∀ name ∈ Stamp.monthNames,
      name.toList.map Char.toLower = chars (Bytes.lower (Bytes.ofString name)) := by decide +kernel
  rw [Option.eq_none_iff_forall_ne_some]
  intro month hmonth
  obtain ⟨i, hi, rfl⟩ := Option.map_eq_some_iff.1 hmonth
  obtain ⟨hlt, hname, -⟩ := List.findIdx?_eq_some_iff_getElem.1 hi
  have hmem : Stamp.monthNames[i] ∈ Stamp.monthNames := List.getElem_mem hlt
  have hfirst : chars (Bytes.lower (Bytes.ofString Stamp.monthNames[i])) =
      chars (Bytes.lower (w.take 3)) := by
    rw [← hall _ hmem, chars_lower]
    simpa [chars, List.map_take] using hname
  have hsame := Bytes.sameName_iff.2 (chars_injective hfirst).symm
  rw [h _ hmem] at hsame
  cases hsame

/-- The name of a zone, in any case, says how many hours it is off. -/
theorem zoneHours?_of_name {name : String} {hours : Int} {zone : Bytes}
    (hname : (name, hours) ∈ zoneNames)
    (hzone : Bytes.sameName zone (Bytes.ofString name) = true) :
    zoneHours? (chars zone) = some hours ∧ (chars zone).map Char.toUpper ≠ ['U', 'T', 'C'] ∧
      (chars zone).all isLetter = true ∧ zone ≠ [] := by
  have hall : ∀ z ∈ zoneNames, zoneHours? (chars (Bytes.ofString z.1)) = some z.2 ∧
      (chars (Bytes.ofString z.1)).map Char.toUpper ≠ ['U', 'T', 'C'] ∧
        (chars (Bytes.ofString z.1)).all isLetter = true ∧
          (chars (Bytes.ofString z.1)).length ≠ 0 := by decide +kernel
  obtain ⟨hhours, hutc, hletters, hlength⟩ := hall _ hname
  have hraised := map_toUpper_of_sameName hzone
  refine ⟨?_, hraised ▸ hutc, all_isLetter_of_sameName hzone hletters, ?_⟩
  · rw [← hhours]
    unfold zoneHours?
    rw [hraised]
  · rintro rfl
    exact hlength (length_of_sameName hzone).symm

/-! ## Gaps -/

theorem skipBlanks_append {run cs : List Char} (hrun : ∀ c ∈ run, Text.isBlank c = true)
    (hcs : NoBlank cs) : Text.skipBlanks (run ++ cs) = cs := by
  rw [Text.skipBlanks, List.dropWhile_append_of_pos hrun]
  exact skipBlanks_eq hcs

/-- Blanks and commas cut a text. -/
theorem fields_append_run {run : List Char} (hne : run ≠ [])
    (hrun : ∀ c ∈ run, (Text.isAsciiBlank c || c == ',') = true) (a b : List Char) :
    LooseDate.fields (a ++ (run ++ b)) = LooseDate.fields a ++ LooseDate.fields b := by
  rw [LooseDate.fields, LooseDate.parts_append_run hne hrun, List.flatMap_append]
  rfl

namespace IsGap

variable {gap : Bytes} {cs : List Char}

theorem eq_cons (h : IsGap gap) : ∃ rest, chars gap = ' ' :: rest := by
  obtain ⟨b, rest, rfl⟩ := List.exists_cons_of_ne_nil h.1
  rw [h.2 b List.mem_cons_self]
  exact ⟨chars rest, rfl⟩

theorem mem_chars (h : IsGap gap) {c : Char} (hc : c ∈ chars gap) : c = ' ' := by
  obtain ⟨b, hb, rfl⟩ := List.mem_map.1 hc
  rw [h.2 b hb]
  rfl

theorem text (h : IsGap gap) : gap.all isTextByte = true :=
  List.all_eq_true.2 fun b hb => h.2 b hb ▸ rfl

theorem noDigit (h : IsGap gap) (cs : List Char) : NoDigit (chars gap ++ cs) := by
  obtain ⟨rest, hcons⟩ := h.eq_cons
  rw [hcons]
  exact NoDigit.space _

theorem skipBlanks (h : IsGap gap) (hcs : NoBlank cs) :
    Text.skipBlanks (chars gap ++ cs) = cs :=
  skipBlanks_append (fun _ hc => h.mem_chars hc ▸ rfl) hcs

theorem blanks? (h : IsGap gap) (hcs : NoBlank cs) :
    DateField.blanks? (chars gap ++ cs) = some ((), cs) := by
  have hskip := h.skipBlanks hcs
  obtain ⟨rest, hcons⟩ := h.eq_cons
  rw [hcons, List.cons_append] at hskip ⊢
  exact congrArg (fun cs => some ((), cs)) hskip

/-- Words are cut apart at it. -/
theorem fields (h : IsGap gap) (a b : List Char) :
    LooseDate.fields (a ++ (chars gap ++ b)) = LooseDate.fields a ++ LooseDate.fields b := by
  obtain ⟨rest, hcons⟩ := h.eq_cons
  exact fields_append_run (by rw [hcons]; nofun) (fun c hc => h.mem_chars hc ▸ rfl) a b

end IsGap

/-- A word without a dash is a field of its own. -/
theorem fields_of_word {w : Bytes} (h : ShortDate.IsWord w) :
    LooseDate.fields (chars w) = [chars w] := by
  rw [LooseDate.fields, ShortDate.parts_of_isWordByte h.word h.ne_nil, List.flatMap_singleton,
    LooseDate.splitDashes_of_not_mem h.whole]

/-- A word in front is dropped, and nothing else if there is none. -/
theorem Front.dropWord {front : Bytes} (h : Front front) {rest : List Char}
    (hrest : LooseDate.dropWord (LooseDate.fields rest) = LooseDate.fields rest) :
    LooseDate.dropWord (LooseDate.fields (chars front ++ rest)) = LooseDate.fields rest := by
  cases h with
  | none => exact hrest
  | @word w marks hne hletters hmonth hmarks hseparate =>
    have hrun : ∀ c ∈ chars marks, (Text.isAsciiBlank c || c == ',') = true := by
      intro c hc
      obtain ⟨b, hb, rfl⟩ := List.mem_map.1 hc
      rcases hseparate b hb with rfl | rfl <;> rfl
    have hne' : chars marks ≠ [] := fun hnil => hmarks (List.map_eq_nil_iff.1 hnil)
    rw [chars_append, List.append_assoc, fields_append_run hne' hrun,
      fields_of_word (isWord_of_letters hletters hne)]
    exact dropWord_of_letters hletters (monthOf?_of_word hmonth)

/-! ## Dates -/

namespace DateFields

variable {d : Date} {day month year : Bytes}

theorem day_ne_nil (h : DateFields d day month year) : day ≠ [] := by
  rintro rfl
  have hlength := h.day_length
  simp at hlength

theorem year_ne_nil (h : DateFields d day month year) : year ≠ [] := by
  rintro rfl
  have hlength := h.year_length
  simp at hlength

theorem isField_day (h : DateFields d day month year) : IsField day :=
  isField_of_digits h.day_digits h.day_ne_nil

theorem isField_year (h : DateFields d day month year) : IsField year :=
  isField_of_digits h.year_digits h.year_ne_nil

theorem month_letters (h : DateFields d day month year) (hpos : 0 < d.month) (hle : d.month ≤ 12) :
    (chars month).all isLetter = true ∧ month ≠ [] := by
  obtain ⟨-, hlength, hletters⟩ := monthOf?_of_month hpos hle h.month_name
  refine ⟨hletters, ?_⟩
  rintro rfl
  cases hlength

theorem isField_month (h : DateFields d day month year) (hpos : 0 < d.month) (hle : d.month ≤ 12) :
    IsField month :=
  isField_of_letters (h.month_letters hpos hle).1 (h.month_letters hpos hle).2

theorem year_lt (h : DateFields d day month year) : Decimal.value year < 10000 := by
  have hnines := value_le_nines ((all_isDigit_chars year).trans h.year_digits)
  have hmost : value (List.replicate 4 '9') = 9999 := rfl
  rw [value_chars, chars, List.length_map, h.year_length, hmost] at hnines
  omega

theorem number?_day (h : DateFields d day month year) (hday : d.day < 100) {cs : List Char}
    (hcs : NoDigit cs) : number? 1 2 (chars day ++ cs) = some (d.day, cs) := by
  have hlength : (chars day).length = day.length := List.length_map _
  have hshort := h.day_length
  have hvalue : value (chars day) = d.day := by rw [value_chars, h.day_value]
  rw [number?_append (by rw [all_isDigit_chars, h.day_digits]) (by omega) (by omega) (.inr hcs)
    (by rw [hvalue]; exact Nat.lt_trans hday (by decide)), hvalue]

theorem pair?_day (h : DateFields d day month year) (hday : d.day < 100) {cs : List Char}
    (hcs : NoDigit cs) : InternalDate.pair? (chars day ++ cs) = some (d.day, cs) := by
  rw [InternalDate.pair?, skipBlanks_eq (h.isField_day.noBlank _)]
  exact h.number?_day hday hcs

theorem month?_month (h : DateFields d day month year) (hpos : 0 < d.month) (hle : d.month ≤ 12)
    (cs : List Char) : month? (chars month ++ cs) = some (d.month, cs) := by
  obtain ⟨hread, hlength, -⟩ := monthOf?_of_month hpos hle h.month_name
  have hsame : monthOf? (chars month ++ cs) = some d.month := by
    rw [← hread, monthOf?, nameIndex?_append _ hlength]
    rfl
  rw [month?, hsame, Option.map_some, List.drop_left' hlength]

theorem digits?_year (h : DateFields d day month year) {cs : List Char} (hcs : NoDigit cs) :
    digits? 2 (chars year ++ cs) = some ((Decimal.value year, 4), cs) := by
  have hlength : (chars year).length = 4 := (List.length_map _).trans h.year_length
  rw [digits?_append (by rw [all_isDigit_chars, h.year_digits]) (by omega) hcs
    (by rw [value_chars]; exact Nat.lt_trans h.year_lt (by decide)), value_chars, hlength]

theorem year?_year (h : DateFields d day month year) (cs : List Char) :
    InternalDate.year? (chars year ++ ' ' :: cs) = some (d.year, ' ' :: cs) := by
  have hlength : (chars year).length = 4 := (List.length_map _).trans h.year_length
  rw [InternalDate.year?_digits h.year_digits h.year_ne_nil (Nat.le_of_eq hlength)
    (by rw [value_chars]; exact Nat.lt_trans h.year_lt (by decide)), value_chars, h.year_value]

end DateFields

theorem chars_spaces (day gap month gap' year : Bytes) (cs : List Char) :
    chars (day ++ gap ++ month ++ gap' ++ year) ++ cs =
      chars day ++ (chars gap ++ (chars month ++ (chars gap' ++ (chars year ++ cs)))) := by
  simp only [chars_append, List.append_assoc]

theorem chars_dashes (day month year : Bytes) (cs : List Char) :
    chars (day ++ [Bytes.minus] ++ month ++ [Bytes.minus] ++ year) ++ cs =
      chars day ++ '-' :: (chars month ++ '-' :: (chars year ++ cs)) := by
  simp only [chars_append, List.append_assoc]
  rfl

theorem chars_marks (c : Clock) (mark : UInt8) (cs : List Char) :
    chars (Stamp.padded 2 c.hour ++ [mark] ++ Stamp.padded 2 c.minute ++ [mark] ++
        Stamp.padded 2 c.second) ++ cs =
      chars (Stamp.padded 2 c.hour) ++ Char.ofNat mark.toNat :: (chars (Stamp.padded 2 c.minute) ++
        Char.ofNat mark.toNat :: (chars (Stamp.padded 2 c.second) ++ cs)) := by
  simp only [chars_append, List.append_assoc]
  rfl

/-- Between its gaps or dashes a date has three fields. -/
theorem OfDate.exists_fields {d : Date} {date : Bytes} (h : OfDate d date) (hpos : 0 < d.month)
    (hle : d.month ≤ 12) : ∃ day month year, DateFields d day month year ∧
      LooseDate.fields (chars date) = [chars day, chars month, chars year] := by
  have hwords : ∀ {day month year}, DateFields d day month year →
      ShortDate.IsWord day ∧ ShortDate.IsWord month ∧ ShortDate.IsWord year := by
    intro day month year hfields
    obtain ⟨hletters, hne⟩ := hfields.month_letters hpos hle
    exact ⟨ShortDate.isWord_of_digits hfields.day_digits hfields.day_ne_nil,
      isWord_of_letters hletters hne,
      ShortDate.isWord_of_digits hfields.year_digits hfields.year_ne_nil⟩
  cases h with
  | @spaces day month year gap gap' hfields hgap hgap' =>
    obtain ⟨hday, hmonth, hyear⟩ := hwords hfields
    refine ⟨day, month, year, hfields, ?_⟩
    simp only [chars_append, List.append_assoc]
    rw [hgap.fields, hgap'.fields, fields_of_word hday, fields_of_word hmonth,
      fields_of_word hyear]
    rfl
  | @dashes day month year hfields =>
    obtain ⟨hday, hmonth, hyear⟩ := hwords hfields
    refine ⟨day, month, year, hfields, ?_⟩
    have hword : (day ++ [Bytes.minus] ++ month ++ [Bytes.minus] ++ year).all
        ShortDate.isWordByte = true := by
      simp only [List.all_append, hday.word, hmonth.word, hyear.word, Bool.and_true, Bool.true_and]
      decide
    have hcut := ShortDate.splitDashes_date hfields.day_digits hfields.day_ne_nil hmonth hyear
    rw [LooseDate.fields, ShortDate.parts_of_isWordByte hword (by simp [chars]),
      List.flatMap_singleton, ← hcut]
    simp only [chars_append, List.append_assoc]
    rfl

/-! ## Times -/

/-- A time is a field of its own. -/
theorem OfTime.fields {c : Clock} {time : Bytes} (h : OfTime c time) (hhour : c.hour < 24)
    (hminute : c.minute < 60) (hsecond : c.second < 60) :
    LooseDate.fields (chars time) = [chars time] ∧
      LooseDate.time? (chars time) = some (c.hour, c.minute, c.second) := by
  obtain @⟨mark, hmark⟩ := h
  constructor
  · exact fields_of_word (((ShortDate.isWord_padded _).append hmark
      (ShortDate.isWord_padded _)).append hmark (ShortDate.isWord_padded _))
  · have htext := chars_marks c mark []
    rw [List.append_nil, List.append_nil] at htext
    rw [htext, ShortDate.time?_padded hmark (by omega) (by omega) (by omega), if_pos hsecond]

/-! ## Zones -/

/-- What the three forms make of a zone at the end of a text: a loosely written date reads it, the
    stricter forms read the same, or nothing. -/
structure ZoneField (offset : Int) (zone : Bytes) : Prop where
  field : IsField zone
  fields : LooseDate.fields (chars zone) = [chars zone]
  loose : LooseDate.zone? (chars zone) = some offset
  internal : offset? ['-', InternalDate.minusSign] InternalDate.skipGap (chars zone) = none ∨
    offset? ['-', InternalDate.minusSign] InternalDate.skipGap (chars zone) = some (offset, [])
  message : MessageDate.zone? (chars zone) = none ∨ MessageDate.zone? (chars zone) = some (offset, [])

section Offsets

variable {minuses : List Char} {skip : List Char → List Char} {hours minutes : Nat}

/-- No minus sign is a digit or a letter. -/
theorem minusSign_spec : ∀ sign ∈ ['-', InternalDate.minusSign],
    isDigit sign = false ∧ isLetter sign = false := by
  simp [isDigit, isLetter, InternalDate.minusSign]

/-- What begins with a digit or a letter is no offset. -/
theorem offset?_eq_none {c : Char} (hc : isDigit c = true ∨ isLetter c = true)
    (hminuses : ∀ sign ∈ minuses, isDigit sign = false ∧ isLetter sign = false) (cs : List Char) :
    offset? minuses skip (c :: cs) = none := by
  have hplus : c ≠ '+' := by
    rintro rfl
    revert hc
    decide
  have hminus : minuses.contains c = false := by
    refine Bool.eq_false_iff.2 fun hmem => ?_
    obtain ⟨hdigit, hletter⟩ := hminuses c (List.contains_iff_mem.1 hmem)
    rw [hdigit, hletter] at hc
    simp at hc
  simp only [offset?, List.head?_cons, Option.bind_eq_bind, Option.bind_some, if_neg hplus, hminus,
    Bool.false_eq_true, if_false, Option.bind_none]

/-- Hours and minutes behind a sign, at the end of a text. -/
theorem offset?_sign (hskip : ∀ n cs, skip (chars (Stamp.padded 2 n) ++ cs) =
      chars (Stamp.padded 2 n) ++ cs) (hhours : hours < 24) (hminutes : minutes < 60)
    {sign : Char} {negative : Bool}
    (hsign : (if sign = '+' then some false else
      if minuses.contains sign then some true else none) = some negative) :
    offset? minuses skip (sign :: chars (Stamp.padded 2 hours ++ Stamp.padded 2 minutes)) =
      some (if negative then -seconds hours minutes else seconds hours minutes, []) := by
  have hlast := number?_padded (Nat.le_refl 2) (n := minutes) (by omega) []
  rw [← hskip, List.append_nil] at hlast
  rw [chars_append]
  exact offset?_cons hsign (number?_padded (Nat.le_refl 2) (by omega) _) hlast hminutes

variable (hhours : hours < 24) (hminutes : minutes < 60)

include hhours hminutes

/-- An offset with a sign is read by all forms. -/
theorem zoneField_sign {sign : UInt8} {negative : Bool}
    (hsign : sign = Bytes.plus ∧ negative = false ∨ sign = Bytes.minus ∧ negative = true) :
    ZoneField (if negative then -seconds hours minutes else seconds hours minutes)
      (sign :: (Stamp.padded 2 hours ++ Stamp.padded 2 minutes)) := by
  have hfield : IsField (sign :: (Stamp.padded 2 hours ++ Stamp.padded 2 minutes)) := by
    have hfirst : IsField [sign] := by rcases hsign with ⟨rfl, -⟩ | ⟨rfl, -⟩ <;> decide
    exact hfirst.append (isField_padded 1 hours).text (isField_padded 1 minutes)
  have hword : (sign :: (Stamp.padded 2 hours ++ Stamp.padded 2 minutes)).all
      ShortDate.isWordByte = true := by
    rw [List.all_cons, List.all_append, (ShortDate.isWord_padded hours).word,
      (ShortDate.isWord_padded minutes).word]
    rcases hsign with ⟨rfl, -⟩ | ⟨rfl, -⟩ <;> rfl
  have hchars : chars (sign :: (Stamp.padded 2 hours ++ Stamp.padded 2 minutes)) =
      Char.ofNat sign.toNat :: chars (Stamp.padded 2 hours ++ Stamp.padded 2 minutes) := rfl
  refine ⟨hfield, ?_, ?_, .inr ?_, .inr ?_⟩
  · rw [LooseDate.fields, ShortDate.parts_of_isWordByte hword (List.cons_ne_nil _ _),
      List.flatMap_singleton]
    refine LooseDate.splitDashes_sign ?_ _
    rcases hsign with ⟨rfl, -⟩ | ⟨rfl, -⟩
    · exact .inr rfl
    · exact .inl rfl
  · rcases hsign with ⟨rfl, rfl⟩ | ⟨rfl, rfl⟩
    · exact ShortDate.zone?_pair (.inr rfl) (by omega) (by omega)
    · exact ShortDate.zone?_pair (.inl rfl) (by omega) (by omega)
  · rw [hchars]
    refine offset?_sign ShortDate.skipGap_padded hhours hminutes ?_
    rcases hsign with ⟨rfl, rfl⟩ | ⟨rfl, rfl⟩ <;> decide +kernel
  · have hletter : isLetter (Char.ofNat sign.toNat) = false := by
      rcases hsign with ⟨rfl, -⟩ | ⟨rfl, -⟩ <;> rfl
    rw [hchars, MessageDate.zone?, List.head?_cons, Option.map_some, Option.getD_some, hletter,
      if_neg Bool.false_ne_true]
    refine offset?_sign (fun _ _ => rfl) hhours hminutes ?_
    rcases hsign with ⟨rfl, rfl⟩ | ⟨rfl, rfl⟩ <;> decide +kernel

/-- Hours and minutes without a sign count as east; only a loosely written date has them. -/
theorem zoneField_unsigned :
    ZoneField (seconds hours minutes) (Stamp.padded 2 hours ++ Stamp.padded 2 minutes) := by
  obtain ⟨hlength, hall, hvalue, hvalue'⟩ :=
    ShortDate.chars_pair (show hours < 100 by omega) (show minutes < 100 by omega)
  have hdigits : (Stamp.padded 2 hours ++ Stamp.padded 2 minutes).all Bytes.isDigit = true := by
    rw [← all_isDigit_chars, hall]
  have hne := List.append_ne_nil_of_right_ne_nil (Stamp.padded 2 hours)
    (isField_padded 1 minutes).ne_nil
  obtain ⟨c, rest, hcons, hdigit⟩ := ShortDate.padded_eq_cons hours
  rw [chars_append, hcons, List.cons_append] at hlength hall hvalue hvalue'
  have hchars : chars (Stamp.padded 2 hours ++ Stamp.padded 2 minutes) =
      c :: (rest ++ chars (Stamp.padded 2 minutes)) := by
    rw [chars_append, hcons, List.cons_append]
  refine ⟨isField_of_digits hdigits hne, fields_of_word (ShortDate.isWord_of_digits hdigits hne),
    ?_, .inl ?_, .inl ?_⟩
  · have hletter : isLetter c.toUpper = false := by
      have hraised : ∀ b : UInt8, isDigit (Char.ofNat b.toNat) = true →
          isLetter (Char.ofNat b.toNat).toUpper = false :=
        Bytes.forall_of_fin (by decide +kernel)
      obtain ⟨b, -, rfl⟩ := List.mem_map.1
        (show c ∈ chars (Stamp.padded 2 hours) by rw [hcons]; exact List.mem_cons_self)
      exact hraised b hdigit
    have hutc : (c :: (rest ++ chars (Stamp.padded 2 minutes))).map Char.toUpper ≠
        ['U', 'T', 'C'] := by
      intro heq
      rw [(List.cons.inj heq).1] at hletter
      cases hletter
    have hsign : ∀ sign, isDigit sign = false → c ≠ sign := by
      rintro _ hnone rfl
      rw [hdigit] at hnone
      cases hnone
    rw [hchars]
    unfold LooseDate.zone?
    rw [if_neg hutc, ShortDate.zoneHours?_eq_none hletter]
    simp only [List.head?_cons, Option.some.injEq, hsign '-' rfl, hsign '+' rfl, or_self, if_false,
      hlength, hall, and_self, if_true, hvalue, hvalue']
    rfl
  · rw [hchars]
    exact offset?_eq_none (.inl hdigit) minusSign_spec _
  · rw [hchars, MessageDate.zone?, List.head?_cons, Option.map_some, Option.getD_some,
      isLetter_eq_false hdigit, if_neg Bool.false_ne_true]
    exact offset?_eq_none (.inl hdigit) (List.forall_mem_singleton.2 ⟨rfl, rfl⟩) _

end Offsets

/-- A name says how many hours a zone is off, but not in wire form. -/
theorem zoneField_named {name : String} {hours : Int} {zone : Bytes}
    (hname : (name, hours) ∈ zoneNames)
    (hzone : Bytes.sameName zone (Bytes.ofString name) = true) : ZoneField (hours * 3600) zone := by
  obtain ⟨hhours, hutc, hletters, hne⟩ := zoneHours?_of_name hname hzone
  refine ⟨isField_of_letters hletters hne, fields_of_word (isWord_of_letters hletters hne), ?_,
    .inl ?_, .inr ?_⟩
  · unfold LooseDate.zone?
    rw [if_neg hutc, hhours]
  · obtain ⟨c, rest, hcons⟩ : ∃ c rest, chars zone = c :: rest :=
      List.exists_cons_of_ne_nil fun hnil => hne (List.map_eq_nil_iff.1 hnil)
    rw [hcons] at hletters ⊢
    exact offset?_eq_none (.inr (List.all_eq_true.1 hletters c List.mem_cons_self)) minusSign_spec _
  · have hwhole : (chars zone).takeWhile isLetter = chars zone :=
      List.takeWhile_eq_self_iff.2 (List.all_eq_true.1 hletters)
    have hrest : (chars zone).dropWhile isLetter = [] :=
      List.dropWhile_eq_nil_iff.2 (List.all_eq_true.1 hletters)
    obtain ⟨c, rest, hcons⟩ : ∃ c rest, chars zone = c :: rest :=
      List.exists_cons_of_ne_nil fun hnil => hne (List.map_eq_nil_iff.1 hnil)
    have hfirst : ((chars zone).head?.map isLetter).getD false = true := by
      rw [hcons] at hletters ⊢
      exact List.all_eq_true.1 hletters c List.mem_cons_self
    rw [MessageDate.zone?, if_pos hfirst, MessageDate.namedZone?, hwhole, hrest, hhours]

/-- **A zone is one field behind its gap**, or there is none. -/
theorem OfZone.cases {offset : Int} {zone : Bytes} (h : OfZone offset zone) :
    zone = [] ∧ offset = 0 ∨ ∃ gap z, zone = gap ++ z ∧ IsGap gap ∧ ZoneField offset z := by
  cases h with
  | absent => exact .inl ⟨rfl, rfl⟩
  | east hgap hhours hminutes =>
    exact .inr ⟨_, _, rfl, hgap, zoneField_sign hhours hminutes (.inl ⟨rfl, rfl⟩)⟩
  | west hgap hhours hminutes =>
    exact .inr ⟨_, _, rfl, hgap, zoneField_sign hhours hminutes (.inr ⟨rfl, rfl⟩)⟩
  | unsigned hgap hhours hminutes =>
    exact .inr ⟨_, _, rfl, hgap, zoneField_unsigned hhours hminutes⟩
  | named hgap hname hzone => exact .inr ⟨_, _, rfl, hgap, zoneField_named hname hzone⟩

/-- In wire form nothing else is read of a zone, and it ends the text. -/
theorem OfZone.internal {offset off : Int} {zone : Bytes} {rest : List Char}
    (h : OfZone offset zone)
    (hread : offset? ['-', InternalDate.minusSign] InternalDate.skipGap
      (Text.skipBlanks (chars zone)) = some (off, rest)) : off = offset ∧ rest = [] := by
  rcases h.cases with ⟨rfl, rfl⟩ | ⟨gap, z, rfl, hgap, hz⟩
  · cases hread
  · rw [chars_append, hgap.skipBlanks hz.field.front] at hread
    rcases hz.internal with hnone | hsome
    · rw [hnone] at hread
      cases hread
    · cases hsome.symm.trans hread
      exact ⟨rfl, rfl⟩

/-- Nor is it in the form of message headers. -/
theorem OfZone.message {offset off : Int} {zone : Bytes} {u : Unit} {cs rest : List Char}
    (h : OfZone offset zone) (hblanks : blanks? (chars zone) = some (u, cs))
    (hread : MessageDate.zone? cs = some (off, rest)) : off = offset ∧ rest = [] := by
  rcases h.cases with ⟨rfl, rfl⟩ | ⟨gap, z, rfl, hgap, hz⟩
  · cases hblanks
  · rw [chars_append, hgap.blanks? hz.field.front] at hblanks
    cases hblanks
    rcases hz.message with hnone | hsome
    · rw [hnone] at hread
      cases hread
    · cases hsome.symm.trans hread
      exact ⟨rfl, rfl⟩

end Spelled

end ImapWire
