/-
  A written date is read back.

  A stamp is written field by field: numbers, padded or not, names of months and days, an offset.
  The proof goes the same way.

    1. A date text is written in ASCII, so it is read as the characters of its bytes (`chars`), and
       nothing is trimmed or cut off it (`Stamp.dateText_eq`).
    2. A run of digits is read up to the first character that is none, or up to as many as the
       reader takes (`DateField.number?_append`); padding does not change the number
       (`Decimal.value_padded`).
    3. A name is known by its three letters, whatever follows (`DateField.month?_append`).
    4. An offset of whole minutes is written exactly (`DateField.offset?_offsetBytes`).

  Put together, `Stamp.read?_messageDate`: what is written for a message header is read as the same
  stamp, offset included.
-/
import ImapWire.Proofs.Decimal
import ImapWire.Proofs.Stamp.Shown
import ImapWire.Proofs.Text.Ascii
import Mathlib.Data.List.TakeWhile

namespace ImapWire

/-! ## Digits -/

namespace Decimal

open Bytes (isDigit)

theorem value_zeros_append (k : Nat) (ds : Bytes) :
    value (List.replicate k Bytes.zero ++ ds) = value ds := by
  induction k with
  | zero => rfl
  | succ k ih =>
    rw [← ih]
    rfl

/-- Padding does not change a number. -/
theorem value_padded (width n : Nat) : value (Stamp.padded width n) = n := by
  rw [Stamp.padded, value_zeros_append, value_digits]

theorem length_padded {k n : Nat} (h : n < 10 ^ (k + 1)) :
    (Stamp.padded (k + 1) n).length = k + 1 := by
  rw [Stamp.padded, List.length_append, List.length_replicate,
    Nat.sub_add_cancel (length_digits_le h)]

theorem all_isDigit_padded (width n : Nat) : (Stamp.padded width n).all isDigit = true := by
  rw [Stamp.padded, List.all_append, List.all_replicate, all_isDigit_digits]
  cases width - (digits n).length <;> rfl

end Decimal

/-! ## Fields -/

namespace DateField

open Text (isBlank skipBlanks)

/-- The characters of bytes in ASCII. -/
def chars (bs : Bytes) : List Char := bs.map fun b => Char.ofNat b.toNat

theorem chars_append (a b : Bytes) : chars (a ++ b) = chars a ++ chars b := List.map_append

theorem isDigit_ofNat : ∀ b : UInt8, isDigit (Char.ofNat b.toNat) = Bytes.isDigit b :=
  Bytes.forall_of_fin (by decide +kernel)

theorem toNat_ofNat : ∀ b : UInt8, (Char.ofNat b.toNat).toNat = b.toNat :=
  Bytes.forall_of_fin (by decide +kernel)

theorem all_isDigit_chars (ds : Bytes) : (chars ds).all isDigit = ds.all Bytes.isDigit := by
  simp only [chars, List.all_map, Function.comp_def, isDigit_ofNat]

theorem value_chars (ds : Bytes) : value (chars ds) = Decimal.value ds := by
  simp only [value, chars, List.foldl_map, Decimal.value, toNat_ofNat]

/-- The characters ahead do not begin with a digit. -/
def NoDigit (cs : List Char) : Prop := cs.head?.any isDigit = false

theorem NoDigit.space (cs : List Char) : NoDigit (' ' :: cs) := rfl

/-- The characters ahead do not begin with white space. -/
def NoBlank (cs : List Char) : Prop := cs.head?.any isBlank = false

instance : DecidablePred NoBlank := fun _ => inferInstanceAs (Decidable (_ = false))

theorem NoBlank.append {a : List Char} (h : NoBlank a) (hne : a ≠ []) (cs : List Char) :
    NoBlank (a ++ cs) := by
  obtain ⟨c, a, rfl⟩ := List.exists_cons_of_ne_nil hne
  exact h

theorem skipBlanks_eq {cs : List Char} (h : NoBlank cs) : skipBlanks cs = cs := by
  cases cs with
  | nil => rfl
  | cons c cs => exact List.dropWhile_cons_of_neg (Bool.not_eq_true _ ▸ h)

theorem skipBlanks_space {cs : List Char} (h : NoBlank cs) : skipBlanks (' ' :: cs) = cs :=
  skipBlanks_eq h

/-- White space of one character. -/
theorem blanks?_space {cs : List Char} (h : NoBlank cs) : blanks? (' ' :: cs) = some ((), cs) :=
  congrArg (fun cs => some ((), cs)) (skipBlanks_eq h)

theorem takeWhile_digits {ds cs : List Char} (hds : ds.all isDigit = true) (hcs : NoDigit cs) :
    (ds ++ cs).takeWhile isDigit = ds := by
  rw [List.takeWhile_append_of_pos (List.all_eq_true.1 hds)]
  cases cs with
  | nil => simp
  | cons c cs =>
    rw [List.takeWhile_cons_of_neg (Bool.not_eq_true _ ▸ hcs), List.append_nil]

/-- **A number is read** as far as its digits go, or as many of them as are wanted. -/
theorem number?_append {least most : Nat} {ds cs : List Char} (hds : ds.all isDigit = true)
    (hleast : least ≤ ds.length) (hmost : ds.length ≤ most)
    (hend : ds.length = most ∨ NoDigit cs) (hvalue : value ds < Decimal.signedSize) :
    number? least most (ds ++ cs) = some (value ds, cs) := by
  have htaken : ((ds ++ cs).takeWhile isDigit).take most = ds := by
    rcases hend with hfull | hcs
    · rw [List.takeWhile_append_of_pos (List.all_eq_true.1 hds), ← hfull, List.take_left]
    · rw [takeWhile_digits hds hcs, List.take_of_length_le hmost]
  simp only [number?, htaken, if_pos hleast, valueBelow?_eq, if_pos hvalue, List.drop_left,
    Option.map_some]

/-- All digits are read, and counted. -/
theorem digits?_append {least : Nat} {ds cs : List Char} (hds : ds.all isDigit = true)
    (hleast : least ≤ ds.length) (hcs : NoDigit cs) (hvalue : value ds < Decimal.signedSize) :
    digits? least (ds ++ cs) = some ((value ds, ds.length), cs) := by
  simp only [digits?, takeWhile_digits hds hcs, if_pos hleast, valueBelow?_eq, if_pos hvalue,
    List.drop_left, Option.map_some]

/-- The characters of a padded number. -/
theorem chars_padded {k n : Nat} (h : n < 10 ^ (k + 1)) :
    (chars (Stamp.padded (k + 1) n)).all isDigit = true ∧
      (chars (Stamp.padded (k + 1) n)).length = k + 1 ∧
      value (chars (Stamp.padded (k + 1) n)) = n := by
  refine ⟨?_, ?_, ?_⟩
  · rw [all_isDigit_chars, Decimal.all_isDigit_padded]
  · rw [chars, List.length_map, Decimal.length_padded h]
  · rw [value_chars, Decimal.value_padded]

/-- A number of two digits. -/
theorem number?_padded {least n : Nat} (hleast : least ≤ 2) (h : n < 100) (cs : List Char) :
    number? least 2 (chars (Stamp.padded 2 n) ++ cs) = some (n, cs) := by
  obtain ⟨hdigits, hlength, hvalue⟩ := chars_padded (k := 1) h
  have hsmall : n < Decimal.signedSize := Nat.lt_trans h (by decide)
  rw [number?_append hdigits (by omega) (by omega) (Or.inl hlength) (by rwa [hvalue]), hvalue]

/-- A number of one or two digits. -/
theorem number?_digits {n : Nat} (h : n < 100) {cs : List Char} (hcs : NoDigit cs) :
    number? 1 2 (chars (Decimal.digits n) ++ cs) = some (n, cs) := by
  have hdigits : (chars (Decimal.digits n)).all isDigit = true := by
    rw [all_isDigit_chars, Decimal.all_isDigit_digits]
  have hlength : (chars (Decimal.digits n)).length = (Decimal.digits n).length :=
    List.length_map _
  have hpos : 0 < (Decimal.digits n).length := List.length_pos_iff.2 (Decimal.digits_ne_nil n)
  have hmost := Decimal.length_digits_le (k := 1) h
  have hvalue : value (chars (Decimal.digits n)) = n := by
    rw [value_chars, Decimal.value_digits]
  have hsmall : n < Decimal.signedSize := Nat.lt_trans h (by decide)
  rw [number?_append hdigits (by omega) (by omega) (Or.inr hcs) (by rwa [hvalue]), hvalue]

/-- A year of four digits. -/
theorem digits?_padded {n : Nat} (h : n < 10000) {cs : List Char} (hcs : NoDigit cs) :
    digits? 2 (chars (Stamp.padded 4 n) ++ cs) = some ((n, 4), cs) := by
  obtain ⟨hdigits, hlength, hvalue⟩ := chars_padded (k := 3) h
  have hsmall : n < Decimal.signedSize := Nat.lt_trans h (by decide)
  rw [digits?_append hdigits (by omega) hcs (by rwa [hvalue]), hvalue, hlength]

/-! ### Names -/

/-- A name is known by its first three characters. -/
theorem nameIndex?_append (names : List String) {name : List Char} (h : name.length = 3)
    (cs : List Char) : nameIndex? names (name ++ cs) = nameIndex? names name := by
  simp only [nameIndex?, List.take_append_of_le_length (Nat.le_of_eq h.symm)]

/-- The name of a month is read as the month. -/
theorem month?_append {month : Nat} (hpos : 0 < month) (hle : month ≤ 12) (cs : List Char) :
    month? (chars (Stamp.monthBytes month) ++ cs) = some (month, cs) := by
  have hall : ∀ m ∈ List.range 12, (chars (Stamp.monthBytes (m + 1))).length = 3 ∧
      nameIndex? Stamp.monthNames (chars (Stamp.monthBytes (m + 1))) = some m := by decide +kernel
  obtain ⟨hlength, hindex⟩ := hall (month - 1) (List.mem_range.2 (by omega))
  rw [Nat.sub_add_cancel hpos] at hlength hindex
  rw [month?, monthOf?, nameIndex?_append _ hlength, hindex, ← hlength, List.drop_left]
  simp only [Option.map_some, Nat.sub_add_cancel hpos]

/-- The name of a day of the week. -/
def weekdayBytes (day : Nat) : Bytes := Bytes.ofString ((Stamp.weekdayNames[day]?).getD "")

/-- The name of a day of the week is read as the day. -/
theorem weekday?_append {day : Nat} (h : day < 7) (cs : List Char) :
    weekday? (chars (weekdayBytes day) ++ cs) = some (day, cs) := by
  have hall : ∀ d ∈ List.range 7, (chars (weekdayBytes d)).length = 3 ∧
      nameIndex? Stamp.weekdayNames (chars (weekdayBytes d)) = some d := by decide +kernel
  obtain ⟨hlength, hindex⟩ := hall day (List.mem_range.2 h)
  rw [weekday?, nameIndex?_append _ hlength, hindex, ← hlength, List.drop_left, Option.map_some]

/-! ### Offsets -/

/-- Hours and minutes behind a sign. -/
theorem offset?_cons {minuses : List Char} {skip : List Char → List Char} {sign : Char}
    {negative : Bool} {hours minutes : Nat} {ds cs cs' : List Char}
    (hsign : (if sign = '+' then some false else
      if minuses.contains sign then some true else none) = some negative)
    (hhours : number? 2 2 ds = some (hours, cs))
    (hminutes : number? 2 2 (skip cs) = some (minutes, cs')) (hbelow : minutes < 60) :
    offset? minuses skip (sign :: ds)
      = some (if negative then -((hours * 3600 + minutes * 60 : Nat) : Int)
          else (hours * 3600 + minutes * 60 : Nat), cs') := by
  by_cases hplus : sign = '+'
  · rw [if_pos hplus] at hsign
    obtain rfl := Option.some.inj hsign
    simp [offset?, hplus, hhours, hminutes, hbelow]
  · rw [if_neg hplus, Option.ite_none_right_eq_some] at hsign
    obtain ⟨hminus, hnegative⟩ := hsign
    obtain rfl := Option.some.inj hnegative
    simp only [offset?, List.head?_cons, List.tail_cons, Option.bind_eq_bind, Option.bind_some,
      hplus, if_false, if_pos hminus, hhours, hminutes, hbelow, if_true]

/-- An offset of whole minutes is written as its sign, hours and minutes. -/
theorem offsetBytes_eq {offset : Int} (hoffset : isOffset offset = true)
    (hminutes : offset % 60 = 0) :
    ∃ hours minutes, hours < 100 ∧ minutes < 60 ∧
      offset.natAbs = hours * 3600 + minutes * 60 ∧
      Stamp.offsetBytes offset = (if offset < 0 then Bytes.minus else Bytes.plus)
        :: (Stamp.padded 2 hours ++ Stamp.padded 2 minutes) := by
  rw [isOffset, Bool.and_eq_true, decide_eq_true_eq, decide_eq_true_eq] at hoffset
  unfold daySeconds at hoffset
  obtain ⟨minutes, hexact, hday⟩ : ∃ minutes, offset.natAbs = minutes * 60 ∧ minutes < 1440 :=
    ⟨offset.natAbs / 60, by omega, by omega⟩
  have hnearest : (offset.natAbs + 30) / 60 = minutes := by omega
  refine ⟨minutes / 60, minutes % 60, by omega, by omega, by omega, ?_⟩
  rw [Stamp.offsetBytes, hnearest]

/-- **An offset of whole minutes is written exactly.** -/
theorem offset?_offsetBytes {minuses : List Char} {skip : List Char → List Char} {offset : Int}
    (hminus : minuses.contains '-' = true)
    (hskip : ∀ n cs, skip (chars (Stamp.padded 2 n) ++ cs) = chars (Stamp.padded 2 n) ++ cs)
    (hoffset : isOffset offset = true) (hminutes : offset % 60 = 0) (cs : List Char) :
    offset? minuses skip (chars (Stamp.offsetBytes offset) ++ cs) = some (offset, cs) := by
  obtain ⟨hours, minutes, hhours, hbelow, hseconds, hbytes⟩ := offsetBytes_eq hoffset hminutes
  have hfirst := number?_padded (Nat.le_refl 2) hhours (chars (Stamp.padded 2 minutes) ++ cs)
  have hlast := number?_padded (Nat.le_refl 2) (Nat.lt_trans hbelow (by decide)) cs
  rw [← hskip] at hlast
  rw [hbytes]
  by_cases hneg : offset < 0
  · have hsign : (if '-' = '+' then some false else
        if minuses.contains '-' then some true else none) = some true := by
      rw [if_neg (by decide), if_pos hminus]
    have hread := offset?_cons hsign hfirst hlast hbelow
    rw [← hseconds, if_pos rfl, ← List.append_assoc, ← chars_append] at hread
    rw [if_pos hneg]
    exact hread.trans (by congr 2; omega)
  · have hsign : (if '+' = '+' then some false else
        if minuses.contains '+' then some true else none) = some false := if_pos rfl
    have hread := offset?_cons hsign hfirst hlast hbelow
    rw [← hseconds, if_neg Bool.false_ne_true, ← List.append_assoc, ← chars_append] at hread
    rw [if_neg hneg]
    exact hread.trans (by congr 2; omega)

/-! ### What fields are made of -/

/-- A byte that a date text may hold anywhere: in ASCII, and no comment begins with it. -/
def isTextByte (b : UInt8) : Bool := b < 0x80 && b != Bytes.openRound

/-- What a field looks like: it may stand in a date text, and white space around it is no part of
    it. -/
structure IsField (bs : Bytes) : Prop where
  text : bs.all isTextByte = true
  front : NoBlank (chars bs)
  back : NoBlank (chars bs).reverse
  ne_nil : bs ≠ []

instance : DecidablePred IsField := fun bs =>
  decidable_of_iff (bs.all isTextByte = true ∧ NoBlank (chars bs) ∧ NoBlank (chars bs).reverse
      ∧ bs ≠ [])
    ⟨fun ⟨text, front, back, ne_nil⟩ => ⟨text, front, back, ne_nil⟩,
      fun ⟨text, front, back, ne_nil⟩ => ⟨text, front, back, ne_nil⟩⟩

/-- What follows a field does not matter for what stands in front of it. -/
theorem IsField.noBlank {bs : Bytes} (h : IsField bs) (cs : List Char) :
    NoBlank (chars bs ++ cs) :=
  h.front.append (fun hnil => h.ne_nil (List.map_eq_nil_iff.1 hnil)) cs

/-- Two fields, with a text between them. -/
theorem IsField.append {a b c : Bytes} (ha : IsField a) (hb : b.all isTextByte = true)
    (hc : IsField c) : IsField (a ++ b ++ c) where
  text := by rw [List.all_append, List.all_append, ha.text, hb, hc.text]; rfl
  front := by
    rw [List.append_assoc, chars_append]
    exact ha.noBlank _
  back := by
    rw [chars_append, List.reverse_append]
    exact hc.back.append (fun hnil => hc.ne_nil
      (List.map_eq_nil_iff.1 (List.reverse_eq_nil_iff.1 hnil))) _
  ne_nil := fun hnil => hc.ne_nil (List.append_eq_nil_iff.1 hnil).2

/-- Bytes of which none is white space make a field. -/
theorem isField_of_forall {bs : Bytes} (hne : bs ≠ [])
    (h : ∀ b ∈ bs, isTextByte b = true ∧ isBlank (Char.ofNat b.toNat) = false) : IsField bs := by
  have hfront : ∀ bs : Bytes, (∀ b ∈ bs, isBlank (Char.ofNat b.toNat) = false) →
      NoBlank (chars bs) := by
    intro bs hbs
    cases bs with
    | nil => rfl
    | cons b bs => exact hbs b List.mem_cons_self
  refine ⟨List.all_eq_true.2 fun b hb => (h b hb).1, hfront bs fun b hb => (h b hb).2, ?_, hne⟩
  rw [chars, ← List.map_reverse]
  exact hfront bs.reverse fun b hb => (h b (List.mem_reverse.1 hb)).2

theorem isField_of_digits {ds : Bytes} (h : ds.all Bytes.isDigit = true) (hne : ds ≠ []) :
    IsField ds := by
  have hdigit : ∀ b : UInt8, Bytes.isDigit b = true →
      isTextByte b = true ∧ isBlank (Char.ofNat b.toNat) = false :=
    Bytes.forall_of_fin (by decide +kernel)
  exact isField_of_forall hne fun d hd => hdigit d (List.all_eq_true.1 h d hd)

theorem isField_digits (n : Nat) : IsField (Decimal.digits n) :=
  isField_of_digits (Decimal.all_isDigit_digits n) (Decimal.digits_ne_nil n)

theorem isField_padded (k n : Nat) : IsField (Stamp.padded (k + 1) n) :=
  isField_of_digits (Decimal.all_isDigit_padded _ _) fun hnil =>
    Decimal.digits_ne_nil n (List.append_eq_nil_iff.1 hnil).2

theorem isField_monthBytes {month : Nat} (hpos : 0 < month) (hle : month ≤ 12) :
    IsField (Stamp.monthBytes month) := by
  have hall : ∀ m ∈ List.range 12, IsField (Stamp.monthBytes (m + 1)) := by decide +kernel
  have hfield := hall (month - 1) (List.mem_range.2 (by omega))
  rwa [Nat.sub_add_cancel hpos] at hfield

theorem isField_weekdayBytes {day : Nat} (h : day < 7) : IsField (weekdayBytes day) := by
  have hall : ∀ d ∈ List.range 7, IsField (weekdayBytes d) := by decide +kernel
  exact hall day (List.mem_range.2 h)

theorem isField_timeBytes (c : Clock) : IsField (Stamp.timeBytes c) :=
  ((isField_padded 1 _).append (by decide) (isField_padded 1 _)).append (by decide)
    (isField_padded 1 _)

theorem isField_offsetBytes (offset : Int) : IsField (Stamp.offsetBytes offset) := by
  have hsign : IsField [if offset < 0 then Bytes.minus else Bytes.plus] := by
    split <;> decide
  exact hsign.append (isField_padded 1 _).text (isField_padded 1 _)

end DateField

/-! ## Date texts -/

/-- The month and the day of a date are small numbers. -/
theorem Date.bounds_of_isValid {d : Date} (h : d.isValid = true) :
    (0 < d.month ∧ d.month ≤ 12) ∧ 0 < d.day ∧ d.day ≤ 31 := by
  rw [isValid, Bool.and_eq_true, decide_eq_true_eq, decide_eq_true_eq] at h
  obtain ⟨hpos, hmonth, -⟩ := monthLengths_cut (Nat.lt_of_lt_of_le h.1 h.2)
  have htwelve : (monthLengths (isLeap d.year)).length = 12 := rfl
  have hlongest : ∀ leap : Bool, ∀ m ∈ List.range 12, monthLength leap (m + 1) ≤ 31 := by decide
  have hlength := hlongest (isLeap d.year) (d.month - 1) (List.mem_range.2 (by omega))
  rw [Nat.sub_add_cancel hpos] at hlength
  exact ⟨⟨hpos, by omega⟩, h.1, Nat.le_trans h.2 hlength⟩

open DateField (chars)

namespace Stamp

/-- **Nothing is cut off a field** that is the whole text. -/
theorem dateText_eq {bs : Bytes} (h : DateField.IsField bs) : dateText bs = chars bs := by
  have hascii : ∀ b ∈ bs, b < 0x80 := by
    intro b hb
    have htext := List.all_eq_true.1 h.text b hb
    rw [DateField.isTextByte, Bool.and_eq_true, decide_eq_true_eq] at htext
    exact htext.1
  have hopen : ∀ b : UInt8, DateField.isTextByte b = true → (Char.ofNat b.toNat != '(') = true :=
    Bytes.forall_of_fin (by decide +kernel)
  have hnone : ∀ c ∈ chars bs, (c != '(') = true := by
    intro c hc
    obtain ⟨b, hb, rfl⟩ := List.mem_map.1 hc
    exact hopen b (List.all_eq_true.1 h.text b hb)
  have hwhole : (chars bs).takeWhile (· != '(') = chars bs := List.takeWhile_eq_self_iff.2 hnone
  rw [dateText, Utf8.decode_ascii hascii]
  show Text.trim ((chars bs).takeWhile (· != '(')) = chars bs
  rw [hwhole, Text.trim, DateField.skipBlanks_eq h.front, DateField.skipBlanks_eq h.back,
    List.reverse_reverse]

/-- The numbers that a clock shows are short. -/
theorem clock_bounds {s : Stamp} (h : s.IsWhole) :
    (0 < s.clock.date.month ∧ s.clock.date.month ≤ 12) ∧
      (0 < s.clock.date.day ∧ s.clock.date.day ≤ 31) ∧
      s.clock.hour < 24 ∧ s.clock.minute < 60 ∧ s.clock.second ≤ 60 := by
  have hvalid : s.clock.date.isValid = true := Date.isValid_ofDays _
  have htime := isTime_clock h
  rw [Clock.isTime, Bool.and_eq_true, Bool.and_eq_true, decide_eq_true_eq, decide_eq_true_eq,
    decide_eq_true_eq, and_assoc] at htime
  obtain ⟨hmonth, hday⟩ := Date.bounds_of_isValid hvalid
  exact ⟨hmonth, hday, htime⟩

end Stamp

/-! ## Dates of message headers -/

namespace MessageDate

open Text (skipBlanks)
open DateField

/-- A day of the week and the comma behind it. -/
theorem weekdayBefore?_append {day : Nat} (h : day < 7) (cs : List Char) :
    weekdayBefore? (chars (weekdayBytes day) ++ ',' :: cs) = some (some day, cs) := by
  rw [weekdayBefore?, weekday?_append h]
  rfl

/-- A colon with nothing around it. -/
theorem colon? (cs : List Char) : mark? ':' (skipBlanks (':' :: cs)) = some ((), cs) := rfl

theorem fullYear_four (n : Nat) : fullYear n 4 = n := rfl

/-- The seconds behind the minutes. -/
theorem seconds?_cons {second : Nat} (h : second ≤ 60) (cs : List Char) :
    seconds? (':' :: (chars (Stamp.padded 2 second) ++ cs)) = some (second, cs) :=
  number?_padded (Nat.le_refl 2) (by omega) cs

/-- An offset is no name of a zone. -/
theorem zone?_offsetBytes {offset : Int} (hoffset : isOffset offset = true)
    (hminutes : offset % 60 = 0) (cs : List Char) :
    zone? (chars (Stamp.offsetBytes offset) ++ cs) = some (offset, cs) := by
  have hsign :
      ((chars (Stamp.offsetBytes offset) ++ cs).head?.map isLetter).getD false = false := by
    unfold Stamp.offsetBytes
    split <;> rfl
  rw [zone?, hsign, if_neg Bool.false_ne_true]
  exact offset?_offsetBytes (by decide) (fun _ _ => rfl) hoffset hminutes cs

/-- **What is written for a message header is read again.** -/
theorem read?_messageDate {s : Stamp} {bs : Bytes} (h : s.IsWhole)
    (hwritten : s.messageDate? = some bs) : read? (chars bs) = some s := by
  obtain ⟨hwritable, hbs⟩ := Option.ite_none_right_eq_some.1 hwritten
  rw [Stamp.isWritable, Bool.and_eq_true, decide_eq_true_eq, decide_eq_true_eq] at hwritable
  obtain ⟨⟨hmonth, hmonth'⟩, ⟨hday, hday'⟩, hhour, hminute, hsecond⟩ := Stamp.clock_bounds h
  obtain ⟨hkept, hkept'⟩ := Stamp.isKeptYear_of_le h.isOffset hwritable.1 hwritable.2
  have hstamp := Stamp.stamp?_clock h hkept hkept'
  obtain ⟨⟨⟨year, month, day⟩, hour, minute, second⟩, hclock⟩ : ∃ c, s.clock = c := ⟨_, rfl⟩
  rw [Stamp.year] at hwritable
  rw [hclock] at hwritable hmonth hmonth' hday hday' hhour hminute hsecond hstamp hbs
  obtain ⟨year, rfl⟩ := Int.eq_ofNat_of_zero_le hwritable.1
  dsimp only at *
  have hyear : year < 10000 := by omega
  have hweekday : (Date.mk year month day).weekday < 7 := by
    unfold Date.weekday
    omega
  have htext : chars bs = chars (weekdayBytes (Date.mk year month day).weekday) ++ ',' :: ' '
      :: (chars (Decimal.digits day) ++ ' ' :: (chars (Stamp.monthBytes month) ++ ' '
      :: (chars (Stamp.padded 4 year) ++ ' ' :: (chars (Stamp.padded 2 hour) ++ ':'
      :: (chars (Stamp.padded 2 minute) ++ ':' :: (chars (Stamp.padded 2 second) ++ ' '
      :: (chars (Stamp.offsetBytes s.offset) ++ []))))))) := by
    rw [← Option.some.inj hbs]
    simp only [Stamp.timeBytes, chars_append, List.append_assoc, List.append_nil]
    rfl
  rw [htext]
  -- the text is read field by field
  refine Option.bind_eq_some_iff.2 ⟨_, by
    rw [skipBlanks_eq ((isField_weekdayBytes hweekday).noBlank _)]
    exact weekdayBefore?_append hweekday _, ?_⟩
  refine Option.bind_eq_some_iff.2 ⟨_, by
    rw [skipBlanks_space ((isField_digits day).noBlank _)]
    exact number?_digits (Nat.lt_of_le_of_lt hday' (by decide)) (NoDigit.space _), ?_⟩
  refine Option.bind_eq_some_iff.2 ⟨_,
    blanks?_space ((isField_monthBytes hmonth hmonth').noBlank _), ?_⟩
  refine Option.bind_eq_some_iff.2 ⟨_, month?_append hmonth hmonth' _, ?_⟩
  refine Option.bind_eq_some_iff.2 ⟨_, blanks?_space ((isField_padded 3 year).noBlank _), ?_⟩
  refine Option.bind_eq_some_iff.2 ⟨_, digits?_padded hyear (NoDigit.space _), ?_⟩
  refine Option.bind_eq_some_iff.2 ⟨_, blanks?_space ((isField_padded 1 hour).noBlank _), ?_⟩
  refine Option.bind_eq_some_iff.2 ⟨_,
    number?_padded (Nat.le_refl 2) (Nat.lt_trans hhour (by decide)) _, ?_⟩
  refine Option.bind_eq_some_iff.2 ⟨_, colon? _, ?_⟩
  refine Option.bind_eq_some_iff.2 ⟨_, by
    rw [skipBlanks_eq ((isField_padded 1 minute).noBlank _)]
    exact number?_padded (Nat.le_refl 2) (Nat.lt_trans hminute (by decide)) _, ?_⟩
  refine Option.bind_eq_some_iff.2 ⟨_, seconds?_cons hsecond _, ?_⟩
  refine Option.bind_eq_some_iff.2 ⟨_,
    blanks?_space ((isField_offsetBytes s.offset).noBlank _), ?_⟩
  refine Option.bind_eq_some_iff.2 ⟨_, zone?_offsetBytes h.isOffset h.minutes _, ?_⟩
  -- nothing is behind the zone, and the day of the week is the right one
  exact Option.bind_eq_some_iff.2 ⟨s, hstamp, if_pos (by simp [fullYear_four])⟩

end MessageDate

namespace Stamp

/-- What stands in a message header is a field. -/
theorem isField_messageDate {s : Stamp} {bs : Bytes} (h : s.IsWhole)
    (hwritten : s.messageDate? = some bs) : DateField.IsField bs := by
  obtain ⟨⟨hmonth, hmonth'⟩, -⟩ := clock_bounds h
  have hweekday : s.clock.date.weekday < 7 := by
    unfold Date.weekday
    omega
  obtain ⟨-, hbs⟩ := Option.ite_none_right_eq_some.1 hwritten
  rw [← Option.some.inj hbs]
  exact (((((DateField.isField_weekdayBytes hweekday).append (by decide)
    (DateField.isField_digits _)).append (by decide)
    (DateField.isField_monthBytes hmonth hmonth')).append (by decide)
    (DateField.isField_padded 3 _)).append (by decide)
    (DateField.isField_timeBytes _)).append (by decide) (DateField.isField_offsetBytes _)

/-- **A date written for a message header is read as the same stamp.** -/
theorem read?_messageDate {s : Stamp} {bs : Bytes} (h : s.IsWhole)
    (hwritten : s.messageDate? = some bs) : read? bs false = some s := by
  rw [read?, readAs?, dateText_eq (isField_messageDate h hwritten),
    MessageDate.read?_messageDate h hwritten]
  rfl

end Stamp

end ImapWire
