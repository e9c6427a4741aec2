/-
  The date of arrival of a message comes back.

  It is written in wire form, `17-Jul-1996 02:44:25 -0700`, and read as the first of three forms that
  it fits.

    1. It is no date of a message header: behind the day of the month stands a dash, where white
       space has to be (`MessageDate.read?_internalDate`).
    2. It is a date in wire form, and each field is read as it was written
       (`InternalDate.read?_internalDate`).  A year from 0 to 9999 has four digits and no sign; a
       leap second is the second 60 of its minute, which no other instant is.
    3. It has 26 bytes, all of them in ASCII, so nothing is cut off it and it fits in a line
       (`Stamp.isField_internalDate`, `Stamp.length_internalDate`).

  So a server's lines for a stamp, taken as the value of the item `INTERNALDATE`, are kept as that
  stamp (`FetchRecord.arrival_written`).
-/
import ImapWire.Proofs.Fetch.Lookup
import ImapWire.Proofs.Stamp.Respelled
import ImapWire.Proofs.Value.RoundTrip

namespace ImapWire

open DateField

/-! ## The text -/

namespace Stamp

variable {s : Stamp}

theorem yearBytes_eq {year : Nat} (h : year < 10000) : yearBytes year = padded 4 year := by
  rw [yearBytes, if_neg (Int.not_lt.2 (Int.natCast_nonneg year)), if_pos (by omega),
    Int.natAbs_natCast]

/-- What a clock shows in a year of four digits at most. -/
theorem exists_clock (h : s.IsWhole) (hlow : 0 ≤ s.year) (hhigh : s.year ≤ 9999) :
    ∃ year month day hour minute second : Nat,
      s.clock = ⟨⟨year, month, day⟩, hour, minute, second⟩ ∧ year < 10000 ∧
        (0 < month ∧ month ≤ 12) ∧ day < 100 ∧ hour < 100 ∧ minute < 100 ∧ second < 100 := by
  obtain ⟨hmonth, ⟨-, hday⟩, hhour, hminute, hsecond⟩ := clock_bounds h
  rw [Stamp.year] at hlow hhigh
  obtain ⟨⟨⟨year, month, day⟩, hour, minute, second⟩, hclock⟩ : ∃ c, s.clock = c := ⟨_, rfl⟩
  rw [hclock] at hmonth hday hhour hminute hsecond hlow hhigh
  obtain ⟨year, rfl⟩ := Int.eq_ofNat_of_zero_le hlow
  dsimp only at *
  exact ⟨year, month, day, hour, minute, second, hclock, by omega, hmonth, by omega, by omega,
    by omega, by omega⟩

/-- The characters of a date in wire form. -/
theorem chars_internalDate {year month day hour minute second : Nat} (hyear : year < 10000)
    (hclock : s.clock = ⟨⟨year, month, day⟩, hour, minute, second⟩) :
    chars s.internalDate = chars (padded 2 day) ++ '-' :: (chars (monthBytes month) ++ '-'
      :: (chars (padded 4 year) ++ ' ' :: (chars (padded 2 hour) ++ ':'
      :: (chars (padded 2 minute) ++ ':' :: (chars (padded 2 second) ++ ' '
      :: chars (offsetBytes s.offset)))))) := by
  simp only [internalDate, hclock, timeBytes, yearBytes_eq hyear, chars_append, List.append_assoc]
  rfl

/-- Nothing of a date in wire form is white space around it, or a comment. -/
theorem isField_internalDate (h : s.IsWhole) (hlow : 0 ≤ s.year) (hhigh : s.year ≤ 9999) :
    IsField s.internalDate := by
  obtain ⟨year, month, day, hour, minute, second, hclock, hyear, ⟨hmonth, hmonth'⟩, -⟩ :=
    exists_clock h hlow hhigh
  simp only [internalDate, hclock, yearBytes_eq hyear]
  exact ((((isField_padded 1 day).append (by decide) (isField_monthBytes hmonth hmonth')).append
    (by decide) (isField_padded 3 year)).append (by decide) (isField_timeBytes _)).append
    (by decide) (isField_offsetBytes _)

/-- A date in wire form has 26 bytes. -/
theorem length_internalDate (h : s.IsWhole) (hlow : 0 ≤ s.year) (hhigh : s.year ≤ 9999) :
    s.internalDate.length = 26 := by
  obtain ⟨year, month, day, hour, minute, second, hclock, hyear, ⟨hmonth, hmonth'⟩, hday, hhour,
    hminute, hsecond⟩ := exists_clock h hlow hhigh
  obtain ⟨hours, minutes, hhours, hminutes, -, hoffset⟩ := offsetBytes_eq h.isOffset h.minutes
  have htwo : ∀ {n}, n < 100 → (padded 2 n).length = 2 := fun hn => Decimal.length_padded hn
  have hname : (monthBytes month).length = 3 := by
    have hall : ∀ m ∈ List.range 12, (monthBytes (m + 1)).length = 3 := by decide +kernel
    have hm := hall (month - 1) (List.mem_range.2 (by omega))
    rwa [Nat.sub_add_cancel hmonth] at hm
  have hfour : (padded 4 year).length = 4 := Decimal.length_padded hyear
  simp only [internalDate, timeBytes, hclock, yearBytes_eq hyear, hoffset, List.length_append,
    List.length_cons, hname, htwo hday, htwo hhour, htwo hminute, htwo hsecond, htwo hhours,
    htwo (Nat.lt_trans hminutes (by decide)), hfour]
  rfl

end Stamp

/-! ## Reading it -/

open ShortDate (bind_of_eq_some bind_of_eq_none pair?_padded pair?_space skipBlanks_padded
  skipGap_padded weekdayBefore?_padded)

/-- A date in wire form is no date of a message header: a dash stands behind the day. -/
theorem MessageDate.read?_internalDate {s : Stamp} (h : s.IsWhole) (hlow : 0 ≤ s.year)
    (hhigh : s.year ≤ 9999) : read? (chars s.internalDate) = none := by
  obtain ⟨year, month, day, hour, minute, second, hclock, hyear, -, hday, -⟩ :=
    Stamp.exists_clock h hlow hhigh
  rw [Stamp.chars_internalDate hyear hclock]
  refine (bind_of_eq_some (by
    rw [skipBlanks_padded]
    exact weekdayBefore?_padded day _) _).trans ?_
  refine (bind_of_eq_some (by
    rw [skipBlanks_padded]
    exact number?_padded (by decide) hday _) _).trans ?_
  exact bind_of_eq_none rfl _

/-- **What is written in wire form is read again.** -/
theorem InternalDate.read?_internalDate {s : Stamp} (h : s.IsWhole) (hlow : 0 ≤ s.year)
    (hhigh : s.year ≤ 9999) : read? (chars s.internalDate) = some s := by
  obtain ⟨year, month, day, hour, minute, second, hclock, hyear, ⟨hmonth, hmonth'⟩, hday, hhour,
    hminute, hsecond⟩ := Stamp.exists_clock h hlow hhigh
  obtain ⟨hkept, hkept'⟩ := Stamp.isKeptYear_of_le h.isOffset hlow hhigh
  have hstamp := Stamp.stamp?_clock h hkept hkept'
  obtain ⟨-, hlength, hvalue⟩ := chars_padded (k := 3) hyear
  have hfour := year?_digits (Decimal.all_isDigit_padded 4 year) (isField_padded 3 year).ne_nil
    (Nat.le_of_eq hlength) (by rw [hvalue]; exact Nat.lt_trans hyear (by decide))
  rw [hvalue] at hfour
  have hzone : offset? ['-', minusSign] skipGap (chars (Stamp.offsetBytes s.offset)) =
      some (s.offset, []) := by
    rw [← List.append_nil (chars _)]
    exact offset?_offsetBytes (by decide) skipGap_padded h.isOffset h.minutes []
  rw [Stamp.chars_internalDate hyear hclock]
  -- the text is read field by field
  refine (bind_of_eq_some (pair?_padded hday _) _).trans ?_
  refine (bind_of_eq_some rfl _).trans ?_
  refine (bind_of_eq_some (month?_append hmonth hmonth' _) _).trans ?_
  refine (bind_of_eq_some rfl _).trans ?_
  refine (bind_of_eq_some (hfour _) _).trans ?_
  refine (bind_of_eq_some (pair?_space hhour _) _).trans ?_
  refine (bind_of_eq_some rfl _).trans ?_
  refine (bind_of_eq_some (pair?_padded hminute _) _).trans ?_
  refine (bind_of_eq_some rfl _).trans ?_
  refine (bind_of_eq_some (pair?_padded hsecond _) _).trans ?_
  refine (bind_of_eq_some (by
    rw [skipBlanks_space (isField_offsetBytes s.offset).front]
    exact hzone) _).trans ?_
  -- it shows what the clock of the stamp shows, and nothing is behind it
  rw [hclock] at hstamp
  exact bind_of_eq_some hstamp _

/-- **A date in wire form is read as the same stamp**, on its own clock or on the local one at UTC. -/
theorem Stamp.read?_internalDate {s : Stamp} (h : s.IsWhole) (hlow : 0 ≤ s.year)
    (hhigh : s.year ≤ 9999) (toUtc : Bool) :
    read? s.internalDate toUtc = some (if toUtc then s.toUtc else s) := by
  rw [read?, readAs?, dateText_eq (isField_internalDate h hlow hhigh),
    MessageDate.read?_internalDate h hlow hhigh, InternalDate.read?_internalDate h hlow hhigh]
  rfl

/-- The lines of a stamp are read as its text. -/
theorem Value.parse_stamp {s : Stamp} (h : s.IsWhole) (hlow : 0 ≤ s.year) (hhigh : s.year ≤ 9999) :
    ∃ cs, Value.chunks? [.stamp s] = some cs ∧ Tree.parse cs = .ok [.bytes s.internalDate] := by
  have hform : Value.FormAll [.stamp s] [.bytes s.internalDate] := .cons (.stamp s) .nil
  have hfits : Tree.FitsAll [.bytes s.internalDate] := by
    refine ⟨?_, trivial⟩
    show s.internalDate.length < 2 ^ 64
    rw [Stamp.length_internalDate h hlow hhigh]
    decide
  have hflat : Tree.depthAll [.bytes s.internalDate] = 0 := rfl
  exact ⟨_, Value.chunks?_of_formAll hform,
    Tree.parse_chunks (hflat ▸ Nat.zero_le maxDepth) hfits⟩

/-! ## The item of a message -/

namespace FetchRecord

open FetchItem (MadeOf)

variable {name : Bytes} {s : Stamp}

/-- An item whose name says `INTERNALDATE`, in any case, is kept as the date that its text is. -/
theorem madeOf_arrival (hname : keyOf name = "INTERNALDATE") {text : Bytes}
    (hread : Stamp.read? text false = some s) :
    ∃ i, MadeOf i [.bytes name, .bytes text] ∧ i.key = "INTERNALDATE" ∧
      i.converted false = .ok (.stamp s) := by
  refine ⟨_, .plain name (v := .bytes text) nofun, hname, ?_⟩
  show FetchItem.convert false (keyOf name) (.bytes text) = _
  rw [hname]
  show Except.ok (((Stamp.read? text false).map Value.stamp).getD .nil) = _
  rw [hread]
  rfl

/-- It is put in among the items before it, whatever comes after it. -/
theorem readItems_arrival (hname : keyOf name = "INTERNALDATE") {text : Bytes}
    (hread : Stamp.read? text false = some s) (whole : List Tree) (items : Table String Value)
    (after : List Value) :
    readItems whole false items (.bytes name :: .bytes text :: after) =
      readItems whole false (items.insert "INTERNALDATE" (.stamp s)) after := by
  obtain ⟨i, hmade, hkey, hconverted⟩ := madeOf_arrival hname hread
  rw [← hkey]
  exact readItems_of_madeOf hmade hconverted after

/-- Alone in its list it is the one item of a record. -/
theorem read_arrival (hname : keyOf name = "INTERNALDATE") {text : Bytes}
    (hread : Stamp.read? text false = some s) (seq : UInt32) {options : Options}
    (hclock : options.toUtc = false) :
    read seq [.bytes name, .bytes text] options =
      .ok ⟨seq, Table.ofList [("INTERNALDATE", .stamp s)]⟩ := by
  have hwhole : Value.treeAll? [.bytes name, .bytes text] = some [.bytes name, .bytes text] := rfl
  refine read_eq_ok_iff.2 ⟨_, _, hwhole, ?_, rfl⟩
  rw [hclock, readItems_arrival hname hread, readItems]
  rfl

/-- **A date of arrival comes back.**  A stamp of a whole second, leap seconds included, on a clock
    that is off by whole minutes and shows a year from 0 to 9999, is read from its text again: on
    its own clock, or on the local one at UTC.  Sent as the value of an item `INTERNALDATE`, it is
    read from its lines as its text, and kept as the stamp: among any items, and alone in its
    record. -/
theorem arrival_written {s : Stamp} (h : s.IsWhole) (hlow : 0 ≤ s.year) (hhigh : s.year ≤ 9999) :
    Stamp.read? s.internalDate false = some s ∧
    Stamp.read? s.internalDate true = some s.toUtc ∧
    ∃ cs t, Value.chunks? [.stamp s] = some cs ∧ Tree.parse cs = .ok [t] ∧
      t = .bytes s.internalDate ∧
      FetchItem.convert false "INTERNALDATE" (.ofTree t) = .ok (.stamp s) ∧
      ∀ name, keyOf name = "INTERNALDATE" →
        (∀ whole before items, readItems whole false Table.empty before = .ok items → ∀ after,
          readItems whole false Table.empty (before ++ .bytes name :: .ofTree t :: after) =
            readItems whole false (items.insert "INTERNALDATE" (.stamp s)) after) ∧
        ∀ seq options, options.toUtc = false →
          ∃ r, read seq [.bytes name, .ofTree t] options = .ok r ∧ r.seq = seq ∧
            r.items = Table.ofList [("INTERNALDATE", .stamp s)] ∧ r.internalDate? = some s := by
  have hown : Stamp.read? s.internalDate false = some s :=
    Stamp.read?_internalDate h hlow hhigh false
  obtain ⟨cs, hcs, hparse⟩ := Value.parse_stamp h hlow hhigh
  refine ⟨hown, Stamp.read?_internalDate h hlow hhigh true, cs, _, hcs, hparse, rfl, ?_, ?_⟩
  · show Except.ok (((Stamp.read? s.internalDate false).map Value.stamp).getD .nil) = _
    rw [hown]
    rfl
  · intro name hname
    constructor
    · intro whole before items hbefore after
      rw [readItems_append hbefore]
      exact readItems_arrival hname hown whole items after
    · intro seq options hclock
      have hkey : Text.upper "INTERNALDATE" = "INTERNALDATE" := by decide +kernel
      refine ⟨_, read_arrival hname hown seq hclock, rfl, rfl, ?_⟩
      rw [internalDate?, get?, hkey, get?_ofList_one, if_pos rfl]
      rfl

/-- The leap second at the end of the year 2016, on a clock west of Greenwich; and an instant of the
    year 7, on a clock that is nearly a day ahead. -/
theorem arrival_written_leap :
    (∃ cs r, Value.chunks? [.stamp ⟨1483228799, secondNanos, -19800⟩] = some cs ∧
      Tree.parse cs = .ok [.bytes (Bytes.ofString "31-Dec-2016 18:29:60 -0530")] ∧
      read 4 [.bytes (Bytes.ofString "internaldate"),
        .bytes (Bytes.ofString "31-Dec-2016 18:29:60 -0530")] ⟨false, true⟩ = .ok r ∧
      r.internalDate? = some ⟨1483228799, secondNanos, -19800⟩) ∧
    Stamp.read? (Bytes.ofString "05-Mar-0007 01:02:03 +2359") true = some ⟨-61940933817, 0, 0⟩ := by
  have hleap : Stamp.internalDate ⟨1483228799, secondNanos, -19800⟩ =
      Bytes.ofString "31-Dec-2016 18:29:60 -0530" := by decide +kernel
  have hearly : Stamp.internalDate ⟨-61940933817, 0, 86340⟩ =
      Bytes.ofString "05-Mar-0007 01:02:03 +2359" := by decide +kernel
  constructor
  · obtain ⟨-, -, cs, t, hcs, hparse, ht, -, hitem⟩ :=
      arrival_written (s := ⟨1483228799, secondNanos, -19800⟩)
        ⟨by decide, by decide, .inr ⟨rfl, by decide⟩⟩ (by decide) (by decide)
    rw [hleap] at ht
    subst ht
    obtain ⟨r, hread, -, -, hdate⟩ :=
      (hitem (Bytes.ofString "internaldate") (by decide +kernel)).2 4 ⟨false, true⟩ rfl
    exact ⟨cs, r, hcs, hparse, hread, hdate⟩
  · obtain ⟨-, hutc, -⟩ := arrival_written (s := ⟨-61940933817, 0, 86340⟩)
      ⟨by decide, by decide, .inl rfl⟩ (by decide) (by decide)
    rw [hearly] at hutc
    exact hutc

end FetchRecord

end ImapWire
