/-
  Every tolerated spelling of a date means the same.

  A text is read as the first of three forms that it fits, and which one that is depends on its
  punctuation, on its zone and even on whether the day of the week is the right one.  None of that
  has to be followed, since no form ever reads anything else than what was meant:

    1. a date of a message header is the meant one, or the text is none
       (`MessageDate.read?_spelled`);
    2. so is a date in wire form (`InternalDate.read?_spelled`);
    3. every spelling is a loosely written date, and the meant one (`LooseDate.read?_spelled`).

  So the first form that fits gives what was meant, and one fits (`Stamp.read?_tolerated`).
-/
import ImapWire.Proofs.Stamp.Spelled

namespace ImapWire

open DateField
open ShortDate (bind_of_eq_some bind_of_eq_none wholeNumber?_digits)
open Spelled (Front OfDate OfTime OfZone OfText DateFields IsGap monthOf?_of_month chars_spaces
  chars_dashes chars_marks number?_eq_none noDigit_of_letters isField_of_letters skipBlanks_append)

/-! ## Meant or nothing -/

/-- A reader that goes on with what another one read gives nothing else than it should. -/
theorem none_or_bind {α β : Type} {x : Option α} {f : α → Option β} {y : Option β}
    (h : ∀ a, x = some a → f a = none ∨ f a = y) : x.bind f = none ∨ x.bind f = y := by
  cases x with
  | none => exact .inl rfl
  | some a => exact h a rfl

theorem none_or_some {α β : Type} {x : Option α} {a : α} (hx : x = some a) {f : α → Option β}
    {y : Option β} (h : f a = none ∨ f a = y) : x.bind f = none ∨ x.bind f = y := by
  rwa [bind_of_eq_some hx]

/-! ## Texts -/

namespace Spelled

/-- Spaces and commas in front of a digit: it is come to, or a comma stands before it. -/
theorem skipBlanks_marks {marks : Bytes} (h : ∀ b ∈ marks, b = Bytes.space ∨ b = comma)
    {body : List Char} (hbody : NoBlank body) :
    Text.skipBlanks (chars marks ++ body) = body ∨
      ∃ rest, Text.skipBlanks (chars marks ++ body) = ',' :: rest := by
  induction marks with
  | nil => exact .inl (skipBlanks_eq hbody)
  | cons b marks ih =>
    obtain ⟨hb, hmarks⟩ := List.forall_mem_cons.1 h
    rcases hb with rfl | rfl
    · exact ih hmarks
    · exact .inr ⟨_, rfl⟩

/-- A word of letters goes as far as they do. -/
theorem behind_letters {w : List Char} (hw : w.all isLetter = true) {c : Char}
    (hc : isLetter c = false) (rest : List Char) : (w ++ c :: rest).dropWhile isLetter = c :: rest := by
  rw [List.dropWhile_append_of_pos (List.all_eq_true.1 hw),
    List.dropWhile_cons_of_neg (Bool.not_eq_true _ ▸ hc)]

/-- **What is behind the day of the week**, if a date of a message header begins with the text. -/
theorem Front.skip {front day : Bytes} (h : Front front) (hdigits : day.all Bytes.isDigit = true)
    (hday : day ≠ []) (cs : List Char) {weekday : Option Nat} {rest : List Char}
    (hread : MessageDate.weekdayBefore? (Text.skipBlanks (chars front ++ (chars day ++ cs))) =
      some (weekday, rest))
    {n : Nat} {behind : List Char} (hnumber : number? 1 2 (Text.skipBlanks rest) = some (n, behind)) :
    Text.skipBlanks rest = chars day ++ cs := by
  have hblank := (isField_of_digits hdigits hday).noBlank cs
  obtain ⟨d, body, hbody, hd⟩ : ∃ d body, chars day ++ cs = d :: body ∧ isDigit d = true := by
    obtain ⟨d, more, hcons⟩ : ∃ d more, chars day = d :: more :=
      List.exists_cons_of_ne_nil fun hnil => hday (List.map_eq_nil_iff.1 hnil)
    rw [← all_isDigit_chars, hcons] at hdigits
    exact ⟨d, more ++ cs, by rw [hcons]; rfl, List.all_eq_true.1 hdigits d List.mem_cons_self⟩
  rw [hbody] at hread hblank ⊢
  have hletter : isLetter d = false := isLetter_eq_false hd
  cases h with
  | none =>
    have hsame : Text.skipBlanks (chars [] ++ d :: body) = d :: body := skipBlanks_eq hblank
    rw [hsame] at hread
    rcases weekdayBefore?_eq_some hread with rfl | ⟨w, hw, hlength, hletters, -⟩
    · exact skipBlanks_eq hblank
    · obtain ⟨c, w, rfl⟩ := List.exists_cons_of_length_pos (by omega : 0 < w.length)
      rw [(List.cons.inj hw).1, List.all_eq_true.1 hletters c List.mem_cons_self] at hletter
      cases hletter
  | @word w marks hne hletters hmonth hmarks hseparate =>
    have hfield := isField_of_letters hletters hne
    rw [chars_append, List.append_assoc, skipBlanks_eq (hfield.noBlank _)] at hread
    rcases weekdayBefore?_eq_some hread with rfl | ⟨w', hw, -, hletters', -⟩
    · -- the word itself is no number
      rw [skipBlanks_eq (hfield.noBlank _),
        number?_eq_none (by decide) (noDigit_of_letters hletters hne _)] at hnumber
      cases hnumber
    · -- the word ends where the comma stands
      obtain ⟨b, marks, rfl⟩ := List.exists_cons_of_ne_nil hmarks
      have hb : isLetter (Char.ofNat b.toNat) = false := by
        rcases hseparate b List.mem_cons_self with rfl | rfl <;> rfl
      have hcut := congrArg (List.dropWhile isLetter) hw
      rw [behind_letters hletters' (c := ',') rfl] at hcut
      have hrest := (behind_letters hletters hb (chars marks ++ d :: body)).symm.trans hcut
      obtain ⟨-, rfl⟩ := List.cons.inj hrest
      rcases skipBlanks_marks (fun b hb => hseparate b (List.mem_cons_of_mem _ hb)) hblank with
        hbody | ⟨more, hcomma⟩
      · exact hbody
      · rw [hcomma, number?_eq_none (by decide) (show NoDigit (',' :: more) from rfl)] at hnumber
        cases hnumber

end Spelled

/-! ## The forms -/

section Forms

variable {c : Clock} {offset : Int} {front date gap time zone : Bytes}

/-- The characters of a text, from its front on. -/
theorem chars_text (front date gap time zone : Bytes) :
    chars (front ++ (date ++ (gap ++ (time ++ zone)))) =
      chars front ++ (chars date ++ (chars gap ++ (chars time ++ chars zone))) := by
  simp only [chars_append]

variable (hvalid : c.date.isValid = true) (hhour : c.hour < 24) (hminute : c.minute < 60)
  (hsecond : c.second < 60) (hfront : Front front) (hdate : OfDate c.date date) (hgap : IsGap gap)
  (htime : OfTime c time) (hzone : OfZone offset zone)

include hvalid hhour hminute hsecond hfront hdate hgap htime hzone

/-- **A loosely written date** is what every spelling is. -/
theorem LooseDate.read?_spelled :
    read? (chars (front ++ (date ++ (gap ++ (time ++ zone))))) = c.stamp? offset := by
  obtain ⟨⟨hpos, hle⟩, -, hday⟩ := Date.bounds_of_isValid hvalid
  obtain ⟨day, month, year, hfields, hdate⟩ := hdate.exists_fields hpos hle
  obtain ⟨htimeField, htimeRead⟩ := htime.fields hhour hminute hsecond
  obtain ⟨zs, hzs, hzoneRead⟩ : ∃ zs, fields (chars time ++ chars zone) = chars time :: zs ∧
      (zs = [] ∧ offset = 0 ∨ ∃ z, zs = [z] ∧ zone? z = some offset) := by
    rcases hzone.cases with ⟨rfl, rfl⟩ | ⟨gap', z, rfl, hgap', hz⟩
    · refine ⟨[], ?_, .inl ⟨rfl, rfl⟩⟩
      rw [← htimeField]
      exact congrArg fields (List.append_nil _)
    · refine ⟨_, ?_, .inr ⟨chars z, rfl, hz.loose⟩⟩
      rw [chars_append, hgap'.fields, htimeField, hz.fields]
      rfl
  have hmonth := (monthOf?_of_month hpos hle hfields.month_name).1
  have hdigits : (chars day).all isDigit = true := by rw [all_isDigit_chars, hfields.day_digits]
  have hne : chars day ≠ [] := fun hnil => hfields.day_ne_nil (List.map_eq_nil_iff.1 hnil)
  -- a month has three letters, a day two digits at most
  have hnotMonth : monthOf? (chars day) = none := by
    rw [Option.eq_none_iff_forall_ne_some]
    intro m hm
    have hthree := (letters_of_monthOf? hm).1
    have hlength : (chars day).length = day.length := List.length_map _
    have hshort := hfields.day_length
    rw [List.length_take, hlength] at hthree
    omega
  have hbody : fields (chars date ++ (chars gap ++ (chars time ++ chars zone))) =
      chars day :: chars month :: chars year :: chars time :: zs := by
    rw [hgap.fields, hdate, hzs]
    rfl
  have hall : dropWord (fields (chars (front ++ (date ++ (gap ++ (time ++ zone)))))) =
      chars day :: chars month :: chars year :: chars time :: zs := by
    rw [chars_text]
    rw [hfront.dropWord (by rw [hbody, dropWord_of_digits hne hdigits]), hbody]
  have hfirst : dayFirst (chars day :: chars month :: chars year :: chars time :: zs) =
      chars day :: chars month :: chars year :: chars time :: zs := by
    rw [dayFirst, hnotMonth]
    rfl
  have hday : wholeNumber? (chars day) = some c.date.day := by
    rw [wholeNumber?_digits hfields.day_digits hfields.day_ne_nil, hfields.day_value]
    rw [hfields.day_value]
    exact Nat.lt_of_le_of_lt hday (by decide)
  have hyear : year? (chars year) = some (Decimal.value year) := by
    have hlength : (chars year).length = 4 := (List.length_map _).trans hfields.year_length
    have hdigits : (chars year).all isDigit = true := by
      rw [all_isDigit_chars, hfields.year_digits]
    simp [year?, hlength, hdigits, value_chars]
  unfold read?
  rw [hall, hfirst]
  dsimp only
  rw [hyear, hmonth, hday, htimeRead]
  have hshown : (Clock.mk ⟨Decimal.value year, c.date.month, c.date.day⟩ c.hour c.minute
      c.second) = c := by
    rw [hfields.year_value]
  rcases hzoneRead with ⟨rfl, rfl⟩ | ⟨z, rfl, hz⟩
  · exact congrArg (fun c => Clock.stamp? c 0) hshown
  · dsimp only
    rw [hz]
    exact congrArg (fun c => Clock.stamp? c offset) hshown

/-- **A date in wire form** is what some spellings are: without a word in front, with dashes and
    colons, and with a sign before the zone. -/
theorem InternalDate.read?_spelled :
    read? (chars (front ++ (date ++ (gap ++ (time ++ zone))))) = none ∨
      read? (chars (front ++ (date ++ (gap ++ (time ++ zone))))) = c.stamp? offset := by
  obtain ⟨⟨hpos, hle⟩, -, hday⟩ := Date.bounds_of_isValid hvalid
  rw [chars_text]
  cases hfront with
  | @word w marks hne hletters hmonth hmarks hseparate =>
    -- a word is no number
    left
    have hfield := isField_of_letters hletters hne
    refine bind_of_eq_none ?_ _
    rw [pair?, chars_append, List.append_assoc, skipBlanks_eq (hfield.noBlank _)]
    exact number?_eq_none (by decide) (noDigit_of_letters hletters hne _)
  | none =>
    show read? (chars date ++ _) = none ∨ read? (chars date ++ _) = _
    cases hdate with
    | @spaces day month year gap' gap'' hfields hgap' hgap'' =>
      -- a dash has to stand behind the day
      left
      rw [chars_spaces]
      refine (bind_of_eq_some (hfields.pair?_day (by omega) (hgap'.noDigit _)) _).trans ?_
      refine bind_of_eq_none ?_ _
      obtain ⟨rest, hcons⟩ := hgap'.eq_cons
      rw [hcons]
      rfl
    | @dashes day month year hfields =>
      cases htime with
      | @marks mark hmark =>
        obtain ⟨g, hg⟩ := hgap.eq_cons
        have hnumber : ∀ {n} cs, n < 100 → pair? (chars (Stamp.padded 2 n) ++ cs) = some (n, cs) :=
          fun cs hn => ShortDate.pair?_padded hn cs
        rw [chars_dashes, chars_marks]
        refine none_or_some (hfields.pair?_day (by omega) (show NoDigit ('-' :: _) from rfl)) ?_
        refine none_or_some rfl ?_
        refine none_or_some (hfields.month?_month hpos hle _) ?_
        refine none_or_some rfl ?_
        rw [hg, List.cons_append]
        refine none_or_some (hfields.year?_year _) ?_
        rw [← List.cons_append, ← hg]
        refine none_or_some (by
          rw [pair?, hgap.skipBlanks ((isField_padded 1 c.hour).noBlank _)]
          exact number?_padded (by decide) (by omega) _) ?_
        rcases hmark with rfl | rfl
        · refine none_or_some rfl ?_
          refine none_or_some (hnumber _ (by omega)) ?_
          refine none_or_some rfl ?_
          refine none_or_some (hnumber _ (by omega)) ?_
          refine none_or_bind ?_
          rintro ⟨off, rest⟩ hread
          obtain ⟨rfl, rfl⟩ := hzone.internal hread
          exact .inr (Option.bind_fun_some (c.stamp? off))
        · exact .inl (bind_of_eq_none rfl _)

/-- **A date of a message header** is what some spellings are: with a day of the week that is right
    or none, with spaces and colons, and with a zone that has a sign or a name. -/
theorem MessageDate.read?_spelled :
    read? (chars (front ++ (date ++ (gap ++ (time ++ zone))))) = none ∨
      read? (chars (front ++ (date ++ (gap ++ (time ++ zone))))) = c.stamp? offset := by
  obtain ⟨⟨hpos, hle⟩, -, hday⟩ := Date.bounds_of_isValid hvalid
  rw [chars_text]
  refine none_or_bind ?_
  rintro ⟨weekday, behind⟩ hweekday
  refine none_or_bind ?_
  rintro ⟨n, cs⟩ hnumber
  cases hdate with
  | @dashes day month year hfields =>
    rw [chars_dashes] at hweekday
    rw [hfront.skip hfields.day_digits hfields.day_ne_nil _ hweekday hnumber,
      hfields.number?_day (by omega) (show NoDigit ('-' :: _) from rfl)] at hnumber
    cases hnumber
    -- white space has to stand behind the day
    exact .inl (bind_of_eq_none rfl _)
  | @spaces day month year gap' gap'' hfields hgap' hgap'' =>
    rw [chars_spaces] at hweekday
    rw [hfront.skip hfields.day_digits hfields.day_ne_nil _ hweekday hnumber,
      hfields.number?_day (by omega) (hgap'.noDigit _)] at hnumber
    cases hnumber
    refine none_or_some (hgap'.blanks? ((hfields.isField_month hpos hle).noBlank _)) ?_
    refine none_or_some (hfields.month?_month hpos hle _) ?_
    refine none_or_some (hgap''.blanks? (hfields.isField_year.noBlank _)) ?_
    refine none_or_some (hfields.digits?_year (hgap.noDigit _)) ?_
    cases htime with
    | @marks mark hmark =>
      have htwo : ∀ {n} cs, n < 100 →
          number? 2 2 (chars (Stamp.padded 2 n) ++ cs) = some (n, cs) :=
        fun cs hn => number?_padded (Nat.le_refl 2) hn cs
      rw [chars_marks]
      refine none_or_some (hgap.blanks? ((isField_padded 1 c.hour).noBlank _)) ?_
      refine none_or_some (htwo _ (by omega)) ?_
      rcases hmark with rfl | rfl
      · refine none_or_some (MessageDate.colon? _) ?_
        refine none_or_some (by
          rw [ShortDate.skipBlanks_padded]
          exact htwo _ (by omega)) ?_
        refine none_or_some (seconds?_cons (Nat.le_of_lt hsecond) _) ?_
        refine none_or_bind ?_
        rintro ⟨u, cs⟩ hblanks
        refine none_or_bind ?_
        rintro ⟨off, rest⟩ hread
        obtain ⟨rfl, rfl⟩ := hzone.message hblanks hread
        refine none_or_bind fun s hstamp => ?_
        have hshown : (⟨fullYear (Decimal.value year) 4, c.date.month, c.date.day⟩ : Date) =
            c.date := by
          rw [fullYear_four, hfields.year_value]
        rw [hshown] at hstamp
        -- a wrong day of the week is refused
        by_cases hright : (weekday.map (· == c.date.weekday)).getD true = true
        · refine .inr ((if_pos ?_).trans hstamp.symm)
          rw [hshown]
          exact hright
        · refine .inl (if_neg ?_)
          rw [hshown]
          exact hright
      · exact .inl (bind_of_eq_none rfl _)

end Forms

/-! ## All forms -/

/-- Bytes in ASCII are read as their characters, whatever comes behind them. -/
theorem decode_chars_append {bs : Bytes} (h : ∀ b ∈ bs, b < 0x80) (rest : Bytes) :
    Utf8.decode (bs ++ rest) = chars bs ++ Utf8.decode rest := by
  induction bs with
  | nil => rfl
  | cons b bs ih =>
    obtain ⟨hb, hbs⟩ := List.forall_mem_cons.1 h
    rw [List.cons_append, Utf8.decode_cons_ascii hb, ih hbs]
    rfl

/-- **Spaces around a field and a comment behind it** are no part of the date. -/
theorem Stamp.dateText_around {bs : Bytes} (h : IsField bs) (before after : Nat) {comment : Bytes}
    (hcomment : ∀ b ∈ comment.head?, b = Bytes.openRound) :
    dateText (List.replicate before Bytes.space ++ bs ++ List.replicate after Bytes.space ++
      comment) = chars bs := by
  have hspaces : ∀ n, ∀ c ∈ chars (List.replicate n Bytes.space), Text.isBlank c = true := by
    intro n c hc
    obtain ⟨b, hb, rfl⟩ := List.mem_map.1 hc
    rw [List.eq_of_mem_replicate hb]
    rfl
  have htext : (List.replicate before Bytes.space ++ bs ++ List.replicate after Bytes.space).all
      isTextByte = true := by
    have hblanks : ∀ n, (List.replicate n Bytes.space).all isTextByte = true := fun n =>
      List.all_eq_true.2 fun b hb => List.eq_of_mem_replicate hb ▸ rfl
    rw [List.all_append, List.all_append, hblanks, h.text, hblanks]
    rfl
  have hbyte : ∀ b : UInt8, isTextByte b = true → b < 0x80 ∧ (Char.ofNat b.toNat != '(') = true :=
    Bytes.forall_of_fin (by decide +kernel)
  have hend : (Utf8.decode comment).takeWhile (· != '(') = [] := by
    cases comment with
    | nil => rfl
    | cons b comment =>
      rw [hcomment b rfl, Utf8.decode_cons_ascii (by decide)]
      rfl
  have hall := List.all_eq_true.1 htext
  have hopen : ∀ c ∈ chars (List.replicate before Bytes.space ++ bs ++
      List.replicate after Bytes.space), (c != '(') = true := by
    intro c hc
    obtain ⟨b, hb, rfl⟩ := List.mem_map.1 hc
    exact (hbyte b (hall b hb)).2
  rw [dateText, decode_chars_append (fun b hb => (hbyte b (hall b hb)).1),
    List.takeWhile_append_of_pos hopen, hend, List.append_nil, chars_append, chars_append,
    List.append_assoc, Text.trim, skipBlanks_append (hspaces before) (h.noBlank _),
    List.reverse_append,
    skipBlanks_append (fun c hc => hspaces after c (List.mem_reverse.1 hc)) h.back,
    List.reverse_reverse]

/-- What is spelled is a field. -/
theorem isField_text {c : Clock} {offset : Int} {front date gap time zone : Bytes}
    (hvalid : c.date.isValid = true) (hfront : Front front) (hdate : OfDate c.date date)
    (hgap : IsGap gap) (htime : OfTime c time) (hzone : OfZone offset zone) :
    IsField (front ++ (date ++ (gap ++ (time ++ zone)))) := by
  obtain ⟨⟨hpos, hle⟩, -⟩ := Date.bounds_of_isValid hvalid
  have hdateField : IsField date := by
    cases hdate with
    | spaces hfields hgap hgap' =>
      exact (hfields.isField_day.append hgap.text (hfields.isField_month hpos hle)).append
        hgap'.text hfields.isField_year
    | dashes hfields =>
      exact (hfields.isField_day.append (by decide) (hfields.isField_month hpos hle)).append
        (by decide) hfields.isField_year
  have htimeField : IsField time := by
    cases htime with
    | @marks mark hmark =>
      have htext : [mark].all isTextByte = true := by rcases hmark with rfl | rfl <;> decide
      exact ((isField_padded 1 _).append htext (isField_padded 1 _)).append htext
        (isField_padded 1 _)
  have hbehind : IsField (time ++ zone) := by
    rcases hzone.cases with ⟨rfl, -⟩ | ⟨gap', z, rfl, hgap', hz⟩
    · rwa [List.append_nil]
    · rw [← List.append_assoc]
      exact htimeField.append hgap'.text hz.field
  have hbody : IsField (date ++ (gap ++ (time ++ zone))) := by
    rw [← List.append_assoc]
    exact hdateField.append hgap.text hbehind
  cases hfront with
  | none => exact hbody
  | @word w marks hne hletters hmonth hmarks hseparate =>
    have htext : marks.all isTextByte = true := List.all_eq_true.2 fun b hb => by
      rcases hseparate b hb with rfl | rfl <;> rfl
    exact (isField_of_letters hletters hne).append htext hbody

/-- The zones that are spelled are offsets of less than a day. -/
theorem isOffset_of_zone {offset : Int} {zone : Bytes} (h : OfZone offset zone) :
    isOffset offset = true := by
  rw [isOffset, Bool.and_eq_true, decide_eq_true_eq, decide_eq_true_eq]
  unfold daySeconds
  cases h with
  | absent => decide
  | east hgap hhours hminutes | unsigned hgap hhours hminutes | west hgap hhours hminutes =>
    unfold Spelled.seconds
    omega
  | named hgap hname hzone =>
    have hall : ∀ z ∈ Spelled.zoneNames, -86400 < z.2 * 3600 ∧ z.2 * 3600 < 86400 := by decide
    exact hall _ hname

/-- The years that are spelled. -/
theorem year_of_date {d : Date} {date : Bytes} (h : OfDate d date) :
    0 ≤ d.year ∧ d.year ≤ 9999 := by
  have hyear : ∀ {day month year}, DateFields d day month year → 0 ≤ d.year ∧ d.year ≤ 9999 := by
    intro day month year hfields
    have hlt := hfields.year_lt
    rw [← hfields.year_value]
    omega
  cases h with
  | spaces hfields => exact hyear hfields
  | dashes hfields => exact hyear hfields

/-- **A clock in a year of four digits shows an instant.** -/
theorem Clock.exists_stamp? {c : Clock} {offset : Int} (hdate : c.date.isValid = true)
    (htime : c.isTime = true) (hoffset : isOffset offset = true) (hlow : 0 ≤ c.date.year)
    (hhigh : c.date.year ≤ 9999) : ∃ s, c.stamp? offset = some s := by
  obtain ⟨hfrom, hto⟩ := Date.toDays_bounds hdate
  have hfirst : Date.daysBeforeYear 0 ≤ c.date.toDays :=
    Int.le_trans (Date.daysBeforeYear_mono hlow) hfrom
  have hlast : c.date.toDays < Date.daysBeforeYear 10000 :=
    Int.lt_of_lt_of_le hto (Date.daysBeforeYear_mono (by omega))
  have hvalid : (c.date.isValid && c.isTime && isOffset offset && isKeptYear c.date.year) = true := by
    simp only [hdate, htime, hoffset, isKeptYear, Bool.true_and, Bool.and_eq_true,
      decide_eq_true_eq]
    omega
  rw [isOffset, Bool.and_eq_true, decide_eq_true_eq, decide_eq_true_eq] at hoffset
  rw [isTime, Bool.and_eq_true, Bool.and_eq_true, decide_eq_true_eq, decide_eq_true_eq,
    decide_eq_true_eq] at htime
  -- the day at UTC is the one on the clock, or one next to it
  have hkept : ∀ second : Nat, second < 86400 → isKeptYear (Date.ofDays
      (((c.date.toDays - epochDay) * daySeconds + second - offset) / daySeconds
        + epochDay)).year = true := by
    intro second hsecond
    have hyear : ∀ n, (Date.ofDays n).year = Date.yearOfDay n := fun _ => rfl
    have hlow' : (-1 : Int) ≤ Date.yearOfDay (((c.date.toDays - epochDay) * daySeconds + second
        - offset) / daySeconds + epochDay) := by
      refine Date.le_yearOfDay.2 ?_
      simp only [Date.daysBeforeYear, epochDay, daySeconds] at hoffset hfirst ⊢
      omega
    have hhigh' : ¬ (10001 : Int) ≤ Date.yearOfDay (((c.date.toDays - epochDay) * daySeconds
        + second - offset) / daySeconds + epochDay) := by
      refine fun h => absurd (Date.le_yearOfDay.1 h) ?_
      simp only [Date.daysBeforeYear, epochDay, daySeconds] at hoffset hlast ⊢
      omega
    rw [hyear, isKeptYear, Bool.and_eq_true, decide_eq_true_eq, decide_eq_true_eq]
    omega
  have hsecond : (if c.second == 60 then 59 else c.second) < 60 := by
    split
    · decide
    · next hleap =>
      rw [beq_iff_eq] at hleap
      omega
  rw [stamp?, if_pos hvalid]
  exact ⟨_, if_pos (hkept _ (by omega))⟩

/-- **Every tolerated spelling means the date that is spelled.**  A text that spells a date of the
    calendar, a time of day without a leap second and an offset is read, and as the instant at which
    a clock with that offset shows that date and time. -/
theorem Stamp.read?_tolerated {c : Clock} {offset : Int} {text : Bytes}
    (hdate : c.date.isValid = true) (hhour : c.hour < 24) (hminute : c.minute < 60)
    (hsecond : c.second < 60) (htext : OfText c offset text) :
    ∃ s, read? text false = some s ∧ c.stamp? offset = some s ∧ s.clock = c ∧ s.offset = offset := by
  cases htext with
  | @parts before after front date gap time zone comment hfront hspelled hgap htime hzone hcomment =>
    obtain ⟨hlow, hhigh⟩ : 0 ≤ c.date.year ∧ c.date.year ≤ 9999 := year_of_date hspelled
    have hclock : c.isTime = true := by
      rw [Clock.isTime, Bool.and_eq_true, Bool.and_eq_true, decide_eq_true_eq, decide_eq_true_eq,
        decide_eq_true_eq]
      omega
    obtain ⟨s, hs⟩ := Clock.exists_stamp? hdate hclock (isOffset_of_zone hzone) hlow hhigh
    refine ⟨s, ?_, hs, Clock.clock_of_stamp? hs⟩
    have hmessage := MessageDate.read?_spelled hdate hhour hminute hsecond hfront hspelled hgap
      htime hzone
    have hinternal := InternalDate.read?_spelled hdate hhour hminute hsecond hfront hspelled hgap
      htime hzone
    have hloose := LooseDate.read?_spelled hdate hhour hminute hsecond hfront hspelled hgap htime
      hzone
    rw [hs] at hmessage hinternal hloose
    rw [read?, dateText_around (isField_text hdate hfront hspelled hgap htime hzone) _ _ hcomment,
      readAs?, hloose]
    -- whatever form fits first, it gives the stamp
    rcases hmessage with hm | hm <;> rcases hinternal with hi | hi <;> rw [hm, hi] <;> rfl

/-- A word that is no day of the week here, dots and a zone by name, with a comment that is no text;
    and a date with dashes behind a word, west of Greenwich. -/
theorem Stamp.read?_tolerated_words :
    (∃ s, read? (Bytes.ofString " Montag, 9 feb 2007 15.03.04 edt " ++ [Bytes.openRound, 0xFF]) false
        = some s ∧ s.clock = ⟨⟨2007, 2, 9⟩, 15, 3, 4⟩ ∧ s.offset = -14400) ∧
    ∃ s, read? (Bytes.ofString "Wed 31-DEC-1000  23:59:59 -0530") false = some s ∧
      s.clock = ⟨⟨1000, 12, 31⟩, 23, 59, 59⟩ ∧ s.offset = -19800 := by
  have hgap : IsGap [Bytes.space] := ⟨by decide, by simp⟩
  constructor
  · have hfront : Front (Bytes.ofString "Montag" ++ [Spelled.comma, Bytes.space]) :=
      .word (by decide) (by decide +kernel) (by decide +kernel) (by decide) (by simp)
    have hdate : OfDate ⟨2007, 2, 9⟩ (Bytes.ofString "9" ++ [Bytes.space] ++ Bytes.ofString "feb" ++
        [Bytes.space] ++ Bytes.ofString "2007") :=
      .spaces ⟨by decide, by decide, by decide, by decide +kernel, by decide, by decide,
        by decide +kernel⟩
        hgap hgap
    have hzone : OfZone (-4 * 3600) ([Bytes.space] ++ Bytes.ofString "edt") :=
      .named hgap (show ("EDT", -4) ∈ Spelled.zoneNames by decide) (by decide +kernel)
    have hcomment : ∀ b ∈ [Bytes.openRound, 0xFF].head?, b = Bytes.openRound := by simp
    have htext : OfText ⟨⟨2007, 2, 9⟩, 15, 3, 4⟩ (-4 * 3600) (List.replicate 1 Bytes.space ++ _ ++
        List.replicate 1 Bytes.space ++ [Bytes.openRound, 0xFF]) :=
      .parts hfront hdate hgap (.marks (.inr rfl)) hzone hcomment
    obtain ⟨s, hs, -, hclock, hoffset⟩ := read?_tolerated (by decide) (by decide) (by decide)
      (by decide) htext
    refine ⟨s, ?_, hclock, hoffset⟩
    rw [← hs]
    congr 1
    decide +kernel
  · have hfront : Front (Bytes.ofString "Wed" ++ [Bytes.space]) :=
      .word (by decide) (by decide +kernel) (by decide +kernel) (by decide) (by simp)
    have hdate : OfDate ⟨1000, 12, 31⟩ (Bytes.ofString "31" ++ [Bytes.minus] ++
        Bytes.ofString "DEC" ++ [Bytes.minus] ++ Bytes.ofString "1000") :=
      .dashes ⟨by decide, by decide, by decide, by decide +kernel, by decide, by decide,
        by decide +kernel⟩
    have hzone : OfZone (-Spelled.seconds 5 30) ([Bytes.space] ++
        Bytes.minus :: (padded 2 5 ++ padded 2 30)) := .west hgap (by decide) (by decide)
    have hwide : IsGap [Bytes.space, Bytes.space] := ⟨by decide, by simp⟩
    have htext : OfText ⟨⟨1000, 12, 31⟩, 23, 59, 59⟩ (-Spelled.seconds 5 30)
        (List.replicate 0 Bytes.space ++ _ ++ List.replicate 0 Bytes.space ++ []) :=
      .parts hfront hdate hwide (.marks (.inl rfl)) hzone nofun
    obtain ⟨s, hs, -, hclock, hoffset⟩ := read?_tolerated (by decide) (by decide) (by decide)
      (by decide) htext
    refine ⟨s, ?_, hclock, hoffset⟩
    rw [← hs]
    congr 1
    decide +kernel

end ImapWire
