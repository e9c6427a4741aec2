/-
  Date texts by position.

  A date text comes from anywhere, so its bytes may form no text at all.  They are read as text first,
  and everything that is cut off afterwards is cut at a byte of that text: a comment at its bracket, a
  zone behind its sign and between its hours and minutes.  A cut must not go through a character.  It
  never does, since it stands at a character of ASCII or between digits.

  1. **Classes of bytes** and of characters are the same where they are of ASCII
     (`Bytes.all_ofChars`), so what was found by bytes can be cut by characters (`textSize_digits`).

  2. **Fields** are moved by their number in the list only where there are that many
     (`dropWord_eq`, `dayFirst_eq`), and none is empty, so a zone has a first byte (`zone_eq`).

  3. **Numbers** of two and four digits are small (`year_eq`, `zone_eq`), whatever is added to them.

  4. **The whole text** (`readDate_eq`).
-/
import ImapWire.Proofs.Guarded.Index
import ImapWire.Proofs.Stamp.Years
import ImapWire.Proofs.Text.Encoded
import Mathlib.Data.List.TakeWhile

namespace ImapWire

namespace Guarded

open DateField (monthOf? wholeNumber? isLetter zoneHours?)

/-! ## Classes of bytes -/

/-- Is the byte of a letter. -/
def isLetterByte (b : UInt8) : Bool := (0x61 ≤ b && b ≤ 0x7A) || (0x41 ≤ b && b ≤ 0x5A)

/-- A class of characters that is one of bytes in ASCII and has nothing beyond. -/
theorem class_iff {p : UInt8 → Bool} {q : Char → Bool}
    (hsame : ∀ n : Fin 128, q (Char.ofNat n) = p (UInt8.ofNat n))
    (hq : ∀ c, q c = true → c.toNat < 0x80) (c : Char) :
    q c = true ↔ c.toNat < 0x80 ∧ p (UInt8.ofNat c.toNat) = true := by
  have hascii : c.toNat < 0x80 → q c = p (UInt8.ofNat c.toNat) := by
    intro hlt
    rw [← hsame ⟨c.toNat, hlt⟩]
    exact congrArg q (Char.ofNat_toNat c).symm
  constructor
  · intro hc
    exact ⟨hq c hc, hascii (hq c hc) ▸ hc⟩
  · rintro ⟨hlt, hc⟩
    rw [hascii hlt]
    exact hc

theorem toNat_of_isDigit {c : Char} (h : DateField.isDigit c = true) : c.toNat < 0x80 := by
  simp only [DateField.isDigit, Bool.and_eq_true, decide_eq_true_eq] at h
  have hle : c.toNat ≤ '9'.toNat := h.2
  exact Nat.lt_of_le_of_lt hle (by decide)

theorem toNat_of_isLetter {c : Char} (h : isLetter c = true) : c.toNat < 0x80 := by
  simp only [isLetter, Bool.or_eq_true, Bool.and_eq_true, decide_eq_true_eq] at h
  rcases h with ⟨-, h⟩ | ⟨-, h⟩
  · have hle : c.toNat ≤ 'z'.toNat := h
    exact Nat.lt_of_le_of_lt hle (by decide)
  · have hle : c.toNat ≤ 'Z'.toNat := h
    exact Nat.lt_of_le_of_lt hle (by decide)

theorem all_isDigit (cs : List Char) :
    (Bytes.ofChars cs).all Bytes.isDigit = cs.all DateField.isDigit := by
  have hbyte : ∀ b, Bytes.isDigit b = true → b < 0x80 := Bytes.forall_of_fin (by decide +kernel)
  exact Bytes.all_ofChars hbyte (class_iff (by decide +kernel) fun _ => toNat_of_isDigit) cs

theorem all_isLetter (cs : List Char) :
    (Bytes.ofChars cs).all isLetterByte = cs.all isLetter := by
  have hbyte : ∀ b, isLetterByte b = true → b < 0x80 := Bytes.forall_of_fin (by decide +kernel)
  exact Bytes.all_ofChars hbyte (class_iff (by decide +kernel) fun _ => toNat_of_isLetter) cs

/-- Digits are as many bytes as characters. -/
theorem textSize_digits {cs : List Char} (h : cs.all DateField.isDigit = true) :
    textSize cs = cs.length := by
  induction cs with
  | nil => rfl
  | cons c cs ih =>
    rw [List.all_cons, Bool.and_eq_true] at h
    have hsize : c.utf8Size = 1 := by
      rw [← String.length_utf8EncodeChar, Bytes.encodeChar_of_ascii (toNat_of_isDigit h.1)]
      rfl
    show c.utf8Size + textSize cs = cs.length + 1
    rw [hsize, ih h.2, Nat.add_comm]

/-! ## Comments -/

/-- The part of a text that is the date: up to the first bracket, and trimmed. -/
def dateText (bs : Bytes) : Guarded (List Char) := do
  let text ← match findChar? '(' (Utf8.decode bs) with
    | none => .ok (Utf8.decode bs)
    | some i => textUpTo (Utf8.decode bs) i
  .ok (Text.trim text)

/-- **A comment** is cut off at a character. -/
theorem dateText_eq (bs : Bytes) : dateText bs = .ok (Stamp.dateText bs) := by
  unfold dateText Stamp.dateText
  rw [findChar?_eq]
  split
  · next hnone =>
    have hmem : '(' ∉ Utf8.decode bs := by
      intro hmem
      rw [if_pos hmem] at hnone
      cases hnone
    have hall : ∀ c ∈ Utf8.decode bs, (c != '(') = true := by
      intro c hc
      rw [bne_iff_ne]
      rintro rfl
      exact hmem hc
    have hwhole : (Utf8.decode bs).takeWhile (· != '(') = Utf8.decode bs :=
      List.takeWhile_eq_self_iff.2 hall
    rw [hwhole]
    rfl
  · next i hsome =>
    have hcut : textUpTo (Utf8.decode bs) i
        = .ok ((Utf8.decode bs).takeWhile (· != '(')) := by
      split at hsome
      · obtain rfl := Option.some.inj hsome
        have hfront := textUpTo_append ((Utf8.decode bs).takeWhile (· != '('))
          ((Utf8.decode bs).dropWhile (· != '('))
        rwa [List.takeWhile_append_dropWhile] at hfront
      · cases hsome
    rw [hcut]
    rfl

/-! ## Fields -/

/-- The bytes of a field behind its first one have a dash among them. -/
def hasInnerDash (field : List Char) : Bool := (Bytes.ofChars field).tail.contains Bytes.minus

/-- Cuts a field at its dashes, if it has one after its first byte and starts with no sign. -/
def splitField (field : List Char) : List (List Char) :=
  if hasInnerDash field && field.head? != some '-' && field.head? != some '+' then
    LooseDate.parts (· == '-') field
  else [field]

/-- The fields without a word in front that is no month. -/
def dropWord (fields : List (List Char)) : Guarded (List (List Char)) :=
  if (fields.head?.any fun f => f.all isLetter && (monthOf? f).isNone) = true then remove fields 0
  else .ok fields

/-- The fields with the day before the month. -/
def dayFirst (fields : List (List Char)) : Guarded (List (List Char)) :=
  if 2 ≤ fields.length then do
    let first ← get fields 0
    if (monthOf? first).isSome then do
      let second ← get fields 1
      if (wholeNumber? second).isSome then swap fields 0 1 else .ok fields
    else .ok fields
  else .ok fields

/-- A field of several bytes has the same dashes in its bytes as in its characters. -/
theorem hasInnerDash_eq (field : List Char) : hasInnerDash field = field.tail.contains '-' := by
  cases field with
  | nil => rfl
  | cons c cs =>
    obtain ⟨b, bs, hbytes⟩ := List.exists_cons_of_ne_nil (Bytes.encodeChar_ne_nil c)
    -- a dash is a character of its own, so it is not among the further bytes of one
    have hfirst : Bytes.minus ∉ bs := by
      intro hmem
      have hdash : Bytes.minus ∈ String.utf8EncodeChar c := by
        rw [hbytes]
        exact List.mem_cons_of_mem b hmem
      have hone := (Bytes.ascii_of_mem_encodeChar (by decide) hdash).1
      rw [hbytes] at hone
      rw [(List.cons.inj hone).2] at hmem
      cases hmem
    have htail : (Bytes.ofChars (c :: cs)).tail = bs ++ Bytes.ofChars cs := by
      rw [Bytes.ofChars_cons, hbytes]
      rfl
    have hmem : Bytes.minus ∈ Bytes.ofChars cs ↔ '-' ∈ cs := Bytes.mem_ofChars_iff (by decide)
    rw [hasInnerDash, htail, Bool.eq_iff_iff]
    simp only [List.contains_eq_mem, decide_eq_true_eq, List.mem_append, List.tail_cons, hmem,
      hfirst, false_or]

theorem splitField_eq (field : List Char) : splitField field = LooseDate.splitDashes field := by
  unfold splitField LooseDate.splitDashes
  rw [hasInnerDash_eq]

/-- **Fields are moved** only where they are. -/
theorem dropWord_eq (fields : List (List Char)) :
    dropWord fields = .ok (LooseDate.dropWord fields) := by
  cases fields with
  | nil => rfl
  | cons f fs =>
    show (if (f.all isLetter && (monthOf? f).isNone) = true then remove (f :: fs) 0
      else .ok (f :: fs)) = .ok (if (f.all isLetter && (monthOf? f).isNone) = true then fs
      else f :: fs)
    split
    · exact if_pos (Nat.succ_pos _)
    · rfl

theorem dayFirst_eq (fields : List (List Char)) :
    dayFirst fields = .ok (LooseDate.dayFirst fields) := by
  match fields with
  | [] => rfl
  | [f] => rfl
  | f :: g :: fs =>
    have hlength : 2 ≤ (f :: g :: fs).length := Nat.le_add_left 2 fs.length
    show (if 2 ≤ (f :: g :: fs).length then
        if (monthOf? f).isSome = true then
          if (wholeNumber? g).isSome = true then .ok (g :: f :: fs) else .ok (f :: g :: fs)
        else .ok (f :: g :: fs)
      else .ok (f :: g :: fs)) = Except.ok (if _ then _ else _)
    rw [if_pos hlength]
    cases (monthOf? f).isSome <;> cases (wholeNumber? g).isSome <;> rfl

/-! ## Numbers -/

/-- A year of two to four digits. -/
def year (field : List Char) : Guarded (Option Int) :=
  if 2 ≤ textSize field ∧ textSize field ≤ 4 ∧ (Bytes.ofChars field).all Bytes.isDigit then
    if textSize field = 2 then
      if DateField.value field < 50 then (int32 (DateField.value field + 2000)).map some
      else (int32 (DateField.value field + 1900)).map some
    else (int32 (DateField.value field)).map some
  else .ok none

/-- The seconds of hours and minutes. -/
def seconds (hours minutes : Nat) : Guarded Int := do
  let hourSeconds ← int32 (hours * 3600)
  let minuteSeconds ← int32 (minutes * 60)
  int32 (hourSeconds + minuteSeconds)

/-- The seconds that four digits of hours and minutes stand for. -/
def offsetSeconds (digits : List Char) : Guarded Int := do
  let hours ← textUpTo digits 2
  let minutes ← textBehind digits 2
  seconds (DateField.value hours) (DateField.value minutes)

/-- A zone without its sign, where `b` is its first byte. -/
def unsigned (b : UInt8) (field : List Char) : Guarded (List Char) :=
  if b = Bytes.minus ∨ b = Bytes.plus then textBehind field 1 else .ok field

/-- A zone: a known name, an offset of four digits with or without a sign, or any other word. -/
def zone (field : List Char) : Guarded (Option Int) :=
  match if field.map Char.toUpper = ['U', 'T', 'C'] then some 0 else zoneHours? field with
  | some hours => (int32 (hours * 3600)).map some
  | none =>
    match (Bytes.ofChars field).head? with
    | none => .ok none
    | some b => do
      let digits ← unsigned b field
      if textSize digits = 4 ∧ (Bytes.ofChars digits).all Bytes.isDigit then do
        let seconds ← offsetSeconds digits
        .ok (some (if b = Bytes.minus then -seconds else seconds))
      else .ok (if (Bytes.ofChars field).all isLetterByte then some 0 else none)

/-- **The number of a year** is at most 9999, whatever it counts from. -/
theorem year_eq (field : List Char) :
    year field = .ok ((LooseDate.year? field).map fun n => (n : Int)) := by
  unfold year
  rw [all_isDigit]
  by_cases hdigits : field.all DateField.isDigit = true
  · rw [textSize_digits hdigits]
    by_cases hshape : 2 ≤ field.length ∧ field.length ≤ 4 ∧ field.all DateField.isDigit = true
    · rw [if_pos hshape]
      have hyear : LooseDate.year? field = some (if field.length = 2 then
          (if DateField.value field < 50 then DateField.value field + 2000
            else DateField.value field + 1900)
          else DateField.value field) := if_pos hshape
      have hle := LooseDate.year?_le hyear
      rw [hyear]
      split
      · next hshort =>
        rw [if_pos hshort] at hle
        split
        · next hfew =>
          rw [if_pos hfew] at hle
          rw [int32_eq (by omega) (by omega)]
          rfl
        · next hmany =>
          rw [if_neg hmany] at hle
          rw [int32_eq (by omega) (by omega)]
          rfl
      · next hlong =>
        rw [if_neg hlong] at hle
        rw [int32_eq (by omega) (by omega)]
        rfl
    · have hyear : LooseDate.year? field = none := if_neg hshape
      rw [if_neg hshape, hyear]
      rfl
  · have hyear : LooseDate.year? field = none := if_neg fun h => hdigits h.2.2
    rw [if_neg fun h => hdigits h.2.2, hyear]
    rfl

theorem zoneHours?_range {field : List Char} {hours : Int} (h : zoneHours? field = some hours) :
    -8 ≤ hours ∧ hours ≤ 0 := by
  unfold zoneHours? at h
  split at h <;> simp only [Option.some.injEq, reduceCtorEq] at h <;> omega

/-- Digits may be cut anywhere. -/
theorem cut_digits {cs : List Char} {n : Nat} (h : cs.all DateField.isDigit = true)
    (hn : n ≤ cs.length) : textUpTo cs n = .ok (cs.take n) ∧ textBehind cs n = .ok (cs.drop n) := by
  have hfront : (cs.take n).all DateField.isDigit = true := by
    rw [List.all_eq_true] at h ⊢
    exact fun c hc => h c (List.mem_of_mem_take hc)
  have hsize : textSize (cs.take n) = n := by
    rw [textSize_digits hfront, List.length_take_of_le hn]
  have hupTo := textUpTo_append (cs.take n) (cs.drop n)
  have hbehind := textBehind_append (cs.take n) (cs.drop n)
  rw [List.take_append_drop, hsize] at hupTo hbehind
  exact ⟨hupTo, hbehind⟩

theorem value_le_of_two {cs : List Char} (h : cs.all DateField.isDigit = true)
    (hlength : cs.length = 2) : DateField.value cs ≤ 99 := by
  have hnines : DateField.value (List.replicate 2 '9') = 99 := rfl
  have hle := DateField.value_le_nines h
  rwa [hlength, hnines] at hle

theorem seconds_eq {hours minutes : Nat} (hhours : hours ≤ 99) (hminutes : minutes ≤ 99) :
    seconds hours minutes = .ok ((hours * 3600 + minutes * 60 : Nat) : Int) := by
  have hhourSeconds : int32 (hours * 3600) = .ok (hours * 3600) :=
    int32_eq (by omega) (by omega)
  have hminuteSeconds : int32 (minutes * 60) = .ok (minutes * 60) :=
    int32_eq (by omega) (by omega)
  have hseconds : int32 (hours * 3600 + minutes * 60) = .ok (hours * 3600 + minutes * 60) :=
    int32_eq (by omega) (by omega)
  have hcast : ((hours * 3600 + minutes * 60 : Nat) : Int) = hours * 3600 + minutes * 60 := by omega
  unfold seconds
  rw [hhourSeconds, ok_bind, hminuteSeconds, ok_bind, hseconds, hcast]

/-- **The seconds of four digits** are at most those of 99 hours and 99 minutes. -/
theorem offsetSeconds_eq {cs : List Char} (h : cs.all DateField.isDigit = true)
    (hlength : cs.length = 4) :
    offsetSeconds cs = .ok
      ((DateField.value (cs.take 2) * 3600 + DateField.value (cs.drop 2) * 60 : Nat) : Int) := by
  obtain ⟨hfront, hback⟩ := cut_digits (n := 2) h (by omega)
  have hall := h
  rw [← List.take_append_drop 2 cs, List.all_append, Bool.and_eq_true] at hall
  have hhours := value_le_of_two hall.1 (by simp; omega)
  have hminutes := value_le_of_two hall.2 (by simp; omega)
  unfold offsetSeconds
  rw [hfront, ok_bind, hback, ok_bind, seconds_eq hhours hminutes]

/-- The first byte of a text is one of ASCII if its first character is. -/
theorem head?_ofChars_iff {cs : List Char} {b : UInt8} (hb : b < 0x80) :
    (Bytes.ofChars cs).head? = some b ↔ cs.head? = some (Char.ofNat b.toNat) := by
  constructor
  · exact Bytes.head?_of_head?_ofChars hb
  · intro h
    cases cs with
    | nil => cases h
    | cons c cs =>
      obtain rfl : c = Char.ofNat b.toNat := Option.some.inj h
      have hlt : b.toNat < 128 := UInt8.lt_iff_toNat_lt.1 hb
      have hnumber := Bytes.toNat_ofByte hb
      rw [Bytes.ofChars_cons, Bytes.encodeChar_of_ascii (by rw [hnumber]; exact hlt), hnumber,
        UInt8.ofNat_toNat]
      rfl

/-- A sign by its byte is one by its character. -/
theorem sign_iff {field : List Char} {b : UInt8} (hfirst : (Bytes.ofChars field).head? = some b)
    {sign : UInt8} (hsign : sign < 0x80) :
    b = sign ↔ field.head? = some (Char.ofNat sign.toNat) := by
  rw [← head?_ofChars_iff hsign, hfirst, Option.some.injEq]

/-- **A sign** is one byte, so the cut behind it is at a character. -/
theorem unsigned_eq {field : List Char} {b : UInt8}
    (hfirst : (Bytes.ofChars field).head? = some b) :
    unsigned b field
      = .ok (if field.head? = some '-' ∨ field.head? = some '+' then field.tail else field) := by
  have hminus : b = Bytes.minus ↔ field.head? = some '-' := sign_iff hfirst (by decide)
  have hplus : b = Bytes.plus ↔ field.head? = some '+' := sign_iff hfirst (by decide)
  unfold unsigned
  simp only [hminus, hplus]
  split
  · next hsign =>
    cases field with
    | nil => cases hfirst
    | cons c cs =>
      have hsize : textSize [c] = 1 := by
        rcases hsign with hsign | hsign <;> obtain rfl := Option.some.inj hsign <;> rfl
      have hcut := textBehind_append [c] cs
      rwa [hsize] at hcut
  · rfl

/-- **A zone** is cut behind its sign and between hours and minutes. -/
theorem zone_eq {field : List Char} (hne : field ≠ []) :
    zone field = .ok (LooseDate.zone? field) := by
  have hknown : ∀ hours, (if field.map Char.toUpper = ['U', 'T', 'C'] then some 0
      else zoneHours? field) = some hours → -8 ≤ hours ∧ hours ≤ 0 := by
    intro hours hhours
    split at hhours
    · obtain rfl := Option.some.inj hhours
      decide
    · exact zoneHours?_range hhours
  unfold zone LooseDate.zone?
  generalize (if field.map Char.toUpper = ['U', 'T', 'C'] then some 0 else zoneHours? field)
    = known at *
  cases known with
  | some hours =>
    have hrange := hknown hours rfl
    show (int32 (hours * 3600)).map some = _
    rw [int32_eq (by omega) (by omega)]
    rfl
  | none =>
    obtain ⟨b, hfirst⟩ : ∃ b, (Bytes.ofChars field).head? = some b := by
      obtain ⟨c, cs, rfl⟩ := List.exists_cons_of_ne_nil hne
      obtain ⟨b, bs, hbytes⟩ := List.exists_cons_of_ne_nil (Bytes.encodeChar_ne_nil c)
      exact ⟨b, by rw [Bytes.ofChars_cons, hbytes]; rfl⟩
    have hminus : b = Bytes.minus ↔ field.head? = some '-' := sign_iff hfirst (by decide)
    rw [hfirst]
    simp only [unsigned_eq hfirst, bind, Except.bind, all_isDigit, all_isLetter, hminus]
    generalize (if field.head? = some '-' ∨ field.head? = some '+' then field.tail else field) = ds
    by_cases hshape : ds.length = 4 ∧ ds.all DateField.isDigit = true
    · rw [textSize_digits hshape.2, if_pos hshape, if_pos hshape,
        offsetSeconds_eq hshape.2 hshape.1]
    · have hbytes : ¬ (textSize ds = 4 ∧ ds.all DateField.isDigit = true) := by
        rintro ⟨hsize, hall⟩
        rw [textSize_digits hall] at hsize
        exact hshape ⟨hsize, hall⟩
      rw [if_neg hbytes, if_neg hshape]

/-! ## Whole texts -/

/-- A loosely written date. -/
def looseDate (cs : List Char) : Guarded (Option Stamp) := do
  let fields ← dropWord
    ((LooseDate.parts (fun c => Text.isAsciiBlank c || c == ',') cs).flatMap splitField)
  let fields ← dayFirst fields
  match fields with
  | dayField :: monthField :: yearField :: rest => do
    let fullYear ← year yearField
    let offset ← match rest with
      | _ :: zoneField :: _ => zone zoneField
      | _ => .ok (some 0)
    .ok do
      let date : Date := ⟨← fullYear, ← monthOf? monthField, ← wholeNumber? dayField⟩
      let (hour, minute, second) ← match rest with
        | [] => some (0, 0, 0)
        | time :: _ => LooseDate.time? time
      let offset ← offset
      (Clock.mk date hour minute second).stamp? offset
  | _ => .ok none

/-- A date; with `toUtc` it is moved to the local clock, which is assumed to stand at UTC. -/
def readDate (bs : Bytes) (toUtc : Bool) : Guarded (Option Stamp) := do
  let text ← dateText bs
  let stamp ← match MessageDate.read? text <|> InternalDate.read? text with
    | some s => .ok (some s)
    | none => looseDate text
  .ok (stamp.map fun s => if toUtc then s.toUtc else s)

/-- No field of a date is empty. -/
theorem ne_nil_of_mem_fields {cs field : List Char} (h : field ∈ LooseDate.fields cs) :
    field ≠ [] := by
  have hparts : ∀ {separates : Char → Bool} {cs part : List Char},
      part ∈ LooseDate.parts separates cs → part ≠ [] := by
    intro separates cs part hpart
    have hfull := (List.mem_filter.1 hpart).2
    rintro rfl
    cases hfull
  obtain ⟨part, hpart, hfield⟩ := List.mem_flatMap.1 h
  unfold LooseDate.splitDashes at hfield
  split at hfield
  · exact hparts hfield
  · obtain rfl := List.mem_singleton.1 hfield
    exact hparts hpart

theorem mem_of_mem_dropWord {fields : List (List Char)} {field : List Char}
    (h : field ∈ LooseDate.dropWord fields) : field ∈ fields := by
  unfold LooseDate.dropWord at h
  split at h
  · exact h
  · split at h
    · exact List.mem_cons_of_mem _ h
    · exact h

theorem mem_of_mem_dayFirst {fields : List (List Char)} {field : List Char}
    (h : field ∈ LooseDate.dayFirst fields) : field ∈ fields := by
  unfold LooseDate.dayFirst at h
  split at h
  · split at h
    · exact (List.Perm.swap _ _ _).mem_iff.1 h
    · exact h
  · exact h

theorem looseDate_eq (cs : List Char) : looseDate cs = .ok (LooseDate.read? cs) := by
  have hsplit : splitField = LooseDate.splitDashes := funext splitField_eq
  have hfull : ∀ field ∈ LooseDate.dayFirst (LooseDate.dropWord (LooseDate.fields cs)),
      field ≠ [] := fun field hfield =>
    ne_nil_of_mem_fields (mem_of_mem_dropWord (mem_of_mem_dayFirst hfield))
  unfold looseDate LooseDate.read?
  rw [hsplit, dropWord_eq, ok_bind, dayFirst_eq, ok_bind]
  unfold LooseDate.fields at hfull ⊢
  generalize LooseDate.dayFirst (LooseDate.dropWord _) = fields at hfull ⊢
  match fields with
  | [] | [_] | [_, _] => rfl
  | dayField :: monthField :: yearField :: rest =>
    dsimp only
    rw [year_eq, ok_bind]
    match rest with
    | [] | [_] => cases LooseDate.year? yearField <;> rfl
    | time :: zoneField :: rest =>
      have hzone : zoneField ≠ [] := hfull zoneField (by simp)
      dsimp only
      rw [zone_eq hzone, ok_bind]
      cases LooseDate.year? yearField <;> rfl

/-- **A date is read** without cutting through a character, whatever the bytes are. -/
theorem readDate_eq (bs : Bytes) (toUtc : Bool) :
    readDate bs toUtc = .ok (Stamp.read? bs toUtc) := by
  unfold readDate Stamp.read? Stamp.readAs?
  rw [dateText_eq, ok_bind]
  cases MessageDate.read? (Stamp.dateText bs) with
  | some s => rfl
  | none =>
    cases InternalDate.read? (Stamp.dateText bs) with
    | some s => rfl
    | none =>
      show (looseDate (Stamp.dateText bs) >>= _) = _
      rw [looseDate_eq]
      rfl

end Guarded

end ImapWire
