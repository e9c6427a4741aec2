/-
  The year that each form of date reads.

  A date text is read in the first form that it fits (`DateForm.Reads`).  Its words are told apart
  in one way for all forms (`DateForm.words`), up to what counts as white space; the third of them is
  the year (`DateForm.yearDigits?`).  What the reader of a form makes of that word:

    1. in a message header, the year that RFC 2822 gives it (`DateForm.year_message`);
    2. in the wire form, the number that is written (`DateForm.year_internal`);
    3. in the loose form, a number of its own rule (`DateForm.year_loose`).

  The crux of the third is that the reader cuts a text twice, at white space and commas first and at
  dashes then, and leaves a part that begins with a sign whole.  No such part is a day, a month or a
  year, so up to the year that is cutting once (`LooseDate.take_splitDashes`).
-/
import ImapWire.Proofs.Stamp.Words
import ImapWire.Proofs.Stamp.Years

namespace ImapWire

open DateField

/-! ## Forms -/

/-- The forms of dates, in the order in which they are tried. -/
inductive DateForm
  | message
  | internal
  | loose
  deriving DecidableEq

namespace DateForm

/-- Reads a text in one form. -/
def read? : DateForm → List Char → Option Stamp
  | message => MessageDate.read?
  | internal => InternalDate.read?
  | loose => LooseDate.read?

/-- The forms that are tried before one. -/
def before : DateForm → List DateForm
  | message => []
  | internal => [message]
  | loose => [message, internal]

/-- A text is read in a form: it fits it, and none before it. -/
def Reads (f : DateForm) (cs : List Char) (s : Stamp) : Prop :=
  f.read? cs = some s ∧ ∀ g ∈ f.before, g.read? cs = none

/-- White space between the words of a form. -/
def isBlank : DateForm → Char → Bool
  | loose => Text.isAsciiBlank
  | _ => Text.isBlank

/-- Stands between the words of a date. -/
def separates (f : DateForm) (c : Char) : Bool := f.isBlank c || c == ',' || c == '-'

/-- The words of a date, without a day of the week in front. -/
def words (f : DateForm) (cs : List Char) : List (List Char) :=
  LooseDate.dropWord (LooseDate.parts f.separates cs)

/-- The year as it is written, without a plus sign. -/
def yearDigits? (f : DateForm) (cs : List Char) : Option (List Char) :=
  (f.words cs)[2]?.map fun w => if w.head? = some '+' then w.tail else w

/-- **A text is read in the first form that it fits.** -/
theorem readAs?_eq_some_iff {cs : List Char} {s : Stamp} :
    Stamp.readAs? cs = some s ↔ ∃ f : DateForm, f.Reads cs s := by
  unfold Stamp.readAs?
  constructor
  · intro h
    cases hmessage : MessageDate.read? cs with
    | some s' =>
      rw [hmessage] at h
      exact ⟨message, hmessage.trans h, nofun⟩
    | none =>
      rw [hmessage] at h
      cases hinternal : InternalDate.read? cs with
      | some s' =>
        rw [hinternal] at h
        exact ⟨internal, hinternal.trans h, List.forall_mem_singleton.2 hmessage⟩
      | none =>
        rw [hinternal] at h
        exact ⟨loose, h, List.forall_mem_cons.2 ⟨hmessage, List.forall_mem_singleton.2 hinternal⟩⟩
  · rintro ⟨f, hread, hbefore⟩
    cases f with
    | message =>
      have hmessage : MessageDate.read? cs = some s := hread
      rw [hmessage]
      rfl
    | internal =>
      have hmessage : MessageDate.read? cs = none := hbefore message List.mem_cons_self
      have hinternal : InternalDate.read? cs = some s := hread
      rw [hmessage, hinternal]
      rfl
    | loose =>
      have hmessage : MessageDate.read? cs = none := hbefore message List.mem_cons_self
      have hinternal : InternalDate.read? cs = none := hbefore internal (by simp [before])
      have hloose : LooseDate.read? cs = some s := hread
      rw [hmessage, hinternal, hloose]
      rfl

/-! ## Words -/

variable {f : DateForm} {w : List Char} {ws : List (List Char)} {cs rest : List Char} {s : Stamp}

theorem isBlank_of_separates {c : Char} (h : f.separates c = true) :
    Text.isBlank c = true ∨ c = ',' ∨ c = '-' := by
  rw [separates, Bool.or_eq_true, Bool.or_eq_true, beq_iff_eq, beq_iff_eq, or_assoc] at h
  refine h.imp_left fun hblank => ?_
  cases f with
  | loose => exact Text.isBlank_of_isAsciiBlank hblank
  | _ => exact hblank

/-- What numbers and names are written with stands in words. -/
theorem separates_eq_false {c : Char} (h : isDigit c = true ∨ isLetter c = true ∨ c = '+') :
    f.separates c = false := by
  refine Bool.eq_false_iff.2 fun hseparates => ?_
  have hrange : (0x30 ≤ c.toNat ∧ c.toNat ≤ 0x39) ∨ (0x61 ≤ c.toNat ∧ c.toNat ≤ 0x7A) ∨
      (0x41 ≤ c.toNat ∧ c.toNat ≤ 0x5A) ∨ c.toNat = 0x2B := by
    rcases h with h | h | rfl
    · rw [isDigit, Bool.and_eq_true, decide_eq_true_eq, decide_eq_true_eq] at h
      exact Or.inl ⟨UInt32.le_iff_toNat_le.1 h.1, UInt32.le_iff_toNat_le.1 h.2⟩
    · rw [isLetter, Bool.or_eq_true, Bool.and_eq_true, Bool.and_eq_true, decide_eq_true_eq,
        decide_eq_true_eq, decide_eq_true_eq, decide_eq_true_eq] at h
      rcases h with h | h
      · exact Or.inr (Or.inl ⟨UInt32.le_iff_toNat_le.1 h.1, UInt32.le_iff_toNat_le.1 h.2⟩)
      · exact Or.inr (Or.inr (Or.inl ⟨UInt32.le_iff_toNat_le.1 h.1, UInt32.le_iff_toNat_le.1 h.2⟩))
    · exact Or.inr (Or.inr (Or.inr rfl))
  rcases isBlank_of_separates hseparates with hblank | rfl | rfl
  · simp only [Text.isBlank, Text.blankRanges, List.any_cons, List.any_nil, Bool.or_eq_true,
      Bool.and_eq_true, decide_eq_true_eq, Bool.or_false] at hblank
    omega
  · exact absurd hrange (by decide)
  · exact absurd hrange (by decide)

theorem word_of_digits (h : w.all isDigit = true) : ∀ c ∈ w, f.separates c = false :=
  fun c hc => separates_eq_false (Or.inl (List.all_eq_true.1 h c hc))

theorem word_of_letters (h : w.all isLetter = true) : ∀ c ∈ w, f.separates c = false :=
  fun c hc => separates_eq_false (Or.inr (Or.inl (List.all_eq_true.1 h c hc)))

/-- White space of any kind separates, but not in the loose form. -/
theorem separates_of_isBlank (hf : f ≠ loose) {c : Char} (h : Text.isBlank c = true) :
    f.separates c = true := by
  have hblank : f.isBlank = Text.isBlank := by
    cases f with
    | loose => exact absurd rfl hf
    | _ => rfl
  rw [separates, hblank, h]
  rfl

theorem parts_skipBlanks (hf : f ≠ loose) (cs : List Char) :
    LooseDate.parts f.separates (Text.skipBlanks cs) = LooseDate.parts f.separates cs :=
  LooseDate.parts_dropWhile (fun _ hc => separates_of_isBlank hf hc) cs

theorem head?_ne_plus (hw : w.all isDigit = true) (rest : List Char) (hne : w ≠ []) :
    (w ++ rest).head? ≠ some '+' := by
  obtain ⟨c, w, rfl⟩ := List.exists_cons_of_ne_nil hne
  intro hplus
  obtain rfl := Option.some.inj hplus
  exact absurd (List.all_eq_true.1 hw '+' List.mem_cons_self) (by decide)

/-- A number that was read is a word, if a separator stands behind it. -/
theorem parts_of_number? (hf : f ≠ loose) {least most n : Nat}
    (h : number? least most (Text.skipBlanks cs) = some (n, rest)) (hleast : 0 < least)
    (hrest : ∀ c ∈ rest.head?, f.separates c = true) :
    ∃ ds, ds ≠ [] ∧ ds.all isDigit = true ∧
      LooseDate.parts f.separates cs = ds :: LooseDate.parts f.separates rest := by
  obtain ⟨ds, hcut, hall, hlength, -⟩ := number?_eq_some h
  have hne : ds ≠ [] := List.ne_nil_of_length_pos (by omega)
  refine ⟨ds, hne, hall, ?_⟩
  rw [← parts_skipBlanks hf, hcut, LooseDate.parts_word_end hne (word_of_digits hall) hrest]

/-- So is a month. -/
theorem parts_of_month? {month : Nat} (h : month? cs = some (month, rest))
    (hrest : ∀ c ∈ rest.head?, f.separates c = true) :
    ∃ w, LooseDate.parts f.separates cs = w :: LooseDate.parts f.separates rest := by
  obtain ⟨w, rfl, hlength, hall⟩ := month?_eq_some h
  exact ⟨w, LooseDate.parts_word_end (List.ne_nil_of_length_pos (by omega)) (word_of_letters hall)
    hrest⟩

/-- The digits of a year without a sign are the third word. -/
theorem yearDigits?_of_words {day month : List Char} (hwords : f.words cs = day :: month :: w :: ws)
    (hw : w.head? ≠ some '+') : f.yearDigits? cs = some w := by
  rw [yearDigits?, hwords]
  exact congrArg some (if_neg hw)

/-! ## The year of a message header -/

/-- White space that was read separates. -/
theorem separates_of_blanks? {u : Unit} (h : blanks? cs = some (u, rest)) :
    ∀ c ∈ cs.head?, message.separates c = true :=
  fun c hc => separates_of_isBlank (by decide) ((blanks?_eq_some h).1 c hc)

/-- It is no part of a word. -/
theorem parts_of_blanks? {u : Unit} (h : blanks? cs = some (u, rest)) :
    LooseDate.parts message.separates rest = LooseDate.parts message.separates cs := by
  rw [(blanks?_eq_some h).2, parts_skipBlanks (by decide)]

/-- The words of a message header are those behind the day of the week. -/
theorem words_of_weekdayBefore? {weekday : Option Nat}
    (h : MessageDate.weekdayBefore? (Text.skipBlanks cs) = some (weekday, rest))
    (hrest : LooseDate.parts message.separates rest = w :: ws) (hne : w ≠ [])
    (hw : w.all isDigit = true) : message.words cs = w :: ws := by
  rw [words, ← parts_skipBlanks (by decide)]
  rcases weekdayBefore?_eq_some h with hnone | ⟨name, hname, hlength, hletters, hmonthOf⟩
  · rw [hnone, hrest, dropWord_of_digits hne hw]
  · have hcomma : ∀ c ∈ (',' :: rest).head?, message.separates c = true := by
      rintro c ⟨rfl⟩
      rfl
    rw [hname, LooseDate.parts_word_end (List.ne_nil_of_length_pos (by omega))
      (word_of_letters hletters) hcomma, dropWord_of_letters hletters hmonthOf,
      LooseDate.parts_cons rfl, hrest]

/-- **A message header has the year that its digits stand for.** -/
theorem year_message (h : MessageDate.read? cs = some s) :
    ∃ ds, yearDigits? message cs = some ds ∧ ds.all isDigit = true ∧
      s.year = MessageDate.fullYear (value ds) ds.length := by
  obtain ⟨⟨weekday, cs₁⟩, hweekday, h⟩ := Option.bind_eq_some_iff.1 h
  obtain ⟨⟨day, cs₂⟩, hday, h⟩ := Option.bind_eq_some_iff.1 h
  obtain ⟨⟨_, cs₃⟩, hbehindDay, h⟩ := Option.bind_eq_some_iff.1 h
  obtain ⟨⟨month, cs₄⟩, hmonth, h⟩ := Option.bind_eq_some_iff.1 h
  obtain ⟨⟨_, cs₅⟩, hbehindMonth, h⟩ := Option.bind_eq_some_iff.1 h
  obtain ⟨⟨⟨year, count⟩, cs₆⟩, hyear, h⟩ := Option.bind_eq_some_iff.1 h
  obtain ⟨⟨_, cs₇⟩, hbehindYear, h⟩ := Option.bind_eq_some_iff.1 h
  obtain ⟨⟨hour, cs₈⟩, -, h⟩ := Option.bind_eq_some_iff.1 h
  obtain ⟨⟨_, cs₉⟩, -, h⟩ := Option.bind_eq_some_iff.1 h
  obtain ⟨⟨minute, cs₁₀⟩, -, h⟩ := Option.bind_eq_some_iff.1 h
  obtain ⟨⟨second, cs₁₁⟩, -, h⟩ := Option.bind_eq_some_iff.1 h
  obtain ⟨⟨_, cs₁₂⟩, -, h⟩ := Option.bind_eq_some_iff.1 h
  obtain ⟨⟨offset, cs₁₃⟩, -, h⟩ := Option.bind_eq_some_iff.1 h
  obtain ⟨stamp, hstamp, h⟩ := Option.bind_eq_some_iff.1 h
  obtain rfl := Option.some.inj (Option.ite_none_right_eq_some.1 h).2
  -- the words up to the year
  obtain ⟨dayDigits, hdayNe, hdayAll, hdayWord⟩ :=
    parts_of_number? (f := message) (by decide) hday (by decide) (separates_of_blanks? hbehindDay)
  obtain ⟨monthName, hmonthWord⟩ :=
    parts_of_month? (f := message) hmonth (separates_of_blanks? hbehindMonth)
  obtain ⟨ds, hyearCut, hdsAll, hdsLength, rfl, rfl, -⟩ := digits?_eq_some hyear
  have hdsNe : ds ≠ [] := List.ne_nil_of_length_pos (by omega)
  have hyearWord : LooseDate.parts message.separates cs₅ =
      ds :: LooseDate.parts message.separates cs₆ := by
    rw [hyearCut, LooseDate.parts_word_end hdsNe (word_of_digits hdsAll)
      (separates_of_blanks? hbehindYear)]
  rw [← parts_of_blanks? hbehindDay, hmonthWord, ← parts_of_blanks? hbehindMonth, hyearWord]
    at hdayWord
  have hwords := words_of_weekdayBefore? hweekday hdayWord hdayNe hdayAll
  have hplus := head?_ne_plus hdsAll [] hdsNe
  rw [List.append_nil] at hplus
  exact ⟨ds, yearDigits?_of_words hwords hplus, hdsAll, Clock.year_of_stamp? hstamp⟩

/-! ## The year of the wire form -/

/-- **A year in wire form that was read** is the number of its digits, up to its sign: all digits
    that stand there, or four of them. -/
theorem year?_eq_some {year : Int} (h : InternalDate.year? cs = some (year, rest)) :
    ∃ sign ds, Text.skipBlanks cs = sign ++ (ds ++ rest) ∧ ds.all isDigit = true ∧ ds ≠ [] ∧
      year.natAbs = value ds ∧
        ((sign = ['-'] ∨ sign = ['+'] ∨ sign = []) ∧ NoDigit rest ∨ sign = [] ∧ ds.length = 4) := by
  simp only [InternalDate.year?] at h
  split at h
  · next hminus =>
    obtain ⟨⟨⟨n, count⟩, rest'⟩, hdigits, heq⟩ := Option.map_eq_some_iff.1 h
    obtain ⟨rfl, rfl⟩ := Prod.mk.inj heq
    obtain ⟨ds, hcut, hall, hlength, rfl, -, hrest⟩ := digits?_eq_some hdigits
    refine ⟨['-'], ds, ?_, hall, List.ne_nil_of_length_pos hlength, by simp, .inl ⟨by simp, hrest⟩⟩
    rw [← hcut]
    exact List.eq_cons_of_mem_head? hminus
  · split at h
    · next hplus =>
      obtain ⟨⟨⟨n, count⟩, rest'⟩, hdigits, heq⟩ := Option.map_eq_some_iff.1 h
      obtain ⟨rfl, rfl⟩ := Prod.mk.inj heq
      obtain ⟨ds, hcut, hall, hlength, rfl, -, hrest⟩ := digits?_eq_some hdigits
      refine ⟨['+'], ds, ?_, hall, List.ne_nil_of_length_pos hlength, by simp,
        .inl ⟨by simp, hrest⟩⟩
      rw [← hcut]
      exact List.eq_cons_of_mem_head? hplus
    · obtain ⟨⟨n, rest'⟩, hnumber, heq⟩ := Option.map_eq_some_iff.1 h
      obtain ⟨rfl, rfl⟩ := Prod.mk.inj heq
      obtain ⟨ds, hcut, hall, hlength, -, rfl, hend⟩ := number?_eq_some hnumber
      refine ⟨[], ds, hcut, hall, List.ne_nil_of_length_pos hlength, by simp, ?_⟩
      rcases hend with hfour | hrest
      · exact .inr ⟨rfl, hfour⟩
      · exact .inl ⟨by simp, hrest⟩

/-- Behind a number that no digit follows, white space stands in front of the next one. -/
theorem separates_of_pair? {n : Nat} (hdigit : NoDigit cs)
    (h : InternalDate.pair? cs = some (n, rest)) : ∀ c ∈ cs.head?, internal.separates c = true := by
  intro c hc
  have hcons := List.eq_cons_of_mem_head? hc
  refine separates_of_isBlank (by decide) (Bool.of_not_eq_false fun hblank => ?_)
  obtain ⟨ds, hcut, hall, hlength, -⟩ := number?_eq_some h
  have hsame : Text.skipBlanks cs = cs := by
    rw [hcons]
    exact List.dropWhile_cons_of_neg (by simp [hblank])
  obtain ⟨d, ds, rfl⟩ := List.exists_cons_of_ne_nil (List.ne_nil_of_length_pos hlength)
  rw [hsame, hcons, List.cons_append] at hcut
  have hd : isDigit c = true := (List.cons.inj hcut).1 ▸ List.all_eq_true.1 hall d List.mem_cons_self
  rw [NoDigit, hcons] at hdigit
  exact absurd hd (by simpa using hdigit)

/-- The word that a year in wire form stands in is the year, or has four digits and more. -/
theorem yearDigits?_internal {day month : List Char} {year : Int} {hour : Nat} {behind : List Char}
    (hwords : internal.words cs = day :: month :: LooseDate.parts internal.separates rest)
    (hyear : InternalDate.year? rest = some (year, behind))
    (hhour : InternalDate.pair? behind = some (hour, w)) :
    ∃ ds, internal.yearDigits? cs = some ds ∧
      (4 ≤ ds.length ∨ ds.all isDigit = true ∧ year.natAbs = value ds) := by
  obtain ⟨sign, ds, hcut, hall, hne, habs, hshape⟩ := year?_eq_some hyear
  rw [← parts_skipBlanks (by decide), hcut] at hwords
  have hplain := head?_ne_plus hall
  rcases hshape with ⟨hsign, hdigit⟩ | ⟨rfl, hfour⟩
  · have hend := separates_of_pair? hdigit hhour
    have hword := LooseDate.parts_word_end hne (word_of_digits (f := internal) hall) hend
    refine ⟨ds, ?_, .inr ⟨hall, habs⟩⟩
    rcases hsign with rfl | rfl | rfl
    · rw [List.singleton_append, LooseDate.parts_cons rfl, hword] at hwords
      exact yearDigits?_of_words hwords (by simpa using hplain [] hne)
    · -- a plus sign is a part of the word
      have hplus : ∀ c ∈ '+' :: ds, internal.separates c = false :=
        List.forall_mem_cons.2 ⟨by decide, word_of_digits hall⟩
      rw [List.singleton_append, ← List.cons_append,
        LooseDate.parts_word_end (List.cons_ne_nil _ _) hplus hend] at hwords
      rw [yearDigits?, hwords]
      rfl
    · rw [List.nil_append, hword] at hwords
      exact yearDigits?_of_words hwords (by simpa using hplain [] hne)
  · obtain ⟨more, ws, hword⟩ := LooseDate.parts_word hne (word_of_digits (f := internal) hall) behind
    rw [List.nil_append, hword] at hwords
    refine ⟨_, yearDigits?_of_words hwords (hplain _ hne), .inl ?_⟩
    rw [List.length_append]
    omega

/-- **The wire form has the year that is written**, as far as its word has less than four
    characters. -/
theorem year_internal (h : InternalDate.read? cs = some s) :
    ∃ ds, internal.yearDigits? cs = some ds ∧
      (4 ≤ ds.length ∨ ds.all isDigit = true ∧ s.year.natAbs = value ds) := by
  obtain ⟨⟨day, cs₁⟩, hday, h⟩ := Option.bind_eq_some_iff.1 h
  obtain ⟨⟨_, cs₂⟩, hdash, h⟩ := Option.bind_eq_some_iff.1 h
  obtain ⟨⟨month, cs₃⟩, hmonth, h⟩ := Option.bind_eq_some_iff.1 h
  obtain ⟨⟨_, cs₄⟩, hdash', h⟩ := Option.bind_eq_some_iff.1 h
  obtain ⟨⟨year, cs₅⟩, hyear, h⟩ := Option.bind_eq_some_iff.1 h
  obtain ⟨⟨hour, cs₆⟩, hhour, h⟩ := Option.bind_eq_some_iff.1 h
  obtain ⟨⟨_, cs₇⟩, -, h⟩ := Option.bind_eq_some_iff.1 h
  obtain ⟨⟨minute, cs₈⟩, -, h⟩ := Option.bind_eq_some_iff.1 h
  obtain ⟨⟨_, cs₉⟩, -, h⟩ := Option.bind_eq_some_iff.1 h
  obtain ⟨⟨second, cs₁₀⟩, -, h⟩ := Option.bind_eq_some_iff.1 h
  obtain ⟨⟨offset, cs₁₁⟩, -, h⟩ := Option.bind_eq_some_iff.1 h
  obtain ⟨stamp, hstamp, h⟩ := Option.bind_eq_some_iff.1 h
  obtain rfl := Option.some.inj (Option.ite_none_right_eq_some.1 h).2
  -- the words up to the year
  have hseparates : ∀ cs : List Char, ∀ c ∈ ('-' :: cs).head?, internal.separates c = true := by
    rintro cs c ⟨rfl⟩
    rfl
  obtain rfl := mark?_eq_some hdash
  obtain rfl := mark?_eq_some hdash'
  obtain ⟨dayDigits, hdayNe, hdayAll, hdayWord⟩ :=
    parts_of_number? (f := internal) (by decide) hday (by decide) (hseparates _)
  obtain ⟨monthName, hmonthWord⟩ := parts_of_month? (f := internal) hmonth (hseparates _)
  have hwords : internal.words cs =
      dayDigits :: monthName :: LooseDate.parts internal.separates cs₄ := by
    rw [words, hdayWord, dropWord_of_digits hdayNe hdayAll, LooseDate.parts_cons rfl, hmonthWord,
      LooseDate.parts_cons rfl]
  obtain ⟨ds, hds, hvalue⟩ := yearDigits?_internal hwords hyear hhour
  rw [Clock.year_of_stamp? hstamp]
  exact ⟨ds, hds, hvalue⟩

/-! ## The year of the loose form -/

/-- A part that holds a dash begins with a sign. -/
theorem sign_of_mem_fields {x : List Char} (hx : x ∈ LooseDate.fields cs) (hdash : '-' ∈ x) :
    x.head? = some '-' ∨ x.head? = some '+' := by
  obtain ⟨part, hpart, hx⟩ := List.mem_flatMap.1 hx
  have hne : part ≠ [] := by simpa using (List.mem_filter.1 hpart).2
  rcases LooseDate.splitDashes_cases hne with hcut | ⟨hwhole, -, hsign⟩
  · rw [hcut] at hx
    exact absurd (LooseDate.separates_of_mem_parts hx '-' hdash) (by decide)
  · rw [hwhole, List.mem_singleton] at hx
    rw [hx]
    exact hsign

/-- What a word in front is dropped from, or nothing is. -/
theorem dropWord_eq_cons {fs : List (List Char)} (h : LooseDate.dropWord fs = w :: ws) :
    fs = w :: ws ∨ ∃ x, fs = x :: w :: ws ∧ x.all isLetter = true ∧ monthOf? x = none := by
  unfold LooseDate.dropWord at h
  split at h
  · cases h
  · next x fs =>
    split at h
    · next hword =>
      rw [Bool.and_eq_true, Option.isNone_iff_eq_none] at hword
      exact .inr ⟨x, by rw [h], hword⟩
    · exact .inl h

/-- Whether a word in front is dropped does not depend on what comes behind. -/
theorem dropWord_cons_eq_self {ws' : List (List Char)} (h : LooseDate.dropWord (w :: ws) = w :: ws) :
    LooseDate.dropWord (w :: ws') = w :: ws' := by
  rw [LooseDate.dropWord] at h ⊢
  split at h
  · exact absurd (congrArg List.length h) (by simp)
  · next hword => exact if_neg hword

/-- **The first three words of a date are the first three fields** that the reader cuts it into, as
    far as these hold no dash. -/
theorem words_loose {a b c : List Char}
    (h : LooseDate.dropWord (LooseDate.fields cs) = a :: b :: c :: ws)
    (hdash : ∀ x ∈ [a, b, c], '-' ∉ x) : ∃ ws', loose.words cs = a :: b :: c :: ws' := by
  have hparts : LooseDate.parts loose.separates cs =
      (LooseDate.parts (fun c => Text.isAsciiBlank c || c == ',') cs).flatMap
        (LooseDate.parts (· == '-')) := (LooseDate.flatMap_parts _ _ cs).symm
  have hne : ∀ f ∈ LooseDate.parts (fun c => Text.isAsciiBlank c || c == ',') cs, f ≠ [] := by
    intro f hf
    simpa using (List.mem_filter.1 hf).2
  have htake : ∀ n, (∀ x ∈ (LooseDate.fields cs).take n, '-' ∉ x) →
      (LooseDate.parts loose.separates cs).take n = (LooseDate.fields cs).take n := by
    intro n hn
    rw [hparts]
    exact LooseDate.take_splitDashes hne hn
  rcases dropWord_eq_cons h with hfields | ⟨x, hfields, hletters, hmonth⟩
  · have hfirst := htake 3 (by rw [hfields]; exact hdash)
    rw [hfields] at hfirst h
    rw [words, ← List.take_append_drop 3 (LooseDate.parts loose.separates cs), hfirst]
    exact ⟨_, dropWord_cons_eq_self h⟩
  · have hx : '-' ∉ x := fun hmem => absurd (List.all_eq_true.1 hletters '-' hmem) (by decide)
    have hfirst := htake 4 (by rw [hfields]; exact List.forall_mem_cons.2 ⟨hx, hdash⟩)
    rw [hfields] at hfirst
    rw [words, ← List.take_append_drop 4 (LooseDate.parts loose.separates cs), hfirst]
    exact ⟨_, dropWord_of_letters hletters hmonth⟩

/-- Day and month, in either order. -/
theorem dayFirst_eq_cons {fs : List (List Char)} {a b : List Char}
    (h : LooseDate.dayFirst fs = a :: b :: ws) : fs = a :: b :: ws ∨ fs = b :: a :: ws := by
  unfold LooseDate.dayFirst at h
  split at h
  · split at h
    · right
      cases h
      rfl
    · exact .inl h
  · exact .inl h

/-- A day has no dash: it is digits, perhaps behind a plus sign. -/
theorem not_dash_of_wholeNumber? {n : Nat} (h : wholeNumber? w = some n) : '-' ∉ w := by
  have hdigits : ∀ ds : List Char, ds.all isDigit = true → '-' ∉ ds :=
    fun ds hds hmem => absurd (List.all_eq_true.1 hds '-' hmem) (by decide)
  obtain ⟨hall, -⟩ := Option.ite_none_right_eq_some.1 h
  rw [Bool.and_eq_true] at hall
  split at hall
  · next hplus =>
    rw [List.eq_cons_of_mem_head? hplus, List.mem_cons]
    rintro (hsign | hmem)
    · exact absurd hsign (by decide)
    · exact hdigits _ hall.2 hmem
  · exact hdigits _ hall.2

/-- A month is no part that was left whole: it begins with a letter. -/
theorem not_dash_of_monthOf? {month : Nat} (hmem : w ∈ LooseDate.fields cs)
    (h : monthOf? w = some month) : '-' ∉ w := by
  obtain ⟨hlength, hletters⟩ := letters_of_monthOf? h
  intro hdash
  obtain ⟨c, w, rfl⟩ := List.exists_cons_of_ne_nil (List.ne_nil_of_mem hdash)
  have hc : isLetter c = true := List.all_eq_true.1 hletters c (by simp)
  rcases sign_of_mem_fields hmem hdash with hsign | hsign
  · obtain rfl := Option.some.inj hsign
    exact absurd hc (by decide)
  · obtain rfl := Option.some.inj hsign
    exact absurd hc (by decide)

/-- **A loosely written date has the year of its own rule**: two digits are those of RFC 2822, three
    or four are the year. -/
theorem year_loose (h : LooseDate.read? cs = some s) :
    ∃ ds, loose.yearDigits? cs = some ds ∧ ds.all isDigit = true ∧
      s.year = if ds.length = 2 then (MessageDate.fullYear (value ds) 2 : Int) else value ds := by
  obtain ⟨dayField, monthField, ds, rest, year, c, _, hfields, hday, hmonth, hyear, hdate, -,
    hstamp⟩ := LooseDate.read?_eq_some h
  obtain ⟨⟨hleast, -, hall⟩, hvalue⟩ := Option.ite_none_right_eq_some.1 hyear
  have hyearDash : '-' ∉ ds := fun hmem => absurd (List.all_eq_true.1 hall '-' hmem) (by decide)
  -- day and month stand in front of the year, in either order
  obtain ⟨a, b, hab, hfields⟩ : ∃ a b, (∀ x ∈ [a, b], x = dayField ∨ x = monthField) ∧
      LooseDate.dropWord (LooseDate.fields cs) = a :: b :: ds :: rest := by
    rcases dayFirst_eq_cons hfields with hfields | hfields
    · exact ⟨_, _, by simp, hfields⟩
    · exact ⟨_, _, by simp, hfields⟩
  have hmem : ∀ x ∈ [a, b], x ∈ LooseDate.fields cs := by
    rcases dropWord_eq_cons hfields with hall | ⟨x, hall, -⟩ <;> simp [hall]
  have hdash : ∀ x ∈ [a, b, ds], '-' ∉ x := by
    have hfront : ∀ x ∈ [a, b], '-' ∉ x := by
      intro x hx
      rcases hab x hx with rfl | rfl
      · exact not_dash_of_wholeNumber? hday
      · exact not_dash_of_monthOf? (hmem _ hx) hmonth
    simpa [hyearDash] using hfront
  obtain ⟨ws, hwords⟩ := words_loose hfields hdash
  have hne : ds ≠ [] := List.ne_nil_of_length_pos (by omega)
  have hplus := head?_ne_plus hall [] hne
  rw [List.append_nil] at hplus
  refine ⟨ds, yearDigits?_of_words hwords hplus, hall, ?_⟩
  rw [Clock.year_of_stamp? hstamp, hdate, ← Option.some.inj hvalue]
  split <;> simp [MessageDate.fullYear]

end DateForm
end ImapWire
