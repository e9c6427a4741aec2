/-
  The words of a date text.

  Whatever form a date is written in, it is a sequence of words: between white space and commas, or
  with dashes between day, month and year.  Behind a day of the week, if there is one, the first
  three words are the day, the month and the year.

    1. **Words** (`LooseDate.parts`).  A text is cut at its separators, and what stands on either
       side is cut on its own (`parts_append_cons`); everything else follows from that.
    2. **Fields.**  A reader of a field takes a run of characters off the text that is no more and
       no less than what it stands for (`DateField.number?_eq_some`, `DateField.month?_eq_some`).
-/
import ImapWire.Proofs.Stamp.Written
import ImapWire.Stamp.Read
import Mathlib

namespace ImapWire

/-! ## Cutting a text -/

namespace LooseDate

variable {separates : Char → Bool}

/-- **A text is cut at a separator.** -/
theorem parts_append_cons {c : Char} (hc : separates c = true) (a b : List Char) :
    parts separates (a ++ c :: b) = parts separates a ++ parts separates b := by
  rw [parts, List.splitOnP_append_cons a b hc, List.filter_append]
  rfl

@[simp] theorem parts_nil : parts separates [] = [] := by simp [parts]

theorem parts_cons {c : Char} (hc : separates c = true) (cs : List Char) :
    parts separates (c :: cs) = parts separates cs := by
  simpa using parts_append_cons hc [] cs

/-- Separators in a row are no more than one. -/
theorem parts_run {run : List Char} (hrun : ∀ c ∈ run, separates c = true) (cs : List Char) :
    parts separates (run ++ cs) = parts separates cs := by
  induction run with
  | nil => rfl
  | cons c run ih =>
    obtain ⟨hc, hrun⟩ := List.forall_mem_cons.1 hrun
    rw [List.cons_append, parts_cons hc, ih hrun]

theorem parts_append_run {run : List Char} (hne : run ≠ []) (hrun : ∀ c ∈ run, separates c = true)
    (a b : List Char) : parts separates (a ++ (run ++ b)) = parts separates a ++ parts separates b := by
  obtain ⟨c, run, rfl⟩ := List.exists_cons_of_ne_nil hne
  obtain ⟨hc, hrun⟩ := List.forall_mem_cons.1 hrun
  rw [List.cons_append, parts_append_cons hc, parts_run hrun]

/-- A text without separators is one word. -/
theorem parts_of_word {w : List Char} (hne : w ≠ []) (hw : ∀ c ∈ w, separates c = false) :
    parts separates w = [w] := by
  rw [parts, List.splitOnP_eq_singleton hw]
  simp [hne]

/-- Separators in front are no part of a word. -/
theorem parts_dropWhile {p : Char → Bool} (hp : ∀ c, p c = true → separates c = true)
    (cs : List Char) : parts separates (cs.dropWhile p) = parts separates cs := by
  induction cs with
  | nil => rfl
  | cons c cs ih =>
    by_cases hc : p c = true
    · rw [List.dropWhile_cons_of_pos hc, ih, parts_cons (hp c hc)]
    · rw [List.dropWhile_cons_of_neg hc]

/-- A text with a separator is cut at its first one. -/
theorem exists_cut {cs : List Char} (h : ¬ ∀ c ∈ cs, separates c = false) :
    ∃ w c rest, cs = w ++ c :: rest ∧ (∀ c ∈ w, separates c = false) ∧ separates c = true := by
  induction cs with
  | nil => exact absurd (fun c hc => nomatch hc) h
  | cons c cs ih =>
    cases hc : separates c with
    | true => exact ⟨[], c, cs, rfl, nofun, hc⟩
    | false =>
      obtain ⟨w, d, rest, rfl, hw, hd⟩ := ih fun hcs => h (List.forall_mem_cons.2 ⟨hc, hcs⟩)
      exact ⟨c :: w, d, rest, rfl, List.forall_mem_cons.2 ⟨hc, hw⟩, hd⟩

/-- A word in front of a separator, or of nothing. -/
theorem parts_word_end {w rest : List Char} (hne : w ≠ []) (hw : ∀ c ∈ w, separates c = false)
    (hrest : ∀ c ∈ rest.head?, separates c = true) :
    parts separates (w ++ rest) = w :: parts separates rest := by
  cases rest with
  | nil => rw [List.append_nil, parts_of_word hne hw, parts_nil]
  | cons c rest =>
    have hc : separates c = true := hrest c rfl
    rw [parts_append_cons hc, parts_of_word hne hw, parts_cons hc]
    rfl

/-- A word in front goes on up to the next separator. -/
theorem parts_word {w : List Char} (hne : w ≠ []) (hw : ∀ c ∈ w, separates c = false)
    (rest : List Char) : ∃ more ws, parts separates (w ++ rest) = (w ++ more) :: ws := by
  by_cases hrest : ∀ c ∈ rest, separates c = false
  · exact ⟨rest, [], parts_of_word (by simp [hne]) (List.forall_mem_append.2 ⟨hw, hrest⟩)⟩
  · obtain ⟨more, c, behind, rfl, hmore, hc⟩ := exists_cut hrest
    refine ⟨more, parts separates (c :: behind), ?_⟩
    rw [← List.append_assoc]
    refine parts_word_end (by simp [hne]) (List.forall_mem_append.2 ⟨hw, hmore⟩) ?_
    rintro d ⟨rfl⟩
    exact hc

/-- No part holds a separator. -/
theorem separates_of_mem_parts {cs x : List Char} (hx : x ∈ parts separates cs) :
    ∀ c ∈ x, separates c = false := by
  induction hlength : cs.length using Nat.strong_induction_on generalizing cs with
  | _ n ih =>
    by_cases hall : ∀ c ∈ cs, separates c = false
    · by_cases hne : cs = []
      · simp [hne] at hx
      · rw [parts_of_word hne hall, List.mem_singleton] at hx
        exact hx ▸ hall
    · obtain ⟨w, c, rest, rfl, hw, hc⟩ := exists_cut hall
      rw [parts_append_cons hc, List.mem_append] at hx
      rw [List.length_append, List.length_cons] at hlength
      rcases hx with hx | hx
      · exact ih w.length (by omega) hx rfl
      · exact ih rest.length (by omega) hx rfl

/-! ### Cutting twice -/

theorem parts_congr {p q : Char → Bool} {cs : List Char} (h : ∀ c ∈ cs, p c = q c) :
    parts p cs = parts q cs := by
  have hsplit : cs.splitOnP p = cs.splitOnP q := by
    induction cs with
    | nil => rfl
    | cons c cs ih =>
      obtain ⟨hc, hcs⟩ := List.forall_mem_cons.1 h
      rw [List.splitOnP_cons_eq_if_modifyHead, List.splitOnP_cons_eq_if_modifyHead, hc, ih hcs]
  rw [parts, parts, hsplit]

/-- **Cutting at two kinds of separators** is cutting at the one kind and every part at the other. -/
theorem flatMap_parts (p q : Char → Bool) (cs : List Char) :
    (parts p cs).flatMap (parts q) = parts (fun c => p c || q c) cs := by
  have hfree : ∀ {w : List Char}, (∀ c ∈ w, p c = false) →
      (parts p w).flatMap (parts q) = parts (fun c => p c || q c) w := by
    intro w hw
    have hsame : parts (fun c => p c || q c) w = parts q w :=
      parts_congr fun c hc => by rw [hw c hc, Bool.false_or]
    rw [hsame]
    by_cases hne : w = []
    · simp [hne]
    · rw [parts_of_word hne hw, List.flatMap_singleton]
  -- the text is cut at its first separator of the one kind, if there is one
  induction hlength : cs.length using Nat.strong_induction_on generalizing cs with
  | _ n ih =>
    by_cases hall : ∀ c ∈ cs, p c = false
    · exact hfree hall
    · obtain ⟨w, c, rest, rfl, hw, hc⟩ := exists_cut hall
      have hboth : (fun c => p c || q c) c = true := by simp [hc]
      rw [parts_append_cons hc, List.flatMap_append, hfree hw, parts_append_cons hboth,
        ih rest.length (by rw [← hlength]; simp; omega) rest rfl]

theorem splitDashes_of_not_mem {field : List Char} (h : '-' ∉ field) : splitDashes field = [field] := by
  have htail : field.tail.contains '-' = false := by
    simpa using fun hmem => h (List.mem_of_mem_tail hmem)
  rw [splitDashes, htail]
  rfl

theorem splitDashes_sign {sign : Char} (h : sign = '-' ∨ sign = '+') (ds : List Char) :
    splitDashes (sign :: ds) = [sign :: ds] := by
  rcases h with rfl | rfl <;> simp [splitDashes]

/-- A part is cut at all its dashes, or it begins with a sign and is left whole. -/
theorem splitDashes_cases {field : List Char} (hne : field ≠ []) :
    splitDashes field = parts (· == '-') field ∨
      splitDashes field = [field] ∧ '-' ∈ field ∧
        (field.head? = some '-' ∨ field.head? = some '+') := by
  by_cases hdash : '-' ∈ field
  · unfold splitDashes
    split
    · exact .inl rfl
    · next hwhole =>
      refine .inr ⟨rfl, hdash, ?_⟩
      obtain ⟨c, rest, rfl⟩ := List.exists_cons_of_ne_nil hne
      rcases List.mem_cons.1 hdash with rfl | htail
      · exact .inl rfl
      · by_contra hsign
        rw [not_or] at hsign
        refine hwhole ?_
        simpa [htail] using hsign
  · left
    have hnone : ∀ c ∈ field, (c == '-') = false := by
      intro c hc
      rw [beq_eq_false_iff_ne]
      rintro rfl
      exact hdash hc
    rw [parts_of_word hne hnone, splitDashes_of_not_mem hdash]

/-- **As far as no part with a dash is left whole**, all parts are cut at their dashes. -/
theorem take_splitDashes {fs : List (List Char)} (hfs : ∀ f ∈ fs, f ≠ []) {n : Nat}
    (h : ∀ x ∈ (fs.flatMap splitDashes).take n, '-' ∉ x) :
    (fs.flatMap (parts (· == '-'))).take n = (fs.flatMap splitDashes).take n := by
  induction fs generalizing n with
  | nil => rfl
  | cons f fs ih =>
    obtain ⟨hf, hfs⟩ := List.forall_mem_cons.1 hfs
    rw [List.flatMap_cons] at h
    rw [List.flatMap_cons, List.flatMap_cons]
    rcases splitDashes_cases hf with hcut | ⟨hwhole, hdash, -⟩
    · rw [List.take_append] at h
      rw [← hcut, List.take_append, List.take_append,
        ih hfs fun x hx => h x (List.mem_append_right _ hx)]
    · cases n with
      | zero => rfl
      | succ n =>
        rw [hwhole] at h
        exact absurd hdash (h f List.mem_cons_self)

end LooseDate

/-! ## Fields that were read -/

namespace DateField

open Text (isBlank skipBlanks)

theorem noDigit_dropWhile (cs : List Char) : NoDigit (cs.dropWhile isDigit) := by
  cases hrest : cs.dropWhile isDigit with
  | nil => rfl
  | cons c rest =>
    have hhead := List.head_dropWhile_not isDigit (l := cs) (by simp [hrest])
    simpa [NoDigit, hrest] using hhead

/-- What was cut off behind the digits, all of them, does not begin with one. -/
theorem noDigit_drop (cs : List Char) : NoDigit (cs.drop (cs.takeWhile isDigit).length) := by
  have hcut := List.prefix_iff_eq_append.1 (List.takeWhile_prefix isDigit (l := cs))
  have hrest : cs.drop (cs.takeWhile isDigit).length = cs.dropWhile isDigit :=
    List.append_cancel_left (hcut.trans List.takeWhile_append_dropWhile.symm)
  rw [hrest]
  exact noDigit_dropWhile cs

/-- **A number that was read** is that of the digits in front, all of them or as many as are read
    at most. -/
theorem number?_eq_some {least most n : Nat} {cs rest : List Char}
    (h : number? least most cs = some (n, rest)) :
    ∃ ds, cs = ds ++ rest ∧ ds.all isDigit = true ∧ least ≤ ds.length ∧ ds.length ≤ most ∧
      n = value ds ∧ (ds.length = most ∨ NoDigit rest) := by
  have hdigits : ((cs.takeWhile isDigit).take most).all isDigit = true :=
    List.all_eq_true.2 fun d hd => List.mem_takeWhile_imp (List.mem_of_mem_take hd)
  have hcut := List.prefix_iff_eq_append.1
    ((List.take_prefix most (cs.takeWhile isDigit)).trans (List.takeWhile_prefix isDigit))
  simp only [number?, valueBelow?_eq, Option.ite_none_right_eq_some, Option.map_eq_some_iff,
    Option.some.injEq, Prod.mk.injEq] at h
  obtain ⟨hleast, n, ⟨-, rfl⟩, rfl, rfl⟩ := h
  refine ⟨_, hcut.symm, hdigits, hleast, List.length_take_le _ _, rfl, ?_⟩
  by_cases hall : (cs.takeWhile isDigit).length ≤ most
  · right
    rw [List.take_of_length_le hall]
    exact noDigit_drop cs
  · left
    rw [List.length_take]
    omega

/-- **All digits that were read**, and how many they are. -/
theorem digits?_eq_some {least n count : Nat} {cs rest : List Char}
    (h : digits? least cs = some ((n, count), rest)) :
    ∃ ds, cs = ds ++ rest ∧ ds.all isDigit = true ∧ least ≤ ds.length ∧ n = value ds ∧
      count = ds.length ∧ NoDigit rest := by
  have hdigits : (cs.takeWhile isDigit).all isDigit = true :=
    List.all_eq_true.2 fun d hd => List.mem_takeWhile_imp hd
  have hcut := List.prefix_iff_eq_append.1 (List.takeWhile_prefix isDigit (l := cs))
  simp only [digits?, valueBelow?_eq, Option.ite_none_right_eq_some, Option.map_eq_some_iff,
    Option.some.injEq, Prod.mk.injEq] at h
  obtain ⟨hleast, n, ⟨-, rfl⟩, ⟨rfl, rfl⟩, rfl⟩ := h
  exact ⟨_, hcut.symm, hdigits, hleast, rfl, rfl, noDigit_drop cs⟩

/-- A mark that was read is the character in front. -/
theorem mark?_eq_some {c : Char} {cs rest : List Char} {u : Unit}
    (h : mark? c cs = some (u, rest)) : cs = c :: rest := by
  obtain ⟨hhead, hrest⟩ := Option.ite_none_right_eq_some.1 h
  obtain ⟨-, rfl⟩ := Prod.mk.inj (Option.some.inj hrest)
  exact List.eq_cons_of_mem_head? hhead

/-- White space that was read stands in front, and all of it is skipped. -/
theorem blanks?_eq_some {cs rest : List Char} {u : Unit} (h : blanks? cs = some (u, rest)) :
    (∀ c ∈ cs.head?, isBlank c = true) ∧ rest = skipBlanks cs := by
  obtain ⟨hhead, hrest⟩ := Option.ite_none_right_eq_some.1 h
  obtain ⟨-, rfl⟩ := Prod.mk.inj (Option.some.inj hrest)
  refine ⟨fun c hc => ?_, rfl⟩
  rw [Option.mem_def.1 hc] at hhead
  exact hhead

/-! ### Names -/

theorem isLetter_eq_isAlpha (c : Char) : isLetter c = c.isAlpha := by
  simp only [isLetter, Char.isAlpha, Char.isUpper, Char.isLower, Bool.decide_and]
  exact Bool.or_comm _ _

theorem isLetter_eq_false {c : Char} (h : isDigit c = true) : isLetter c = false := by
  rw [isDigit, Bool.and_eq_true, decide_eq_true_eq, decide_eq_true_eq] at h
  have hmost : c.toNat ≤ 0x39 := UInt32.le_iff_toNat_le.1 h.2
  refine Bool.eq_false_iff.2 fun hletter => ?_
  rw [isLetter, Bool.or_eq_true, Bool.and_eq_true, Bool.and_eq_true, decide_eq_true_eq,
    decide_eq_true_eq, decide_eq_true_eq, decide_eq_true_eq] at hletter
  rcases hletter with ⟨hleast, -⟩ | ⟨hleast, -⟩
  · have hleast' : 0x61 ≤ c.toNat := UInt32.le_iff_toNat_le.1 hleast
    omega
  · have hleast' : 0x41 ≤ c.toNat := UInt32.le_iff_toNat_le.1 hleast
    omega

/-- Three letters that name something, in any case, are letters. -/
theorem letters_of_nameIndex? {names : List String} {cs : List Char} {i : Nat}
    (hnames : ∀ name ∈ names, name.toList.length = 3 ∧ name.toList.all isLetter = true)
    (h : nameIndex? names cs = some i) :
    (cs.take 3).length = 3 ∧ (cs.take 3).all isLetter = true := by
  obtain ⟨hlt, hname, -⟩ := List.findIdx?_eq_some_iff_getElem.1 h
  obtain ⟨hlength, hletters⟩ := hnames _ (List.getElem_mem hlt)
  have hsame : names[i].toList.map Char.toLower = (cs.take 3).map Char.toLower := by
    simpa using hname
  constructor
  · rw [← List.length_map (f := Char.toLower), ← hsame, List.length_map, hlength]
  · refine List.all_eq_true.2 fun c hc => ?_
    have hmem : c.toLower ∈ names[i].toList.map Char.toLower := by
      rw [hsame]
      exact List.mem_map_of_mem hc
    obtain ⟨d, hd, hlower⟩ := List.mem_map.1 hmem
    have hletter := List.all_eq_true.1 hletters d hd
    rw [isLetter_eq_isAlpha, ← Char.isAlpha_toLower_eq_isAlpha] at hletter ⊢
    rw [← hlower, hletter]

/-- A month is named by three letters. -/
theorem letters_of_monthOf? {cs : List Char} {month : Nat} (h : monthOf? cs = some month) :
    (cs.take 3).length = 3 ∧ (cs.take 3).all isLetter = true := by
  obtain ⟨i, hi, -⟩ := Option.map_eq_some_iff.1 h
  exact letters_of_nameIndex? (by decide +kernel) hi

/-- **A month that was read** is named by the three letters in front. -/
theorem month?_eq_some {month : Nat} {cs rest : List Char} (h : month? cs = some (month, rest)) :
    ∃ w, cs = w ++ rest ∧ w.length = 3 ∧ w.all isLetter = true := by
  obtain ⟨m, hm, heq⟩ := Option.map_eq_some_iff.1 h
  obtain ⟨-, rfl⟩ := Prod.mk.inj heq
  obtain ⟨hlength, hletters⟩ := letters_of_monthOf? hm
  exact ⟨cs.take 3, (List.take_append_drop 3 cs).symm, hlength, hletters⟩

/-- No day of the week has the name of a month. -/
theorem monthOf?_of_weekday {cs : List Char} {day : Nat}
    (h : nameIndex? Stamp.weekdayNames cs = some day) : monthOf? (cs.take 3) = none := by
  obtain ⟨hlt, hname, -⟩ := List.findIdx?_eq_some_iff_getElem.1 h
  have hsame : Stamp.weekdayNames[day].toList.map Char.toLower = (cs.take 3).map Char.toLower := by
    simpa using hname
  have hall : ∀ name ∈ Stamp.weekdayNames,
      Stamp.monthNames.findIdx? (fun month =>
        month.toList.map Char.toLower == name.toList.map Char.toLower) = none := by decide +kernel
  have hnone := hall _ (List.getElem_mem hlt)
  rw [hsame] at hnone
  rw [monthOf?, nameIndex?, List.take_take, Nat.min_self, hnone]
  rfl

/-- **A day of the week that was read** is named by three letters, with a comma behind them; if
    there is none, nothing was read. -/
theorem weekdayBefore?_eq_some {weekday : Option Nat} {cs rest : List Char}
    (h : MessageDate.weekdayBefore? cs = some (weekday, rest)) :
    cs = rest ∨ ∃ w, cs = w ++ ',' :: rest ∧ w.length = 3 ∧ w.all isLetter = true ∧
      monthOf? w = none := by
  unfold MessageDate.weekdayBefore? at h
  split at h
  · left
    cases h
    rfl
  · next day behind hday =>
    right
    obtain ⟨d, hd, heq⟩ := Option.map_eq_some_iff.1 hday
    obtain ⟨-, rfl⟩ := Prod.mk.inj heq
    obtain ⟨⟨u, rest'⟩, hmark, heq⟩ := Option.map_eq_some_iff.1 h
    obtain ⟨-, rfl⟩ := Prod.mk.inj heq
    obtain ⟨hlength, hletters⟩ := letters_of_nameIndex? (by decide +kernel) hd
    refine ⟨cs.take 3, ?_, hlength, hletters, monthOf?_of_weekday hd⟩
    rw [← mark?_eq_some hmark, List.take_append_drop]

variable {w : List Char} {ws : List (List Char)}

/-- A number in front is no day of the week. -/
theorem dropWord_of_digits (hne : w ≠ []) (hw : w.all isDigit = true) :
    LooseDate.dropWord (w :: ws) = w :: ws := by
  obtain ⟨c, w, rfl⟩ := List.exists_cons_of_ne_nil hne
  have hc : isLetter c = false := isLetter_eq_false (List.all_eq_true.1 hw c List.mem_cons_self)
  rw [LooseDate.dropWord, List.all_cons, hc]
  rfl

theorem dropWord_of_letters (hw : w.all isLetter = true) (hmonth : monthOf? w = none) :
    LooseDate.dropWord (w :: ws) = ws := by
  rw [LooseDate.dropWord, hw, hmonth]
  rfl

end DateField

end ImapWire
