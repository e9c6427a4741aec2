/-
  What a line announces, from its end and from its start.

  The stream reader asks what a whole line announces, before any token of it is read.  It goes back
  from the end of the line: over blanks, to the last opening brace, over a tilde in front of it
  (`announced?`).  `Announces n line` says the same without a direction: the line ends with a marker
  of length `n` and perhaps blanks, and the marker stands at the start of the line or behind a
  delimiter.  The two agree (`announced?_eq_some_iff`).

  A scan goes forward instead.  What the line announces is a matter of what is still ahead of it:

    * a delimiter, or anything up to a delimiter that is no blank, can be left behind
      (`announced?_cons`, `announced?_append_cons`);
    * so can a run of other bytes, as long as something but blanks follows it; if nothing does, the
      run itself must be the marker (`announced?_run`).
-/
import ImapWire.Proofs.Decimal
import ImapWire.Proofs.Token.Scan

namespace ImapWire

open Bytes (isBlank isDelimiter)

/-! ## Markers -/

namespace Marker

/-- A tilde in front of the braces makes no difference. -/
theorem inner?_tilde (bs : Bytes) :
    inner? (Bytes.tilde :: Bytes.openBrace :: bs) = inner? (Bytes.openBrace :: bs) := by
  have hne : Bytes.openBrace ≠ Bytes.tilde := by decide
  simp [inner?, hne]

/-- Nothing else may stand in front of them. -/
theorem of_inner? {atom inner : Bytes} (h : inner? atom = some inner) :
    ∃ body, (atom = Bytes.openBrace :: body ∨ atom = Bytes.tilde :: Bytes.openBrace :: body) ∧
      inner? (Bytes.openBrace :: body) = some inner := by
  by_cases htilde : atom.head? = some Bytes.tilde
  · obtain ⟨bs, rfl⟩ := List.head?_eq_some_iff.1 htilde
    by_cases hopen : bs.head? = some Bytes.openBrace
    · obtain ⟨body, rfl⟩ := List.head?_eq_some_iff.1 hopen
      rw [inner?_tilde] at h
      exact ⟨body, Or.inr rfl, h⟩
    · simp [inner?, hopen] at h
  · by_cases hopen : atom.head? = some Bytes.openBrace
    · obtain ⟨body, rfl⟩ := List.head?_eq_some_iff.1 hopen
      exact ⟨body, Or.inl rfl, h⟩
    · simp [inner?, htilde, hopen] at h

/-- The length of a marker is made of digits. -/
theorem isDigit_of_length? {inner : Bytes} {n : Nat} (h : length? inner = some n) :
    ∀ b ∈ inner, Bytes.isDigit b = true := by
  unfold length? Decimal.natBelow? at h
  split at h
  · next hnumber => exact List.all_eq_true.1 (Bool.and_eq_true_iff.1 hnumber).2
  · cases h

/-- Behind the opening brace there is what the braces hold, perhaps a plus sign, and the closing
    brace. -/
theorem body_of_inner? {body inner : Bytes} (h : inner? (Bytes.openBrace :: body) = some inner) :
    ∃ plus, (plus = [] ∨ plus = [Bytes.plus]) ∧ body = inner ++ plus ++ [Bytes.closeBrace] := by
  have htilde : Bytes.openBrace ≠ Bytes.tilde := by decide
  by_cases hclose : body.getLast? = some Bytes.closeBrace
  · obtain ⟨front, rfl⟩ := List.getLast?_eq_some_iff.1 hclose
    by_cases hplus : front.getLast? = some Bytes.plus
    · obtain ⟨digits, rfl⟩ := List.getLast?_eq_some_iff.1 hplus
      simp [inner?, htilde] at h
      subst h
      exact ⟨[Bytes.plus], Or.inr rfl, rfl⟩
    · simp [inner?, htilde, hplus] at h
      subst h
      exact ⟨[], Or.inl rfl, by rw [List.append_nil]⟩
  · simp [inner?, htilde, hclose] at h

/-- A marker as it is written: digits between braces, perhaps with a tilde in front and a plus sign
    before the closing brace. -/
def Shape (marker digits : Bytes) : Prop :=
  Decimal.isNumber digits = true ∧ ∃ tilde plus, (tilde = [] ∨ tilde = [Bytes.tilde]) ∧
    (plus = [] ∨ plus = [Bytes.plus]) ∧
      marker = tilde ++ Bytes.openBrace :: (digits ++ plus ++ [Bytes.closeBrace])

/-- The braces hold what is between them. -/
theorem inner?_of_shape {marker digits : Bytes} (h : Shape marker digits) :
    inner? marker = some digits := by
  obtain ⟨hnumber, tilde, plus, htilde, hplus, rfl⟩ := h
  have hdigits : digits.getLast? ≠ some Bytes.plus := by
    intro hlast
    have hall : digits.all Bytes.isDigit = true := (Bool.and_eq_true_iff.1 hnumber).2
    exact absurd (List.all_eq_true.1 hall _ (List.mem_of_getLast? hlast)) (by decide)
  have hbraces : inner? (Bytes.openBrace :: (digits ++ plus ++ [Bytes.closeBrace])) = some digits := by
    have hne : Bytes.openBrace ≠ Bytes.tilde := by decide
    rcases hplus with rfl | rfl <;> simp [inner?, hne, hdigits]
  rcases htilde with rfl | rfl
  · exact hbraces
  · exact (inner?_tilde _).trans hbraces

theorem shape_of_inner? {marker inner : Bytes} (h : inner? marker = some inner)
    (hnumber : Decimal.isNumber inner = true) : Shape marker inner := by
  obtain ⟨body, hmarker, hbraces⟩ := of_inner? h
  obtain ⟨plus, hplus, rfl⟩ := body_of_inner? hbraces
  rcases hmarker with rfl | rfl
  · exact ⟨hnumber, [], plus, Or.inl rfl, hplus, rfl⟩
  · exact ⟨hnumber, [Bytes.tilde], plus, Or.inr rfl, hplus, rfl⟩

/-- Behind the opening brace of a marker with a length there are digits, perhaps a plus sign, and
    the closing brace. -/
theorem body_spec {body inner : Bytes} {n : Nat}
    (hinner : inner? (Bytes.openBrace :: body) = some inner) (hlength : length? inner = some n) :
    (∃ front, body = front ++ [Bytes.closeBrace]) ∧
      ∀ b ∈ body, isDelimiter b = false ∧ b ≠ Bytes.openBrace := by
  obtain ⟨plus, hplus, rfl⟩ := body_of_inner? hinner
  refine ⟨⟨inner ++ plus, rfl⟩, ?_⟩
  intro b hb
  rcases List.mem_append.1 hb with hb | hb
  · rcases List.mem_append.1 hb with hb | hb
    · have hdigit := isDigit_of_length? hlength b hb
      exact ⟨(Bytes.isDigit_spec hdigit).1, (Bytes.isDigit_spec hdigit).2.1⟩
    · rcases hplus with rfl | rfl
      · cases hb
      · rw [List.mem_singleton.1 hb]
        decide
  · rw [List.mem_singleton.1 hb]
    decide

/-- A marker with a length holds no delimiters, and it ends with a brace. -/
theorem run_spec {marker inner : Bytes} {n : Nat} (hinner : inner? marker = some inner)
    (hlength : length? inner = some n) :
    (∃ front, marker = front ++ [Bytes.closeBrace]) ∧ ∀ b ∈ marker, isDelimiter b = false := by
  obtain ⟨body, hmarker, hbody⟩ := of_inner? hinner
  obtain ⟨⟨front, rfl⟩, hall⟩ := body_spec hbody hlength
  have hbraces : ∀ b ∈ Bytes.openBrace :: (front ++ [Bytes.closeBrace]), isDelimiter b = false := by
    intro b hb
    rcases List.mem_cons.1 hb with rfl | hb
    · rfl
    · exact (hall b hb).1
  rcases hmarker with rfl | rfl
  · exact ⟨⟨Bytes.openBrace :: front, rfl⟩, hbraces⟩
  · refine ⟨⟨Bytes.tilde :: Bytes.openBrace :: front, rfl⟩, ?_⟩
    intro b hb
    rcases List.mem_cons.1 hb with rfl | hb
    · rfl
    · exact hbraces b hb

end Marker

/-! ## Announcements -/

/-- What follows starts a line, or stands behind a delimiter. -/
def Alone (front : Bytes) : Prop := ∀ b ∈ front.getLast?, isDelimiter b = true

namespace Alone

theorem nil : Alone [] := by
  intro b hb
  cases hb

theorem of_all {front : Bytes} (h : front.getLast?.all isDelimiter = true) : Alone front := by
  intro b hb
  rwa [Option.mem_def.1 hb] at h

theorem getLast?_append {b : Bytes} (hne : b ≠ []) (a : Bytes) :
    (a ++ b).getLast? = b.getLast? := by
  rw [List.getLast?_append, Option.or_of_isSome (List.getLast?_isSome.2 hne)]

theorem append_left {b : Bytes} (hb : Alone b) (hne : b ≠ []) (a : Bytes) : Alone (a ++ b) := by
  intro c hc
  rw [getLast?_append hne] at hc
  exact hb c hc

theorem right {a b : Bytes} (h : Alone (a ++ b)) : Alone b := by
  by_cases hne : b = []
  · rw [hne]
    exact nil
  · intro c hc
    refine h c ?_
    rwa [getLast?_append hne]

end Alone

/-- The line ends with a marker of length `n` that stands alone, and perhaps blanks. -/
def Announces (n : Nat) (line : Bytes) : Prop :=
  ∃ front marker blanks inner, line = front ++ (marker ++ blanks) ∧ Alone front ∧
    (∀ b ∈ blanks, isBlank b = true) ∧ Marker.inner? marker = some inner ∧
      Marker.length? inner = some n

/-- The way back from the end of a line with braces behind `before`. -/
theorem announced?_braces {before body blanks : Bytes}
    (hbody : ∃ front, body = front ++ [Bytes.closeBrace]) (hbrace : ∀ b ∈ body, b ≠ Bytes.openBrace)
    (hblanks : ∀ b ∈ blanks, isBlank b = true) :
    announced? (before ++ (Bytes.openBrace :: body ++ blanks)) =
      let before := if before.getLast? = some Bytes.tilde then before.dropLast else before
      if before.getLast?.all isDelimiter then
        (Marker.inner? (Bytes.openBrace :: body)).bind Marker.length?
      else none := by
  have hback : (before ++ (Bytes.openBrace :: body ++ blanks)).reverse.dropWhile isBlank
      = body.reverse ++ Bytes.openBrace :: before.reverse := by
    obtain ⟨front, rfl⟩ := hbody
    have hclose : isBlank Bytes.closeBrace = false := by decide
    have hrev : ∀ b ∈ blanks.reverse, isBlank b = true := by
      intro b hb
      exact hblanks b (List.mem_reverse.1 hb)
    simp only [List.reverse_append, List.reverse_cons, List.append_assoc]
    rw [List.dropWhile_append_of_pos hrev]
    simp [hclose]
  have hother : ∀ b ∈ body.reverse, (b != Bytes.openBrace) = true := by
    intro b hb
    simpa using hbrace b (List.mem_reverse.1 hb)
  have hdrop : (body.reverse ++ Bytes.openBrace :: before.reverse).dropWhile (· != Bytes.openBrace)
      = Bytes.openBrace :: before.reverse := by
    rw [List.dropWhile_append_of_pos hother]
    simp
  have htake : (body.reverse ++ Bytes.openBrace :: before.reverse).takeWhile (· != Bytes.openBrace)
      = body.reverse := by
    rw [List.takeWhile_append_of_pos hother]
    simp
  unfold announced?
  simp only [hback, hdrop, htake, List.reverse_reverse, List.head?_reverse]
  by_cases htilde : before.getLast? = some Bytes.tilde
  · simp only [htilde, if_true, List.tail_reverse, List.head?_reverse]
  · simp only [htilde, if_false, List.head?_reverse]

theorem announced?_of_announces {n : Nat} {line : Bytes} (h : Announces n line) :
    announced? line = some n := by
  obtain ⟨front, marker, blanks, inner, rfl, halone, hblanks, hinner, hlength⟩ := h
  obtain ⟨body, hmarker, hbody⟩ := Marker.of_inner? hinner
  obtain ⟨hclose, hall⟩ := Marker.body_spec hbody hlength
  have hbrace : ∀ b ∈ body, b ≠ Bytes.openBrace := fun b hb => (hall b hb).2
  have hdelimiter : front.getLast?.all isDelimiter = true := by
    cases hlast : front.getLast? with
    | none => rfl
    | some b => exact halone b hlast
  rcases hmarker with rfl | rfl
  · -- the byte in front of the brace is a delimiter, so it is no tilde
    have htilde : front.getLast? ≠ some Bytes.tilde := by
      intro hlast
      exact absurd (halone _ hlast) (by decide)
    rw [announced?_braces hclose hbrace hblanks]
    simp only [htilde, if_false, hdelimiter, if_true, hbody, Option.bind_some, hlength]
  · have hline : front ++ (Bytes.tilde :: Bytes.openBrace :: body ++ blanks)
        = (front ++ [Bytes.tilde]) ++ (Bytes.openBrace :: body ++ blanks) := by simp
    rw [hline, announced?_braces hclose hbrace hblanks]
    simp only [List.getLast?_concat, if_true, List.dropLast_concat, hdelimiter, hbody,
      Option.bind_some, hlength]

theorem announces_of_announced? {n : Nat} {line : Bytes} (h : announced? line = some n) :
    Announces n line := by
  have hblanks : ∀ b ∈ (line.reverse.takeWhile isBlank).reverse, isBlank b = true := by
    intro b hb
    exact List.all_eq_true.1 List.all_takeWhile b (List.mem_reverse.1 hb)
  unfold announced? at h
  dsimp only at h
  split at h
  · cases h
  · next b before hdrop =>
    have hb : b = Bytes.openBrace := by
      have hhead := List.head?_dropWhile_not (· != Bytes.openBrace) (line.reverse.dropWhile isBlank)
      rw [hdrop] at hhead
      simpa using hhead
    subst hb
    -- from the end: the blanks, what stands behind the brace, the brace, what stands before it
    have hline : line = before.reverse
        ++ (Bytes.openBrace
          :: ((line.reverse.dropWhile isBlank).takeWhile (· != Bytes.openBrace)).reverse
          ++ (line.reverse.takeWhile isBlank).reverse) := by
      apply List.reverse_inj.1
      simp only [List.reverse_append, List.reverse_cons, List.reverse_reverse, List.append_assoc]
      rw [List.singleton_append, ← hdrop, List.takeWhile_append_dropWhile,
        List.takeWhile_append_dropWhile]
    by_cases htilde : before.head? = some Bytes.tilde
    · obtain ⟨before, rfl⟩ := List.head?_eq_some_iff.1 htilde
      simp only [List.head?_cons, if_true, List.tail_cons] at h
      split at h
      · next halone =>
        obtain ⟨inner, hinner, hlength⟩ := Option.bind_eq_some_iff.1 h
        refine ⟨before.reverse, Bytes.tilde :: Bytes.openBrace :: _, _, inner, ?_, ?_, hblanks,
          (Marker.inner?_tilde _).trans hinner, hlength⟩
        · rw [List.reverse_cons, List.append_assoc] at hline
          exact hline
        · exact Alone.of_all (by rwa [List.getLast?_reverse])
      · cases h
    · simp only [htilde, if_false] at h
      split at h
      · next halone =>
        obtain ⟨inner, hinner, hlength⟩ := Option.bind_eq_some_iff.1 h
        exact ⟨before.reverse, Bytes.openBrace :: _, _, inner, hline,
          Alone.of_all (by rwa [List.getLast?_reverse]), hblanks, hinner, hlength⟩
      · cases h

/-- **What is found from the end of a line** is the marker that stands alone there. -/
theorem announced?_eq_some_iff {n : Nat} {line : Bytes} :
    announced? line = some n ↔ Announces n line :=
  ⟨announces_of_announced?, announced?_of_announces⟩

/-! ## What can be left behind -/

/-- Lines that announce the same lengths announce the same. -/
theorem announced?_congr {a b : Bytes} (h : ∀ n, Announces n a ↔ Announces n b) :
    announced? a = announced? b := by
  refine Option.ext fun n => ?_
  rw [announced?_eq_some_iff, announced?_eq_some_iff, h n]

theorem isDelimiter_of_isBlank {b : UInt8} (h : isBlank b = true) : isDelimiter b = true := by
  simp [isDelimiter, h]

theorem not_announces_blanks {n : Nat} {blanks : Bytes} (h : ∀ b ∈ blanks, isBlank b = true) :
    ¬ Announces n blanks := by
  rintro ⟨front, marker, behind, inner, rfl, -, -, hinner, hlength⟩
  obtain ⟨⟨before, rfl⟩, -⟩ := Marker.run_spec hinner hlength
  have hclose : isBlank Bytes.closeBrace = true := h _ (by simp)
  exact absurd hclose (by decide)

/-- Blanks announce nothing. -/
theorem announced?_blanks {blanks : Bytes} (h : ∀ b ∈ blanks, isBlank b = true) :
    announced? blanks = none := by
  refine Option.eq_none_iff_forall_ne_some.2 fun n hn => ?_
  exact not_announces_blanks h (announced?_eq_some_iff.1 hn)

/-- A line that starts with a delimiter has more than the delimiter in front of its marker. -/
theorem Announces.behind {n : Nat} {d : UInt8} (hd : isDelimiter d = true) {rest : Bytes}
    (h : Announces n (d :: rest)) :
    ∃ front marker blanks inner, rest = front ++ (marker ++ blanks) ∧ Alone (d :: front) ∧
      (∀ b ∈ blanks, isBlank b = true) ∧ Marker.inner? marker = some inner ∧
        Marker.length? inner = some n := by
  obtain ⟨front, marker, blanks, inner, heq, halone, hblanks, hinner, hlength⟩ := h
  cases front with
  | nil =>
    obtain ⟨-, hall⟩ := Marker.run_spec hinner hlength
    cases marker with
    | nil => cases hinner
    | cons b marker =>
      cases heq
      have hnot : isDelimiter d = false := hall d List.mem_cons_self
      rw [hd] at hnot
      cases hnot
  | cons b front =>
    cases heq
    exact ⟨front, marker, blanks, inner, rfl, halone, hblanks, hinner, hlength⟩

/-- **A delimiter** can be left behind. -/
theorem announced?_cons {d : UInt8} (hd : isDelimiter d = true) (rest : Bytes) :
    announced? (d :: rest) = announced? rest := by
  refine announced?_congr fun n => ⟨?_, ?_⟩
  · intro h
    obtain ⟨front, marker, blanks, inner, hrest, halone, hmarker⟩ := h.behind hd
    exact ⟨front, marker, blanks, inner, hrest, Alone.right (a := [d]) halone, hmarker⟩
  · rintro ⟨front, marker, blanks, inner, rfl, halone, hmarker⟩
    refine ⟨d :: front, marker, blanks, inner, rfl, ?_, hmarker⟩
    by_cases hne : front = []
    · subst hne
      intro b hb
      cases hb
      exact hd
    · exact halone.append_left hne [d]

/-- **Anything up to a delimiter that is no blank** can be left behind. -/
theorem announced?_append_cons {d : UInt8} (hd : isDelimiter d = true) (hblank : isBlank d = false)
    (front rest : Bytes) : announced? (front ++ d :: rest) = announced? rest := by
  rw [← announced?_cons hd rest]
  refine announced?_congr fun n => ⟨?_, ?_⟩
  · rintro ⟨before, marker, blanks, inner, heq, halone, hblanks, hinner, hlength⟩
    obtain ⟨-, hall⟩ := Marker.run_spec hinner hlength
    have hnot : d ∉ marker ++ blanks := by
      intro hmem
      rcases List.mem_append.1 hmem with hmem | hmem
      · rw [hall d hmem] at hd
        cases hd
      · rw [hblanks d hmem] at hblank
        cases hblank
    rcases List.append_eq_append_iff.1 heq with ⟨x, rfl, hrest⟩ | ⟨x, -, hrest⟩
    · -- the marker stands behind `front`, so the delimiter stands before the marker
      exact ⟨x, marker, blanks, inner, hrest, halone.right, hblanks, hinner, hlength⟩
    · exact absurd (by rw [hrest]; simp) hnot
  · intro h
    obtain ⟨before, marker, blanks, inner, rfl, halone, hmarker⟩ := h.behind hd
    refine ⟨front ++ d :: before, marker, blanks, inner, by simp, ?_, hmarker⟩
    exact halone.append_left (List.cons_ne_nil _ _) front

/-- **A run of other bytes** is the marker, if nothing but blanks follows it, and can be left behind
    otherwise. -/
theorem announced?_run {run after : Bytes}
    (hrun : ∀ b ∈ run, isDelimiter b = false) (hcut : Cut after) :
    announced? (run ++ after) =
      if after.all isBlank then (Marker.inner? run).bind Marker.length? else announced? after := by
  -- no marker stands alone behind a part of the run
  have hstart : ∀ x y, run = x ++ y → Alone x → x = [] := by
    intro x y hxy halone
    by_cases hx : x = []
    · exact hx
    · obtain ⟨b, hb⟩ := Option.isSome_iff_exists.1 (List.getLast?_isSome.2 hx)
      have hmem : b ∈ run := by
        rw [hxy]
        exact List.mem_append_left y (List.mem_of_getLast? hb)
      have hdelimiter : isDelimiter b = true := halone b hb
      rw [hrun b hmem] at hdelimiter
      cases hdelimiter
  have hwhere : ∀ n, Announces n (run ++ after) →
      (after.all isBlank = true ∧ (Marker.inner? run).bind Marker.length? = some n) ∨
        Announces n after := by
    rintro n ⟨front, marker, blanks, inner, heq, halone, hblanks, hinner, hlength⟩
    rcases List.append_eq_append_iff.1 heq with ⟨x, rfl, hafter⟩ | ⟨x, hx, hafter⟩
    · exact Or.inr ⟨x, marker, blanks, inner, hafter, halone.right, hblanks, hinner, hlength⟩
    · refine Or.inl ?_
      obtain ⟨-, hall⟩ := Marker.run_spec hinner hlength
      have hfront : front = [] := hstart front x hx halone
      subst hfront
      have hcutBlanks : Cut blanks := by
        intro b hb
        exact isDelimiter_of_isBlank (hblanks b (List.mem_of_head? hb))
      -- both the run and the marker end where the first delimiter stands
      have heq' : run ++ after = marker ++ blanks := heq
      have hmarker : run = marker := by
        rw [← Yields.takeWhile_run hrun hcut, heq', Yields.takeWhile_run hall hcutBlanks]
      have hbehind : after = blanks := by
        rw [← Yields.dropWhile_run hrun hcut, heq', Yields.dropWhile_run hall hcutBlanks]
      rw [hmarker, hbehind, hinner]
      exact ⟨List.all_eq_true.2 hblanks, hlength⟩
  split
  · next hafter =>
    refine Option.ext fun n => ?_
    rw [announced?_eq_some_iff]
    constructor
    · intro h
      rcases hwhere n h with ⟨-, h⟩ | h
      · exact h
      · exact absurd h (not_announces_blanks (List.all_eq_true.1 hafter))
    · intro h
      obtain ⟨inner, hinner, hlength⟩ := Option.bind_eq_some_iff.1 h
      exact ⟨[], run, after, inner, rfl, Alone.nil, List.all_eq_true.1 hafter, hinner, hlength⟩
  · next hafter =>
    refine announced?_congr fun n => ⟨?_, ?_⟩
    · intro h
      rcases hwhere n h with ⟨hnot, -⟩ | h
      · exact absurd hnot hafter
      · exact h
    · intro h
      cases after with
      | nil => exact absurd rfl hafter
      | cons d after =>
        have hd : isDelimiter d = true := hcut d rfl
        obtain ⟨front, marker, blanks, inner, rfl, halone, hmarker⟩ := h.behind hd
        refine ⟨run ++ d :: front, marker, blanks, inner, by simp, ?_, hmarker⟩
        exact halone.append_left (List.cons_ne_nil _ _) run

end ImapWire
