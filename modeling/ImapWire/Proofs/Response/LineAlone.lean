/-
  Responses that are text are read from one line.

  Completions, conditions and requests to go on are text for people.  Their text is what is left of
  the line, so there is no place in them for a literal.

  1. **The line says which responses are text** (`Response.startsText`): those with a word in front
     and no heading of values (`Response.isText_iff`).

  2. **Nothing but the line is read** (`Response.parse_of_startsText`).  A response that is text must
     be one chunk, and then it says what its line says.

  So further chunks are refused, and with them every literal that has a chunk behind it.  **A literal
  of the only chunk is not looked at.**  The reader of a stream delivers no such chunk: the last one
  of a response has no literal (`Response.Framed`).
-/
import ImapWire.Proofs.Reader.Sound
import ImapWire.Proofs.Response.Values

namespace ImapWire

namespace Response

/-! ## Which responses are text -/

/-- Is text for people: a completion, a request to go on, or a condition. -/
def isText : Response → Bool
  | completion .. | continuation _ | data (.condition ..) => true
  | data _ => false

/-- What a response of text starts with: a line with a word, and without a heading of values. -/
def startsText (line : Bytes) : Bool :=
  !(Place.ofLine line 0).word.1.isEmpty && (ServerData.heading? line).isNone

variable {options : Options} {first : Chunk} {later chunks : List Chunk} {r : Response}

/-- Nothing is read from a line without a word. -/
theorem word_ne_nil (h : parse options (first :: later) = .ok r) :
    (Place.ofLine first.line 0).word.1.isEmpty = false := by
  unfold parse at h
  dsimp only at h
  split at h
  · cases h
  · next hword => exact Bool.not_eq_true _ ▸ hword

/-- **A response is text exactly if its line says so.** -/
theorem isText_iff (h : parse options (first :: later) = .ok r) :
    r.isText = true ↔ startsText first.line = true := by
  unfold startsText
  rw [word_ne_nil h]
  cases hline : ServerData.heading? first.line with
  | some heading =>
    rw [parse_of_heading hline] at h
    obtain ⟨d, hread, rfl⟩ := Result.map_eq_ok.1 h
    obtain ⟨values, -, hd⟩ := Result.bind_eq_ok.1 hread
    cases d with
    | condition status code text => exact absurd hd ServerData.Heading.read_ne_condition
    | _ => exact Iff.rfl
  | none =>
    refine ⟨fun _ => rfl, fun _ => ?_⟩
    -- any data but a condition would have a heading
    have hvalues : ∀ d, r = .data d → (∀ status code text, d ≠ .condition status code text) →
        False := by
      rintro d rfl hd
      obtain ⟨first', later', heading, hchunks, hheading⟩ := exists_heading h hd
      cases hchunks
      rw [hline] at hheading
      cases hheading
    cases r with
    | completion tag status code text => rfl
    | continuation text => rfl
    | data d =>
      cases d with
      | condition status code text => rfl
      | _ => exact (hvalues _ rfl nofun).elim

/-! ## Nothing but the line is read -/

theorem oneChunk_single (chunk : Chunk) (line : Bytes) : oneChunk [chunk] line = .ok () := rfl

theorem oneChunk_cons (hlater : later ≠ []) (line : Bytes) : oneChunk (first :: later) line =
    .error (.parse 0 (.literalInText (later.length + 1)) line.escaped) := by
  have hlength : (first :: later).length ≠ 1 := by
    intro h
    exact hlater (List.length_eq_zero_iff.1 (Nat.succ.inj h))
  unfold oneChunk
  rw [if_neg hlength]
  rfl

/-- **A response that is text** must be one chunk, and says what its line says. -/
theorem parse_of_startsText (h : startsText first.line = true) :
    parse options (first :: later) = (oneChunk (first :: later) first.line >>= fun _ =>
      parse options [.plain first.line]) := by
  obtain ⟨hword, hnone⟩ := Bool.and_eq_true_iff.1 h
  rw [Bool.not_eq_true'] at hword
  rw [Option.isNone_iff_eq_none] at hnone
  unfold parse
  simp only [hword, Bool.false_eq_true, if_false]
  split
  · rw [oneChunk_single]
    rfl
  · split
    · next hstar =>
      -- behind a star, only a word for a status has no heading
      unfold ServerData.heading? at hnone
      simp only [hstar, if_true] at hnone
      split at hnone
      · cases hnone
      · next hnumber =>
        split at hnone
        · next hstatus =>
          obtain ⟨status, hstatus⟩ := Option.isSome_iff_exists.1 hstatus
          unfold ServerData.read
          simp only [hnumber, hstatus, oneChunk_single]
          cases oneChunk (first :: later) first.line <;> rfl
        · cases hnone
    · rw [oneChunk_single]
      rfl

/-- **What becomes of a literal in a text response.**  A response that is read as text is one chunk,
    and any other literal in it, or none, would have given the same.  Which responses are text is a
    matter of the first line.  With further chunks they are refused.  So one with a literal is
    refused unless the literal is in its only chunk, and that is not the case in what the reader of
    a stream delivers. -/
theorem parse_text (options : Options) :
    (∀ chunks r, parse options chunks = .ok r → r.isText = true →
      ∃ line literal, chunks = [⟨line, literal⟩] ∧
        (∀ other, parse options [⟨line, other⟩] = .ok r) ∧ (Framed chunks → literal = none)) ∧
    ∀ first later,
      (∀ r, parse options (first :: later) = .ok r →
        (r.isText = true ↔ startsText first.line = true)) ∧
      (startsText first.line = true →
        (later ≠ [] → parse options (first :: later) =
          .error (.parse 0 (.literalInText (later.length + 1)) first.line.escaped)) ∧
        ((∃ c ∈ first :: later, c.literal ≠ none) →
          ((∃ r, parse options (first :: later) = .ok r) ↔
            later = [] ∧ ∃ r, parse options [.plain first.line] = .ok r))) := by
  have hrefused : ∀ first later, startsText first.line = true → later ≠ [] →
      parse options (first :: later) =
        .error (.parse 0 (.literalInText (later.length + 1)) first.line.escaped) := by
    intro first later hline hlater
    rw [parse_of_startsText hline, oneChunk_cons hlater]
    rfl
  have halone : ∀ line literal, startsText line = true →
      parse options [⟨line, literal⟩] = parse options [.plain line] := by
    intro line literal hline
    rw [parse_of_startsText hline, oneChunk_single]
    rfl
  refine ⟨?_, ?_⟩
  · intro chunks r hparse htext
    cases chunks with
    | nil => cases hparse
    | cons first later =>
      have hline := (isText_iff hparse).1 htext
      by_cases hlater : later = []
      · subst hlater
        refine ⟨first.line, first.literal, rfl, ?_, ?_⟩
        · intro other
          rw [halone first.line other hline, ← hparse]
          exact (halone first.line first.literal hline).symm
        · intro hframed
          cases hframed with
          | last => rfl
          | literal _ _ hrest => cases hrest
      · rw [hrefused first later hline hlater] at hparse
        cases hparse
  · intro first later
    refine ⟨fun r => isText_iff, fun hline => ⟨hrefused first later hline, fun _ => ?_⟩⟩
    by_cases hlater : later = []
    · subst hlater
      rw [show first = ⟨first.line, first.literal⟩ from rfl, halone _ _ hline]
      exact ⟨fun h => ⟨rfl, h⟩, And.right⟩
    · rw [hrefused first later hline hlater]
      constructor
      · rintro ⟨r, hr⟩
        cases hr
      · rintro ⟨hnil, -⟩
        exact absurd hnil hlater

/-- A literal with a line behind it is refused, in each of the three sorts of text. -/
theorem parse_text_refused :
    ∀ line ∈ [Bytes.ofString "A1 OK done {3}", Bytes.ofString "* NO [ALERT] {3}",
        Bytes.ofString "+ {3}"],
      parse default [⟨line, some (Bytes.ofString "abc")⟩, .plain (Bytes.ofString " more")] =
        .error (.parse 0 (.literalInText 2) line.escaped) := by
  intro line hmem
  have hline : startsText line = true := by
    have hall : ∀ line ∈ [Bytes.ofString "A1 OK done {3}", Bytes.ofString "* NO [ALERT] {3}",
        Bytes.ofString "+ {3}"], startsText line = true := by decide +kernel
    exact hall line hmem
  exact (((parse_text default).2 ⟨line, _⟩ [_]).2 hline).1 (List.cons_ne_nil _ _)

/-- A literal in the only chunk is dropped: the marker stays in the text, its bytes are lost. -/
theorem parse_text_dropped :
    parse default [⟨Bytes.ofString "* OK done {3}", some (Bytes.ofString "abc")⟩] =
      .ok (.data (.condition .ok none "done {3}")) := rfl

end Response

end ImapWire
