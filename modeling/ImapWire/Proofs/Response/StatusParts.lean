/-
  The parts of a status response.

  A response with a status is the completion of a command or a condition of the server.  Both are
  one line of the same form: a tag or a star, a word for a status, and text.  `Response.statusOf?`
  cuts such a line into these parts.

    1. No other data is a condition: what stands behind a number, or under another name, is made of
       values (`ServerData.read_eq_condition`).
    2. So a line is read as a response with a status exactly if it has these parts and its text can
       be read (`Response.parse_eq_ofStatus_iff`).
-/
import ImapWire.Proofs.Guarded.Line
import ImapWire.Proofs.Response.Status
import ImapWire.Proofs.Response.Values

namespace ImapWire

/-! ## Conditions among the data -/

namespace ServerData

variable {options : Options} {chunks : List Chunk} {line : Bytes} {p : Place}
  {status : Status} {code : Option ResponseCode} {text : String}

/-- A condition is a word for a status, and text behind it. -/
theorem read_eq_condition (h : read options chunks line p = .ok (condition status code text)) :
    Status.ofWord? p.word.1 = some status ∧
      Response.readText line p.word.2 = .ok (code, text) := by
  unfold read at h
  dsimp only at h
  split at h
  · obtain ⟨values, -, h⟩ := Result.bind_eq_ok.1 h
    exact absurd h readNumbered_ne_condition
  · split at h
    · next status' hstatus =>
      obtain ⟨_, -, h⟩ := Result.bind_eq_ok.1 h
      obtain ⟨⟨code', text'⟩, htext, hd⟩ := Result.bind_eq_ok.1 h
      cases hd
      exact ⟨hstatus, htext⟩
    · obtain ⟨values, -, h⟩ := Result.bind_eq_ok.1 h
      exact absurd h readNamed_ne_condition

end ServerData

/-! ## The parts -/

namespace Response

/-- The parts of a status response: its tag, if it has one, its status, and the place behind it. -/
def statusOf? (line : Bytes) : Option (Option Tag × Status × Place) :=
  let (word, p) := (Place.ofLine line 0).word
  if word = [] ∨ word.head? = some Bytes.plus then none
  else
    let tag := if word = [Bytes.star] then none else some (Tag.ofWord word)
    (Status.ofWord? p.word.1).map fun status => (tag, status, p.word.2)

/-- A status response: the completion of a command, or a condition of the server. -/
def ofStatus (tag : Option Tag) (status : Status) (code : Option ResponseCode) (text : String) :
    Response :=
  match tag with
  | none => .data (.condition status code text)
  | some tag => .completion tag status code text

variable {chunk : Chunk} {tag : Option Tag} {status : Status} {p : Place}

/-- **A status response** is its tag, its status, and what its text says. -/
theorem parse_of_statusOf? (options : Options) (h : statusOf? chunk.line = some (tag, status, p)) :
    parse options [chunk]
      = (readText chunk.line p).map fun (code, text) => ofStatus tag status code text := by
  unfold statusOf? at h
  simp only at h
  split at h
  · cases h
  · next hword =>
    obtain ⟨hne, hplus⟩ := not_or.1 hword
    obtain ⟨_, hstatus, hsame⟩ := Option.map_eq_some_iff.1 h
    cases hsame
    have hname := List.find?_some hstatus
    unfold parse
    simp only
    rw [if_neg (by rwa [List.isEmpty_iff]), if_neg hplus]
    by_cases hstar : (Place.ofLine chunk.line 0).word.1 = [Bytes.star]
    · rw [if_pos hstar, if_pos hstar]
      unfold ServerData.read
      simp only
      -- no word for a status is a number
      rw [Status.number?_eq_none hname, hstatus]
      show Except.map _ (readText _ _ >>= _) = _
      cases readText chunk.line (Place.ofLine chunk.line 0).word.2.word.2 <;> rfl
    · rw [if_neg hstar, if_neg hstar]
      show readCompletion _ _ _ = _
      unfold readCompletion
      simp only
      rw [hstatus]
      cases readText chunk.line (Place.ofLine chunk.line 0).word.2.word.2 <;> rfl

/-- The place behind a status is on its line. -/
theorem within_of_statusOf? {line : Bytes} (h : statusOf? line = some (tag, status, p)) :
    p.Within line := by
  unfold statusOf? at h
  simp only at h
  split at h
  · cases h
  · obtain ⟨_, -, hsame⟩ := Option.map_eq_some_iff.1 h
    cases hsame
    exact (Place.within_ofLine (Nat.zero_le _)).word.word

/-- Behind a word in front that is none of a request to go on, a word for a status. -/
theorem statusOf?_eq_some {line : Bytes} (hne : (Place.ofLine line 0).word.1 ≠ [])
    (hplus : (Place.ofLine line 0).word.1.head? ≠ some Bytes.plus)
    (hstatus : Status.ofWord? (Place.ofLine line 0).word.2.word.1 = some status) :
    statusOf? line = some (if (Place.ofLine line 0).word.1 = [Bytes.star] then none
      else some (Tag.ofWord (Place.ofLine line 0).word.1), status,
        (Place.ofLine line 0).word.2.word.2) := by
  unfold statusOf?
  simp only
  rw [if_neg (not_or.2 ⟨hne, hplus⟩), hstatus]
  rfl

/-- **Exactly the lines with these parts** are read as responses with a status. -/
theorem parse_eq_ofStatus_iff {options : Options} {code : Option ResponseCode} {text : String} :
    parse options [chunk] = .ok (ofStatus tag status code text) ↔
      ∃ p, statusOf? chunk.line = some (tag, status, p) ∧
        readText chunk.line p = .ok (code, text) := by
  constructor
  · intro h
    unfold parse at h
    dsimp only at h
    split at h
    · cases h
    · next hempty =>
      have hne : (Place.ofLine chunk.line 0).word.1 ≠ [] := fun hnil => hempty (by rw [hnil]; rfl)
      split at h
      · obtain ⟨_, -, hd⟩ := Result.bind_eq_ok.1 h
        cases tag <;> cases hd
      · next hplus =>
        split at h
        · next hstar =>
          obtain ⟨d, hread, hd⟩ := Result.map_eq_ok.1 h
          cases tag with
          | some tag => cases hd
          | none =>
            cases hd
            obtain ⟨hstatus, htext⟩ := ServerData.read_eq_condition hread
            refine ⟨_, ?_, htext⟩
            rw [statusOf?_eq_some hne hplus hstatus, if_pos hstar]
        · next hstar =>
          obtain ⟨_, -, h⟩ := Result.bind_eq_ok.1 h
          unfold readCompletion at h
          dsimp only at h
          split at h
          · cases h
          · next hstatus =>
            obtain ⟨⟨code', text'⟩, htext, hd⟩ := Result.bind_eq_ok.1 h
            cases tag with
            | none => cases hd
            | some tag =>
              cases hd
              refine ⟨_, ?_, htext⟩
              rw [statusOf?_eq_some hne hplus hstatus, if_neg hstar]
  · rintro ⟨p, hparts, htext⟩
    rw [parse_of_statusOf? options hparts, htext]
    rfl

end Response

end ImapWire
