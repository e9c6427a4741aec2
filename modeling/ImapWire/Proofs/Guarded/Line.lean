/-
  A response line by position.

  The words of a response line, the end of a code and the text behind it, as a program finds them
  that keeps the whole line and counts bytes: a word is a range between two positions, the end of a
  code is the position of its bracket, and how many brackets are open is a counter.

  1. **Words and text** (`nextWord_eq`, `textAfter_eq`).  A `Place` is a position together with the
     bytes ahead (`Place.On`), and every position of a place on a line is one of the line.

  2. **Codes** (`codeEnd_eq`).  The reader comes from the bracket that opens the code, so the counter
     is 1 at least until the bracket is found that closes it; it never goes below zero.  The bytes
     between the two brackets are the code (`between_code`).
-/
import ImapWire.Proofs.Guarded.Index
import ImapWire.Proofs.Response.Words
import ImapWire.Response.Line

namespace ImapWire

namespace Guarded

/-! ## Words and text -/

/-- The position behind spaces. -/
def skipSpaces (line : Bytes) (pos : Nat) : Nat := seek (· != Bytes.space) line pos (line.drop pos)

/-- The next word from a position on, and the position behind it. -/
def nextWord (line : Bytes) (pos : Nat) : Guarded (Bytes × Nat) := do
  let start := skipSpaces line pos
  let ahead ← behind line start
  let stop := seek (· == Bytes.space) line start ahead
  let word ← between line start stop
  .ok (word, stop)

/-- The text from a position on, without the spaces in front. -/
def textAfter (line : Bytes) (pos : Nat) : Guarded String := do
  let ahead ← behind line (skipSpaces line pos)
  .ok (Bytes.text ahead)

end Guarded

namespace Place

/-- Is a byte of the line, or its end. -/
structure Within (line : Bytes) (p : Place) : Prop where
  on : p.On line
  pos_le : p.pos ≤ line.length

variable {line : Bytes} {p : Place}

theorem within_ofLine {pos : Nat} (h : pos ≤ line.length) : (ofLine line pos).Within line :=
  ⟨on_ofLine line pos, h⟩

theorem Within.skip (h : p.Within line) (skipped : UInt8 → Bool) : (p.skip skipped).Within line := by
  refine ⟨h.on.skip skipped, ?_⟩
  show p.pos + (p.rest.takeWhile skipped).length ≤ line.length
  have hrun := (List.takeWhile_sublist skipped (l := p.rest)).length_le
  have hrest : p.rest.length = line.length - p.pos := by
    rw [h.on]
    exact List.length_drop
  have hle := h.pos_le
  omega

theorem Within.word (h : p.Within line) : p.word.2.Within line := (h.skip _).skip _

/-- Skipping bytes is looking for the first other one. -/
theorem Within.seek_eq (h : p.Within line) (wanted : UInt8 → Bool) :
    Guarded.seek wanted line p.pos (line.drop p.pos) = (p.skip fun b => !wanted b).pos := by
  rw [Guarded.seek_eq wanted h.pos_le, ← h.on]
  rfl

theorem Within.skipSpaces_eq (h : p.Within line) :
    Guarded.skipSpaces line p.pos = p.skipSpaces.pos := by
  have hsame : (fun b => !(b != Bytes.space)) = (· == Bytes.space) := by
    funext b
    simp [bne]
  unfold Guarded.skipSpaces
  rw [h.seek_eq, hsame]
  rfl

end Place

namespace Guarded

variable {line : Bytes} {p : Place}

/-- **A word** is between two positions of the line. -/
theorem nextWord_eq (h : p.Within line) : nextWord line p.pos = .ok (p.word.1, p.word.2.pos) := by
  have hstart : p.skipSpaces.Within line := h.skip _
  have hstop : seek (· == Bytes.space) line p.skipSpaces.pos (line.drop p.skipSpaces.pos)
      = p.word.2.pos := hstart.seek_eq _
  have hword : between line p.skipSpaces.pos p.word.2.pos = .ok p.word.1 := by
    have hrun := between_run (· != Bytes.space) hstart.pos_le
    rw [← hstart.on] at hrun
    exact hrun
  unfold nextWord
  simp only [h.skipSpaces_eq]
  rw [behind_eq hstart.pos_le]
  show (between line _ (seek _ line _ _) >>= _) = _
  rw [hstop, hword]
  rfl

/-- **The text** ahead starts on the line. -/
theorem textAfter_eq (h : p.Within line) : textAfter line p.pos = .ok p.text := by
  have hstart : p.skipSpaces.Within line := h.skip _
  unfold textAfter
  rw [h.skipSpaces_eq, behind_eq hstart.pos_le, ← hstart.on]
  rfl

/-! ## Codes -/

/-- The position of the bracket that closes a code: `i` is the position of the bytes, `depth` how many
    brackets are open, and inside quotes the byte behind a backslash is escaped. -/
def codeEnd (depth : Nat) (quoted escaped : Bool) (i : Nat) : Bytes → Guarded (Option Nat)
  | [] => .ok none
  | b :: rest =>
    if quoted then
      if escaped then codeEnd depth true false (i + 1) rest
      else if b = Bytes.backslash then codeEnd depth true true (i + 1) rest
      else if b = Bytes.quote then codeEnd depth false false (i + 1) rest
      else codeEnd depth true false (i + 1) rest
    else if b = Bytes.quote then codeEnd depth true escaped (i + 1) rest
    else if b = Bytes.openSquare then codeEnd (depth + 1) false escaped (i + 1) rest
    else if b = Bytes.closeSquare then do
      let depth ← pred depth
      if depth = 0 then .ok (some i) else codeEnd depth false escaped (i + 1) rest
    else codeEnd depth false escaped (i + 1) rest

/-- What a reader of a code notes down of where it stands. -/
def quotedFlag : Quoting → Bool
  | .outside => false
  | .inside | .escaped => true

def escapedFlag : Quoting → Bool
  | .outside | .inside => false
  | .escaped => true

/-- Where the bracket is that closes the code, if the code is what is in front of it. -/
def closedAt (i : Nat) (found : Option (Bytes × Bytes)) : Option Nat :=
  found.map fun (code, _) => i + code.length

theorem closedAt_cons (i : Nat) (b : UInt8) (found : Option (Bytes × Bytes)) :
    closedAt i (found.map fun (code, behind) => (b :: code, behind)) = closedAt (i + 1) found := by
  unfold closedAt
  rw [Option.map_map]
  congr 1
  funext ⟨code, behind⟩
  show i + (code.length + 1) = i + 1 + code.length
  omega

/-- **The counter never goes below zero**, once a bracket is open, and the position is that of the
    bracket that closes the code. -/
theorem codeEnd_eq (d : Nat) (q : Quoting) (i : Nat) (bs : Bytes) :
    codeEnd (d + 1) (quotedFlag q) (escapedFlag q) i bs
      = .ok (closedAt i (splitCode (d + 1) q bs)) := by
  have hdistinct : Bytes.quote ≠ Bytes.openSquare ∧ Bytes.quote ≠ Bytes.closeSquare ∧
      Bytes.quote ≠ Bytes.backslash ∧ Bytes.openSquare ≠ Bytes.quote ∧
      Bytes.openSquare ≠ Bytes.closeSquare ∧ Bytes.closeSquare ≠ Bytes.quote ∧
      Bytes.closeSquare ≠ Bytes.openSquare := by decide
  induction bs generalizing d q i with
  | nil => rfl
  | cons b rest ih =>
    -- one byte further, as deep as before or one deeper
    have hstep : ∀ d q, codeEnd (d + 1) (quotedFlag q) (escapedFlag q) (i + 1) rest
        = .ok (closedAt (i + 1) (splitCode (d + 1) q rest)) := fun d q => ih d q (i + 1)
    cases q with
    | outside =>
      have hinside := hstep d .inside
      have houtside := hstep d .outside
      have hdeeper := hstep (d + 1) .outside
      simp only [quotedFlag, escapedFlag] at hinside houtside hdeeper ⊢
      by_cases hquote : b = Bytes.quote
      · simp [codeEnd, splitCode, Quoting.next, closedAt_cons, hinside, hquote, hdistinct]
      · by_cases hopen : b = Bytes.openSquare
        · simp [codeEnd, splitCode, Quoting.next, closedAt_cons, hdeeper, hopen, hdistinct]
        · by_cases hclose : b = Bytes.closeSquare
          · cases d with
            | zero =>
              simp [codeEnd, splitCode, pred, closedAt, hclose, hdistinct, bind, Except.bind]
            | succ d =>
              have hhigher := hstep d .outside
              simp only [quotedFlag, escapedFlag] at hhigher
              simp [codeEnd, splitCode, Quoting.next, closedAt_cons, hhigher, hclose, hdistinct, pred,
                bind, Except.bind]
          · simp [codeEnd, splitCode, Quoting.next, closedAt_cons, houtside, hquote, hopen, hclose]
    | inside =>
      have hinside := hstep d .inside
      have houtside := hstep d .outside
      have hescaped := hstep d .escaped
      simp only [quotedFlag, escapedFlag] at hinside houtside hescaped ⊢
      by_cases hbackslash : b = Bytes.backslash
      · simp [codeEnd, splitCode, Quoting.next, closedAt_cons, hescaped, hbackslash]
      · by_cases hquote : b = Bytes.quote
        · simp [codeEnd, splitCode, Quoting.next, closedAt_cons, houtside, hquote, hdistinct]
        · simp [codeEnd, splitCode, Quoting.next, closedAt_cons, hinside, hquote, hbackslash]
    | escaped =>
      have hinside := hstep d .inside
      simp only [quotedFlag, escapedFlag] at hinside ⊢
      simp [codeEnd, splitCode, Quoting.next, closedAt_cons, hinside]

/-- A reader that starts at the bracket that opens the code. -/
theorem codeEnd_start (hopen : p.rest.head? = some Bytes.openSquare) :
    codeEnd 0 false false p.pos p.rest = .ok (closedAt (p.pos + 1) (codeOf? p.rest)) := by
  obtain ⟨tail, htail⟩ := List.head?_eq_some_iff.1 hopen
  have hne : Bytes.openSquare ≠ Bytes.quote := by decide
  have hbehind := codeEnd_eq 0 .outside (p.pos + 1) tail
  rw [htail]
  show codeEnd 0 false false p.pos (Bytes.openSquare :: tail)
    = .ok (closedAt _ (splitCode 1 .outside tail))
  rw [← hbehind]
  simp [codeEnd, hne, quotedFlag, escapedFlag]

end Guarded

/-- A code is what stands in front of a closing bracket. -/
theorem splitCode_spec {d : Nat} {q : Quoting} {bs code behind : Bytes}
    (h : splitCode d q bs = some (code, behind)) : bs = code ++ Bytes.closeSquare :: behind := by
  induction bs generalizing d q code with
  | nil => cases h
  | cons b rest ih =>
    unfold splitCode at h
    simp only at h
    split at h
    · next hclose =>
      cases h
      rw [hclose.1.2]
      rfl
    · obtain ⟨⟨code', behind'⟩, hfound, hsame⟩ := Option.map_eq_some_iff.1 h
      cases hsame
      rw [ih hfound]
      rfl

/-- **A code** is between the positions of its brackets, and the text starts behind the second one. -/
theorem Guarded.between_code {line : Bytes} {p : Place} (h : p.Within line)
    (hopen : p.rest.head? = some Bytes.openSquare) {code text : Bytes}
    (hcode : codeOf? p.rest = some (code, text)) :
    between line (p.pos + 1) (p.pos + 1 + code.length) = .ok code ∧
      (Place.mk (p.pos + 1 + code.length + 1) text).Within line := by
  obtain ⟨tail, htail⟩ := List.head?_eq_some_iff.1 hopen
  have hbehind : line.drop (p.pos + 1) = code ++ Bytes.closeSquare :: text := by
    rw [htail] at hcode
    rw [← List.drop_drop, ← h.on, htail]
    exact splitCode_spec hcode
  have hlength := congrArg List.length hbehind
  rw [List.length_drop, List.length_append, List.length_cons] at hlength
  have hfront : (line.take (p.pos + 1)).length = p.pos + 1 := List.length_take_of_le (by omega)
  have hread := between_append (line.take (p.pos + 1)) code (Bytes.closeSquare :: text)
  rw [← hbehind, List.take_append_drop, hfront] at hread
  refine ⟨hread, ?_, ?_⟩
  · show text = line.drop (p.pos + 1 + code.length + 1)
    rw [← List.drop_drop, ← List.drop_drop, hbehind, List.drop_left]
    rfl
  · show p.pos + 1 + code.length + 1 ≤ line.length
    omega

end ImapWire
