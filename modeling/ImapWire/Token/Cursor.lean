/-
  Reading tokens out of chunks.

  A `Cursor` stands at a byte of a line of a response.  `next` skips blanks, goes on to the next
  line where one is used up, and reads one token:

    * a bracket;
    * a quoted string, up to the quote that closes it;
    * an atom, the longest run of bytes that are no delimiters;
    * if that atom is a marker and only blanks follow it on the line, the literal of the chunk.

  The cursor goes on after a failure too: behind the marker that was refused, or at the end of the
  line whose quote is never closed.

  `scan` reads tokens until there are none or one fails.  It ends because a token uses up at least
  one byte (`next_unread_lt`).
-/
import ImapWire.Chunk
import ImapWire.Error
import ImapWire.Token
import ImapWire.Token.Quoted

namespace ImapWire

open Bytes (isBlank isDelimiter)

/-- A place in the lines of a response. -/
structure Cursor where
  /-- How many chunks are behind. -/
  index : Nat
  /-- How many bytes of the current line are behind. -/
  pos : Nat
  /-- The bytes of the current line that are ahead. -/
  rest : Bytes
  /-- The current chunk and those after it. -/
  chunks : List Chunk
  deriving DecidableEq, Repr

namespace Cursor

/-- The line of the first chunk. -/
def firstLine : List Chunk → Bytes
  | [] => []
  | c :: _ => c.line

/-- At a byte of the first line. -/
def startAt (chunks : List Chunk) (offset : Nat) : Cursor :=
  ⟨0, offset, (firstLine chunks).drop offset, chunks⟩

/-- At the start. -/
def start (chunks : List Chunk) : Cursor := startAt chunks 0

/-- Every chunk is behind. -/
def atEnd (c : Cursor) : Bool := c.chunks.isEmpty

/-- The number of bytes of lines, each line counting one more. -/
def linesSize : List Chunk → Nat
  | [] => 0
  | chunk :: later => chunk.line.length + 1 + linesSize later

/-- The number of bytes ahead, each later line counting one more. -/
def unread (c : Cursor) : Nat := c.rest.length + linesSize c.chunks.tail

/-- At the start of the chunk after the current one. -/
def following (index : Nat) (later : List Chunk) : Cursor := ⟨index + 1, 0, firstLine later, later⟩

/-! ## One token -/

/-- Takes the literal of a chunk for the marker that stands at `pos`. -/
def takeLiteral (chunk : Chunk) (inner : Bytes) : Except LexCause Bytes :=
  match Marker.length? inner, chunk.literal with
  | none, _ => .error .invalidLength
  | some size, none => .error (.missingLiteral size)
  | some size, some literal =>
    if literal.length = size then .ok literal else .error (.literalSize size literal.length)

/-- Reads a token that starts with the byte `b`, at `pos` of the line of `chunk`. -/
def tokenAt (index pos : Nat) (b : UInt8) (rest : Bytes) (chunk : Chunk) (later : List Chunk) :
    Except LexFault Token × Cursor :=
  let fault (cause : LexCause) : Except LexFault Token := .error ⟨index, pos, cause, chunk.line⟩
  let stay (used : Nat) (rest : Bytes) : Cursor := ⟨index, pos + used, rest, chunk :: later⟩
  match Bracket.opened? b, Bracket.closed? b with
  | some bracket, _ => (.ok (.opening bracket), stay 1 rest)
  | none, some bracket => (.ok (.closing bracket), stay 1 rest)
  | none, none =>
    if b = Bytes.quote then
      match Quoted.read rest with
      | some r => (.ok (.quoted r.bytes), stay (r.size + 1) r.rest)
      | none => (fault .unterminatedQuote, stay (rest.length + 1) [])
    else
      let run := b :: rest.takeWhile fun c => !isDelimiter c
      let after := rest.dropWhile fun c => !isDelimiter c
      match (if after.all isBlank then Marker.inner? run else none) with
      | none => (.ok (.atom run), stay run.length after)
      | some inner =>
        match takeLiteral chunk inner with
        | .ok literal => (.ok (.literal literal), following index later)
        | .error cause => (fault cause, stay run.length after)

/-- Skips blanks and used up lines, then reads a token. -/
def nextAt (index pos : Nat) (rest : Bytes) : List Chunk → Except LexFault (Option Token) × Cursor
  | [] => (.ok none, ⟨index, pos, [], []⟩)
  | chunk :: later =>
    let pos := pos + (rest.takeWhile isBlank).length
    match rest.dropWhile isBlank with
    | b :: rest =>
      let (result, cursor) := tokenAt index pos b rest chunk later
      (result.map some, cursor)
    | [] =>
      if chunk.literal.isSome then
        (.error ⟨index, pos, .strayLiteral, chunk.line⟩, ⟨index, pos, [], chunk :: later⟩)
      else nextAt (index + 1) 0 (firstLine later) later

/-- The next token, none at the end, and where the cursor stands after it. -/
def next (c : Cursor) : Except LexFault (Option Token) × Cursor :=
  nextAt c.index c.pos c.rest c.chunks

/-! ## A token uses up at least one byte -/

theorem length_dropWhile_le (p : UInt8 → Bool) (bs : Bytes) : (bs.dropWhile p).length ≤ bs.length :=
  (List.dropWhile_sublist p).length_le

theorem unread_following (index : Nat) (later : List Chunk) :
    (following index later).unread ≤ linesSize later := by
  cases later with
  | nil => simp [following, unread, firstLine]
  | cons c cs =>
    simp only [following, unread, firstLine, List.tail_cons, linesSize]
    omega

theorem tokenAt_unread_lt {index pos : Nat} {b : UInt8} {rest : Bytes} {chunk : Chunk}
    {later : List Chunk} {t : Token} {c' : Cursor}
    (h : tokenAt index pos b rest chunk later = (.ok t, c')) :
    c'.unread < (b :: rest).length + linesSize later := by
  have hdrop := length_dropWhile_le (fun c => !isDelimiter c) rest
  unfold tokenAt at h
  dsimp only at h
  split at h
  · cases h; simp [unread]
  · cases h; simp [unread]
  · split at h
    · split at h
      · next r hr =>
        have := Quoted.size_add_length hr
        cases h; simp [unread]; omega
      · cases h
    · split at h
      · cases h; simp only [unread, List.tail_cons, List.length_cons]; omega
      · split at h
        · have := unread_following index later
          cases h; simp only [List.length_cons]; omega
        · cases h

theorem nextAt_unread_lt {index pos : Nat} {rest : Bytes} {chunks : List Chunk} {t : Token}
    {c' : Cursor} (h : nextAt index pos rest chunks = (.ok (some t), c')) :
    c'.unread < rest.length + linesSize chunks.tail := by
  induction chunks generalizing index pos rest with
  | nil => simp [nextAt] at h
  | cons chunk later ih =>
    have hdrop := length_dropWhile_le isBlank rest
    unfold nextAt at h
    dsimp only at h
    split at h
    · next b rest' hb =>
      rw [hb] at hdrop
      have hpair := Prod.mk.inj h
      cases ht : tokenAt index (pos + (rest.takeWhile isBlank).length) b rest' chunk later with
      | mk result cursor =>
        rw [ht] at hpair
        cases result with
        | error e => simp [Except.map] at hpair
        | ok t' =>
          have := tokenAt_unread_lt ht
          have hc : cursor = c' := hpair.2
          subst hc
          simp only [List.tail_cons]
          omega
    · split at h
      · cases h
      · have := ih h
        cases later with
        | nil => simp [firstLine, linesSize] at this
        | cons c cs =>
          simp only [firstLine, List.tail_cons, linesSize] at this ⊢
          omega

/-- A token brings the cursor forward. -/
theorem next_unread_lt {c c' : Cursor} {t : Token} (h : c.next = (.ok (some t), c')) :
    c'.unread < c.unread :=
  nextAt_unread_lt h

/-! ## All tokens -/

/-- The tokens of an input up to its end, or up to the first failure. -/
structure Scan where
  tokens : List Token
  fault : Option LexFault
  deriving DecidableEq, Repr

/-- Reads tokens until there are none or one fails. -/
def scan (c : Cursor) : Scan :=
  match _h : c.next with
  | (.ok (some t), c') =>
    let s := scan c'
    { s with tokens := t :: s.tokens }
  | (.ok none, _) => ⟨[], none⟩
  | (.error fault, _) => ⟨[], some fault⟩
termination_by c.unread
decreasing_by exact next_unread_lt _h

end Cursor
end ImapWire
