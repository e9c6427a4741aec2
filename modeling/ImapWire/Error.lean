/-
  What can go wrong, by cause.

  Every failure names its cause and carries the facts of it; the wording is in `message` alone.
  There are five sorts:

    * `lex`: bytes that form no token, with the chunk, the byte and the raw line;
    * `parse`: tokens or values that form no tree or no record, with the number of tokens read and
      the text of what stood there (a record has no token position: it says 0);
    * `protocol`: a response that breaks the limits of the reader;
    * `io`: the stream ended or failed;
    * `unwritable`: a value was to be written whose envelope date has no written form.
-/
import ImapWire.Bytes.Escaped
import ImapWire.Kind

namespace ImapWire

/-! ## Tokens -/

/-- Why no token could be read. -/
inductive LexCause
  /-- A quote that is never closed. -/
  | unterminatedQuote
  /-- A marker at the end of a line whose braces hold no length. -/
  | invalidLength
  /-- A marker at the end of a line without a literal. -/
  | missingLiteral (size : Nat)
  /-- A literal of another length than its marker says. -/
  | literalSize (announced found : Nat)
  /-- A literal after a line that does not end with a marker. -/
  | strayLiteral
  deriving DecidableEq, Repr

namespace LexCause

def message : LexCause → String
  | unterminatedQuote => "unterminated quoted string"
  | invalidLength => "invalid literal length"
  | missingLiteral size => s!"no literal supplied for marker of size {size}"
  | literalSize announced found => s!"expecting literal of size {announced}, got {found}"
  | strayLiteral => "literal supplied but line has no literal marker"

end LexCause

/-- A place where no token could be read: the chunk, the byte of its line, and the line. -/
structure LexFault where
  chunk : Nat
  pos : Nat
  cause : LexCause
  line : Bytes
  deriving DecidableEq, Repr

/-! ## Trees and records -/

/-- Why tokens form no tree, or values no record. -/
inductive Cause
  -- the bracket tree
  | strayClose (bracket : Bracket)
  | mismatch (closing opened : Bracket)
  | unterminated (bracket : Bracket)
  | tooDeep
  -- any record
  /-- A value of the wrong kind for its role. -/
  | wrongKind (role : String) (found : Kind)
  /-- Names and values that do not come in pairs. -/
  | uneven (what : String)
  -- folders
  | folderTriplets (count : Nat)
  | statusShape
  | quotaTriplets
  | noMailbox
  | namespaceGroups (count : Nat)
  -- messages
  | endOfFetch
  | itemName (found : Kind)
  | noItemValue (key : String)
  | envelopeKind (found : Kind)
  | envelopeFields (count : Nat)
  | noSubtype
  | bodyFields (count : Nat)
  | zeroSequence
  -- whole responses
  | emptyResponse
  | literalInText (chunks : Nat)
  | invalidStatus (word : Bytes)
  | unterminatedCode
  | emptyCode
  | oneFlagList
  | oneEntry (name : String)
  | oneItemList
  deriving DecidableEq, Repr

namespace Cause

/-- A closing bracket as messages show it. -/
def shown (bracket : Bracket) : String := "'" ++ bracket.closeText ++ "'"

def message : Cause → String
  | strayClose bracket => "unexpected " ++ shown bracket
  | mismatch closing opened => shown closing ++ " closes a " ++ opened.name
  | unterminated bracket => "unterminated " ++ bracket.name
  | tooDeep => "nesting too deep"
  | wrongKind role found => "invalid " ++ role ++ ": unexpected " ++ found.name
  | uneven what => "uneven number of " ++ what ++ " items"
  | folderTriplets count => s!"folder list has {count} items, expected triplets"
  | statusShape => "STATUS data must be a mailbox and an item list"
  | quotaTriplets => "quota resources must come in triplets"
  | noMailbox => "QUOTAROOT data without a mailbox"
  | namespaceGroups count => s!"NAMESPACE has {count} groups, expected 3"
  | endOfFetch => "unexpected end of FETCH data"
  | itemName found => "FETCH item name must be an atom, got " ++ found.name
  | noItemValue key => "uneven number of FETCH items, " ++ key ++ " has no value"
  | envelopeKind found => "ENVELOPE must be a list, got " ++ found.name
  | envelopeFields count => s!"ENVELOPE must have 10 fields, got {count}"
  | noSubtype => "multipart body without subtype"
  | bodyFields count => s!"body part has {count} fields, expected at least 7"
  | zeroSequence => "sequence number must be non-zero"
  | emptyResponse => "empty response"
  | literalInText chunks => s!"unexpected literal in text response ({chunks} chunks)"
  | invalidStatus word => "invalid status '" ++ word.escaped ++ "'"
  | unterminatedCode => "unterminated response code"
  | emptyCode => "empty response code"
  | oneFlagList => "FLAGS expects one flag list"
  | oneEntry name => name ++ " expects one entry"
  | oneItemList => "FETCH expects one item list"

end Cause

/-! ## Streams -/

/-- How a response breaks the limits of the reader. -/
inductive Breach
  | lineTooLong
  | literalTooLarge (size limit : Nat)
  deriving DecidableEq, Repr

def Breach.message : Breach → String
  | lineTooLong => "line too long"
  | literalTooLarge size limit => s!"literal too large: {size} bytes (max {limit})"

/-- How a stream stopped giving bytes. -/
inductive Interruption
  /-- The stream ended inside a line or before one. -/
  | closed
  /-- The stream ended inside a literal. -/
  | cutShort
  /-- The stream failed, and said why. -/
  | failed (reason : String)
  deriving DecidableEq, Repr

def Interruption.message : Interruption → String
  | closed => "connection closed"
  | cutShort => "early eof"
  | failed reason => reason

/-! ## All failures -/

inductive Error
  | lex (fault : LexFault)
  | parse (position : Nat) (cause : Cause) (context : String)
  | protocol (breach : Breach)
  | io (interruption : Interruption)
  | unwritable
  deriving DecidableEq, Repr

namespace Error

/-- The whole text of a failure. -/
def message : Error → String
  | lex ⟨chunk, pos, cause, line⟩ =>
    s!"Lex error in chunk {chunk} at byte {pos}: " ++ cause.message ++ " (line: " ++ line.escaped
      ++ ")"
  | parse position cause context =>
    s!"Parse error at token {position}: " ++ cause.message ++ " (near: " ++ context ++ ")"
  | protocol breach => "Protocol error: " ++ breach.message
  | io interruption => "I/O error: " ++ interruption.message
  | unwritable => "envelope date has no written form"

/-- The server's bytes are to blame, not the stream. -/
def isMalformed : Error → Bool
  | lex _ | parse .. | protocol _ => true
  | io _ | unwritable => false

end Error

/-- A result, or what went wrong. -/
abbrev Result (α : Type) := Except Error α

namespace Result

@[simp] theorem mapError_ok {ε ε' α : Type} (f : ε → ε') (a : α) :
    (Except.ok a : Except ε α).mapError f = .ok a := rfl

@[simp] theorem mapError_error {ε ε' α : Type} (f : ε → ε') (e : ε) :
    (Except.error e : Except ε α).mapError f = .error (f e) := rfl

/-- Two steps succeed if the first one does, and the second one does with what it gave. -/
theorem bind_eq_ok {α β : Type} {x : Result α} {f : α → Result β} {b : β} :
    (x >>= f) = .ok b ↔ ∃ a, x = .ok a ∧ f a = .ok b := by
  cases x with
  | error e =>
    constructor
    · nofun
    · rintro ⟨a, ha, -⟩
      cases ha
  | ok a =>
    constructor
    · intro h
      exact ⟨a, rfl, h⟩
    · rintro ⟨a', ha, h⟩
      cases ha
      exact h

theorem map_eq_ok {α β : Type} {x : Result α} {f : α → β} {b : β} :
    x.map f = .ok b ↔ ∃ a, x = .ok a ∧ f a = b := by
  cases x with
  | error e =>
    constructor
    · nofun
    · rintro ⟨a, ha, -⟩
      cases ha
  | ok a =>
    constructor
    · intro h
      exact ⟨a, rfl, Except.ok.inj h⟩
    · rintro ⟨a', ha, h⟩
      cases ha
      exact congrArg Except.ok h

end Result

end ImapWire
