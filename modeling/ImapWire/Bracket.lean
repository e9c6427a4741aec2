/-
  The two kinds of bracket.

  Round brackets hold lists, square brackets hold sections.  Tokens, trees and error messages all
  speak of the same two kinds, so each has its bytes and its name here.
-/
import ImapWire.Bytes

namespace ImapWire

inductive Bracket
  | round
  | square
  deriving DecidableEq, Repr

namespace Bracket

/-- The byte that opens a group. -/
def opens : Bracket → UInt8
  | round => Bytes.openRound
  | square => Bytes.openSquare

/-- The byte that closes a group. -/
def closes : Bracket → UInt8
  | round => Bytes.closeRound
  | square => Bytes.closeSquare

/-- The kind of group that a byte opens. -/
def opened? (b : UInt8) : Option Bracket :=
  if b = Bytes.openRound then some round
  else if b = Bytes.openSquare then some square
  else none

/-- The kind of group that a byte closes. -/
def closed? (b : UInt8) : Option Bracket :=
  if b = Bytes.closeRound then some round
  else if b = Bytes.closeSquare then some square
  else none

/-- What a group of the kind is called. -/
def name : Bracket → String
  | round => "list"
  | square => "section"

/-- The opening byte as text. -/
def openText : Bracket → String
  | round => "("
  | square => "["

/-- The closing byte as text. -/
def closeText : Bracket → String
  | round => ")"
  | square => "]"

theorem opened?_eq_some {b : UInt8} {k : Bracket} : opened? b = some k ↔ b = k.opens := by
  constructor
  · intro h
    unfold opened? at h
    split at h
    · cases h; assumption
    · split at h
      · cases h; assumption
      · cases h
  · intro h
    subst h
    cases k <;> rfl

theorem closed?_eq_some {b : UInt8} {k : Bracket} : closed? b = some k ↔ b = k.closes := by
  constructor
  · intro h
    unfold closed? at h
    split at h
    · cases h; assumption
    · split at h
      · cases h; assumption
      · cases h
  · intro h
    subst h
    cases k <;> rfl

end Bracket
end ImapWire
