/-
  Message numbers: the numbers that the messages of a folder have, counted from 1.
-/
import ImapWire.Error

namespace ImapWire

/-- The number of a message in its folder, counted from 1. -/
structure MessageNumber where
  number : UInt32
  ne_zero : number ≠ 0
  deriving DecidableEq, Repr

/-- The message number that a number is. -/
def MessageNumber.ofNumber (n : UInt32) : Result MessageNumber :=
  if h : n ≠ 0 then .ok ⟨n, h⟩ else .error (.parse 0 .zeroSequence "0")

end ImapWire
