/-
  Options of reading, and limits of the stream reader.
-/

namespace ImapWire

/-- How fetch records are read. -/
structure Options where
  /-- Stamps are moved to the local clock, and not kept on the clock that they are written with.  The
      local clock is assumed to stand at UTC (`Stamp.toUtc`). -/
  toUtc : Bool := true
  /-- A message is known by its UID where the server sends one, and not by its sequence number. -/
  keyByUid : Bool := true
  deriving DecidableEq, Repr, Inhabited

/-- How long a line and a literal may be that are taken off a stream. -/
structure Limits where
  /-- In bytes, without the line end. -/
  line : Nat := 65536
  /-- In bytes. -/
  literal : Nat := 67108864
  deriving DecidableEq, Repr, Inhabited

end ImapWire
