/-
  Bytes as printable text.

  Error messages show the raw line they are about.  A tab, a line end, a quote of either kind and a
  backslash are written with a backslash, any other byte outside the printable range as `\x` and two
  small hexadecimal digits, and the rest stands for itself.  Nothing is lost: the form starts with a
  backslash exactly for the bytes that do not stand for themselves.
-/
import ImapWire.Bytes

namespace ImapWire.Bytes

/-- The hexadecimal digit of a number below sixteen, small letters. -/
def hexDigit (n : Nat) : Char :=
  if n < 10 then Char.ofNat (0x30 + n) else Char.ofNat (0x61 + (n - 10))

/-- One byte, printable. -/
def escapedByte (b : UInt8) : List Char :=
  if b = tab then ['\\', 't']
  else if b = cr then ['\\', 'r']
  else if b = lf then ['\\', 'n']
  else if b = 0x27 then ['\\', Char.ofNat 0x27]
  else if b = quote then ['\\', '"']
  else if b = backslash then ['\\', '\\']
  else if 0x20 ≤ b ∧ b ≤ 0x7E then [Char.ofNat b.toNat]
  else ['\\', 'x', hexDigit (b.toNat / 16), hexDigit (b.toNat % 16)]

/-- A byte string in printable form. -/
def escaped (bs : Bytes) : String := String.ofList (bs.flatMap escapedByte)

theorem toList_escaped (bs : Bytes) : (escaped bs).toList = bs.flatMap escapedByte := by
  simp [escaped]

end ImapWire.Bytes
