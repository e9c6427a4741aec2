/-
  Byte strings.

  What a server sends is bytes, and nothing promises that they are text.  All that comes off the
  wire is therefore kept as a `Bytes`, and read as text (`ImapWire.Text.Utf8`) only where a text is
  shown.  The wire has its own small alphabet: the classes and the case folding below are those of
  ASCII, a byte above `0x7F` belongs to no class and has no case.

  Main facts: folding the case is idempotent, so names that differ only in case meet in one folded
  form (`lower_lower`, `sameName_iff`).
-/

namespace ImapWire

/-- A byte string: a line, an atom, a quoted string, a literal. -/
abbrev Bytes := List UInt8

namespace Bytes

/-! ## The bytes with a meaning of their own -/

abbrev tab : UInt8 := 0x09
abbrev lf : UInt8 := 0x0A
abbrev cr : UInt8 := 0x0D
abbrev space : UInt8 := 0x20
abbrev quote : UInt8 := 0x22
abbrev openRound : UInt8 := 0x28
abbrev closeRound : UInt8 := 0x29
abbrev star : UInt8 := 0x2A
abbrev plus : UInt8 := 0x2B
abbrev minus : UInt8 := 0x2D
abbrev zero : UInt8 := 0x30
abbrev less : UInt8 := 0x3C
abbrev greater : UInt8 := 0x3E
abbrev openSquare : UInt8 := 0x5B
abbrev backslash : UInt8 := 0x5C
abbrev closeSquare : UInt8 := 0x5D
abbrev openBrace : UInt8 := 0x7B
abbrev closeBrace : UInt8 := 0x7D
abbrev tilde : UInt8 := 0x7E

/-! ## Classes -/

/-- Separates tokens without being one. -/
def isBlank (b : UInt8) : Bool := b == space || b == tab || b == cr || b == lf

/-- Ends an atom. -/
def isDelimiter (b : UInt8) : Bool :=
  isBlank b || b == openRound || b == closeRound || b == openSquare || b == closeSquare || b == quote

/-- A decimal digit. -/
def isDigit (b : UInt8) : Bool := 0x30 ≤ b && b ≤ 0x39

/-- Has a printed shape: everything from `!` to `~`. -/
def isGraphic (b : UInt8) : Bool := 0x21 ≤ b && b ≤ 0x7E

/-- Cannot stand on a line in quotes: such a byte is sent in a literal. -/
def needsLiteral (b : UInt8) : Bool := b == cr || b == lf || b == 0

/-! ## Case -/

/-- A capital letter becomes the small one, every other byte stays. -/
def lowerByte (b : UInt8) : UInt8 := if 0x41 ≤ b ∧ b ≤ 0x5A then b + 0x20 else b

def lower (bs : Bytes) : Bytes := bs.map lowerByte

/-- The same name: equal up to the case of letters. -/
def sameName (a b : Bytes) : Bool := lower a == lower b

/-- What can be looked up for all 256 bytes holds of every byte. -/
theorem forall_of_fin {P : UInt8 → Prop} (h : ∀ n : Fin 256, P (UInt8.ofNat n)) (b : UInt8) :
    P b := by
  have hb := h ⟨b.toNat, b.toNat_lt⟩
  rwa [UInt8.ofNat_toNat] at hb

set_option maxRecDepth 4000 in
theorem lowerByte_lowerByte : ∀ b : UInt8, lowerByte (lowerByte b) = lowerByte b :=
  forall_of_fin (by decide)

theorem lower_lower (bs : Bytes) : lower (lower bs) = lower bs := by
  simp [lower, lowerByte_lowerByte]

theorem sameName_iff {a b : Bytes} : sameName a b = true ↔ lower a = lower b := by
  simp [sameName]

/-! ## Bytes of a text -/

/-- The UTF-8 form of a sequence of characters. -/
def ofChars (cs : List Char) : Bytes := cs.flatMap String.utf8EncodeChar

/-- The UTF-8 form of a text. -/
def ofString (s : String) : Bytes := ofChars s.toList

@[simp] theorem ofChars_nil : ofChars [] = [] := rfl

@[simp] theorem ofChars_cons (c : Char) (cs : List Char) :
    ofChars (c :: cs) = String.utf8EncodeChar c ++ ofChars cs := rfl

theorem ofChars_append (a b : List Char) : ofChars (a ++ b) = ofChars a ++ ofChars b := by
  simp [ofChars]

theorem ofString_ofList (cs : List Char) : ofString (String.ofList cs) = ofChars cs := by
  simp [ofString]

end Bytes
end ImapWire
