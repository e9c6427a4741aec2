/-
  Reading bytes as UTF-8 text, whatever they are.

  A text that is shown (a message, a key, a response name) must be valid even when the server's
  bytes are not.  Well-formed sequences give their character; every maximal part that cannot belong
  to a well-formed sequence gives one replacement character.

  The reader is a fold with one piece of state, the sequence that has begun (`Pending`): the bits
  gathered so far, the number of bytes still to come and the range that the next one must lie in.
  The ranges alone keep out overlong forms, surrogates and values above the last character, so no
  test is needed when a sequence is complete.
-/
import ImapWire.Bytes

namespace ImapWire.Utf8

/-- Stands for a part that is no character. -/
def replacement : Char := Char.ofNat 0xFFFD

/-- A sequence that has begun. -/
structure Pending where
  /-- The bits of the bytes read so far. -/
  bits : Nat
  /-- How many bytes are still to come. -/
  more : Nat
  /-- The least value that the next byte may have. -/
  low : UInt8
  /-- The greatest value that the next byte may have. -/
  high : UInt8
  deriving DecidableEq

/-- The first byte of a sequence: what it gives at once, and what it leaves begun. -/
def first (b : UInt8) : List Char × Option Pending :=
  if b < 0x80 then ([Char.ofNat b.toNat], none)
  else if b < 0xC2 then ([replacement], none)
  else if b < 0xE0 then ([], some ⟨b.toNat - 0xC0, 1, 0x80, 0xBF⟩)
  else if b < 0xF0 then
    ([], some ⟨b.toNat - 0xE0, 2, if b = 0xE0 then 0xA0 else 0x80, if b = 0xED then 0x9F else 0xBF⟩)
  else if b < 0xF5 then
    ([], some ⟨b.toNat - 0xF0, 3, if b = 0xF0 then 0x90 else 0x80, if b = 0xF4 then 0x8F else 0xBF⟩)
  else ([replacement], none)

/-- One byte.  A byte that cannot go on with the begun sequence ends it as one replacement character
    and starts afresh. -/
def step : Option Pending → UInt8 → List Char × Option Pending
  | none, b => first b
  | some p, b =>
    if p.low ≤ b ∧ b ≤ p.high then
      let bits := p.bits * 0x40 + (b.toNat - 0x80)
      if p.more = 1 then ([Char.ofNat bits], none) else ([], some ⟨bits, p.more - 1, 0x80, 0xBF⟩)
    else (replacement :: (first b).1, (first b).2)

/-- The characters of the bytes after a begun sequence; one that never ends is one replacement
    character. -/
def decodeFrom : Option Pending → Bytes → List Char
  | none, [] => []
  | some _, [] => [replacement]
  | state, b :: rest => (step state b).1 ++ decodeFrom (step state b).2 rest

/-- The characters of a byte string. -/
def decode (bs : Bytes) : List Char := decodeFrom none bs

@[simp] theorem decode_nil : decode [] = [] := rfl

theorem decodeFrom_cons (state : Option Pending) (b : UInt8) (rest : Bytes) :
    decodeFrom state (b :: rest) = (step state b).1 ++ decodeFrom (step state b).2 rest := by
  cases state <;> rfl

/-- A seven-bit byte is its character, wherever it stands outside a sequence. -/
theorem decode_cons_ascii {b : UInt8} (h : b < 0x80) (rest : Bytes) :
    decode (b :: rest) = Char.ofNat b.toNat :: decode rest := by
  simp [decode, decodeFrom_cons, step, first, h]

end ImapWire.Utf8

namespace ImapWire.Bytes

/-- A byte string as text, with a replacement character for each part that is none. -/
def text (bs : Bytes) : String := String.ofList (Utf8.decode bs)

theorem toList_text (bs : Bytes) : bs.text.toList = Utf8.decode bs := by simp [text]

end ImapWire.Bytes
