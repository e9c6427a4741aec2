/-
  Quoted strings.

  Inside quotes a backslash takes away the meaning of a quote or a backslash after it; before any
  other byte it stands for itself.  `write` puts the quotes and the backslashes, `read` takes them
  off and says how many bytes it used.

  Main fact: a written string is read back, and reading stops right behind it (`read_write`).
-/
import ImapWire.Bytes

namespace ImapWire.Quoted

open Bytes (quote backslash)

/-- Has a meaning of its own inside quotes. -/
def isSpecial (b : UInt8) : Bool := b == quote || b == backslash

/-- A byte string with a backslash before each quote and each backslash. -/
def protect : Bytes → Bytes
  | [] => []
  | b :: rest => if isSpecial b then backslash :: b :: protect rest else b :: protect rest

/-- A byte string in quotes. -/
def write (bs : Bytes) : Bytes := quote :: protect bs ++ [quote]

/-- What was read of a quoted string: its bytes, the number of bytes used with the closing quote,
    and the bytes behind it. -/
structure Reading where
  bytes : Bytes
  size : Nat
  rest : Bytes
  deriving DecidableEq

/-- A reading with one more byte in front, for which `used` bytes were used. -/
def Reading.push (b : UInt8) (used : Nat) (r : Reading) : Reading :=
  { r with bytes := b :: r.bytes, size := r.size + used }

/-- Reads on from behind the opening quote; fails if the string is never closed. -/
def read : Bytes → Option Reading
  | [] => none
  | [b] => if b = quote then some ⟨[], 1, []⟩ else none
  | b :: c :: rest =>
    if b = quote then some ⟨[], 1, c :: rest⟩
    else if b = backslash ∧ isSpecial c then (read rest).map (Reading.push c 2)
    else (read (c :: rest)).map (Reading.push b 1)

/-- The bytes used and the bytes behind them make up the input. -/
theorem size_add_length {bs : Bytes} {r : Reading} (h : read bs = some r) :
    r.size + r.rest.length = bs.length ∧ 0 < r.size := by
  fun_induction read bs generalizing r <;>
    simp_all [Reading.push, Option.map_eq_some_iff] <;> grind

theorem read_protect (bs rest : Bytes) :
    read (protect bs ++ quote :: rest) = some ⟨bs, (protect bs).length + 1, rest⟩ := by
  induction bs with
  | nil => cases rest <;> simp [protect, read]
  | cons b bs ih =>
    by_cases hb : isSpecial b
    · have hne : backslash ≠ quote := by decide
      simp [protect, hb, read, hne, ih, Reading.push]
    · obtain ⟨hq, hs⟩ : b ≠ quote ∧ b ≠ backslash := by simpa [isSpecial] using hb
      have hread : ∀ tail, tail ≠ [] → read (b :: tail) = (read tail).map (Reading.push b 1) := by
        intro tail htail
        cases tail with
        | nil => exact absurd rfl htail
        | cons c more => simp [read, hq, hs]
      have htail : protect bs ++ quote :: rest ≠ [] := by simp
      simp [protect, hb, hread _ htail, ih, Reading.push]

/-- A written string is read back, and reading stops right behind it. -/
theorem read_write (bs rest : Bytes) :
    read ((write bs ++ rest).tail) = some ⟨bs, (write bs).length - 1, rest⟩ := by
  simp [write, read_protect]

end ImapWire.Quoted
