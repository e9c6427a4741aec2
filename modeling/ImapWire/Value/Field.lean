/-
  Reading the fields of records.

  A record is read out of values field by field.  Each reader below names the role of the field it
  reads, and a value of the wrong kind is reported with its role, its kind and its text.
-/
import ImapWire.Error
import ImapWire.Value

namespace ImapWire

/-- A failure near some values: their text is its context.  Where they have no text, that is the
    failure. -/
def Error.near (cause : Cause) (vs : List Value) : Error :=
  match Value.render? vs with
  | some context => .parse 0 cause context
  | none => .unwritable

namespace Value

/-- A value of the wrong kind for its role. -/
def wrong (role : String) (v : Value) : Error := .near (.wrongKind role v.kind) [v]

/-- A byte string; an integer is its digits. -/
def string (role : String) (v : Value) : Result Bytes :=
  match v with
  | bytes bs => .ok bs
  | int n => .ok (Decimal.ofInt n.toInt)
  | other => .error (wrong role other)

/-- A byte string or `NIL`. -/
def nstring (role : String) (v : Value) : Result (Option Bytes) :=
  match v with
  | nil => .ok none
  | other => (string role other).map some

/-- The number below a limit that a value stands for: an integer that is not negative, or a string
    of digits. -/
def natBelow? (limit : Nat) : Value → Option Nat
  | int n => if 0 ≤ n.toInt ∧ n.toInt < limit then some n.toInt.toNat else none
  | bytes bs => Decimal.unsignedBelow? limit bs
  | _ => none

/-- A number of 64 bits. -/
def number64 (role : String) (v : Value) : Result UInt64 :=
  match v.natBelow? UInt64.size with
  | some n => .ok (UInt64.ofNat n)
  | none => .error (wrong role v)

/-- A number of 32 bits. -/
def number32 (role : String) (v : Value) : Result UInt32 :=
  match v.natBelow? UInt32.size with
  | some n => .ok (UInt32.ofNat n)
  | none => .error (wrong role v)

/-- All strings of a list. -/
def strings (role : String) (vs : List Value) : Result (List Bytes) := vs.mapM (string role)

/-- The values two by two. -/
def pairUp : List Value → List (Value × Value)
  | a :: b :: rest => (a, b) :: pairUp rest
  | _ => []

/-- Names with their values, one after the other. -/
def pairs (what : String) (vs : List Value) : Result (List (Value × Value)) :=
  if vs.length % 2 = 0 then .ok (pairUp vs) else .error (.near (.uneven what) vs)

/-- The values three by three. -/
def tripleUp : List Value → List (Value × Value × Value)
  | a :: b :: c :: rest => (a, b, c) :: tripleUp rest
  | _ => []

end Value
end ImapWire
