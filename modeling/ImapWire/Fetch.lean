/-
  Fetch records: what a server sends about one message.

  A record holds items by key.  A key is the name of an item in capitals; an item of a section of
  the message has the section in its key, in square brackets, and the place in it where the data
  starts if that is given, so that `BODY[]` and `BODY[]<0>` are different items.
-/
import ImapWire.Table
import ImapWire.Text.Case
import ImapWire.Value

namespace ImapWire

/-- The items of one message. -/
structure FetchRecord where
  /-- The number of the message in its folder. -/
  seq : UInt32
  items : Table String Value

namespace FetchRecord

/-- No items yet. -/
def empty (seq : UInt32) : FetchRecord := ⟨seq, Table.empty⟩

/-- The item of a name, in any case. -/
def get? (r : FetchRecord) (name : String) : Option Value := r.items.get? (Text.upper name)

/-- The integer as a number of 32 bits, if it is one. -/
def toUInt32? (n : Int64) : Option UInt32 :=
  if 0 ≤ n.toInt ∧ n.toInt < UInt32.size then some (UInt32.ofNat n.toInt.toNat) else none

def uid? (r : FetchRecord) : Option UInt32 := ((r.get? "UID").bind Value.int?).bind toUInt32?

def flags? (r : FetchRecord) : Option (List Bytes) := (r.get? "FLAGS").bind Value.flags?

def envelope? (r : FetchRecord) : Option Envelope := (r.get? "ENVELOPE").bind Value.envelope?

/-- The body structure, from the longer form if it is there. -/
def body? (r : FetchRecord) : Option Body :=
  (r.get? "BODYSTRUCTURE").bind Value.body? <|> (r.get? "BODY").bind Value.body?

def internalDate? (r : FetchRecord) : Option Stamp := (r.get? "INTERNALDATE").bind Value.stamp?

/-- The byte string of an item. -/
def bytes? (r : FetchRecord) (name : String) : Option Bytes := (r.get? name).bind Value.bytes?

/-- Takes the items of a later record of the same message in, over those of the same keys. -/
def merge (r later : FetchRecord) : FetchRecord := { r with items := r.items.merge later.items }

end FetchRecord
end ImapWire
