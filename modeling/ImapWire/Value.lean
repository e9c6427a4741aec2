/-
  Values.

  A value is a tree some of whose parts have been understood: besides the four shapes of `Tree`
  there are lists of flags, stamps, envelopes, addresses and body structures.  Body structures keep
  the extension data that they do not understand as values, so the two types are defined together.

  Each understood part still has its shape on the wire (`tree?`): flags are a list of byte strings,
  a stamp is its text, a record is the list of its fields.  The shape is missing only where an
  envelope date somewhere in the value cannot be written.
-/
import ImapWire.Envelope
import ImapWire.Kind
import ImapWire.Tree.Layout

namespace ImapWire

/-- The seven fields that every single part of a message has. -/
structure PartHead where
  /-- The media type, such as `TEXT`. -/
  mediaType : Bytes
  /-- The subtype, such as `PLAIN`. -/
  subtype : Bytes
  /-- The parameters of the type, in the server's order. -/
  params : List (Bytes × Bytes)
  /-- The content id. -/
  id : Option Bytes
  description : Option Bytes
  /-- The transfer encoding. -/
  encoding : Option Bytes
  /-- The size in bytes. -/
  size : Option UInt64
  deriving DecidableEq, Repr

mutual
inductive Value
  | int (n : Int64)
  | bytes (bs : Bytes)
  | nil
  | group (bracket : Bracket) (items : List Value)
  | flags (flags : List Bytes)
  | stamp (stamp : Stamp)
  | envelope (envelope : Envelope)
  | address (address : Address)
  | body (body : Body)

/-- The structure of a message, or of a part of one. -/
inductive Body
  | single (head : PartHead) (attached : Attached) (lines : Option UInt64) (extension : List Value)
  | multipart (parts : List Body) (subtype : Bytes) (extension : List Value)

/-- The message that a part holds, if it is an attached one. -/
inductive Attached
  | none
  | message (envelope : Envelope) (body : Body)
end

/-! ## Looking at a value -/

namespace Value

/-- The kind of a value. -/
def kind : Value → Kind
  | int _ => .integer
  | bytes _ => .string
  | nil => .nil
  | group bracket _ => .group bracket
  | flags _ => .flags
  | stamp _ => .stamp
  | envelope _ => .envelope
  | address _ => .address
  | body _ => .body

def isNil : Value → Bool
  | nil => true
  | _ => false

/-- Is a list, of whatever items. -/
def isList : Value → Bool
  | group .round _ => true
  | _ => false

def int? : Value → Option Int64
  | int n => some n
  | _ => none

def bytes? : Value → Option Bytes
  | bytes bs => some bs
  | _ => none

/-- The items of a list. -/
def list? : Value → Option (List Value)
  | group .round items => some items
  | _ => none

def flags? : Value → Option (List Bytes)
  | flags fs => some fs
  | _ => none

def stamp? : Value → Option Stamp
  | stamp s => some s
  | _ => none

def envelope? : Value → Option Envelope
  | envelope e => some e
  | _ => none

def body? : Value → Option Body
  | body b => some b
  | _ => none

/-- The byte string that an atom or a string was: an integer gives back its digits. -/
def lossless? : Value → Option Bytes
  | bytes bs => some bs
  | int n => some (Decimal.ofInt n.toInt)
  | _ => none

end Value

/-! ## Trees as values -/

mutual
/-- A tree as a value nothing of which is understood yet. -/
def Value.ofTree : Tree → Value
  | .int n => .int n
  | .bytes bs => .bytes bs
  | .nil => .nil
  | .group bracket items => .group bracket (Value.ofTrees items)

def Value.ofTrees : List Tree → List Value
  | [] => []
  | t :: ts => Value.ofTree t :: Value.ofTrees ts
end

theorem Value.ofTrees_eq_map (ts : List Tree) : Value.ofTrees ts = ts.map Value.ofTree := by
  induction ts with
  | nil => rfl
  | cons t ts ih => simp [Value.ofTrees, ih]

mutual
/-- The tree that a value is, if nothing of it is understood yet. -/
def Value.plain? : Value → Option Tree
  | .int n => some (.int n)
  | .bytes bs => some (.bytes bs)
  | .nil => some .nil
  | .group bracket items => (Value.plainAll? items).map (.group bracket)
  | .flags _ | .stamp _ | .envelope _ | .address _ | .body _ => none

def Value.plainAll? : List Value → Option (List Tree)
  | [] => some []
  | v :: vs => do
    let t ← Value.plain? v
    let ts ← Value.plainAll? vs
    some (t :: ts)
end

/-! ## The shape on the wire -/

/-- A number: an integer if it fits in 63 bits, its digits otherwise. -/
def Tree.ofUInt64 (n : UInt64) : Tree :=
  if n.toNat < Decimal.signedSize then .int (Int64.ofInt n.toNat)
  else .bytes (Decimal.digits n.toNat)

/-- The parameters of a type: names and values in one list. -/
def PartHead.paramsTree (params : List (Bytes × Bytes)) : Tree :=
  if params.isEmpty then .nil
  else .group .round (params.flatMap fun (name, value) => [.bytes name, .bytes value])

/-- The seven fields that every single part has. -/
def PartHead.trees (h : PartHead) : List Tree :=
  [.bytes h.mediaType, .bytes h.subtype, PartHead.paramsTree h.params, .ofOption h.id,
    .ofOption h.description, .ofOption h.encoding, (h.size.map Tree.ofUInt64).getD .nil]

/-- The line count of a part, if it has one. -/
def Body.linesTrees (lines : Option UInt64) : List Tree := (lines.map Tree.ofUInt64).toList

mutual
/-- The shape of a value. -/
def Value.tree? : Value → Option Tree
  | .int n => some (.int n)
  | .bytes bs => some (.bytes bs)
  | .nil => some .nil
  | .group bracket items => (Value.treeAll? items).map (.group bracket)
  | .flags fs => some (.group .round (fs.map .bytes))
  | .stamp s => some (.bytes s.internalDate)
  | .envelope e => e.tree?
  | .address a => some a.tree
  | .body b => Body.tree? b

def Value.treeAll? : List Value → Option (List Tree)
  | [] => some []
  | v :: vs => do
    let t ← Value.tree? v
    let ts ← Value.treeAll? vs
    some (t :: ts)

/-- The shape of a body structure: the fields of a single part, or the parts of a multipart one with
    its subtype behind them, and then the extension data. -/
def Body.tree? : Body → Option Tree
  | .single head attached lines extension => do
    let message ← Attached.trees? attached
    let more ← Value.treeAll? extension
    some (.group .round (head.trees ++ message ++ Body.linesTrees lines ++ more))
  | .multipart parts subtype extension => do
    let parts ← Body.treeAll? parts
    let more ← Value.treeAll? extension
    some (.group .round (parts ++ .bytes subtype :: more))

def Body.treeAll? : List Body → Option (List Tree)
  | [] => some []
  | b :: bs => do
    let t ← Body.tree? b
    let ts ← Body.treeAll? bs
    some (t :: ts)

/-- The envelope and the structure of an attached message. -/
def Attached.trees? : Attached → Option (List Tree)
  | .none => some []
  | .message envelope body => do
    let e ← envelope.tree?
    let b ← Body.tree? body
    some [e, b]
end

mutual
/-- The list of fields that a body structure is on the wire, with its extension data as it is. -/
def Body.value? : Body → Option Value
  | .single head attached lines extension => do
    let message ← Attached.values? attached
    some (.group .round (Value.ofTrees head.trees ++ message
      ++ Value.ofTrees (Body.linesTrees lines) ++ extension))
  | .multipart parts subtype extension => do
    let parts ← Body.valueAll? parts
    some (.group .round (parts ++ .bytes subtype :: extension))

def Body.valueAll? : List Body → Option (List Value)
  | [] => some []
  | b :: bs => do
    let v ← Body.value? b
    let vs ← Body.valueAll? bs
    some (v :: vs)

/-- The envelope and the structure of an attached message. -/
def Attached.values? : Attached → Option (List Value)
  | .none => some []
  | .message envelope body => do
    let e ← envelope.tree?
    let b ← Body.value? body
    some [Value.ofTree e, b]
end

/-! ## Writing values -/

/-- A sequence of values as the lines of a response. -/
def Value.chunks? (vs : List Value) : Option (List Chunk) := (Value.treeAll? vs).map Tree.chunks

/-- A sequence of values as text. -/
def Value.render? (vs : List Value) : Option String := (Value.treeAll? vs).map Tree.render

end ImapWire
