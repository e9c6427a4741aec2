/-
  Reading body structures.

  A list that starts with a list is a multipart structure: the lists in front are its parts, the
  next value is its subtype, and the rest is extension data.  Any other list is a single part: seven
  fields; for an attached message its envelope and its structure; for text and for an attached
  message a count of lines; and extension data.
-/
import ImapWire.Body
import ImapWire.Envelope.Read

namespace ImapWire.Body

/-- The parameters of a type: `NIL`, or a list of names and values. -/
def readParams (v : Value) : Result (List (Bytes × Bytes)) :=
  match v with
  | .nil => .ok []
  | .group .round items =>
    if items.length % 2 = 0 then
      (Value.pairUp items).mapM fun (name, value) => do
        let name ← name.string "parameter name"
        let value ← value.string "parameter value"
        .ok (name, value)
    else .error (v.wrong "body parameters")
  | other => .error (other.wrong "body parameters")

/-- The size of a part, if the server gives one. -/
def readSize (v : Value) : Result (Option UInt64) :=
  match v with
  | .nil => .ok none
  | other => (other.number64 "body size").map some

/-- The seven fields of a single part. -/
def readHead (mediaType subtype params id description encoding size : Value) : Result PartHead := do
  let mediaType ← mediaType.string "media type"
  let subtype ← subtype.string "media subtype"
  let params ← readParams params
  let id ← id.nstring "body id"
  let description ← description.nstring "body description"
  let encoding ← encoding.nstring "body encoding"
  let size ← readSize size
  .ok { mediaType, subtype, params, id, description, encoding, size }

/-- The end of a single part: the line count, where the part has one, and the extension data. -/
def readTail (head : PartHead) (attached : Attached) (rest : List Value) : Result Body :=
  let counted := head.isText || (match attached with
    | .none => false
    | .message .. => true)
  match rest with
  | .int n :: extension =>
    if counted then do
      let lines ← (Value.int n).number64 "body lines"
      .ok (.single head attached (some lines) extension)
    else .ok (.single head attached none rest)
  | _ => .ok (.single head attached none rest)

mutual
/-- A body structure. -/
def read (toUtc : Bool) : Value → Result Body
  | .group .round items =>
    if (items.head?.map Value.isList).getD false then
      match items.dropWhile Value.isList with
      | [] => .error (.near .noSubtype items)
      | subtype :: extension => do
        let parts ← readParts toUtc items
        let subtype ← subtype.string "multipart subtype"
        .ok (.multipart parts subtype extension)
    else
      match items with
      | mediaType :: subtype :: params :: id :: description :: encoding :: size :: rest => do
        let head ← readHead mediaType subtype params id description encoding size
        match rest with
        | envelope :: body :: tail =>
          if head.isMessage && envelope.isList && body.isList then do
            let envelope ← Envelope.read toUtc envelope
            let body ← read toUtc body
            readTail head (.message envelope body) tail
          else readTail head .none (envelope :: body :: tail)
        | rest => readTail head .none rest
      | items => .error (.near (.bodyFields items.length) items)
  | other => .error (other.wrong "body structure")

/-- The parts in front of the subtype. -/
def readParts (toUtc : Bool) : List Value → Result (List Body)
  | [] => .ok []
  | v :: rest =>
    if v.isList then do
      let part ← read toUtc v
      let parts ← readParts toUtc rest
      .ok (part :: parts)
    else .ok []
end

end ImapWire.Body
