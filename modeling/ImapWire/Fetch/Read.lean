/-
  Reading fetch records.

  The items of a message come as one flat list, `UID 15 BODY [HEADER] {42}`.  An item is a name, a
  section and an origin that belong to its key, and its value (`FetchItem.first`).  The items that
  are understood (`FetchItem.convert`) have no section.

  The records of several messages come one after the other; the words around them, a star before the
  number and `FETCH` behind it, may be missing.  Records of the same key are merged.
-/
import ImapWire.Body.Read
import ImapWire.Fetch
import ImapWire.Mailbox.Read
import ImapWire.Options
import ImapWire.Tree.Nesting

namespace ImapWire

/-! ## One item -/

/-- An item of a message. -/
structure FetchItem where
  /-- The name, in capitals. -/
  name : String
  /-- The text of the section, in capitals. -/
  part : Option String
  /-- Where in the section the data starts, in angle brackets. -/
  origin : Option Bytes
  value : Value

namespace FetchItem

/-- The key of an item. -/
def keyText (name : String) (part : Option String) (origin : Option Bytes) : String :=
  match part with
  | none => name
  | some part => name ++ "[" ++ part ++ "]" ++ (origin.map Bytes.text).getD ""

def key (i : FetchItem) : String := keyText i.name i.part i.origin

/-- Says where in a section the data starts. -/
def isOrigin (bs : Bytes) : Bool :=
  2 < bs.length && bs.head? == some Bytes.less && bs.getLast? == some Bytes.greater

/-- The section in front of some values, and the values behind it. -/
def takePart : List Value → Option (List Value) × List Value
  | .group .square items :: rest => (some items, rest)
  | vs => (none, vs)

/-- The origin in front of some values, and the values behind it. -/
def takeOrigin : List Value → Option Bytes × List Value
  | .bytes bs :: rest => if isOrigin bs then (some bs, rest) else (none, .bytes bs :: rest)
  | vs => (none, vs)

/-- The text of a section, in capitals. -/
def partText (items : List Value) : Result String :=
  match Value.render? items with
  | some text => .ok (Text.upper text)
  | none => .error .unwritable

/-- The first item of a list, and the values behind it; `whole` is the whole list, for messages. -/
def first (whole : List Tree) (name : Value) (rest : List Value) : Result (FetchItem × List Value) :=
  match name with
  | .bytes name => do
    let (items, rest) := takePart rest
    let part ← match items with
      | none => .ok none
      | some items => (partText items).map some
    let (origin, rest) := if part.isSome then takeOrigin rest else (none, rest)
    match rest with
    | [] => .error (.parse 0 (.noItemValue (keyText (keyOf name) part origin)) (Tree.render whole))
    | value :: rest => .ok (⟨keyOf name, part, origin, value⟩, rest)
  | other => .error (.parse 0 (.itemName other.kind) (Tree.render whole))

theorem length_takePart_le (vs : List Value) : (takePart vs).2.length ≤ vs.length := by
  unfold takePart; split <;> simp

theorem length_takeOrigin_le (vs : List Value) : (takeOrigin vs).2.length ≤ vs.length := by
  unfold takeOrigin; split
  · split <;> simp
  · simp

/-- An item uses up at least its name and its value. -/
theorem length_first_le {whole : List Tree} {name : Value} {vs rest : List Value} {i : FetchItem}
    (h : first whole name vs = .ok (i, rest)) : rest.length ≤ vs.length := by
  have hpart := length_takePart_le vs
  have horigin := length_takeOrigin_le (takePart vs).2
  unfold first at h
  split at h
  · cases hp : (takePart vs).1 with
    | none =>
      simp only [hp, bind, Except.bind] at h
      simp at h
      split at h
      · cases h
      · next hr => cases h; rw [hr] at hpart; simp at hpart; omega
    | some items =>
      simp only [hp, bind, Except.bind] at h
      cases ht : partText items with
      | error e => simp [ht, Except.map] at h
      | ok text =>
        simp [ht, Except.map] at h
        split at h
        · cases h
        · next hr => cases h; rw [hr] at horigin; simp at horigin; omega
  · cases h

/-! ## Items that are understood -/

/-- Flags or labels: a list of byte strings, or `NIL` for none. -/
def readFlags (v : Value) : Result Value :=
  match v with
  | .group .round items => (Value.strings "flag" items).map .flags
  | .nil => .ok (.flags [])
  | other => .error (other.wrong "flag list")

/-- The UID of a message, a number of 32 bits. -/
def readUid (v : Value) : Result Value :=
  match v with
  | .int n => ((Value.int n).number32 "UID").map fun _ => .int n
  | other => .error (other.wrong "UID")

/-- The date of arrival; anything that is no readable date is `NIL`. -/
def readInternalDate (toUtc : Bool) (v : Value) : Value :=
  match v with
  | .bytes text => ((Stamp.read? text toUtc).map Value.stamp).getD .nil
  | _ => .nil

/-- The value of an item without a section, as far as items of its name are understood. -/
def convert (toUtc : Bool) (name : String) (v : Value) : Result Value :=
  if name = "UID" then readUid v
  else if name = "INTERNALDATE" then .ok (readInternalDate toUtc v)
  else if name = "ENVELOPE" then (Envelope.read toUtc v).map .envelope
  else if name = "BODY" ∨ name = "BODYSTRUCTURE" then (Body.read toUtc v).map .body
  else if name = "FLAGS" ∨ name = "X-GM-LABELS" then readFlags v
  else .ok v

/-- The value that is kept of an item. -/
def converted (toUtc : Bool) (i : FetchItem) : Result Value :=
  match i.part with
  | none => convert toUtc i.name i.value
  | some _ => .ok i.value

end FetchItem

/-! ## One message -/

namespace FetchRecord

/-- Reads the items of a list into a table; `whole` is the whole list, for messages. -/
def readItems (whole : List Tree) (toUtc : Bool) (items : Table String Value) :
    List Value → Result (Table String Value)
  | [] => .ok items
  | name :: rest =>
    match _h : FetchItem.first whole name rest with
    | .error e => .error e
    | .ok (item, behind) => do
      let value ← item.converted toUtc
      readItems whole toUtc (items.insert item.key value) behind
termination_by vs => vs.length
decreasing_by
  have := FetchItem.length_first_le _h
  simp only [List.length_cons]
  omega

/-- Reads the items of a message. -/
def read (seq : UInt32) (vs : List Value) (options : Options) : Result FetchRecord :=
  match Value.treeAll? vs with
  | none => .error .unwritable
  | some whole => (readItems whole options.toUtc Table.empty vs).map fun items => ⟨seq, items⟩

/-- The key that a record is kept under. -/
def key (options : Options) (r : FetchRecord) : UInt32 :=
  if options.keyByUid then r.uid?.getD r.seq else r.seq

/-- Takes a record among others in: merged into the earlier one of its key, if there is one. -/
def collect (options : Options) (rs : Table UInt32 FetchRecord) (r : FetchRecord) :
    Table UInt32 FetchRecord :=
  match rs.get? (r.key options) with
  | none => rs.insert (r.key options) r
  | some earlier => rs.insert (r.key options) (earlier.merge r)

/-! ## Several messages -/

/-- Without the star in front of a number. -/
def dropStar : List Value → List Value
  | .bytes bs :: rest => if bs = [Bytes.star] then rest else .bytes bs :: rest
  | vs => vs

/-- Without the name of the response behind a number. -/
def dropName : List Value → List Value
  | .bytes bs :: rest =>
    if Bytes.sameName bs (Bytes.ofString "FETCH") then rest else .bytes bs :: rest
  | vs => vs

theorem length_dropStar_le (vs : List Value) : (dropStar vs).length ≤ vs.length := by
  unfold dropStar; split
  · split <;> simp
  · simp

theorem length_dropName_le (vs : List Value) : (dropName vs).length ≤ vs.length := by
  unfold dropName; split
  · split <;> simp
  · simp

/-- Reads the messages of a sequence of values, taking each in among those before it. -/
def readMessages (options : Options) (rs : Table UInt32 FetchRecord) (vs : List Value) :
    Result (Table UInt32 FetchRecord) :=
  match _hstar : dropStar vs with
  | [] => .ok rs
  | seq :: rest => do
    let seq ← seq.number32 "message id"
    match _hname : dropName rest with
    | .group .round items :: behind => do
      let r ← read seq items options
      readMessages options (collect options rs r) behind
    | other :: _ => .error (other.wrong "FETCH item list")
    | [] => .error (.parse 0 .endOfFetch (toString seq.toNat))
termination_by vs.length
decreasing_by
  have h1 := length_dropStar_le vs
  have h2 := length_dropName_le rest
  rw [_hstar] at h1
  rw [_hname] at h2
  simp only [List.length_cons] at h1 h2
  omega

/-- The messages of a response, or of several responses one after the other. -/
def parseAll (chunks : List Chunk) (options : Options) : Result (Table UInt32 FetchRecord) := do
  let trees ← Tree.parse chunks
  readMessages options Table.empty (Value.ofTrees trees)

end FetchRecord
end ImapWire
