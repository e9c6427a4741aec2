/-
  Reading responses.

  The first word of a response says which sort it is.  Completions, conditions and requests to go on
  are text: they are read from the line alone, must be its only chunk, and only the code in their
  brackets is read as a tree.  Any other response is read as trees from behind its name on, and its
  values are read as the record that its name promises.
-/
import ImapWire.Fetch.Read
import ImapWire.Response
import ImapWire.Response.Line

namespace ImapWire

namespace Response

/-- A response that is text must be one chunk; `line` is its first line. -/
def oneChunk (chunks : List Chunk) (line : Bytes) : Result Unit :=
  if chunks.length = 1 then .ok ()
  else .error (.parse 0 (.literalInText chunks.length) line.escaped)

/-- The code in the brackets of a line: a name and values. -/
def readCode (code line : Bytes) : Result ResponseCode := do
  let trees ← Tree.parse [.plain code]
  match Value.ofTrees trees with
  | [] => .error (.parse 0 .emptyCode line.escaped)
  | name :: values => do
    let name ← name.string "response code"
    .ok ⟨keyOf name, values⟩

/-- What stands behind a status: perhaps a code, and text. -/
def readText (line : Bytes) (p : Place) : Result (Option ResponseCode × String) :=
  let p := p.skipSpaces
  if p.rest.head? = some Bytes.openSquare then
    match codeOf? p.rest with
    | none => .error (.parse 0 .unterminatedCode line.escaped)
    | some (code, behind) => do
      let code ← readCode code line
      .ok (some code, Place.text ⟨p.pos, behind⟩)
  else .ok (none, p.text)

/-- A completion: the status and what stands behind it. -/
def readCompletion (tag line : Bytes) (p : Place) : Result Response :=
  let (word, p) := p.word
  match Status.ofWord? word with
  | none => .error (.parse 0 (.invalidStatus word) line.escaped)
  | some status => do
    let (code, text) ← readText line p
    .ok (.completion (Tag.ofWord tag) status code text)

end Response

namespace ServerData

/-- The values of a response from a place of its first line on. -/
def valuesFrom (chunks : List Chunk) (p : Place) : Result (List Value) := do
  let trees ← Tree.parseFrom chunks p.pos
  .ok (Value.ofTrees trees)

/-- The list of items of one message. -/
def readFetch (options : Options) (seq : MessageNumber) (values : List Value) : Result ServerData :=
  match values with
  | [.group .round items] => do
    let record ← FetchRecord.read seq.number items options
    .ok (fetch seq record)
  | [v] => .error (v.wrong "FETCH item list")
  | _ => .error (.parse 0 .oneItemList "")

/-- Data of a name that stands behind a number. -/
def readNumbered (options : Options) (number : UInt32) (name : String) (values : List Value) :
    Result ServerData :=
  if name = "EXISTS" then .ok (messages number)
  else if name = "RECENT" then .ok (recent number)
  else if name = "EXPUNGE" then (MessageNumber.ofNumber number).map expunge
  else if name = "FETCH" then do
    let seq ← MessageNumber.ofNumber number
    readFetch options seq values
  else .ok (other (some number) name values)

/-- Data of a name without a number; `line` is the first line of the response. -/
def readNamed (line : Bytes) (name : String) (values : List Value) : Result ServerData :=
  if name = "CAPABILITY" then do
    let names ← Value.strings "capability" values
    .ok (capability (names.map keyOf))
  else if name = "FLAGS" then
    match values with
    | [.group .round fs] => (Value.strings "flag" fs).map flags
    | _ => .error (.parse 0 .oneFlagList line.escaped)
  else if name = "LIST" ∨ name = "LSUB" ∨ name = "XLIST" then do
    let entries ← Folder.readList values
    match entries with
    | [entry] => .ok (list entry)
    | _ => .error (.parse 0 (.oneEntry name) line.escaped)
  else if name = "SEARCH" ∨ name = "SORT" then (SearchResult.read values).map search
  else if name = "STATUS" then (FolderState.read values).map folderState
  else .ok (other none name values)

/-- The number of 32 bits that a word is, if it is the canonical text of one. -/
def number? (word : Bytes) : Option UInt32 :=
  (if Decimal.isPlain word then Decimal.natBelow? UInt32.size word else none).map UInt32.ofNat

/-- Data of the server: what stands behind the star. -/
def read (options : Options) (chunks : List Chunk) (line : Bytes) (p : Place) :
    Result ServerData :=
  let (word, p) := p.word
  match number? word with
  | some number => do
    let (name, p) := p.word
    let values ← valuesFrom chunks p
    readNumbered options number (keyOf name) values
  | none =>
    match Status.ofWord? word with
    | some status => do
      Response.oneChunk chunks line
      let (code, text) ← Response.readText line p
      .ok (condition status code text)
    | none => do
      let values ← valuesFrom chunks p
      readNamed line (keyOf word) values

end ServerData

namespace Response

/-- Reads a response.  The text of a request to go on stands behind the first byte of the line. -/
def parse (options : Options) (chunks : List Chunk) : Result Response :=
  match chunks with
  | [] => .error (.parse 0 .emptyResponse "")
  | first :: _ =>
    let line := first.line
    let (word, p) := (Place.ofLine line 0).word
    if word.isEmpty then .error (.parse 0 .emptyResponse "")
    else if word.head? = some Bytes.plus then do
      oneChunk chunks line
      let text := (Place.ofLine line 1).text
      .ok (.continuation (if text.isEmpty then none else some text))
    else if word = [Bytes.star] then (ServerData.read options chunks line p).map .data
    else do
      oneChunk chunks line
      readCompletion word line p

end Response
end ImapWire
