/-
  Responses.

  A server sends three sorts of response: the completion of a command, which carries the command's
  tag; data of its own accord, marked by a star; and the request to go on, marked by a plus sign.

  Completions and conditions of the server carry a status, perhaps a code in square brackets, and
  text for people.  Other data has a name, in some responses behind a number, and values.
-/
import ImapWire.Fetch
import ImapWire.Mailbox
import ImapWire.MessageNumber
import ImapWire.Status
import ImapWire.Tag

namespace ImapWire

/-- The code of a status: a name in capitals, and values. -/
structure ResponseCode where
  name : String
  values : List Value

namespace ResponseCode

/-- Has a name, in any case. -/
def hasName (c : ResponseCode) (name : String) : Bool := Text.sameName c.name name

/-- The value, if it is one integer. -/
def int? (c : ResponseCode) : Option Int64 :=
  match c.values with
  | [.int n] => some n
  | _ => none

end ResponseCode

/-- What a server says of its own accord. -/
inductive ServerData
  /-- A condition of the server itself. -/
  | condition (status : Status) (code : Option ResponseCode) (text : String)
  /-- What the server can do, in capitals. -/
  | capability (names : List String)
  /-- The flags that messages of the folder can have. -/
  | flags (flags : List Bytes)
  | list (entry : Folder)
  | search (result : SearchResult)
  | folderState (result : FolderState)
  /-- How many messages the folder has. -/
  | messages (count : UInt32)
  /-- How many of them are recent. -/
  | recent (count : UInt32)
  /-- A message was removed. -/
  | expunge (seq : MessageNumber)
  | fetch (seq : MessageNumber) (record : FetchRecord)
  /-- Anything else: the number in front, the name in capitals, the values. -/
  | other (number : Option UInt32) (name : String) (values : List Value)

inductive Response
  | completion (tag : Tag) (status : Status) (code : Option ResponseCode) (text : String)
  | continuation (text : Option String)
  | data (data : ServerData)

/-- The name of some data. -/
def ServerData.name : ServerData → String
  | condition s _ _ => s.name
  | capability _ => "CAPABILITY"
  | flags _ => "FLAGS"
  | list _ => "LIST"
  | search _ => "SEARCH"
  | folderState _ => "STATUS"
  | messages _ => "EXISTS"
  | recent _ => "RECENT"
  | expunge _ => "EXPUNGE"
  | fetch _ _ => "FETCH"
  | other _ name _ => name

namespace Response

/-- What a response is known by: the tag, the name of the data, or a plus sign. -/
def name : Response → String
  | completion tag _ _ _ => tag.text
  | continuation _ => "+"
  | data d => d.name

/-- Completes the command of a tag. -/
def isTaggedWith (r : Response) (tag : String) : Bool :=
  match r with
  | completion t _ _ _ => t.text == tag
  | continuation _ | data _ => false

end Response
end ImapWire
