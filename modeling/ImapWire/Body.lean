/-
  Body structures: what a reader of mail asks them.

  The structure of a message is a tree of parts.  An attached message has a structure of its own,
  which is not part of this tree: `nodes` does not enter it.
-/
import ImapWire.Text.Case
import ImapWire.Value

namespace ImapWire

namespace PartHead

/-- Is text of any subtype. -/
def isText (h : PartHead) : Bool := Bytes.sameName h.mediaType (Bytes.ofString "TEXT")

/-- Is an attached message. -/
def isMessage (h : PartHead) : Bool :=
  Bytes.sameName h.mediaType (Bytes.ofString "MESSAGE")
    && Bytes.sameName h.subtype (Bytes.ofString "RFC822")

/-- The first parameter of a name, in any case. -/
def param? (h : PartHead) (name : String) : Option Bytes :=
  (h.params.find? fun p => Bytes.sameName p.1 (Bytes.ofString name)).map (·.2)

end PartHead

namespace Body

def isMultipart : Body → Bool
  | multipart .. => true
  | single .. => false

/-- The parts of a multipart structure; a single part has none. -/
def parts : Body → List Body
  | multipart parts _ _ => parts
  | single .. => []

/-- The fields of a single part. -/
def head? : Body → Option PartHead
  | multipart .. => none
  | single head _ _ _ => some head

/-- Type and subtype, in small letters. -/
def mimeType : Body → String
  | multipart _ subtype _ => Text.lower ("multipart/" ++ subtype.text)
  | single head _ _ _ => Text.lower (head.mediaType.text ++ "/" ++ head.subtype.text)

mutual
/-- A structure and all its parts, each before its own parts. -/
def nodes : Body → List Body
  | multipart parts subtype extension =>
    multipart parts subtype extension :: nodesAll parts
  | single head attached lines extension => [single head attached lines extension]

def nodesAll : List Body → List Body
  | [] => []
  | b :: bs => nodes b ++ nodesAll bs
end

end Body
end ImapWire
