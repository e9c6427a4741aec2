/-
  What a server says about folders: lists of them, their status, the messages found in them, and the
  quotas and namespaces that they are under.
-/
import ImapWire.Table
import ImapWire.Text.Case
import ImapWire.Value

namespace ImapWire

/-! ## Folders -/

/-- A folder of a list. -/
structure Folder where
  /-- Its attributes, such as `\HasNoChildren`. -/
  flags : List Bytes
  /-- What stands between the levels of its name, if the names have levels. -/
  delimiter : Option Bytes
  name : Bytes
  deriving DecidableEq, Repr

namespace Folder

/-- Has an attribute, in any case. -/
def hasFlag (f : Folder) (flag : String) : Bool :=
  f.flags.any fun g => Bytes.sameName g (Bytes.ofString flag)

/-- Can be opened. -/
def isSelectable (f : Folder) : Bool := !f.hasFlag "\\NoSelect"

end Folder

/-- The status of a folder: values by name, the names in capitals. -/
structure FolderState where
  mailbox : Bytes
  items : Table String Value

/-- The integer of a name, in any case. -/
def FolderState.int? (s : FolderState) (name : String) : Option Int64 :=
  (s.items.get? (Text.upper name)).bind Value.int?

/-! ## Messages -/

/-- The messages that a search found. -/
structure SearchResult where
  /-- In the server's order. -/
  ids : List UInt32
  /-- The highest sequence of modifications among them, if the server gives it. -/
  modseq : Option UInt64
  deriving DecidableEq, Repr

/-! ## Quotas and namespaces -/

/-- How much of a resource is used, and how much may be. -/
structure Quota where
  root : Bytes
  resource : Bytes
  usage : UInt64
  limit : UInt64
  deriving DecidableEq, Repr

/-- The quota roots that a folder is under. -/
structure QuotaRoots where
  mailbox : Bytes
  roots : List Bytes
  deriving DecidableEq, Repr

/-- A namespace: what its names start with, and what stands between their levels. -/
structure Namespace where
  start : Bytes
  delimiter : Option Bytes
  deriving DecidableEq, Repr

/-- The three sorts of namespace. -/
structure Namespaces where
  personal : List Namespace
  other : List Namespace
  shared : List Namespace
  deriving DecidableEq, Repr

end ImapWire
