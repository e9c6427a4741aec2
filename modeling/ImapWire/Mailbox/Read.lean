/-
  Reading what a server says about folders.

  Each reader takes the values behind the name of a response: for `* LIST () "/" INBOX` the three
  values behind `LIST`.
-/
import ImapWire.Mailbox
import ImapWire.Value.Field

namespace ImapWire

/-- A name as a key: its text, in capitals. -/
def keyOf (name : Bytes) : String := Text.upper name.text

/-! ## Searches -/

namespace SearchResult

/-- Is the name of the sequence of modifications. -/
def isModseq : Value → Bool
  | .bytes name => Bytes.sameName name (Bytes.ofString "MODSEQ")
  | _ => false

/-- A value of a search: the number of a message on the left, the sequence of modifications on the
    right. -/
def readItem (v : Value) : Result (UInt32 ⊕ UInt64) :=
  match v with
  | .int n => ((Value.int n).number32 "message id").map .inl
  | .group .round [name, n] =>
    if isModseq name then (n.number64 "MODSEQ").map .inr
    else .error (v.wrong "message list item")
  | other => .error (other.wrong "message list item")

/-- The values of a search; of several sequences of modifications the last one counts. -/
def read (vs : List Value) : Result SearchResult := do
  let items ← vs.mapM readItem
  .ok ⟨items.filterMap Sum.getLeft?, (items.filterMap Sum.getRight?).getLast?⟩

end SearchResult

/-! ## Lists of folders -/

namespace Folder

/-- Attributes, delimiter and name of a folder. -/
def readOne (flags delimiter name : Value) : Result Folder :=
  match flags with
  | .group .round flags => do
    let flags ← Value.strings "folder flag" flags
    let delimiter ← delimiter.nstring "folder delimiter"
    let name ← name.string "folder name"
    .ok ⟨flags, delimiter, name⟩
  | other => .error (other.wrong "folder flags")

/-- Folders one after the other. -/
def readList (vs : List Value) : Result (List Folder) :=
  if vs.length % 3 = 0 then
    (Value.tripleUp vs).mapM fun (flags, delimiter, name) => readOne flags delimiter name
  else .error (.near (.folderTriplets vs.length) vs)

end Folder

/-! ## Status -/

namespace FolderState

/-- A folder and the list of its status items. -/
def read (vs : List Value) : Result FolderState :=
  match vs with
  | [mailbox, .group .round items] => do
    let mailbox ← mailbox.string "mailbox name"
    let pairs ← Value.pairs "STATUS" items
    let entries ← pairs.mapM fun (name, value) => do
      let name ← name.string "status item"
      .ok (keyOf name, value)
    .ok ⟨mailbox, Table.ofList entries⟩
  | vs => .error (.near .statusShape vs)

end FolderState

/-! ## Quotas -/

namespace Quota

/-- The resources of a quota root. -/
def readRoot (root resources : Value) : Result (List Quota) := do
  let root ← root.string "quota root"
  match resources with
  | .group .round resources =>
    if resources.length % 3 = 0 then
      (Value.tripleUp resources).mapM fun (resource, usage, limit) => do
        let resource ← resource.string "quota resource"
        let usage ← usage.number64 "quota usage"
        let limit ← limit.number64 "quota limit"
        .ok { root, resource, usage, limit }
    else .error (.near .quotaTriplets resources)
  | other => .error (other.wrong "quota resource list")

/-- Quota roots with the lists of their resources. -/
def readAll (vs : List Value) : Result (List Quota) := do
  let pairs ← Value.pairs "QUOTA" vs
  let quotas ← pairs.mapM fun (root, resources) => readRoot root resources
  .ok quotas.flatten

end Quota

namespace QuotaRoots

/-- A folder and its quota roots. -/
def read (vs : List Value) : Result QuotaRoots :=
  match vs with
  | [] => .error (.parse 0 .noMailbox "")
  | mailbox :: roots => do
    let mailbox ← mailbox.string "mailbox name"
    let roots ← Value.strings "quota root" roots
    .ok { mailbox, roots }

end QuotaRoots

/-! ## Namespaces -/

namespace Namespace

/-- A namespace: a list of its start, its delimiter and more that is ignored. -/
def read (v : Value) : Result Namespace :=
  match v with
  | .group .round (start :: delimiter :: _) => do
    let start ← start.string "namespace prefix"
    let delimiter ← delimiter.nstring "namespace delimiter"
    .ok { start, delimiter }
  | other => .error (other.wrong "namespace entry")

/-- The namespaces of one sort: `NIL`, or a list of them. -/
def readGroup (v : Value) : Result (List Namespace) :=
  match v with
  | .nil => .ok []
  | .group .round entries => entries.mapM read
  | other => .error (other.wrong "namespace group")

end Namespace

namespace Namespaces

/-- The three sorts of namespace. -/
def read (vs : List Value) : Result Namespaces :=
  match vs with
  | [personal, other, shared] => do
    let personal ← Namespace.readGroup personal
    let other ← Namespace.readGroup other
    let shared ← Namespace.readGroup shared
    .ok { personal, other, shared }
  | vs => .error (.near (.namespaceGroups vs.length) vs)

end Namespaces
end ImapWire
