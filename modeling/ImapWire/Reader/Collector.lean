/-
  Collecting the responses to a command.

  A command is over when a response comes that starts with its tag.  Until then the server sends
  data, which belongs to the command's result: a `Collector` keeps it.  If reading fails on the way,
  what was collected stays in the collector and starts the next result.
-/
import ImapWire.Reader
import ImapWire.Tag

namespace ImapWire

/-- The tag of a command, and the responses collected for it so far, latest first. -/
structure Collector where
  tag : Tag
  latest : List (List Chunk)
  deriving DecidableEq, Repr

namespace Collector

/-- Nothing is collected yet. -/
def ofTag (tag : Tag) : Collector := ⟨tag, []⟩

/-- The responses collected so far, in the order in which they came. -/
def responses (c : Collector) : List (List Chunk) := c.latest.reverse

/-- The response starts with the tag. -/
def isCompletedBy (c : Collector) (response : List Chunk) : Bool :=
  match response with
  | [] => false
  | first :: _ => c.tag.starts first.line

/-- Reads responses up to the one that starts with the tag, and gives all that were collected. -/
def readUntilTagged (c : Collector) (r : Reader) :
    Result (List (List Chunk)) × Collector × Reader :=
  match _h : r.readResponse with
  | (.error e, r) => (.error e, c, r)
  | (.ok response, r) =>
    let latest := response :: c.latest
    if c.isCompletedBy response then (.ok latest.reverse, { c with latest := [] }, r)
    else readUntilTagged { c with latest } r
termination_by r.weight
decreasing_by exact Reader.readResponse_weight_lt _h

end Collector
end ImapWire
