/-
  From tokens to trees.

  The tokens are read once, from left to right.  What is kept is a stack: the groups that are open,
  innermost first, each with what its parent holds so far (`Frame`), and the items of the innermost
  one (`Nest`).  A bracket that opens pushes, a bracket that closes pops and gives its group to the
  parent, every other token is a leaf.

  A token is refused only where no continuation could make the input right:

    * a closing bracket with no open group, or of the other kind than the innermost one;
    * an opening bracket where `maxDepth` groups are open already.

  At the end every group must be closed.  A failure carries the number of tokens read, the refused
  one included.
-/
import ImapWire.Token.Cursor
import ImapWire.Tree.Layout

namespace ImapWire

/-- How deep groups may nest. -/
def maxDepth : Nat := 256

/-- An open group, and what its parent holds so far, latest first. -/
structure Frame where
  bracket : Bracket
  outer : List Tree
  deriving DecidableEq, Repr

/-- The items of the innermost open group (or of the whole input), latest first, and the open
    groups, innermost first. -/
structure Nest where
  items : List Tree
  frames : List Frame
  deriving DecidableEq, Repr

namespace Nest

/-- Nothing is read. -/
def empty : Nest := ⟨[], []⟩

/-- One more item in the innermost group. -/
def add (s : Nest) (t : Tree) : Nest := { s with items := t :: s.items }

/-- What the innermost group holds so far, as text behind its bracket. -/
def context (s : Nest) : String :=
  match s.frames with
  | [] => Tree.render s.items.reverse
  | f :: _ => f.bracket.openText ++ Tree.render s.items.reverse

/-- One token; a refused one gives its cause and the text of what stands before it. -/
def step (s : Nest) : Token → Except (Cause × String) Nest
  | .atom bs => .ok (s.add (Tree.ofAtom bs))
  | .quoted bs | .literal bs => .ok (s.add (.bytes bs))
  | .opening b =>
    if s.frames.length < maxDepth then .ok ⟨[], ⟨b, s.items⟩ :: s.frames⟩
    else .error (.tooDeep, "")
  | .closing b =>
    match s.frames with
    | [] => .error (.strayClose b, s.context)
    | f :: frames =>
      if b = f.bracket then .ok ⟨.group b s.items.reverse :: f.outer, frames⟩
      else .error (.mismatch b f.bracket, s.context)

/-- The trees, once every group is closed. -/
def finish (s : Nest) : Except (Cause × String) (List Tree) :=
  match s.frames with
  | [] => .ok s.items.reverse
  | f :: _ => .error (.unterminated f.bracket, s.context)

/-- Reads the tokens after the first `count`.  A token that could not be read counts only when all
    before it are accepted. -/
def run (count : Nat) (s : Nest) : List Token → Option LexFault → Result (List Tree)
  | [], some fault => .error (.lex fault)
  | [], none => s.finish.mapError fun (cause, context) => .parse count cause context
  | t :: ts, fault =>
    match s.step t with
    | .ok s' => run (count + 1) s' ts fault
    | .error (cause, context) => .error (.parse (count + 1) cause context)

end Nest

namespace Tree

/-- The trees of scanned tokens. -/
def ofScan (s : Cursor.Scan) : Result (List Tree) := Nest.run 0 Nest.empty s.tokens s.fault

/-- The trees of a response without the first `offset` bytes of its first line. -/
def parseFrom (chunks : List Chunk) (offset : Nat) : Result (List Tree) :=
  ofScan (Cursor.startAt chunks offset).scan

/-- The trees of a response. -/
def parse (chunks : List Chunk) : Result (List Tree) := parseFrom chunks 0

end Tree
end ImapWire
