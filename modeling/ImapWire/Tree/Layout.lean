/-
  Writing trees.

  A tree is written as a run of pieces: bytes that go on the line, and literals, which end it.  Each
  byte string takes the plainest spelling that is read back as itself:

    * bare, if it is a word that means itself (`isBare`);
    * as a literal, if it holds a byte that no line may hold;
    * in quotes otherwise.

  `chunks` lays the pieces out: a literal ends its line with its marker, and what follows starts the
  next line.  A line that would stay empty at the end is left out, unless it is the only one.
-/
import ImapWire.Chunk
import ImapWire.Text.Utf8
import ImapWire.Token.Quoted
import ImapWire.Tree

namespace ImapWire

/-- A part of a written tree. -/
inductive Piece
  | text (bytes : Bytes)
  | literal (bytes : Bytes)
  deriving DecidableEq, Repr

namespace Piece

/-- Can be written as a bare word and means itself there: it is not empty, not `NIL`, has not the
    shape of an integer, and holds only printable bytes that neither delimit nor open a marker. -/
def isBare (bs : Bytes) : Bool :=
  !bs.isEmpty && !Bytes.sameName bs Tree.nilWord && !Decimal.isCanonical bs &&
    bs.all fun b => Bytes.isGraphic b && !Bytes.isDelimiter b && b != Bytes.openBrace

/-- A byte string in its plainest spelling. -/
def ofBytes (bs : Bytes) : Piece :=
  if isBare bs then text bs
  else if bs.any Bytes.needsLiteral then literal bs
  else text (Quoted.write bs)

end Piece

namespace Tree

mutual
/-- The pieces of a tree, in front of those that stand behind it. -/
def pieces : Tree → List Piece → List Piece
  | int n, behind => .text (Decimal.ofInt n.toInt) :: behind
  | bytes bs, behind => Piece.ofBytes bs :: behind
  | nil, behind => .text nilWord :: behind
  | group bracket items, behind =>
    .text [bracket.opens] :: piecesAll items (.text [bracket.closes] :: behind)

/-- The pieces of a sequence of trees, with a space between two of them, in front of those that
    stand behind it. -/
def piecesAll : List Tree → List Piece → List Piece
  | [], behind => behind
  | t :: ts, behind =>
    pieces t (if ts.isEmpty then behind else .text [Bytes.space] :: piecesAll ts behind)
end

mutual
/-- What stands behind a tree has no part in its pieces. -/
theorem pieces_append (t : Tree) (a b : List Piece) : pieces t (a ++ b) = pieces t a ++ b := by
  cases t with
  | group bracket items =>
    simp only [pieces, List.cons_append]
    rw [← List.cons_append, piecesAll_append]
  | _ => simp [pieces]

theorem piecesAll_append (ts : List Tree) (a b : List Piece) :
    piecesAll ts (a ++ b) = piecesAll ts a ++ b := by
  cases ts with
  | nil => rfl
  | cons t ts =>
    simp only [piecesAll]
    split
    · exact pieces_append t a b
    · rw [piecesAll_append, ← List.cons_append, pieces_append]
end

/-- The lines that pieces make up: the first one and those after it. -/
def lines : List Piece → Chunk × List Chunk
  | [] => (.plain [], [])
  | .text bs :: rest =>
    let (c, cs) := lines rest
    (⟨bs ++ c.line, c.literal⟩, cs)
  | .literal bs :: rest =>
    let (c, cs) := lines rest
    (⟨Marker.ofLength bs.length, some bs⟩, c :: cs)

/-- Leaves out an empty line at the end of several. -/
def trimLines : Chunk × List Chunk → List Chunk
  | (c, cs) => c :: (if cs.getLast? = some (.plain []) then cs.dropLast else cs)

/-- A sequence of trees as the lines of a response. -/
def chunks (ts : List Tree) : List Chunk := trimLines (lines (piecesAll ts []))

/-- A chunk as one run of bytes: a literal follows its line behind a line end, and no line end
    follows the literal or a line without one. -/
def inlined (c : Chunk) : Bytes :=
  c.line ++ (match c.literal with
    | none => []
    | some literal => lineEnd ++ literal)

/-- A sequence of trees as text, for messages and keys. -/
def render (ts : List Tree) : String := Bytes.text ((chunks ts).flatMap inlined)

end Tree
end ImapWire
