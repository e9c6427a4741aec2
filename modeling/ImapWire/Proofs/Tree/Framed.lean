/-
  Written trees are responses.

  The writer lays a tree out in chunks, and the stream reader cuts a response into chunks.  Nothing
  tells them of each other but the bytes of the lines, and the reader looks at these only from their
  ends.  This file says that they agree: what the writer lays out is a response that the reader
  takes as it is (`Tree.framed_chunks`).

  1. **No line breaks.**  A byte that a line may not hold makes its whole byte string a literal, so
     no line holds a CR, an LF or a NUL (`Bytes.Clean`).

  2. **A line announces what follows it.**  Its last word is the only one that could announce
     anything, and the words in front of it make no difference: each ends at a delimiter, and a
     quoted string ends at its quote, whatever braces it holds.  If the last word is the marker of a
     literal, its length is announced; any other word is no marker.

  Both are carried from the last piece to the first (`Sendable`), as the tokens of the pieces were
  (`Laid`), but with the empty line kept that follows a literal at the very end.  `Tree.chunks`
  leaves that line out; on a stream it has to be there, since a response does not end with a literal
  (`Response.closed`).  The tokens are the same with it (`Tree.parse_closed`).
-/
import ImapWire.Proofs.Reader.Exact
import ImapWire.Proofs.Token.Announced
import ImapWire.Proofs.Token.Joined
import ImapWire.Proofs.Tree.Spelling

namespace ImapWire

open Bytes (isDelimiter needsLiteral Unbroken)
open Response (Framed)

/-! ## Bytes that a line may hold -/

/-- Can stand on a line: holds no CR, no LF and no NUL. -/
def Bytes.Clean (bs : Bytes) : Prop := ∀ b ∈ bs, needsLiteral b = false

instance (bs : Bytes) : Decidable bs.Clean :=
  inferInstanceAs (Decidable (∀ b ∈ bs, needsLiteral b = false))

namespace Bytes

/-- A class without these three bytes is clean. -/
theorem needsLiteral_eq_false {p : UInt8 → Bool} (hcr : p cr = false) (hlf : p lf = false)
    (hnul : p 0 = false) {b : UInt8} (h : p b = true) : needsLiteral b = false := by
  cases hneeds : needsLiteral b with
  | false => rfl
  | true =>
    simp only [needsLiteral, Bool.or_eq_true, beq_iff_eq] at hneeds
    rcases hneeds with (rfl | rfl) | rfl
    · rw [hcr] at h
      cases h
    · rw [hlf] at h
      cases h
    · rw [hnul] at h
      cases h

theorem clean_singleton {b : UInt8} (h : needsLiteral b = false) : Clean [b] := by
  intro c hc
  rw [List.mem_singleton.1 hc]
  exact h

theorem Clean.append {a b : Bytes} (ha : Clean a) (hb : Clean b) : Clean (a ++ b) := by
  intro c hc
  rcases List.mem_append.1 hc with hc | hc
  · exact ha c hc
  · exact hb c hc

theorem Clean.unbroken {bs : Bytes} (h : Clean bs) : Unbroken bs := by
  intro hend
  have hcr : needsLiteral cr = false := h cr (hend.subset List.mem_cons_self)
  cases hcr

end Bytes

open Bytes (Clean)

namespace Decimal

theorem clean_digits (n : Nat) : Clean (digits n) := by
  intro b hb
  have hdigit := List.all_eq_true.1 (all_isDigit_digits n) b hb
  exact Bytes.needsLiteral_eq_false rfl rfl rfl hdigit

theorem clean_ofInt (n : Int) : Clean (ofInt n) := by
  intro b hb
  rcases mem_ofInt hb with rfl | hdigit
  · rfl
  · exact Bytes.needsLiteral_eq_false rfl rfl rfl hdigit

end Decimal

theorem Piece.clean_of_isBare {bs : Bytes} (h : isBare bs = true) : Clean bs := by
  simp only [isBare, Bool.and_eq_true, List.all_eq_true] at h
  intro b hb
  exact Bytes.needsLiteral_eq_false rfl rfl rfl (h.2 b hb).1.1

theorem Tree.clean_nilWord : Clean nilWord := by
  have hall : nilWord.all (fun b => !needsLiteral b) = true := by decide
  intro b hb
  simpa using List.all_eq_true.1 hall b hb

/-- Quotes and backslashes may stand on a line. -/
theorem Quoted.clean_write {bs : Bytes} (h : Clean bs) : Clean (write bs) := by
  have hprotect : Clean (protect bs) := by
    induction bs with
    | nil => exact h
    | cons b bs ih =>
      have hb : Clean [b] := Bytes.clean_singleton (h b List.mem_cons_self)
      have hrest : Clean (protect bs) := ih fun c hc => h c (List.mem_cons_of_mem b hc)
      unfold protect
      split
      · exact (Bytes.clean_singleton rfl : Clean [Bytes.backslash]).append (hb.append hrest)
      · exact hb.append hrest
  have hquote : Clean [Bytes.quote] := Bytes.clean_singleton rfl
  exact (hquote.append hprotect).append hquote

/-! ## Markers -/

namespace Marker

theorem clean_ofLength (n : Nat) : Clean (ofLength n) := by
  have hopen : Clean [Bytes.openBrace] := Bytes.clean_singleton rfl
  have hclose : Clean [Bytes.closeBrace] := Bytes.clean_singleton rfl
  exact (hopen.append (Decimal.clean_digits n)).append hclose

/-- A marker at the end of its line announces its length. -/
theorem announced?_ofLength {n : Nat} (h : n < UInt64.size) : announced? (ofLength n) = some n := by
  have hcut : Cut [] := by
    intro b hb
    cases hb
  have hrun := announced?_run (not_delimiter_ofLength n) hcut
  rw [List.append_nil, inner?_ofLength] at hrun
  exact hrun.trans (Decimal.natBelow?_digits h)

end Marker

/-- An atom that is no marker does not change what the line announces. -/
theorem announced?_atom {run after : Bytes} (hrun : IsRun run) (hcut : Cut after) :
    announced? (run ++ after) = announced? after := by
  rw [announced?_run hrun.not_delimiter hcut]
  split
  · next hblanks =>
    rw [hrun.not_marker, announced?_blanks (List.all_eq_true.1 hblanks)]
    rfl
  · rfl

/-- Nor does a quoted string, whatever is in it. -/
theorem announced?_quoted (bs after : Bytes) :
    announced? (Quoted.write bs ++ after) = announced? after := by
  have hsplit : Quoted.write bs ++ after
      = (Bytes.quote :: Quoted.protect bs) ++ Bytes.quote :: after := by simp [Quoted.write]
  rw [hsplit]
  exact announced?_append_cons rfl rfl _ after

/-! ## Pieces laid out in front of others -/

/-- The lines that pieces make up, with an empty one at the end. -/
def Tree.response (ps : List Piece) : List Chunk := (Tree.lines ps).1 :: (Tree.lines ps).2

/-- Text in front of the first line of a response, if it does not change what is announced. -/
theorem Response.Framed.prepend {c : Chunk} {cs : List Chunk} (h : Framed (c :: cs)) {bs : Bytes}
    (hsame : announced? (bs ++ c.line) = announced? c.line) (hline : Unbroken (bs ++ c.line)) :
    Framed (⟨bs ++ c.line, c.literal⟩ :: cs) := by
  cases h with
  | last hnone _ => exact .last (hsame.trans hnone) hline
  | literal hsome _ hrest => exact .literal (hsame.trans hsome) hline hrest

/-- The pieces make up a response, and none of its lines holds a byte that needs a literal. -/
structure Sendable (ps : List Piece) : Prop where
  framed : Framed (Tree.response ps)
  clean : ∀ c ∈ Tree.response ps, Clean c.line

namespace Sendable

open ImapWire.Tree (lines response)

variable {ps : List Piece}

theorem nil : Sendable [] := by
  have hempty : Clean ([] : Bytes) := by
    intro b hb
    cases hb
  refine ⟨.last rfl hempty.unbroken, ?_⟩
  intro c hc
  rw [List.mem_singleton.1 hc]
  exact hempty

/-- A text goes in front of the first line. -/
theorem text {bs : Bytes} (h : Sendable ps) (hbs : Clean bs)
    (hsame : announced? (bs ++ (lines ps).1.line) = announced? (lines ps).1.line) :
    Sendable (.text bs :: ps) := by
  obtain ⟨hfirst, hlater⟩ := List.forall_mem_cons.1 h.clean
  have hline : Clean (bs ++ (lines ps).1.line) := hbs.append hfirst
  exact ⟨h.framed.prepend hsame hline.unbroken, List.forall_mem_cons.2 ⟨hline, hlater⟩⟩

theorem delimiter {d : UInt8} (hd : isDelimiter d = true) (hclean : needsLiteral d = false)
    (h : Sendable ps) : Sendable (.text [d] :: ps) :=
  text h (Bytes.clean_singleton hclean) (announced?_cons hd _)

theorem quoted {bs : Bytes} (hbs : Clean bs) (h : Sendable ps) :
    Sendable (.text (Quoted.write bs) :: ps) :=
  text h (Quoted.clean_write hbs) (announced?_quoted bs _)

theorem atom {run : Bytes} (hrun : IsRun run) (hclean : Clean run) (hsep : Separate ps)
    (h : Sendable ps) : Sendable (.text run :: ps) :=
  text h hclean (announced?_atom hrun hsep)

/-- A literal makes a line of its marker, and is announced there. -/
theorem literal {bs : Bytes} (hbs : bs.Fits) (h : Sendable ps) : Sendable (.literal bs :: ps) := by
  have hline : Clean (Marker.ofLength bs.length) := Marker.clean_ofLength _
  exact ⟨.literal (Marker.announced?_ofLength hbs) hline.unbroken h.framed,
    List.forall_mem_cons.2 ⟨hline, h.clean⟩⟩

/-- A byte string in its plainest spelling: bytes that no line may hold are in a literal. -/
theorem ofBytes {bs : Bytes} (hbs : bs.Fits) (hsep : Separate ps) (h : Sendable ps) :
    Sendable (Piece.ofBytes bs :: ps) := by
  unfold Piece.ofBytes
  split
  · next hbare => exact atom (IsRun.of_isBare hbare) (Piece.clean_of_isBare hbare) hsep h
  · split
    · exact literal hbs h
    · next hany =>
      have hclean : Clean bs := by
        intro b hb
        have hnone := List.any_eq_false.1 (Bool.eq_false_iff.2 hany) b hb
        exact Bool.eq_false_iff.2 hnone
      exact quoted hclean h

end Sendable

/-! ## Whole trees -/

/-- **Whatever pieces of trees** are put in front of a response, it stays one. -/
theorem Sendable.carried : Carried Bytes.Fits fun ps _ => Sendable ps where
  space := Sendable.delimiter rfl rfl
  opening k := Sendable.delimiter (by cases k <;> decide) (by cases k <;> decide)
  closing k := Sendable.delimiter (by cases k <;> decide) (by cases k <;> decide)
  int n := Sendable.atom (IsRun.ofInt n.toInt) (Decimal.clean_ofInt n.toInt)
  nil := Sendable.atom IsRun.nilWord Tree.clean_nilWord
  bytes hbs := Sendable.ofBytes hbs

/-! ## The last line -/

namespace Response

/-- The last chunk has a literal, so a further line has to follow it. -/
def endsInLiteral (cs : List Chunk) : Bool := cs.getLast?.any fun c => c.literal.isSome

/-- The chunks, with an empty line behind a literal at the end. -/
def closed (cs : List Chunk) : List Chunk := cs ++ if endsInLiteral cs then [.plain []] else []

/-- On a stream the line that is added is one more line end. -/
theorem wire_closed (cs : List Chunk) :
    wire (closed cs) = wire cs ++ if endsInLiteral cs then lineEnd else [] := by
  unfold closed
  rw [wire_append]
  split <;> rfl

theorem endsInLiteral_concat (cs : List Chunk) (c : Chunk) :
    endsInLiteral (cs ++ [c]) = c.literal.isSome := by
  simp [endsInLiteral]

end Response

/-- **Leaving out an empty line** at the end of a response is undone by putting one where a literal
    is last. -/
theorem Tree.closed_trimLines {c : Chunk} {cs : List Chunk} (h : Framed (c :: cs)) :
    Response.closed (trimLines (c, cs)) = c :: cs := by
  obtain ⟨front, last, hsplit, -, -, hfront⟩ := Response.framed_iff.1 h
  show Response.closed (c :: if cs.getLast? = some (.plain []) then cs.dropLast else cs) = c :: cs
  split
  · next hempty =>
    -- the line that is left out is the only one without a literal
    obtain ⟨later, rfl⟩ := List.getLast?_eq_some_iff.1 hempty
    rw [← List.cons_append] at hsplit
    obtain ⟨rfl, -⟩ := List.append_inj' hsplit rfl
    have hends : Response.endsInLiteral (c :: later) = true := by
      have hmem := List.getLast_mem (List.cons_ne_nil c later)
      obtain ⟨-, bs, hbs, -⟩ := hfront _ hmem
      simp only [Response.endsInLiteral, List.getLast?_eq_some_getLast (List.cons_ne_nil c later),
        Option.any_some, hbs, Option.isSome_some]
    rw [List.dropLast_concat, Response.closed, hends, if_pos rfl]
    rfl
  · have hends : Response.endsInLiteral (c :: cs) = false := by
      rw [hsplit, Response.endsInLiteral_concat]
      rfl
    rw [Response.closed, hends]
    exact List.append_nil _

namespace Tree

variable {ts : List Tree}

/-- **A written sequence of trees is a response**, once a literal at its end is followed by a line,
    and no line of it holds a CR, an LF or a NUL. -/
theorem framed_chunks (hfits : FitsAll ts) :
    Framed (Response.closed (chunks ts)) ∧ ∀ c ∈ Response.closed (chunks ts), Clean c.line := by
  have hsendable : Sendable (piecesAll ts []) :=
    @Carried.piecesAll _ _ Sendable.carried ts [] [] (fits_stringsAll ts hfits) Separate.nil
      Sendable.nil
  have hclosed : Response.closed (chunks ts) = response (piecesAll ts []) :=
    closed_trimLines hsendable.framed
  rw [hclosed]
  exact ⟨hsendable.framed, hsendable.clean⟩

/-- The line behind a literal at the end has no token. -/
theorem parse_closed (hdepth : depthAll ts ≤ maxDepth) (hfits : FitsAll ts) :
    parse (Response.closed (chunks ts)) = .ok ts := by
  have htokens : Yields (Cursor.firstLine (chunks ts)) (chunks ts)
      (Written.tokensAll (writtenAll ts)) := Yields.of_scan (scan_chunks hfits)
  have hclosed : Yields (Cursor.firstLine (Response.closed (chunks ts))) (Response.closed (chunks ts))
      (Written.tokensAll (writtenAll ts)) := by
    unfold Response.closed
    split
    · have hempty : Yields (Cursor.firstLine [.plain []]) [.plain []] [] :=
        Yields.lineEnd rfl (Yields.nil _)
      have hboth := htokens.append hempty
      rwa [List.append_nil] at hboth
    · rwa [List.append_nil]
  show ofScan (Cursor.start (Response.closed (chunks ts))).scan = .ok ts
  rw [hclosed.scan_start]
  exact ofScan_written hdepth

/-- A limit that all lines keep leaves room for an empty one. -/
theorem below_closed {line literal : Nat} (h : Response.Below line literal (chunks ts)) :
    Response.Below line literal (Response.closed (chunks ts)) := by
  intro c hc
  unfold Response.closed at hc
  rcases List.mem_append.1 hc with hc | hc
  · exact h c hc
  · split at hc
    · have hfirst : (lines (piecesAll ts [])).1.line.length < line := (h _ List.mem_cons_self).1
      rw [List.mem_singleton.1 hc]
      refine ⟨by show 0 < line; omega, ?_⟩
      intro bs hbs
      cases hbs
    · cases hc

/-- **A written sequence of trees is taken off a stream** as it was laid out, whatever is behind it
    and however its bytes arrive. -/
theorem readResponse_closed {r : Reader} {rest : Bytes} (hfits : FitsAll ts)
    (hr : r.stream.Healthy) (hbelow : Response.Below r.limits.line r.limits.literal (chunks ts))
    (hunread : r.unread = wire (Response.closed (chunks ts)) ++ rest) :
    ∃ r', r.readResponse = (.ok (Response.closed (chunks ts)), r') ∧ r'.unread = rest := by
  obtain ⟨r', hread, -, hrest, -⟩ :=
    Reader.readResponse_exact hr (framed_chunks hfits).1 (below_closed hbelow) hunread
  exact ⟨r', hread, hrest⟩

end Tree

end ImapWire
