/-
  The spelling that the writer gives to a tree, and what a scan finds in it.

  The writer gives each leaf the plainest spelling that is read back as itself.  `Tree.written` is
  the tree with these spellings; without them it is the tree again (`tree_written`).  That is the
  place where the look-alikes are kept apart: a byte string that reads `NIL` or `42` is not bare, so
  its quotes say what it is.

  What remains is that the laid out lines hold the tokens of the written tree and nothing else
  (`scan_chunks`).  Lines are laid out from the back: a piece goes in front of what the pieces
  behind it make up.  So the invariant is about the pieces behind (`Laid`): a scan that stands in
  front of them, on whatever line, yields their tokens.  One lemma for each kind of piece puts it in
  front, and the induction on the tree (`Carried.pieces`) does the rest.  Two things have to be carried
  along:

    * an atom ends only where a delimiter follows, and one does: a space, a closing bracket, or the
      end of everything (`Separate`);
    * an empty line at the very end is left out, which no scan can tell (`Laid.literal`).
-/
import ImapWire.Proofs.Token.Announced
import ImapWire.Proofs.Tree.Written

namespace ImapWire

open Bytes (isBlank isDelimiter)

/-! ## Runs that are no markers, and markers -/

namespace Marker

/-- Without an opening brace there is no marker. -/
theorem inner?_eq_none {run : Bytes} (h : ∀ b ∈ run, b ≠ Bytes.openBrace) : inner? run = none := by
  have hhead : ∀ bs : Bytes, (∀ b ∈ bs, b ≠ Bytes.openBrace) →
      bs.head? ≠ some Bytes.openBrace := by
    intro bs hbs hopen
    exact hbs _ (List.mem_of_head? hopen) rfl
  have htail : run.tail.head? ≠ some Bytes.openBrace :=
    hhead run.tail fun b hb => h b (List.mem_of_mem_tail hb)
  unfold inner?
  dsimp only
  split
  · rw [if_neg (fun hand => htail hand.1)]
  · rw [if_neg (fun hand => hhead run h hand.1)]

/-- The braces of a written marker hold the written length. -/
theorem inner?_ofLength (n : Nat) : inner? (ofLength n) = some (Decimal.digits n) :=
  inner?_of_shape ⟨Decimal.isNumber_digits n, [], [], Or.inl rfl, Or.inl rfl, by simp [ofLength]⟩

theorem not_delimiter_ofLength (n : Nat) : ∀ b ∈ ofLength n, isDelimiter b = false := by
  intro b hb
  rcases List.mem_cons.1 hb with rfl | hb
  · rfl
  · rcases List.mem_append.1 hb with hb | hb
    · have hdigit := List.all_eq_true.1 (Decimal.all_isDigit_digits n) b hb
      exact (Bytes.isDigit_spec hdigit).1
    · rw [List.mem_singleton.1 hb]
      rfl

end Marker

/-! ## Words -/

/-- A bare word holds at least one byte, and each is part of a run and opens no marker. -/
theorem Piece.isBare_spec {bs : Bytes} (h : Piece.isBare bs = true) :
    bs ≠ [] ∧ Bytes.sameName bs Tree.nilWord = false ∧ Decimal.isCanonical bs = false ∧
      ∀ b ∈ bs, isDelimiter b = false ∧ b ≠ Bytes.openBrace := by
  simp only [Piece.isBare, Bool.and_eq_true, Bool.not_eq_true', List.isEmpty_eq_false_iff,
    List.all_eq_true, bne_iff_ne] at h
  obtain ⟨⟨⟨hne, hnil⟩, hcanonical⟩, hall⟩ := h
  exact ⟨hne, hnil, hcanonical, fun b hb => ⟨(hall b hb).1.2, (hall b hb).2⟩⟩

/-- A run that a scan takes as one atom, wherever it stands. -/
structure IsRun (run : Bytes) : Prop where
  ne_nil : run ≠ []
  not_delimiter : ∀ b ∈ run, isDelimiter b = false
  not_marker : Marker.inner? run = none

theorem IsRun.of_isBare {bs : Bytes} (h : Piece.isBare bs = true) : IsRun bs := by
  obtain ⟨hne, -, -, hall⟩ := Piece.isBare_spec h
  exact ⟨hne, fun b hb => (hall b hb).1, Marker.inner?_eq_none fun b hb => (hall b hb).2⟩

theorem IsRun.nilWord : IsRun Tree.nilWord := by
  have hall : Tree.nilWord.all (fun b => !isDelimiter b) = true := by decide
  refine ⟨by decide, ?_, by decide⟩
  intro b hb
  have hnot := List.all_eq_true.1 hall b hb
  rwa [Bool.not_eq_true'] at hnot

/-- The bytes of a written integer delimit nothing, open no marker and do not start `NIL`. -/
theorem Decimal.byte_ofInt {n : Int} {b : UInt8} (h : b ∈ Decimal.ofInt n) :
    isDelimiter b = false ∧ b ≠ Bytes.openBrace ∧ Bytes.lowerByte b ≠ 0x6E := by
  rcases Decimal.mem_ofInt h with rfl | hdigit
  · decide
  · exact Bytes.isDigit_spec hdigit

theorem IsRun.ofInt (n : Int) : IsRun (Decimal.ofInt n) :=
  ⟨Decimal.ofInt_ne_nil n, fun _ hb => (Decimal.byte_ofInt hb).1,
    Marker.inner?_eq_none fun _ hb => (Decimal.byte_ofInt hb).2.1⟩

namespace Tree

theorem ofAtom_ofInt (n : Int64) : ofAtom (Decimal.ofInt n.toInt) = int n := by
  have hname : Bytes.sameName (Decimal.ofInt n.toInt) nilWord = false := by
    -- the first byte is a digit or a minus sign, and no `n`
    obtain ⟨b, bs, hbs⟩ := List.exists_cons_of_ne_nil (Decimal.ofInt_ne_nil n.toInt)
    have hb : Bytes.lowerByte b ≠ 0x6E :=
      (Decimal.byte_ofInt (n := n.toInt) (by rw [hbs]; exact List.mem_cons_self)).2.2
    rw [← Bool.not_eq_true, Bytes.sameName_iff, hbs]
    intro h
    have hlower : Bytes.lower nilWord = [0x6E, 0x69, 0x6C] := by decide
    rw [hlower] at h
    exact hb (List.cons.inj h).1
  unfold ofAtom
  rw [hname, Decimal.int?_ofInt]
  rfl

theorem ofAtom_nilWord : ofAtom nilWord = nil := by decide

/-- A bare word means itself. -/
theorem ofAtom_of_isBare {bs : Bytes} (h : Piece.isBare bs = true) : ofAtom bs = bytes bs := by
  obtain ⟨-, hnil, hcanonical, -⟩ := Piece.isBare_spec h
  unfold ofAtom
  rw [hnil, Decimal.int?, hcanonical]
  rfl

end Tree

/-! ## The spelling of a tree -/

/-- A byte string in its plainest spelling. -/
def Word.ofBytes (bs : Bytes) : Word :=
  if Piece.isBare bs then atom bs
  else if bs.any Bytes.needsLiteral then literal bs
  else quoted bs

theorem Word.tree_ofBytes (bs : Bytes) : (Word.ofBytes bs).tree = .bytes bs := by
  unfold Word.ofBytes
  split
  · next hbare => exact Tree.ofAtom_of_isBare hbare
  · split <;> rfl

namespace Tree

mutual
/-- A tree with the spelling that the writer gives to its leaves. -/
def written : Tree → Written
  | int n => .word (.atom (Decimal.ofInt n.toInt))
  | bytes bs => .word (Word.ofBytes bs)
  | nil => .word (.atom nilWord)
  | group b items => .group b (writtenAll items)

def writtenAll : List Tree → List Written
  | [] => []
  | t :: ts => written t :: writtenAll ts
end

mutual
/-- **The spelling loses nothing.** -/
theorem tree_written (t : Tree) : (written t).tree = t := by
  cases t with
  | int n => exact ofAtom_ofInt n
  | bytes bs => exact Word.tree_ofBytes bs
  | nil => exact ofAtom_nilWord
  | group b items =>
    show Tree.group b (Written.treeAll (writtenAll items)) = _
    rw [treeAll_writtenAll]

theorem treeAll_writtenAll (ts : List Tree) : Written.treeAll (writtenAll ts) = ts := by
  cases ts with
  | nil => rfl
  | cons t ts =>
    show (written t).tree :: Written.treeAll (writtenAll ts) = _
    rw [tree_written t, treeAll_writtenAll ts]
end

mutual
/-- Every byte string in the tree is shorter than 2⁶⁴ bytes. -/
def Fits : Tree → Prop
  | int _ | nil => True
  | bytes bs => bs.Fits
  | group _ items => FitsAll items

def FitsAll : List Tree → Prop
  | [] => True
  | t :: ts => Fits t ∧ FitsAll ts
end

mutual
/-- Lengths can be looked at. -/
def decFits : (t : Tree) → Decidable t.Fits
  | int _ | nil => isTrue trivial
  | bytes bs => inferInstanceAs (Decidable bs.Fits)
  | group _ items => decFitsAll items

def decFitsAll : (ts : List Tree) → Decidable (FitsAll ts)
  | [] => isTrue trivial
  | t :: ts =>
    match decFits t, decFitsAll ts with
    | isTrue h, isTrue hs => isTrue ⟨h, hs⟩
    | isFalse h, _ => isFalse fun hand => h hand.1
    | _, isFalse hs => isFalse fun hand => hs hand.2
end

instance (ts : List Tree) : Decidable (FitsAll ts) := decFitsAll ts

mutual
/-- The byte strings in a tree, from left to right. -/
def strings : Tree → List Bytes
  | int _ | nil => []
  | bytes bs => [bs]
  | group _ items => stringsAll items

def stringsAll : List Tree → List Bytes
  | [] => []
  | t :: ts => strings t ++ stringsAll ts
end

mutual
theorem fits_strings (t : Tree) (h : t.Fits) : ∀ bs ∈ t.strings, bs.Fits := by
  cases t with
  | int n => nofun
  | bytes bs =>
    intro a ha
    rw [List.mem_singleton.1 ha]
    exact h
  | nil => nofun
  | group b items => exact fits_stringsAll items h

theorem fits_stringsAll (ts : List Tree) (h : FitsAll ts) : ∀ bs ∈ stringsAll ts, bs.Fits := by
  cases ts with
  | nil => nofun
  | cons t ts =>
    intro bs hbs
    rcases List.mem_append.1 hbs with hbs | hbs
    · exact fits_strings t h.1 bs hbs
    · exact fits_stringsAll ts h.2 bs hbs
end

end Tree

/-! ## Pieces laid out in front of others -/

/-- The lines after the first one, without an empty line at the end of them. -/
def Tree.laterLines (cs : List Chunk) : List Chunk :=
  if cs.getLast? = some (.plain []) then cs.dropLast else cs

/-- In front of the lines that the pieces make up, on any line that ends as their first one, a scan
    yields the tokens. -/
def Laid (ps : List Piece) (toks : List Token) : Prop :=
  ∀ chunk : Chunk, chunk.literal = (Tree.lines ps).1.literal →
    Yields (Tree.lines ps).1.line (chunk :: Tree.laterLines (Tree.lines ps).2) toks

/-- The run of an atom in front of the pieces ends there. -/
def Separate (ps : List Piece) : Prop := Cut (Tree.lines ps).1.line

namespace Laid

open ImapWire.Tree (lines laterLines)

theorem nil : Laid [] [] := by
  intro chunk hc
  exact Yields.lineEnd hc (Yields.nil _)

/-- A text that yields tokens in front of any line goes in front of the first one. -/
theorem text {bs : Bytes} {ps : List Piece} {toks : List Token} (front : List Token)
    (h : Laid ps toks)
    (hfront : ∀ rest chunk later, rest = (lines ps).1.line → Yields rest (chunk :: later) toks →
      Yields (bs ++ rest) (chunk :: later) (front ++ toks)) :
    Laid (.text bs :: ps) (front ++ toks) := by
  intro chunk hc
  exact hfront _ _ _ rfl (h chunk hc)

theorem space {ps : List Piece} {toks : List Token} (h : Laid ps toks) :
    Laid (.text [Bytes.space] :: ps) toks :=
  text [] h fun _ _ _ _ hy => Yields.blank rfl hy

theorem opening (k : Bracket) {ps : List Piece} {toks : List Token} (h : Laid ps toks) :
    Laid (.text [k.opens] :: ps) (.opening k :: toks) :=
  text [.opening k] h fun _ _ _ _ hy => Yields.opening k hy

theorem closing (k : Bracket) {ps : List Piece} {toks : List Token} (h : Laid ps toks) :
    Laid (.text [k.closes] :: ps) (.closing k :: toks) :=
  text [.closing k] h fun _ _ _ _ hy => Yields.closing k hy

theorem quoted (bs : Bytes) {ps : List Piece} {toks : List Token} (h : Laid ps toks) :
    Laid (.text (Quoted.write bs) :: ps) (.quoted bs :: toks) :=
  text [.quoted bs] h fun _ _ _ _ hy => Yields.quoted bs hy

theorem atom {run : Bytes} (hrun : IsRun run) {ps : List Piece} {toks : List Token}
    (hsep : Separate ps) (h : Laid ps toks) :
    Laid (.text run :: ps) (.atom run :: toks) := by
  refine text [.atom run] h fun rest chunk later hrest hy => ?_
  subst hrest
  exact Yields.atom hrun.ne_nil hrun.not_delimiter hrun.not_marker hsep hy

/-- A literal ends its line.  What follows starts a line of its own, which is left out if it would
    be the last one and empty; then there is nothing left to find either way. -/
theorem literal {bs : Bytes} (hbs : bs.Fits) {ps : List Piece} {toks : List Token}
    (h : Laid ps toks) : Laid (.literal bs :: ps) (.literal bs :: toks) := by
  intro chunk hc
  have hlength : Marker.length? (Decimal.digits bs.length) = some bs.length :=
    Decimal.natBelow?_digits hbs
  refine Yields.literal (List.cons_ne_nil _ _) (Marker.not_delimiter_ofLength _)
    (Marker.inner?_ofLength _) hlength hc ?_
  have hbehind := h (lines ps).1 rfl
  show Yields (Cursor.firstLine (laterLines ((lines ps).1 :: (lines ps).2)))
    (laterLines ((lines ps).1 :: (lines ps).2)) toks
  generalize lines ps = first at hbehind ⊢
  obtain ⟨c, cs⟩ := first
  cases cs with
  | nil =>
    by_cases hempty : c = .plain []
    · -- the line is left out, so the pieces behind had no tokens
      subst hempty
      have hnone : Yields [] [Chunk.plain []] [] := Yields.lineEnd rfl (Yields.nil _)
      have htoks : toks = [] := by
        have hsame := (hbehind 0 0).symm.trans (hnone 0 0)
        exact (Cursor.Scan.mk.inj hsame).1
      rw [htoks]
      exact Yields.nil _
    · have hkeep : laterLines [c] = [c] := by simp [laterLines, hempty]
      rw [hkeep]
      exact hbehind
  | cons d ds =>
    have hkeep : laterLines (c :: d :: ds) = c :: laterLines (d :: ds) := by
      simp only [laterLines, List.getLast?_cons_cons, List.dropLast_cons_cons]
      split <;> rfl
    rw [hkeep]
    exact hbehind

/-- A byte string in its plainest spelling. -/
theorem ofBytes {bs : Bytes} (hbs : bs.Fits) {ps : List Piece} {toks : List Token}
    (hsep : Separate ps) (h : Laid ps toks) :
    Laid (Piece.ofBytes bs :: ps) ((Word.ofBytes bs).token :: toks) := by
  unfold Piece.ofBytes Word.ofBytes
  split
  · next hbare => exact atom (IsRun.of_isBare hbare) hsep h
  · split
    · exact literal hbs h
    · exact quoted bs h

end Laid

/-! ## Whole trees -/

theorem Separate.nil : Separate [] := by
  intro b hb
  cases hb

theorem Separate.text {d : UInt8} (hd : isDelimiter d = true) (ps : List Piece) :
    Separate (.text [d] :: ps) := by
  intro b hb
  cases hb
  exact hd

/-- What holds of pieces and their tokens, and goes on to hold as each kind of piece that a tree has
    is put in front of them; its byte strings must be of a class. -/
structure Carried (ok : Bytes → Prop) (P : List Piece → List Token → Prop) : Prop where
  space {ps : List Piece} {toks : List Token} (h : P ps toks) : P (.text [Bytes.space] :: ps) toks
  opening (k : Bracket) {ps : List Piece} {toks : List Token} (h : P ps toks) :
    P (.text [k.opens] :: ps) (.opening k :: toks)
  closing (k : Bracket) {ps : List Piece} {toks : List Token} (h : P ps toks) :
    P (.text [k.closes] :: ps) (.closing k :: toks)
  int (n : Int64) {ps : List Piece} {toks : List Token} (hsep : Separate ps) (h : P ps toks) :
    P (.text (Decimal.ofInt n.toInt) :: ps) (.atom (Decimal.ofInt n.toInt) :: toks)
  nil {ps : List Piece} {toks : List Token} (hsep : Separate ps) (h : P ps toks) :
    P (.text Tree.nilWord :: ps) (.atom Tree.nilWord :: toks)
  bytes {bs : Bytes} (hbs : ok bs) {ps : List Piece} {toks : List Token} (hsep : Separate ps)
    (h : P ps toks) : P (Piece.ofBytes bs :: ps) ((Word.ofBytes bs).token :: toks)

namespace Carried

open ImapWire.Tree (strings stringsAll writtenAll)

variable {ok : Bytes → Prop} {P : List Piece → List Token → Prop}

mutual
/-- **The pieces of a tree** go in front of others, and its tokens in front of theirs. -/
theorem pieces (hP : Carried ok P) (t : Tree) {behind : List Piece} {toks : List Token}
    (hok : ∀ bs ∈ t.strings, ok bs) (hsep : Separate behind) (h : P behind toks) :
    P (t.pieces behind) (t.written.tokens ++ toks) := by
  cases t with
  | int n => exact hP.int n hsep h
  | bytes bs => exact hP.bytes (hok bs (List.mem_singleton.2 rfl)) hsep h
  | nil => exact hP.nil hsep h
  | group k items =>
    have hclosing : Separate (.text [k.closes] :: behind) :=
      Separate.text (by cases k <;> rfl) behind
    have hitems := hP.piecesAll items hok hclosing (hP.closing k h)
    have hgroup := hP.opening k hitems
    simpa [Tree.pieces, Tree.written, Written.tokens] using hgroup

/-- The same for a sequence of trees with spaces between them. -/
theorem piecesAll (hP : Carried ok P) (ts : List Tree) {behind : List Piece} {toks : List Token}
    (hok : ∀ bs ∈ stringsAll ts, ok bs) (hsep : Separate behind) (h : P behind toks) :
    P (Tree.piecesAll ts behind) (Written.tokensAll (writtenAll ts) ++ toks) := by
  cases ts with
  | nil => exact h
  | cons t ts =>
    obtain ⟨hfirst, hlater⟩ := List.forall_mem_append.1 hok
    have hrest : P (Tree.piecesAll ts behind) (Written.tokensAll (writtenAll ts) ++ toks) :=
      hP.piecesAll ts hlater hsep h
    show P (t.pieces (if ts.isEmpty then behind
        else .text [Bytes.space] :: Tree.piecesAll ts behind))
      ((t.written.tokens ++ Written.tokensAll (writtenAll ts)) ++ toks)
    rw [List.append_assoc]
    -- the last tree stands in front of what is behind, the others in front of a space
    cases ts with
    | nil => exact hP.pieces t hfirst hsep hrest
    | cons u us => exact hP.pieces t hfirst (Separate.text rfl _) (hP.space hrest)
end

end Carried

theorem Laid.carried : Carried Bytes.Fits Laid where
  space := Laid.space
  opening := Laid.opening
  closing := Laid.closing
  int n := Laid.atom (IsRun.ofInt n.toInt)
  nil := Laid.atom IsRun.nilWord
  bytes := Laid.ofBytes

namespace Tree

/-- **A scan finds the written tokens** in the lines of a sequence of trees. -/
theorem scan_chunks {ts : List Tree} (hfits : FitsAll ts) :
    (Cursor.start (chunks ts)).scan = ⟨Written.tokensAll (writtenAll ts), none⟩ := by
  have hlaid : Laid (piecesAll ts []) (Written.tokensAll (writtenAll ts) ++ []) :=
    Laid.carried.piecesAll ts (fits_stringsAll ts hfits) Separate.nil Laid.nil
  rw [List.append_nil] at hlaid
  exact Yields.scan_start (hlaid (lines (piecesAll ts [])).1 rfl)

/-- **The written tokens mean the trees** again. -/
theorem ofScan_written {ts : List Tree} (hdepth : depthAll ts ≤ maxDepth) :
    ofScan ⟨Written.tokensAll (writtenAll ts), none⟩ = .ok ts := by
  have hwritten : Written.treeAll (writtenAll ts) = ts := treeAll_writtenAll ts
  have hread : ofScan ⟨Written.tokensAll (writtenAll ts), none⟩
      = .ok (Written.treeAll (writtenAll ts)) := ofScan_tokensAll (by rwa [hwritten])
  rw [hread, hwritten]

end Tree

end ImapWire
