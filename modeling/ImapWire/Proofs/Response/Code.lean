/-
  A written code ends at its bracket.

  A code stands in square brackets behind a status.  Two readers look at it: `splitCode` finds the
  bracket that closes it, counting brackets outside quotes, and a scan then reads what is between
  the brackets.  If the code was written from trees, both have to see the same brackets in it.

  1. **What a reader passes over** (`Passes`).  A written quoted string does not count, whatever it
     holds: a backslash stands before each quote in it.  No byte of a run counts.  So only the
     square brackets among the tokens do (`levelAfter`).

  2. **Trees on one line** (`OneLine`).  Trees whose byte strings hold no byte that needs a literal
     make up a single line.  A scan finds their tokens in it, and `splitCode` passes over it as their
     square brackets say.  Like `Laid` and `Sendable` this is carried from the last piece to the
     first.

  3. The brackets of a tree are closed inside it (`levelAfter_tokens`).  So a reader comes out of the
     line as deep as it went in, and the next bracket is the one that closes the code
     (`Tree.exists_line`).
-/
import ImapWire.Proofs.Tree.Framed
import ImapWire.Response.Line

namespace ImapWire

open Bytes (isDelimiter Clean)

/-! ## What a reader passes over -/

/-- Outside quotes and inside `d` square brackets, a reader of a code passes over the bytes, and is
    inside `e` of them then. -/
def Passes (d e : Nat) (bs : Bytes) : Prop :=
  ∀ rest, splitCode d .outside (bs ++ rest) =
    (splitCode e .outside rest).map fun (code, behind) => (bs ++ code, behind)

namespace Passes

variable {d e f : Nat} {a b : Bytes}

theorem nil (d : Nat) : Passes d d [] := by
  intro rest
  cases h : splitCode d .outside rest with
  | none => simp [h]
  | some found => simp [h]

theorem append (ha : Passes d e a) (hb : Passes e f b) : Passes d f (a ++ b) := by
  intro rest
  rw [List.append_assoc, ha, hb, Option.map_map]
  congr 1
  funext ⟨code, behind⟩
  simp

/-- A byte that is no quote and no square bracket. -/
theorem byte {c : UInt8} (hquote : c ≠ Bytes.quote) (hopen : c ≠ Bytes.openSquare)
    (hclose : c ≠ Bytes.closeSquare) (d : Nat) : Passes d d [c] := by
  intro rest
  simp [splitCode, Quoting.next, hquote, hopen, hclose]

theorem opening (d : Nat) : Passes d (d + 1) [Bytes.openSquare] := by
  intro rest
  have hne : Bytes.openSquare ≠ Bytes.closeSquare := by decide
  have hquote : Bytes.openSquare ≠ Bytes.quote := by decide
  simp [splitCode, Quoting.next, hne, hquote]

/-- A bracket that is not the one that closes the code. -/
theorem closing (d : Nat) : Passes (d + 2) (d + 1) [Bytes.closeSquare] := by
  intro rest
  have hne : Bytes.closeSquare ≠ Bytes.openSquare := by decide
  have hquote : Bytes.closeSquare ≠ Bytes.quote := by decide
  simp [splitCode, Quoting.next, hne, hquote]

/-- A run of bytes that are no delimiters. -/
theorem run {run : Bytes} (hrun : ∀ b ∈ run, isDelimiter b = false) (d : Nat) :
    Passes d d run := by
  induction run with
  | nil => exact nil d
  | cons b bs ih =>
    obtain ⟨hb, hbs⟩ := List.forall_mem_cons.1 hrun
    have hne : ∀ c, isDelimiter c = true → b ≠ c := by
      rintro c hc rfl
      rw [hb] at hc
      cases hc
    exact (byte (hne _ rfl) (hne _ rfl) (hne _ rfl) d).append (ih hbs)

/-- Inside quotes nothing counts up to the quote that closes them. -/
theorem inside (d : Nat) (bs rest : Bytes) :
    splitCode d .inside (Quoted.protect bs ++ Bytes.quote :: rest) =
      (splitCode d .outside rest).map fun (code, behind) =>
        (Quoted.protect bs ++ Bytes.quote :: code, behind) := by
  have hne : Bytes.quote ≠ Bytes.backslash := by decide
  induction bs with
  | nil => simp [Quoted.protect, splitCode, Quoting.next, hne]
  | cons b bs ih =>
    unfold Quoted.protect
    split
    · -- the backslash in front takes away the meaning of the byte
      simp only [List.cons_append, splitCode, Quoting.next, reduceCtorEq, false_and, if_false,
        if_true, ih, Option.map_map]
      rfl
    · next hb =>
      obtain ⟨hquote, hbackslash⟩ : b ≠ Bytes.quote ∧ b ≠ Bytes.backslash := by
        simpa [Quoted.isSpecial] using hb
      simp only [List.cons_append, splitCode, Quoting.next, reduceCtorEq, false_and, if_false,
        hquote, hbackslash, ih, Option.map_map]
      rfl

/-- **A written quoted string** does not count, whatever it holds. -/
theorem quoted (d : Nat) (bs : Bytes) : Passes d d (Quoted.write bs) := by
  intro rest
  have hopen : Bytes.quote ≠ Bytes.openSquare := by decide
  have hclose : Bytes.quote ≠ Bytes.closeSquare := by decide
  have hwrite : Quoted.write bs ++ rest
      = Bytes.quote :: (Quoted.protect bs ++ Bytes.quote :: rest) := by simp [Quoted.write]
  rw [hwrite]
  simp only [splitCode, Quoting.next, hopen, hclose, and_false, false_and, if_false, if_true,
    inside, Option.map_map]
  congr 1
  funext found
  obtain ⟨code, behind⟩ := found
  simp [Quoted.write]

/-- The bracket behind what a reader has passed over closes the code. -/
theorem closed (h : Passes d 1 a) (behind : Bytes) :
    splitCode d .outside (a ++ Bytes.closeSquare :: behind) = some (a, behind) := by
  rw [h]
  simp [splitCode]

end Passes

/-! ## The square brackets of tokens -/

/-- How many square brackets are open behind tokens that start inside `d` of them; none if the tokens
    close the outermost one. -/
def levelAfter (d : Nat) : List Token → Option Nat
  | [] => some d
  | .opening .square :: toks => levelAfter (d + 1) toks
  | .closing .square :: toks => if d ≤ 1 then none else levelAfter (d - 1) toks
  | _ :: toks => levelAfter d toks

theorem levelAfter_word (d : Nat) (w : Word) (toks : List Token) :
    levelAfter d (w.token :: toks) = levelAfter d toks := by
  cases w <;> rfl

mutual
/-- **A tree closes its brackets.** -/
theorem levelAfter_tokens (d : Nat) (w : Written) (toks : List Token) :
    levelAfter (d + 1) (w.tokens ++ toks) = levelAfter (d + 1) toks := by
  cases w with
  | word w => exact levelAfter_word (d + 1) w toks
  | group k items =>
    simp only [Written.tokens, List.cons_append, List.append_assoc, List.nil_append]
    cases k with
    | round =>
      show levelAfter (d + 1) (Written.tokensAll items ++ .closing .round :: toks) = _
      rw [levelAfter_tokensAll d items]
      rfl
    | square =>
      show levelAfter (d + 2) (Written.tokensAll items ++ .closing .square :: toks) = _
      rw [levelAfter_tokensAll (d + 1) items]
      show (if d + 2 ≤ 1 then none else levelAfter (d + 2 - 1) toks) = _
      rw [if_neg (by omega)]
      rfl

theorem levelAfter_tokensAll (d : Nat) (ws : List Written) (toks : List Token) :
    levelAfter (d + 1) (Written.tokensAll ws ++ toks) = levelAfter (d + 1) toks := by
  cases ws with
  | nil => rfl
  | cons w ws =>
    show levelAfter (d + 1) ((w.tokens ++ Written.tokensAll ws) ++ toks) = _
    rw [List.append_assoc, levelAfter_tokens d w, levelAfter_tokensAll d ws]
end

/-! ## Trees on one line -/

/-- The pieces make up a single line.  A scan finds the tokens in it, and a reader of a code passes
    over it as their brackets say. -/
structure OneLine (ps : List Piece) (toks : List Token) : Prop where
  later : (Tree.lines ps).2 = []
  literal : (Tree.lines ps).1.literal = none
  laid : Laid ps toks
  passes : ∀ d e, levelAfter d toks = some e → Passes d e (Tree.lines ps).1.line

namespace OneLine

variable {ps : List Piece} {toks : List Token}

theorem nil : OneLine [] [] where
  later := rfl
  literal := rfl
  laid := Laid.nil
  passes := by
    rintro d e h
    obtain rfl : d = e := Option.some.inj h
    exact Passes.nil d

theorem space (h : OneLine ps toks) : OneLine (.text [Bytes.space] :: ps) toks where
  later := h.later
  literal := h.literal
  laid := h.laid.space
  passes d e hd := (Passes.byte (by decide) (by decide) (by decide) d).append (h.passes d e hd)

theorem opening (k : Bracket) (h : OneLine ps toks) :
    OneLine (.text [k.opens] :: ps) (.opening k :: toks) where
  later := h.later
  literal := h.literal
  laid := h.laid.opening k
  passes d e hd := by
    cases k with
    | round =>
      exact (Passes.byte (by decide) (by decide) (by decide) d).append (h.passes d e hd)
    | square => exact (Passes.opening d).append (h.passes (d + 1) e hd)

theorem closing (k : Bracket) (h : OneLine ps toks) :
    OneLine (.text [k.closes] :: ps) (.closing k :: toks) where
  later := h.later
  literal := h.literal
  laid := h.laid.closing k
  passes d e hd := by
    cases k with
    | round =>
      exact (Passes.byte (by decide) (by decide) (by decide) d).append (h.passes d e hd)
    | square =>
      have hlevel : (if d ≤ 1 then none else levelAfter (d - 1) toks) = some e := hd
      split at hlevel
      · cases hlevel
      · next hdeep =>
        obtain ⟨d, rfl⟩ : ∃ n, d = n + 2 := ⟨d - 2, by omega⟩
        exact (Passes.closing d).append (h.passes (d + 1) e hlevel)

theorem atom {run : Bytes} (hrun : IsRun run) (hsep : Separate ps) (h : OneLine ps toks) :
    OneLine (.text run :: ps) (.atom run :: toks) where
  later := h.later
  literal := h.literal
  laid := h.laid.atom hrun hsep
  passes d e hd := (Passes.run hrun.not_delimiter d).append (h.passes d e hd)

theorem quoted (bs : Bytes) (h : OneLine ps toks) :
    OneLine (.text (Quoted.write bs) :: ps) (.quoted bs :: toks) where
  later := h.later
  literal := h.literal
  laid := h.laid.quoted bs
  passes d e hd := (Passes.quoted d bs).append (h.passes d e hd)

/-- A byte string that needs no literal. -/
theorem ofBytes {bs : Bytes} (hclean : Clean bs) (hsep : Separate ps) (h : OneLine ps toks) :
    OneLine (Piece.ofBytes bs :: ps) ((Word.ofBytes bs).token :: toks) := by
  have hnone : bs.any Bytes.needsLiteral = false := by
    rw [List.any_eq_false]
    intro b hb
    rw [hclean b hb]
    exact Bool.false_ne_true
  unfold Piece.ofBytes Word.ofBytes
  rw [hnone]
  split
  · next hbare => exact atom (IsRun.of_isBare hbare) hsep h
  · exact quoted bs h

/-- **Whatever pieces of clean trees** are put in front of one line, it stays one. -/
theorem carried : Carried Clean OneLine where
  space := space
  opening k := opening k
  closing k := closing k
  int n := atom (IsRun.ofInt n.toInt)
  nil := atom IsRun.nilWord
  bytes hbs := ofBytes hbs

end OneLine

namespace Tree

/-- **Clean trees are written on one line.**  They are read back from it, and in square brackets it
    is a code that ends at its bracket. -/
theorem exists_line {ts : List Tree} (hclean : ∀ bs ∈ stringsAll ts, Clean bs)
    (hdepth : depthAll ts ≤ maxDepth) :
    ∃ line, chunks ts = [.plain line] ∧ parse [.plain line] = .ok ts ∧
      ∀ behind, codeOf? (Bytes.openSquare :: line ++ Bytes.closeSquare :: behind)
        = some (line, behind) := by
  have hline : OneLine (piecesAll ts []) (Written.tokensAll (writtenAll ts) ++ []) :=
    OneLine.carried.piecesAll ts hclean Separate.nil OneLine.nil
  have hlevel : levelAfter 1 (Written.tokensAll (writtenAll ts) ++ []) = some 1 :=
    levelAfter_tokensAll 0 (writtenAll ts) []
  obtain ⟨line, hlines⟩ : ∃ line, lines (piecesAll ts []) = (.plain line, []) := by
    refine ⟨(lines (piecesAll ts [])).1.line, Prod.ext ?_ hline.later⟩
    show _ = Chunk.mk _ none
    rw [← hline.literal]
  have hpasses := hline.passes 1 1 hlevel
  have hlaid := hline.laid (.plain line) (by rw [hlines])
  rw [hlines] at hpasses hlaid
  rw [List.append_nil] at hlaid
  have hyields : Yields line [.plain line] (Written.tokensAll (writtenAll ts)) := hlaid
  refine ⟨line, ?_, ?_, hpasses.closed⟩
  · show trimLines (lines (piecesAll ts [])) = _
    rw [hlines]
    rfl
  · show ofScan (Cursor.mk 0 0 line [.plain line]).scan = _
    rw [hyields 0 0]
    exact ofScan_written hdepth

end Tree

end ImapWire
