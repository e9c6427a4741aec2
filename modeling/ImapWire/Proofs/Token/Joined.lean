/-
  Scanning several responses at once.

  No token goes across the end of a line, and a literal goes with its line.  So a scan that has come
  to the end of some chunks stands at the start of those behind them, and finds there what a scan
  of these alone finds: the tokens of chunks in a row are the tokens of the parts, one after the
  other (`Yields.append`).

  The scan of the whole is compared with the scan of the first part step by step.  Its cursor
  stands where the other one does and has more chunks behind it (`Extends`); indices and positions
  may differ, they are counted from another start.  A step that finds a token keeps this
  (`next_extends`), and at the end of the first part only the chunks behind it are left
  (`scan_of_ended`).  With no chunks behind, the comparison says that it does not matter where a
  scan starts to count (`Yields.of_scan`).
-/
import ImapWire.Proofs.Token.Reads

namespace ImapWire

open Bytes (isBlank)

namespace Cursor

/-- The cursor `d` stands where `c` does, and behind its chunks there are `more`. -/
structure Extends (more : List Chunk) (c d : Cursor) : Prop where
  chunks : d.chunks = c.chunks ++ more
  rest : d.rest = if c.chunks = [] then firstLine more else c.rest

variable {more : List Chunk} {c d c' : Cursor}

/-- At the start of some chunks, alone and with more behind them. -/
theorem extends_firstLine (more later : List Chunk) (index pos index' pos' : Nat) :
    Extends more ⟨index, pos, firstLine later, later⟩
      ⟨index', pos', firstLine (later ++ more), later ++ more⟩ := by
  refine ⟨rfl, ?_⟩
  cases later with
  | nil => rfl
  | cons chunk later => rfl

/-- On a line of a chunk that is there in any case. -/
theorem extends_line (more : List Chunk) (rest : Bytes) (chunk : Chunk) (later : List Chunk)
    (index pos index' pos' : Nat) :
    Extends more ⟨index, pos, rest, chunk :: later⟩
      ⟨index', pos', rest, chunk :: (later ++ more)⟩ :=
  ⟨rfl, rfl⟩

/-- Where a token was read, the same is read with more chunks behind. -/
theorem extends_placeAfter (more : List Chunk) (index pos index' pos' : Nat) (ahead : Bytes)
    (chunk : Chunk) (later : List Chunk) (behind : Option Bytes) :
    Extends more (placeAfter index pos ahead chunk later behind)
      (placeAfter index' pos' ahead chunk (later ++ more) behind) := by
  cases behind with
  | none => exact extends_firstLine more later _ _ _ _
  | some behind => exact extends_line more behind chunk later _ _ _ _

/-- **One token.**  It is found with more chunks behind, too. -/
theorem next_extends {t : Token} (h : Extends more c d) (hnext : c.next = (.ok (some t), c')) :
    ∃ d', d.next = (.ok (some t), d') ∧ Extends more c' d' := by
  obtain ⟨index, pos, rest, chunks⟩ := c
  obtain ⟨index', pos', rest', chunks'⟩ := d
  obtain ⟨rfl, hrest⟩ := h
  simp only [next] at hnext ⊢
  induction chunks generalizing index pos rest index' pos' rest' with
  | nil => cases hnext
  | cons chunk later ih =>
    obtain rfl : rest' = rest := hrest
    cases hdrop : rest'.dropWhile isBlank with
    | nil =>
      -- the token is on a later line
      cases hliteral : chunk.literal with
      | some literal =>
        rw [nextAt_stray hdrop (by simp [hliteral])] at hnext
        cases hnext
      | none =>
        rw [nextAt_lineBlank hdrop hliteral] at hnext
        rw [List.cons_append, nextAt_lineBlank hdrop hliteral]
        exact ih _ _ _ hnext _ _ _ (extends_firstLine more later 0 0 0 0).rest
    | cons b ahead =>
      obtain ⟨result, behind, -, htoken⟩ := nextAt_token hdrop chunk
      rw [htoken] at hnext
      rw [List.cons_append, htoken]
      cases result with
      | error cause => cases hnext
      | ok t' =>
        cases hnext
        exact ⟨_, rfl, extends_placeAfter more _ _ _ _ _ _ _ _⟩

/-- **No token.**  At the end of its chunks a scan goes on with those behind them. -/
theorem scan_of_ended {toks : List Token} (h : Extends more c d) (hnext : c.next = (.ok none, c'))
    (hmore : Yields (firstLine more) more toks) : d.scan = ⟨toks, none⟩ := by
  obtain ⟨index, pos, rest, chunks⟩ := c
  obtain ⟨index', pos', rest', chunks'⟩ := d
  obtain ⟨rfl, hrest⟩ := h
  simp only [next] at hnext
  induction chunks generalizing index pos rest index' pos' rest' with
  | nil =>
    obtain rfl : rest' = firstLine more := hrest
    exact hmore index' pos'
  | cons chunk later ih =>
    obtain rfl : rest' = rest := hrest
    cases hdrop : rest'.dropWhile isBlank with
    | nil =>
      cases hliteral : chunk.literal with
      | some literal =>
        rw [nextAt_stray hdrop (by simp [hliteral])] at hnext
        cases hnext
      | none =>
        rw [nextAt_lineBlank hdrop hliteral] at hnext
        have hlater := ih _ _ _ hnext (index' + 1) 0 _ (extends_firstLine more later 0 0 0 0).rest
        rw [← hlater]
        exact scan_congr (nextAt_lineBlank hdrop hliteral index' pos' (later ++ more))
    | cons b ahead =>
      obtain ⟨result, behind, -, htoken⟩ := nextAt_token hdrop chunk
      rw [htoken] at hnext
      cases result <;> cases hnext

/-- **A whole scan** finds its tokens, and then those of the chunks behind. -/
theorem scan_extends {toks toks' : List Token} (h : Extends more c d) (hscan : c.scan = ⟨toks, none⟩)
    (hmore : Yields (firstLine more) more toks') : d.scan = ⟨toks ++ toks', none⟩ := by
  fun_induction scan c generalizing d toks with
  | case1 c t c' hnext s =>
    rename_i ih
    obtain ⟨htoks, hfault⟩ := Scan.mk.inj hscan
    obtain ⟨d', hnext', hd'⟩ := next_extends h hnext
    have hlater : d'.scan = ⟨c'.scan.tokens ++ toks', none⟩ := ih hd' (by rw [← hfault])
    rw [scan_of_token hnext', hlater, ← htoks]
    rfl
  | case2 c c' hnext =>
    cases hscan
    exact scan_of_ended h hnext hmore
  | case3 c f c' hnext => cases hscan

end Cursor

namespace Yields

open Cursor

variable {chunks more : List Chunk} {toks toks' : List Token}

/-- What a scan finds does not depend on where it starts to count. -/
theorem of_scan {c : Cursor} (h : c.scan = ⟨toks, none⟩) : Yields c.rest c.chunks toks := by
  obtain ⟨index, pos, rest, chunks⟩ := c
  cases chunks with
  | nil =>
    have hnone := Yields.nil rest index pos
    rw [h] at hnone
    cases hnone
    exact Yields.nil rest
  | cons chunk later =>
    intro index' pos'
    have hextends : Extends [] ⟨index, pos, rest, chunk :: later⟩
        ⟨index', pos', rest, chunk :: later⟩ :=
      ⟨(List.append_nil _).symm, rfl⟩
    rw [scan_extends hextends h (Yields.nil _), List.append_nil]

/-- **Chunks in a row** have the tokens of the first ones and then those of the others. -/
theorem append (h : Yields (firstLine chunks) chunks toks)
    (hmore : Yields (firstLine more) more toks') :
    Yields (firstLine (chunks ++ more)) (chunks ++ more) (toks ++ toks') := by
  intro index pos
  exact scan_extends (extends_firstLine more chunks 0 0 index pos) (h 0 0) hmore

end Yields

end ImapWire
