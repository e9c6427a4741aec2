/-
  Where a scan stands.

  A cursor carries its place twice: as two numbers, which messages show, and as the bytes and chunks
  that are ahead, which the scan reads.  `Within chunks c` says that both name the same place, and
  that it is on a line of `chunks` or behind the last one.

  1. **One round** (`next_round`).  A round comes to the end, or to a place that is no earlier, where
     a literal is refused or the rules of `Reads` say what is found.

  2. What a token uses is a part of its line, or the line and its literal.  So a token leads to a
     later place (`next_forward`), and from a place within the chunks to another one
     (`next_within`).

  3. A fault points into the input: it names a chunk that is there, its line, and a place on that
     line (`scan_fault`).
-/
import Mathlib.Data.Prod.Lex
import ImapWire.Proofs.Token.Parts

namespace ImapWire

open Bytes (isBlank isDelimiter)

namespace Cursor

/-! ## Places -/

/-- The numbers of a cursor say which of `all` is ahead of it. -/
structure Within (all : List Chunk) (c : Cursor) : Prop where
  chunks : c.chunks = all.drop c.index
  rest : c.rest = (firstLine c.chunks).drop c.pos
  pos : c.pos ≤ (firstLine c.chunks).length

/-- The place of a cursor, as it is counted: first by lines, then by bytes. -/
def place (c : Cursor) : Nat ×ₗ Nat := toLex (c.index, c.pos)

variable {all : List Chunk}

theorem within_start (all : List Chunk) : Within all (start all) where
  chunks := rfl
  rest := rfl
  pos := Nat.zero_le _

theorem within_following {index pos : Nat} {rest : Bytes} {chunk : Chunk} {later : List Chunk}
    (h : Within all ⟨index, pos, rest, chunk :: later⟩) : Within all (following index later) where
  chunks := by
    have hchunks : chunk :: later = all.drop index := h.chunks
    show later = all.drop (index + 1)
    rw [← List.tail_drop, ← hchunks]
    rfl
  rest := rfl
  pos := Nat.zero_le _

/-- Bytes that are used bring a cursor on its line forward. -/
theorem within_used {index pos : Nat} {used behind : Bytes} {chunk : Chunk} {later : List Chunk}
    (h : Within all ⟨index, pos, used ++ behind, chunk :: later⟩) :
    Within all ⟨index, pos + used.length, behind, chunk :: later⟩ where
  chunks := h.chunks
  rest := by
    have hrest : used ++ behind = chunk.line.drop pos := h.rest
    show behind = chunk.line.drop (pos + used.length)
    rw [← List.drop_drop, ← hrest, List.drop_left]
  pos := by
    have hrest : used ++ behind = chunk.line.drop pos := h.rest
    have hpos : pos ≤ chunk.line.length := h.pos
    have hlength := congrArg List.length hrest
    rw [List.length_append, List.length_drop] at hlength
    show pos + used.length ≤ chunk.line.length
    omega

theorem within_blanks {index pos : Nat} {rest : Bytes} {chunk : Chunk} {later : List Chunk}
    (h : Within all ⟨index, pos, rest, chunk :: later⟩) :
    Within all ⟨index, pos + (rest.takeWhile isBlank).length, rest.dropWhile isBlank,
      chunk :: later⟩ := by
  have hsplit : Within all ⟨index, pos, rest.takeWhile isBlank ++ rest.dropWhile isBlank,
      chunk :: later⟩ := by
    rwa [List.takeWhile_append_dropWhile]
  exact within_used hsplit

/-- The chunk at a place within the chunks. -/
theorem Within.getElem? {index pos : Nat} {rest : Bytes} {chunk : Chunk} {later : List Chunk}
    (h : Within all ⟨index, pos, rest, chunk :: later⟩) : all[index]? = some chunk := by
  have hchunks : chunk :: later = all.drop index := h.chunks
  rw [← List.head?_drop, ← hchunks]
  rfl

/-! ## One round -/

theorem placeAfter_used {used behind : Bytes} (index pos : Nat) (chunk : Chunk) (later : List Chunk) :
    placeAfter index pos (used ++ behind) chunk later (some behind)
      = ⟨index, pos + used.length, behind, chunk :: later⟩ := by
  simp [placeAfter]

/-- How a round ends: behind the chunks, or on a line of them, at a place that is no earlier. -/
inductive Round (all : List Chunk) (c : Cursor) : Except LexFault (Option Token) → Cursor → Prop
  | ended (c' : Cursor) : Round all c (.ok none) c'
  | stray {index pos : Nat} {chunk : Chunk} {later : List Chunk} (c' : Cursor)
      (hplace : c.place ≤ toLex (index, pos))
      (hwithin : Within all c → Within all ⟨index, pos, [], chunk :: later⟩) :
      Round all c (.error ⟨index, pos, .strayLiteral, chunk.line⟩) c'
  | refused {index pos : Nat} {ahead : Bytes} {chunk : Chunk} {later : List Chunk}
      {cause : LexCause} {behind : Option Bytes} (c' : Cursor)
      (hplace : c.place ≤ toLex (index, pos))
      (hwithin : Within all c → Within all ⟨index, pos, ahead, chunk :: later⟩)
      (hreads : Reads chunk ahead (.error cause) behind) :
      Round all c (.error ⟨index, pos, cause, chunk.line⟩) c'
  | token {index pos : Nat} {ahead : Bytes} {chunk : Chunk} {later : List Chunk}
      {t : Token} {behind : Option Bytes} {c' : Cursor}
      (hplace : c.place ≤ toLex (index, pos))
      (hwithin : Within all c → Within all ⟨index, pos, ahead, chunk :: later⟩)
      (hreads : Reads chunk ahead (.ok t) behind)
      (hbehind : c' = placeAfter index pos ahead chunk later behind) :
      Round all c (.ok (some t)) c'

/-- A round from a later place within the chunks is one from an earlier place. -/
theorem Round.of_le {c d c' : Cursor} {result : Except LexFault (Option Token)}
    (hle : c.place ≤ d.place) (hd : Within all c → Within all d) (h : Round all d result c') :
    Round all c result c' := by
  cases h with
  | ended c' => exact .ended c'
  | stray c' hplace hwithin => exact .stray c' (hle.trans hplace) fun hc => hwithin (hd hc)
  | refused c' hplace hwithin hreads =>
    exact .refused c' (hle.trans hplace) (fun hc => hwithin (hd hc)) hreads
  | token hplace hwithin hreads hbehind =>
    exact .token (hle.trans hplace) (fun hc => hwithin (hd hc)) hreads hbehind

theorem place_le_blanks (index pos k : Nat) :
    toLex (index, pos) ≤ (toLex (index, pos + k) : Nat ×ₗ Nat) :=
  Prod.Lex.toLex_le_toLex.2 (Or.inr ⟨rfl, Nat.le_add_right pos k⟩)

theorem place_lt_following (index pos : Nat) :
    toLex (index, pos) < (toLex (index + 1, 0) : Nat ×ₗ Nat) :=
  Prod.Lex.toLex_lt_toLex.2 (Or.inl (Nat.lt_succ_self index))

/-- **One round.** -/
theorem next_round (all : List Chunk) (c : Cursor) : Round all c c.next.1 c.next.2 := by
  obtain ⟨index, pos, rest, chunks⟩ := c
  -- lines without a token are left one by one, and each of them leads to a later place
  induction chunks generalizing index pos rest with
  | nil => exact .ended _
  | cons chunk later ih =>
    have hplace : (Cursor.mk index pos rest (chunk :: later)).place
        ≤ toLex (index, pos + (rest.takeWhile isBlank).length) :=
      place_le_blanks index pos _
    simp only [next]
    cases hdrop : rest.dropWhile isBlank with
    | nil =>
      cases hliteral : chunk.literal with
      | some literal =>
        rw [nextAt_stray hdrop (by simp [hliteral])]
        exact .stray _ hplace fun h => hdrop ▸ within_blanks h
      | none =>
        rw [nextAt_lineBlank hdrop hliteral]
        have hforward : (Cursor.mk index pos rest (chunk :: later)).place
            ≤ (following index later).place :=
          (place_lt_following index pos).le
        exact (ih _ _ _).of_le hforward within_following
    | cons b ahead =>
      obtain ⟨result, behind, hreads, htoken⟩ := nextAt_token hdrop chunk
      rw [htoken]
      cases result with
      | error cause => exact .refused _ hplace (fun h => hdrop ▸ within_blanks h) hreads
      | ok t => exact .token hplace (fun h => hdrop ▸ within_blanks h) hreads rfl

theorem round_of_next {c c' : Cursor} {result : Except LexFault (Option Token)} (all : List Chunk)
    (h : c.next = (result, c')) : Round all c result c' := by
  have hround := next_round all c
  rwa [h] at hround

/-- **A token leads to a later place.** -/
theorem next_forward {c c' : Cursor} {t : Token} (h : c.next = (.ok (some t), c')) :
    c.place < c'.place := by
  cases round_of_next [] h with
  | @token index pos ahead chunk later t behind c' hplace hwithin hreads hbehind =>
    refine hplace.trans_lt ?_
    cases behind with
    | none =>
      subst hbehind
      exact place_lt_following index pos
    | some behind =>
      obtain ⟨p, hfits, rfl, -⟩ := hreads.part
      rw [placeAfter_used] at hbehind
      subst hbehind
      exact Prod.Lex.toLex_lt_toLex.2 (Or.inr ⟨rfl, Nat.lt_add_of_pos_right hfits.length_pos⟩)

/-- The place behind a token is within the chunks again. -/
theorem next_within {c c' : Cursor} {t : Token} (h : Within all c)
    (hnext : c.next = (.ok (some t), c')) : Within all c' := by
  cases round_of_next all hnext with
  | @token index pos ahead chunk later t behind c' hplace hwithin hreads hbehind =>
    cases behind with
    | none =>
      subst hbehind
      exact within_following (hwithin h)
    | some behind =>
      obtain ⟨p, -, rfl, -⟩ := hreads.part
      rw [placeAfter_used] at hbehind
      subst hbehind
      exact within_used (hwithin h)

/-! ## Faults -/

/-- The place of a fault is on a line of the chunks, and the fault holds that line. -/
def PointsInto (all : List Chunk) (fault : LexFault) : Prop :=
  ∃ chunk, all[fault.chunk]? = some chunk ∧ fault.line = chunk.line ∧
    fault.pos ≤ chunk.line.length

theorem next_fault {c c' : Cursor} {fault : LexFault} (h : Within all c)
    (hnext : c.next = (.error fault, c')) : PointsInto all fault := by
  cases round_of_next all hnext with
  | stray c' hplace hwithin => exact ⟨_, (hwithin h).getElem?, rfl, (hwithin h).pos⟩
  | refused c' hplace hwithin hreads => exact ⟨_, (hwithin h).getElem?, rfl, (hwithin h).pos⟩

/-- **A fault points into the input.** -/
theorem scan_fault {c : Cursor} {fault : LexFault} (h : Within all c)
    (hfault : c.scan.fault = some fault) : PointsInto all fault := by
  fun_induction scan c with
  | case1 c t c' hnext s ih => exact ih (next_within h hnext) hfault
  | case2 c c' hnext => cases hfault
  | case3 c found c' hnext =>
    cases hfault
    exact next_fault h hnext

end Cursor

end ImapWire
