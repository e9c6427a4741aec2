/-
  Spaces in front of a response.

  Words of a line are cut at spaces, and spaces in front of a word are skipped.  So spaces in front of
  the line should say nothing: the first word is found behind them, and all that follows is read from
  where that word ends.

  1. **Tokens** are read from a place of the first line on.  What the line had in front of that place
     plays no part in them, but for the messages of failures (`Yields.of_line`,
     `Tree.parseFrom_sameBy`).

  2. **Words and text** are the same at two places with the same bytes ahead (`Place.Abreast`), and so
     is a code with its values (`readText_sameBy`).

  3. **A response** is then read alike with spaces in front of it and without (`parse_sameBy_behind`),
     with one exception.  The text of a request to go on is not taken from behind its first word but
     from the second byte of the line.  With a space in front, that byte is the plus sign or comes
     before it, and the plus sign becomes a part of the text (`parse_indented`).
-/
import ImapWire.Proofs.Response.LineAlone
import ImapWire.Proofs.Response.Values
import ImapWire.Proofs.Response.Words
import ImapWire.Proofs.Result
import ImapWire.Proofs.Token.Joined

namespace ImapWire

open Bytes (isBlank)
open Result (SameBy sameBy_ok sameBy_error sameBy_bind sameBy_iff)

/-! ## Tokens -/

namespace Cursor

/-- Two cursors with the same bytes ahead.  The lines that they stand on may have begun differently;
    all later lines are the same. -/
inductive Abreast : Cursor → Cursor → Prop
  | same (c : Cursor) : Abreast c c
  | line (index pos : Nat) (rest line line' : Bytes) (literal : Option Bytes)
      (later : List Chunk) :
      Abreast ⟨index, pos, rest, ⟨line, literal⟩ :: later⟩
        ⟨index, pos, rest, ⟨line', literal⟩ :: later⟩

variable {c d c' : Cursor} {t : Token}

/-- A token is read without a look at what is behind it. -/
theorem tokenAt_abreast {index pos : Nat} {b : UInt8} {ahead line : Bytes}
    {literal : Option Bytes} {later : List Chunk}
    (h : tokenAt index pos b ahead ⟨line, literal⟩ later = (.ok t, c')) (line' : Bytes) :
    ∃ d', tokenAt index pos b ahead ⟨line', literal⟩ later = (.ok t, d') ∧ Abreast c' d' := by
  -- the line is looked at for the place and the message of a failure only
  have htake : ∀ inner, takeLiteral ⟨line', literal⟩ inner = takeLiteral ⟨line, literal⟩ inner :=
    fun _ => rfl
  unfold tokenAt at h ⊢
  dsimp only at h ⊢
  simp only [htake]
  generalize Bracket.opened? b = opened, Bracket.closed? b = closed at h ⊢
  cases opened with
  | some bracket =>
    cases h
    exact ⟨_, rfl, .line ..⟩
  | none =>
    cases closed with
    | some bracket =>
      cases h
      exact ⟨_, rfl, .line ..⟩
    | none =>
      by_cases hquote : b = Bytes.quote
      · simp only [if_pos hquote] at h ⊢
        generalize Quoted.read ahead = reading at h ⊢
        cases reading with
        | none => cases h
        | some r =>
          cases h
          exact ⟨_, rfl, .line ..⟩
      · simp only [if_neg hquote] at h ⊢
        generalize (if (ahead.dropWhile fun c => !Bytes.isDelimiter c).all isBlank then
          Marker.inner? (b :: ahead.takeWhile fun c => !Bytes.isDelimiter c) else none) = marker
          at h ⊢
        cases marker with
        | none =>
          cases h
          exact ⟨_, rfl, .line ..⟩
        | some inner =>
          dsimp only at h ⊢
          generalize takeLiteral ⟨line, literal⟩ inner = taken at h ⊢
          cases taken with
          | error cause => cases h
          | ok bs =>
            cases h
            exact ⟨_, rfl, .same _⟩

/-- **One token**, or none. -/
theorem next_abreast {found : Option Token} (h : Abreast c d) (hnext : c.next = (.ok found, c')) :
    ∃ d', d.next = (.ok found, d') ∧ Abreast c' d' := by
  cases h with
  | same => exact ⟨c', hnext, .same c'⟩
  | line index pos rest line line' literal later =>
    simp only [next] at hnext ⊢
    cases hdrop : rest.dropWhile isBlank with
    | nil =>
      cases hliteral : literal with
      | some bs =>
        subst hliteral
        rw [nextAt_stray hdrop (by simp)] at hnext
        cases hnext
      | none =>
        subst hliteral
        rw [nextAt_lineBlank hdrop rfl] at hnext ⊢
        exact ⟨c', hnext, .same c'⟩
    | cons b ahead =>
      simp only [nextAt, hdrop] at hnext ⊢
      cases htoken : tokenAt index (pos + (rest.takeWhile isBlank).length) b ahead ⟨line, literal⟩
          later with
      | mk result behind =>
        rw [htoken] at hnext
        cases result with
        | error fault => cases hnext
        | ok t =>
          cases hnext
          obtain ⟨d', htoken', habreast⟩ := tokenAt_abreast htoken line'
          rw [htoken']
          exact ⟨d', rfl, habreast⟩

/-- **A whole scan** finds the same tokens. -/
theorem scan_abreast {toks : List Token} (h : Abreast c d) (hscan : c.scan = ⟨toks, none⟩) :
    d.scan = ⟨toks, none⟩ := by
  fun_induction scan c generalizing d toks with
  | case1 c t c' hnext s =>
    rename_i ih
    obtain ⟨htoks, hfault⟩ := Scan.mk.inj hscan
    obtain ⟨d', hnext', hd'⟩ := next_abreast h hnext
    have hlater : d'.scan = ⟨c'.scan.tokens, none⟩ := ih hd' (by rw [← hfault])
    rw [scan_of_token hnext', hlater, ← htoks]
  | case2 c c' hnext =>
    cases hscan
    obtain ⟨d', hnext', -⟩ := next_abreast h hnext
    exact scan_of_end hnext'
  | case3 c f c' hnext => cases hscan

end Cursor

/-- What is found ahead does not depend on how the line began. -/
theorem Yields.of_line {rest line : Bytes} {literal : Option Bytes} {later : List Chunk}
    {toks : List Token} (h : Yields rest (⟨line, literal⟩ :: later) toks) (line' : Bytes) :
    Yields rest (⟨line', literal⟩ :: later) toks :=
  fun index pos => Cursor.scan_abreast (.line index pos rest line line' literal later) (h index pos)

section Lines

variable {line line' : Bytes} {literal : Option Bytes} {later : List Chunk} {pos pos' : Nat}

theorem Tree.parseFrom_of_drop {ts : List Tree} (hdrop : line'.drop pos' = line.drop pos)
    (h : Tree.parseFrom (⟨line, literal⟩ :: later) pos = .ok ts) :
    Tree.parseFrom (⟨line', literal⟩ :: later) pos' = .ok ts := by
  obtain ⟨hfault, -, -⟩ := Tree.ofScan_ok h
  obtain ⟨toks, hscan⟩ : ∃ toks,
      (Cursor.startAt (⟨line, literal⟩ :: later) pos).scan = ⟨toks, none⟩ :=
    ⟨_, by rw [← hfault]⟩
  have hyields : Yields (line.drop pos) (⟨line', literal⟩ :: later) toks :=
    (Yields.of_scan hscan).of_line line'
  have hscan' : (Cursor.startAt (⟨line', literal⟩ :: later) pos').scan = ⟨toks, none⟩ := by
    rw [← hdrop] at hyields
    exact hyields 0 pos'
  unfold Tree.parseFrom at h ⊢
  rw [hscan', ← hscan]
  exact h

/-- **Trees** that are read from the same bytes on. -/
theorem Tree.parseFrom_sameBy (hdrop : line'.drop pos' = line.drop pos) :
    SameBy id (Tree.parseFrom (⟨line, literal⟩ :: later) pos)
      (Tree.parseFrom (⟨line', literal⟩ :: later) pos') :=
  sameBy_iff.2 fun _ => ⟨Tree.parseFrom_of_drop hdrop, Tree.parseFrom_of_drop hdrop.symm⟩

/-! ## Words and text -/

namespace Place

variable {p q : Place}

/-- Places of two lines with the same bytes ahead. -/
structure Abreast (line line' : Bytes) (p q : Place) : Prop where
  left : p.On line
  right : q.On line'
  rest : q.rest = p.rest

theorem Abreast.skip (h : Abreast line line' p q) (skipped : UInt8 → Bool) :
    Abreast line line' (p.skip skipped) (q.skip skipped) :=
  ⟨h.left.skip skipped, h.right.skip skipped, congrArg (List.dropWhile skipped) h.rest⟩

theorem Abreast.word (h : Abreast line line' p q) :
    q.word.1 = p.word.1 ∧ Abreast line line' p.word.2 q.word.2 :=
  ⟨congrArg (List.takeWhile _) (h.skip (· == Bytes.space)).rest, (h.skip _).skip _⟩

theorem Abreast.text (h : Abreast line line' p q) : q.text = p.text :=
  congrArg Bytes.text (h.skip (· == Bytes.space)).rest

end Place

namespace Response

open Place (Abreast)

variable {p q : Place}

theorem readCode_sameBy (code line line' : Bytes) :
    SameBy id (readCode code line) (readCode code line') := by
  unfold readCode
  refine sameBy_bind _ fun trees => ?_
  split
  · exact sameBy_error ..
  · exact SameBy.refl ..

/-- **A code and text** are read alike. -/
theorem readText_sameBy (h : Abreast line line' p q) :
    SameBy id (readText line p) (readText line' q) := by
  have hskip := h.skip (· == Bytes.space)
  have hrest : q.skipSpaces.rest = p.skipSpaces.rest := hskip.rest
  have htext : q.skipSpaces.text = p.skipSpaces.text := hskip.text
  unfold readText
  dsimp only
  rw [hrest, htext]
  split
  · split
    · exact sameBy_error ..
    · refine (readCode_sameBy _ line line').bind fun code code' hcode => ?_
      obtain rfl : code = code' := hcode
      exact sameBy_ok rfl
  · exact SameBy.refl ..

theorem oneChunk_sameBy {chunks chunks' : List Chunk} (h : chunks.length = chunks'.length)
    (line line' : Bytes) : SameBy id (oneChunk chunks line) (oneChunk chunks' line') := by
  unfold oneChunk
  rw [h]
  split
  · exact SameBy.refl ..
  · exact sameBy_error ..

theorem readCompletion_sameBy (tag : Bytes) (h : Abreast line line' p q) :
    SameBy id (readCompletion tag line p) (readCompletion tag line' q) := by
  obtain ⟨hword, hbehind⟩ := h.word
  unfold readCompletion
  dsimp only
  rw [hword]
  split
  · exact sameBy_error ..
  · refine (readText_sameBy hbehind).bind fun text text' htext => ?_
    obtain rfl : text = text' := htext
    exact SameBy.refl ..

end Response

namespace ServerData

open Place (Abreast)

variable {p q : Place}

theorem valuesFrom_sameBy (h : Abreast line line' p q) :
    SameBy id (valuesFrom (⟨line, literal⟩ :: later) p)
      (valuesFrom (⟨line', literal⟩ :: later) q) := by
  have hdrop : line'.drop q.pos = line.drop p.pos := by rw [← h.right, ← h.left, h.rest]
  refine (Tree.parseFrom_sameBy hdrop).bind fun ts ts' hts => ?_
  obtain rfl : ts = ts' := hts
  exact SameBy.refl ..

/-- **Data** is read alike. -/
theorem read_sameBy (options : Options) (h : Abreast line line' p q) :
    SameBy id (read options (⟨line, literal⟩ :: later) line p)
      (read options (⟨line', literal⟩ :: later) line' q) := by
  obtain ⟨hword, hbehind⟩ := h.word
  obtain ⟨hname, hvalues⟩ := hbehind.word
  unfold read
  dsimp only
  rw [hword, hname]
  split
  · refine (valuesFrom_sameBy hvalues).bind fun vs vs' hvs => ?_
    obtain rfl : vs = vs' := hvs
    exact SameBy.refl ..
  · split
    · refine (Response.oneChunk_sameBy rfl line line').bind fun _ _ _ => ?_
      refine (Response.readText_sameBy hbehind).bind fun text text' htext => ?_
      obtain rfl : text = text' := htext
      exact SameBy.refl ..
    · refine (valuesFrom_sameBy hbehind).bind fun vs vs' hvs => ?_
      obtain rfl : vs = vs' := hvs
      exact sameBy_iff.2 fun d => readNamed_eq_ok_iff.trans readNamed_eq_ok_iff.symm

end ServerData

end Lines

/-! ## Responses -/

namespace Place

/-- Spaces in front of a line are skipped in front of its first word. -/
theorem abreast_indented (k : Nat) (line : Bytes) :
    Abreast line (List.replicate k Bytes.space ++ line) (ofLine line 0).skipSpaces
      (ofLine (List.replicate k Bytes.space ++ line) 0).skipSpaces := by
  refine ⟨(on_ofLine line 0).skip _, (on_ofLine _ 0).skip _, ?_⟩
  show (List.replicate k Bytes.space ++ line).dropWhile _ = line.dropWhile _
  exact List.dropWhile_append_of_pos fun b hb => by
    rw [List.eq_of_mem_replicate hb]
    rfl

/-- From the second byte on, the text is the whole line if its first byte is a space. -/
theorem text_of_space {line : Bytes} (h : line.head? = some Bytes.space) :
    (ofLine line 1).text = (ofLine line 0).text := by
  obtain ⟨rest, rfl⟩ : ∃ rest, line = Bytes.space :: rest := List.head?_eq_some_iff.1 h
  rfl

/-- So it is with spaces in front of the line. -/
theorem text_indented {k : Nat} (hk : 0 < k) (line : Bytes) :
    (ofLine (List.replicate k Bytes.space ++ line) 1).text = (ofLine line 0).text := by
  have hhead : (List.replicate k Bytes.space ++ line).head? = some Bytes.space := by
    obtain ⟨n, rfl⟩ := Nat.exists_eq_add_one.2 hk
    rfl
  rw [text_of_space hhead]
  exact congrArg Bytes.text (abreast_indented k line).rest

end Place

/-- A text that is cut off at the front is no longer than it was. -/
theorem Utf8.length_decode_skipSpaces_le (bs : Bytes) :
    (decode (bs.dropWhile (· == Bytes.space))).length ≤ (decode bs).length := by
  induction bs with
  | nil => exact Nat.le_refl 0
  | cons b bs ih =>
    by_cases hb : b = Bytes.space
    · subst hb
      rw [decode_cons_ascii (by decide), List.length_cons]
      exact Nat.le_succ_of_le ih
    · have hnot : (b == Bytes.space) = false := beq_eq_false_iff_ne.2 hb
      rw [List.dropWhile_cons, hnot]
      exact Nat.le_refl _

namespace Response

/-- A response with spaces in front of its first line. -/
def indent (k : Nat) : List Chunk → List Chunk
  | [] => []
  | first :: later => ⟨List.replicate k Bytes.space ++ first.line, first.literal⟩ :: later

/-- What stands behind a plus sign at the start of a line: perhaps text. -/
def textBehindPlus (line : Bytes) : Option String :=
  if (Place.ofLine line 1).text.isEmpty then none else some (Place.ofLine line 1).text

variable {options : Options} {first : Chunk} {later : List Chunk} {k : Nat}

/-- **A response with spaces in front** is read like the one without, unless a plus sign stands at the
    start of the line. -/
theorem parse_sameBy_behind (options : Options) (hk : 0 < k)
    (hplus : first.line.head? ≠ some Bytes.plus) :
    SameBy id (parse options (indent k (first :: later))) (parse options (first :: later)) := by
  obtain ⟨line, literal⟩ := first
  have habreast := Place.abreast_indented k line
  have hword : (Place.ofLine (List.replicate k Bytes.space ++ line) 0).word.1
      = (Place.ofLine line 0).word.1 := congrArg (List.takeWhile _) habreast.rest
  have hbehind : Place.Abreast line (List.replicate k Bytes.space ++ line)
      (Place.ofLine line 0).word.2
      (Place.ofLine (List.replicate k Bytes.space ++ line) 0).word.2 := habreast.skip _
  unfold parse indent
  dsimp only
  rw [hword]
  split
  · exact sameBy_error ..
  · split
    · next hcontinuation =>
      -- the plus sign is found behind a space, so the text is the whole line in both
      have hspace : line.head? = some Bytes.space := by
        cases line with
        | nil => cases hcontinuation
        | cons b rest =>
          by_cases hb : b = Bytes.space
          · rw [hb]
            rfl
          · have hnot : (b == Bytes.space) = false := beq_eq_false_iff_ne.2 hb
            have hfirst : (Place.ofLine (b :: rest) 0).word.1.head? = some b := by
              simp [Place.word, Place.skipSpaces, Place.skip, Place.ofLine, hnot, hb]
            exact absurd (hfirst.symm.trans hcontinuation) hplus
      rw [Place.text_indented hk, Place.text_of_space hspace]
      refine (oneChunk_sameBy rfl _ _).bind fun _ _ _ => ?_
      exact SameBy.refl ..
    · split
      · refine (ServerData.read_sameBy options hbehind).symm.map fun d d' hd => ?_
        exact congrArg Response.data hd
      · refine (oneChunk_sameBy rfl _ _).bind fun _ _ _ => ?_
        exact (readCompletion_sameBy _ hbehind).symm

/-- A plus sign at the start of the line, with or without spaces in front of it. -/
theorem parse_plus (options : Options) (k : Nat) (later : List Chunk)
    (hplus : first.line.head? = some Bytes.plus) :
    parse options (first :: later) = (oneChunk (first :: later) first.line >>= fun _ =>
      .ok (.continuation (textBehindPlus first.line))) ∧
    (0 < k → parse options (indent k (first :: later)) =
      (oneChunk (indent k (first :: later)) (List.replicate k Bytes.space ++ first.line) >>= fun _ =>
        .ok (.continuation (some first.line.text)))) := by
  obtain ⟨line, literal⟩ := first
  obtain ⟨rest, rfl⟩ : ∃ rest, line = Bytes.plus :: rest := List.head?_eq_some_iff.1 hplus
  have hword : (Place.ofLine (Bytes.plus :: rest) 0).word.1.head? = some Bytes.plus := rfl
  have hempty : (Place.ofLine (Bytes.plus :: rest) 0).word.1.isEmpty = false := rfl
  refine ⟨?_, fun hk => ?_⟩
  · unfold parse
    dsimp only
    rw [hempty, if_neg Bool.false_ne_true, if_pos hword]
    rfl
  · have hsame : (Place.ofLine (List.replicate k Bytes.space ++ Bytes.plus :: rest) 0).word.1
        = (Place.ofLine (Bytes.plus :: rest) 0).word.1 :=
      congrArg (List.takeWhile _) (Place.abreast_indented k (Bytes.plus :: rest)).rest
    have htext : (Place.ofLine (Bytes.plus :: rest) 0).text = Bytes.text (Bytes.plus :: rest) := rfl
    have hsome : (Bytes.text (Bytes.plus :: rest)).isEmpty = false := by
      rw [String.isEmpty_eq_false_iff]
      intro h
      have hlist := congrArg String.toList h
      rw [Bytes.toList_text, Utf8.decode_cons_ascii (by decide)] at hlist
      cases hlist
    unfold parse indent
    dsimp only
    rw [hsame, hempty, if_neg Bool.false_ne_true, if_pos hword, Place.text_indented hk, htext,
      hsome]
    rfl

/-- The text behind a plus sign is not the whole line. -/
theorem textBehindPlus_ne {line : Bytes} (hplus : line.head? = some Bytes.plus) :
    textBehindPlus line ≠ some line.text := by
  obtain ⟨rest, rfl⟩ : ∃ rest, line = Bytes.plus :: rest := List.head?_eq_some_iff.1 hplus
  unfold textBehindPlus
  split
  · nofun
  · intro h
    have hlist := congrArg String.toList (Option.some.inj h)
    have hbehind : (Place.ofLine (Bytes.plus :: rest) 1).text.toList
        = Utf8.decode (rest.dropWhile (· == Bytes.space)) := Bytes.toList_text _
    rw [hbehind, Bytes.toList_text, Utf8.decode_cons_ascii (by decide)] at hlist
    have hlength := congrArg List.length hlist
    have hle := Utf8.length_decode_skipSpaces_le rest
    rw [List.length_cons] at hlength
    omega

/-- **What spaces in front of a response change.**  With them and without, the same responses are
    accepted, and read as the same, except for a request to go on that has its plus sign at the start
    of the line: its text is then the whole line, with the plus sign, and not what stands behind it. -/
theorem parse_indented (options : Options) (k : Nat) :
    (∀ chunks, (∀ r, parse options (indent k chunks) = .ok r ↔ parse options chunks = .ok r) ↔
      (0 < k → ∀ first, chunks = [first] → first.line.head? ≠ some Bytes.plus)) ∧
    ∀ first, 0 < k → first.line.head? = some Bytes.plus →
      parse options [first] = .ok (.continuation (textBehindPlus first.line)) ∧
        parse options (indent k [first]) = .ok (.continuation (some first.line.text)) := by
  have hone : ∀ first : Chunk, 0 < k → first.line.head? = some Bytes.plus →
      parse options [first] = .ok (.continuation (textBehindPlus first.line)) ∧
        parse options (indent k [first]) = .ok (.continuation (some first.line.text)) := by
    intro first hk hplus
    obtain ⟨hwithout, hwith⟩ := parse_plus options k [] hplus
    exact ⟨hwithout, hwith hk⟩
  refine ⟨fun chunks => ⟨?_, ?_⟩, hone⟩
  · rintro hsame hk first rfl hplus
    obtain ⟨hwithout, hwith⟩ := hone first hk hplus
    have htext := (hsame _).1 hwith
    rw [hwithout] at htext
    exact textBehindPlus_ne hplus (Response.continuation.inj (Except.ok.inj htext))
  · intro hplus
    cases chunks with
    | nil => exact fun _ => Iff.rfl
    | cons first later =>
      rcases Nat.eq_zero_or_pos k with rfl | hk
      · exact fun _ => Iff.rfl
      · by_cases hstart : first.line.head? = some Bytes.plus
        · -- then there are further chunks, and the response is refused
          have hlater : later ≠ [] := fun h => hplus hk first (by rw [h]) hstart
          obtain ⟨hwithout, hwith⟩ := parse_plus options k later hstart
          rw [hwithout, hwith hk, oneChunk_cons hlater]
          unfold indent
          rw [oneChunk_cons hlater]
          exact fun _ => ⟨nofun, nofun⟩
        · exact sameBy_iff.1 (parse_sameBy_behind options hk hstart)

/-- Two spaces in front of a response with a literal change nothing; in front of a request to go on
    they bring its plus sign into the text. -/
theorem parse_indented_two :
    (∀ r, parse default (indent 2 [⟨Bytes.ofString "* 1 FETCH (BODY[] {2}", some (Bytes.ofString "ab")⟩,
          .plain (Bytes.ofString ")")]) = .ok r ↔
        parse default [⟨Bytes.ofString "* 1 FETCH (BODY[] {2}", some (Bytes.ofString "ab")⟩,
          .plain (Bytes.ofString ")")] = .ok r) ∧
      (0 < 2 ∧ (Bytes.ofString "+ idle").head? = some Bytes.plus) ∧
      parse default [.plain (Bytes.ofString "+ idle")] = .ok (.continuation (some "idle")) ∧
      parse default [.plain (Bytes.ofString "  + idle")] = .ok (.continuation (some "+ idle")) := by
  have hplus : (Bytes.ofString "+ idle").head? = some Bytes.plus := by decide
  obtain ⟨hwithout, hwith⟩ :=
    (parse_indented default 2).2 (.plain (Bytes.ofString "+ idle")) (by decide) hplus
  have hliteral := ((parse_indented default 2).1
    [⟨Bytes.ofString "* 1 FETCH (BODY[] {2}", some (Bytes.ofString "ab")⟩,
      .plain (Bytes.ofString ")")]).2 fun _ first h => by cases h
  exact ⟨hliteral, ⟨by decide, hplus⟩, hwithout, hwith⟩

/-- One space in front is enough for the text to be another one. -/
theorem parse_indented_lost :
    parse default [.plain (Bytes.ofString "+ idle")] = .ok (.continuation (some "idle")) ∧
      parse default (indent 1 [.plain (Bytes.ofString "+ idle")]) =
        .ok (.continuation (some "+ idle")) :=
  ⟨rfl, rfl⟩

end Response

end ImapWire
