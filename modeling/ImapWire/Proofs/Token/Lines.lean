/-
  A scan, line by line.

  What a scan finds on a line is read off the parts of the line (`Stands`): one token for each part
  that is no blank, but where the last of them is a marker, the literal of the chunk in its place.
  A chunk whose line does not end with a marker has no literal.

  1. **One line** (`Cursor.scan_line`).  A scan that fails nowhere divides what is ahead of it on its
     line, part by part, and then stands at the start of the next line.  The induction is on the
     bytes that are ahead; each token puts its part, and the blanks in front of it, in front of the
     parts behind it (`Stands.cons`).

  2. **All lines** (`Cursor.scan_lines`), by induction on the chunks.

  With the facts about divisions and places this says that a scan accounts for every byte exactly
  once (`Cursor.scan_parts`).
-/
import Mathlib.Data.List.Forall2
import ImapWire.Proofs.Token.Joined
import ImapWire.Proofs.Token.Literals
import ImapWire.Proofs.Token.Places

namespace ImapWire

open Bytes (isBlank isDelimiter)

/-! ## What a line stands for -/

/-- What the parts of a line stand for, with the literal behind the line. -/
inductive Stands (literal : Option Bytes) : List Part → List Token → Prop
  /-- The line does not end with a marker. -/
  | plain {parts : List Part}
      (hplain : ∀ (front : List Part) (marker blanks : Bytes),
        parts = front ++ .run marker :: blanks.map Part.blank →
          ∀ digits, ¬ Marker.Shape marker digits)
      (hliteral : literal = none) : Stands literal parts (parts.filterMap Part.token?)
  /-- It ends with one, and the literal has the length that the marker says. -/
  | literal {front : List Part} {marker digits blanks bs : Bytes}
      (hmarker : Marker.Shape marker digits) (hlength : Decimal.value digits = bs.length)
      (hliteral : literal = some bs) :
      Stands literal (front ++ .run marker :: blanks.map Part.blank)
        (front.filterMap Part.token? ++ [.literal bs])

/-! ## Part by part -/

/-- The blanks in front of a part are parts. -/
theorem Divides.blanks {blanks after : Bytes} {parts : List Part}
    (hblanks : ∀ b ∈ blanks, isBlank b = true) (h : Divides after parts) :
    Divides (blanks ++ after) (blanks.map Part.blank ++ parts) := by
  induction blanks with
  | nil => exact h
  | cons b blanks ih =>
    have hb : (Part.blank b).Fits (blanks ++ after) := hblanks b List.mem_cons_self
    exact .cons hb (ih fun c hc => hblanks c (List.mem_cons_of_mem b hc))

/-- Where all parts are blanks, so are all bytes. -/
theorem Divides.isBlank_of_blanks {line blanks : Bytes} (h : Divides line (blanks.map Part.blank)) :
    ∀ b ∈ line, isBlank b = true := by
  induction blanks generalizing line with
  | nil =>
    cases h
    nofun
  | cons b blanks ih =>
    cases h with
    | cons hp h =>
      intro c hc
      rcases List.mem_cons.1 hc with rfl | hc
      · exact hp
      · exact ih h c hc

namespace Stands

variable {literal : Option Bytes} {parts : List Part} {toks : List Token}

/-- One part more in front, if it is no marker at the end of its line. -/
theorem cons (h : Stands literal parts toks) {p : Part}
    (hp : ∀ (marker blanks : Bytes), p = .run marker → parts = blanks.map Part.blank →
      ∀ digits, ¬ Marker.Shape marker digits) :
    Stands literal (p :: parts) (p.token?.toList ++ toks) := by
  have hfilter : ∀ more : List Part,
      (p :: more).filterMap Part.token? = p.token?.toList ++ more.filterMap Part.token? := by
    intro more
    cases hp : p.token? <;> simp [hp]
  cases h with
  | plain hplain hliteral =>
    rw [← hfilter]
    refine .plain ?_ hliteral
    intro front marker blanks hparts
    cases front with
    | nil =>
      obtain ⟨hrun, hblanks⟩ := List.cons.inj hparts
      exact hp marker blanks hrun hblanks
    | cons q front => exact hplain front marker blanks (List.cons.inj hparts).2
  | @literal front marker digits blanks bs hmarker hlength hliteral =>
    rw [← List.append_assoc, ← hfilter]
    have hfront : Stands literal ((p :: front) ++ .run marker :: blanks.map Part.blank)
        ((p :: front).filterMap Part.token? ++ [.literal bs]) :=
      .literal hmarker hlength hliteral
    exact hfront

/-- Blanks in front stand for nothing. -/
theorem blanks (h : Stands literal parts toks) (bs : Bytes) :
    Stands literal (bs.map Part.blank ++ parts) toks := by
  induction bs with
  | nil => exact h
  | cons b bs ih => exact ih.cons nofun

/-- A line of blanks stands for nothing. -/
theorem nil : Stands none [] [] := .plain (by simp) rfl

end Stands

/-! ## One line -/

namespace Cursor

variable {index pos : Nat} {rest ahead behind : Bytes} {chunk : Chunk} {later : List Chunk}
  {t : Token} {toks : List Token}

/-- A scan that fails nowhere skips blanks and leaves the line, or reads a token. -/
theorem scan_round (h : (Cursor.mk index pos rest (chunk :: later)).scan = ⟨toks, none⟩) :
    ∃ blanks ahead, (∀ b ∈ blanks, isBlank b = true) ∧ rest = blanks ++ ahead ∧
      ((ahead = [] ∧ chunk.literal = none ∧ (following index later).scan = ⟨toks, none⟩) ∨
        ∃ t behind place more, Reads chunk ahead (.ok t) behind ∧ toks = t :: more ∧
          (placeAfter index place ahead chunk later behind).scan = ⟨more, none⟩) := by
  have hblanks : ∀ b ∈ rest.takeWhile isBlank, isBlank b = true := by
    intro b hb
    exact List.all_eq_true.1 List.all_takeWhile b hb
  refine ⟨_, rest.dropWhile isBlank, hblanks, List.takeWhile_append_dropWhile.symm, ?_⟩
  generalize hc : Cursor.mk index pos rest (chunk :: later) = c at h
  have hnext : c.next = nextAt index pos rest (chunk :: later) := by rw [← hc]; rfl
  cases hdrop : rest.dropWhile isBlank with
  | nil =>
    by_cases hliteral : chunk.literal = none
    · rw [nextAt_lineBlank hdrop hliteral] at hnext
      have hsame : c.next = (following index later).next := hnext
      rw [scan_congr hsame] at h
      exact Or.inl ⟨rfl, hliteral, h⟩
    · rw [nextAt_stray hdrop hliteral] at hnext
      rw [scan_of_fault hnext] at h
      cases h
  | cons b ahead =>
    obtain ⟨result, behind, hreads, htoken⟩ := nextAt_token hdrop chunk
    rw [htoken] at hnext
    cases result with
    | error cause =>
      rw [scan_of_fault hnext] at h
      cases h
    | ok t =>
      rw [scan_of_token hnext] at h
      obtain ⟨htoks, hfault⟩ := Scan.mk.inj h
      refine Or.inr ⟨t, behind, pos + (rest.takeWhile isBlank).length, _, hreads, htoks.symm, ?_⟩
      rw [← hfault]

/-- An atom is no marker at the end of its line. -/
theorem Reads.not_marker {run digits : Bytes} (h : Reads chunk ahead (.ok (.atom run)) (some behind))
    (hblank : ∀ b ∈ behind, isBlank b = true) : ¬ Marker.Shape run digits := by
  intro hshape
  cases h with
  | atom hne hrun hcut hmarker =>
    have hnone := hmarker (List.all_eq_true.2 hblank)
    rw [Marker.inner?_of_shape hshape] at hnone
    cases hnone

/-- A literal stands for a marker at the end of its line. -/
theorem Reads.marker (h : Reads chunk ahead (.ok t) none) :
    ∃ marker digits blanks bs, ahead = marker ++ blanks ∧ (∀ b ∈ blanks, isBlank b = true) ∧
      (Part.run marker).Fits blanks ∧ t = .literal bs ∧ Marker.Shape marker digits ∧
        Decimal.value digits = bs.length ∧ chunk.literal = some bs := by
  cases h with
  | @literal run after inner bs hrun hcut hblank hinner htake =>
    obtain ⟨hliteral, hlength⟩ := takeLiteral_eq_ok_iff.1 htake
    obtain ⟨hnat, -⟩ := Decimal.natBelow?_eq_some.1 hlength
    obtain ⟨hnumber, hvalue⟩ := Option.ite_none_right_eq_some.1 hnat
    have hne : run ≠ [] := by
      rintro rfl
      cases hinner
    exact ⟨run, inner, after, bs, rfl, List.all_eq_true.1 hblank, ⟨hne, hrun, hcut⟩, rfl,
      Marker.shape_of_inner? hinner hnumber, Option.some.inj hvalue, hliteral⟩

/-- **One line.**  A scan that fails nowhere divides what is ahead on the line, finds there what its
    parts stand for, and goes on at the start of the next line. -/
theorem scan_line (h : (Cursor.mk index pos rest (chunk :: later)).scan = ⟨toks, none⟩) :
    ∃ parts found more, Divides rest parts ∧ Stands chunk.literal parts found ∧
      toks = found ++ more ∧ (following index later).scan = ⟨more, none⟩ := by
  induction hsize : rest.length using Nat.strong_induction_on generalizing pos rest toks with
  | _ size ih =>
    obtain ⟨blanks, ahead, hblanks, rfl, ⟨rfl, hliteral, hlater⟩ | hread⟩ := scan_round h
    · rw [hliteral]
      exact ⟨_, [], toks, .blanks hblanks .nil, Stands.nil.blanks blanks, rfl, hlater⟩
    · obtain ⟨t, behind, place, more, hreads, rfl, hmore⟩ := hread
      cases behind with
      | none =>
        -- a marker and its literal: there are only blanks behind it
        obtain ⟨marker, digits, after, bs, rfl, hafter, hfits, rfl, hshape, hlength, hliteral⟩ :=
          hreads.marker
        have hline : Stands chunk.literal ([] ++ .run marker :: after.map Part.blank)
            ([].filterMap Part.token? ++ [.literal bs]) :=
          .literal hshape hlength hliteral
        have hdivides : Divides (marker ++ after) (.run marker :: after.map Part.blank) := by
          have hbehind := Divides.blanks hafter .nil
          rw [List.append_nil, List.append_nil] at hbehind
          exact .cons hfits hbehind
        exact ⟨_, _, more, .blanks hblanks hdivides, hline.blanks blanks, rfl, hmore⟩
      | some behind =>
        -- a part of the line, and more of it ahead
        obtain ⟨p, hfits, rfl, htoken⟩ := hreads.part
        rw [placeAfter_used] at hmore
        have hlt : behind.length < size := by
          have hpos := hfits.length_pos
          rw [← hsize, List.length_append, List.length_append]
          omega
        obtain ⟨parts, found, more', hdivides, hstands, rfl, hlater⟩ := ih _ hlt hmore rfl
        have hcons : Stands chunk.literal (p :: parts) (p.token?.toList ++ found) := by
          refine hstands.cons ?_
          rintro marker blanks' rfl rfl digits
          cases htoken
          exact hreads.not_marker hdivides.isBlank_of_blanks
        rw [htoken] at hcons
        exact ⟨_, _, more', .blanks hblanks (.cons hfits hdivides), hcons.blanks blanks, rfl, hlater⟩

end Cursor

/-! ## All lines -/

/-- What a scan makes of a line. -/
structure LineRead where
  parts : List Part
  tokens : List Token

/-- The parts are those of the line of a chunk, and the tokens what they stand for. -/
structure LineRead.Of (chunk : Chunk) (l : LineRead) : Prop where
  divides : Divides chunk.line l.parts
  stands : Stands chunk.literal l.parts l.tokens

theorem Divides.length_le {line : Bytes} {parts : List Part} (h : Divides line parts) :
    parts.length ≤ line.length := by
  induction h with
  | nil => exact Nat.le_refl 0
  | @cons p after parts hp h ih =>
    have hpos := hp.length_pos
    rw [List.length_cons, List.length_append]
    omega

theorem Stands.length_le {literal : Option Bytes} {parts : List Part} {toks : List Token}
    (h : Stands literal parts toks) : toks.length ≤ parts.length := by
  cases h with
  | plain hplain hliteral => exact List.length_filterMap_le _ _
  | @literal front marker digits blanks bs hmarker hlength hliteral =>
    have hfront := List.length_filterMap_le Part.token? front
    simp only [List.length_append, List.length_cons, List.length_nil]
    omega

theorem LineRead.exists_of_mem {chunks : List Chunk} {lines : List LineRead}
    (h : List.Forall₂ LineRead.Of chunks lines) {chunk : Chunk} (hchunk : chunk ∈ chunks) :
    ∃ l, LineRead.Of chunk l := by
  induction h with
  | nil => cases hchunk
  | @cons first l chunks lines hl h ih =>
    rcases List.mem_cons.1 hchunk with rfl | hchunk
    · exact ⟨l, hl⟩
    · exact ih hchunk

namespace Cursor

/-- **All lines.**  A scan that fails nowhere reads every line to its end. -/
theorem scan_lines {index : Nat} {chunks : List Chunk} {toks : List Token}
    (h : (Cursor.mk index 0 (firstLine chunks) chunks).scan = ⟨toks, none⟩) :
    ∃ lines : List LineRead, List.Forall₂ LineRead.Of chunks lines ∧
      toks = lines.flatMap LineRead.tokens := by
  induction chunks generalizing index toks with
  | nil =>
    have hnone := Yields.nil (firstLine []) index 0
    rw [h] at hnone
    cases hnone
    exact ⟨[], .nil, rfl⟩
  | cons chunk later ih =>
    obtain ⟨parts, found, more, hdivides, hstands, rfl, hlater⟩ := scan_line h
    obtain ⟨lines, hlines, rfl⟩ := ih hlater
    exact ⟨⟨parts, found⟩ :: lines, .cons ⟨hdivides, hstands⟩ hlines, rfl⟩

theorem length_tokens_le {chunks : List Chunk} {lines : List LineRead}
    (h : List.Forall₂ LineRead.Of chunks lines) :
    (lines.flatMap LineRead.tokens).length ≤ (chunks.flatMap Chunk.line).length := by
  induction h with
  | nil => exact Nat.le_refl 0
  | @cons chunk l chunks lines hl h ih =>
    have hline := hl.stands.length_le.trans hl.divides.length_le
    rw [List.flatMap_cons, List.flatMap_cons, List.length_append, List.length_append]
    exact Nat.add_le_add hline ih

/-- **A scan accounts for every byte exactly once.**  Where it fails nowhere, each line has one
    division into blanks, brackets, quoted strings and runs; the tokens are what the parts stand for,
    line by line; a byte that is no blank is in exactly one part that is a token; and there are no
    more tokens than bytes, for each token brings the scan to a later place.  The tokens of two
    responses in a row are those of the first one and then those of the other. -/
theorem scan_parts :
    (∀ (chunks : List Chunk) (toks : List Token), (start chunks).scan = ⟨toks, none⟩ →
      (∃ lines : List LineRead, List.Forall₂ LineRead.Of chunks lines ∧
        toks = lines.flatMap LineRead.tokens) ∧
      (∀ chunk ∈ chunks, ∃! parts, Divides chunk.line parts) ∧
      (∀ chunk ∈ chunks, ∀ parts, Divides chunk.line parts →
        ∀ (i : Nat) (b : UInt8), chunk.line[i]? = some b → isBlank b = false →
          ∃! q, q ∈ Part.placed 0 parts ∧ q.2.token?.isSome = true ∧ Part.Holds i q) ∧
      toks.length ≤ (chunks.flatMap Chunk.line).length) ∧
    (∀ (c c' : Cursor) (t : Token), c.next = (.ok (some t), c') → c.place < c'.place) ∧
    (∀ (chunks more : List Chunk) (toks toks' : List Token),
      (start chunks).scan = ⟨toks, none⟩ → (start more).scan = ⟨toks', none⟩ →
        (start (chunks ++ more)).scan = ⟨toks ++ toks', none⟩) := by
  refine ⟨?_, fun c c' t => next_forward, ?_⟩
  · intro chunks toks h
    obtain ⟨lines, hlines, rfl⟩ := scan_lines h
    refine ⟨⟨lines, hlines, rfl⟩, ?_, ?_, length_tokens_le hlines⟩
    · intro chunk hchunk
      obtain ⟨l, hl⟩ := LineRead.exists_of_mem hlines hchunk
      exact ⟨l.parts, hl.divides, fun parts h => h.unique hl.divides⟩
    · intro chunk hchunk parts hparts i b hi hb
      obtain ⟨hlt, -⟩ := List.getElem?_eq_some_iff.1 hi
      obtain ⟨q, ⟨hq, hholds⟩, hunique⟩ :=
        hparts.existsUnique_placed (Nat.zero_le i) (by rwa [Nat.zero_add])
      exact ⟨q, ⟨hq, hparts.token_of_holds hi hb hq hholds, hholds⟩,
        fun q' h => hunique q' ⟨h.1, h.2.2⟩⟩
  · intro chunks more toks toks' h hmore
    exact (Yields.append (Yields.of_scan h) (Yields.of_scan hmore)).scan_start

/-- A marker with its literal, and two more lines behind it. -/
theorem scan_parts_marker :
    (∃! parts, Divides (Bytes.ofString "a(\"b\\\"\" {2}") parts) ∧
    (start [⟨Bytes.ofString "a(\"b\\\"\" {2}", some (Bytes.ofString "xy")⟩,
        .plain (Bytes.ofString " NIL)"), .plain (Bytes.ofString "[x]")]).scan
      = ⟨[.atom (Bytes.ofString "a"), .opening .round, .quoted (Bytes.ofString "b\""),
          .literal (Bytes.ofString "xy"), .atom (Bytes.ofString "NIL"), .closing .round,
          .opening .square, .atom (Bytes.ofString "x"), .closing .square], none⟩ ∧
    (start [.plain (Bytes.ofString "[x]")]).place
      < (Cursor.mk 0 1 (Bytes.ofString "x]") [.plain (Bytes.ofString "[x]")]).place := by
  obtain ⟨hscan, hforward, happend⟩ := scan_parts
  have hfirst : (start [⟨Bytes.ofString "a(\"b\\\"\" {2}", some (Bytes.ofString "xy")⟩,
        .plain (Bytes.ofString " NIL)")]).scan
      = ⟨[.atom (Bytes.ofString "a"), .opening .round, .quoted (Bytes.ofString "b\""),
          .literal (Bytes.ofString "xy"), .atom (Bytes.ofString "NIL"), .closing .round], none⟩ := by
    decide +kernel
  have hlast : (start [.plain (Bytes.ofString "[x]")]).scan
      = ⟨[.opening .square, .atom (Bytes.ofString "x"), .closing .square], none⟩ := by
    decide +kernel
  refine ⟨(hscan _ _ hfirst).2.1 _ List.mem_cons_self, happend _ _ _ _ hfirst hlast, ?_⟩
  exact hforward _ _ (.opening .square) (by decide +kernel)

end Cursor

end ImapWire
