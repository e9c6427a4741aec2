/-
  One token, by rules.

  `Reads chunk ahead result behind` says what a scan makes of the bytes `ahead` on the line of a
  chunk, the first of which is no blank: the token or the reason why there is none, and the bytes
  behind it.  Behind a literal there are none; the scan goes on in the next line (`none`).  There is
  one rule for each way in which a token is found or refused.

  `Cursor.tokenAt` follows these rules (`tokenAt_reads`), so a fact about single tokens is proved
  rule by rule and the branches of `tokenAt` are not opened again.  The three ways in which a scan
  comes to a token, over blanks and lines that are used up, are `nextAt_token`, `nextAt_lineBlank`
  and `nextAt_stray`.
-/
import ImapWire.Proofs.Token.Scan

namespace ImapWire

open Bytes (isBlank isDelimiter)

namespace Cursor

/-- What is read at the front of the bytes ahead on the line of a chunk, and the bytes behind it. -/
inductive Reads (chunk : Chunk) : Bytes → Except LexCause Token → Option Bytes → Prop
  | opening (k : Bracket) (rest : Bytes) :
      Reads chunk (k.opens :: rest) (.ok (.opening k)) (some rest)
  | closing (k : Bracket) (rest : Bytes) :
      Reads chunk (k.closes :: rest) (.ok (.closing k)) (some rest)
  | quoted {rest : Bytes} {r : Quoted.Reading} (h : Quoted.read rest = some r) :
      Reads chunk (Bytes.quote :: rest) (.ok (.quoted r.bytes)) (some r.rest)
  | unclosed {rest : Bytes} (h : Quoted.read rest = none) :
      Reads chunk (Bytes.quote :: rest) (.error .unterminatedQuote) (some [])
  | atom {run after : Bytes} (hne : run ≠ []) (hrun : ∀ b ∈ run, isDelimiter b = false)
      (hcut : Cut after) (hmarker : after.all isBlank = true → Marker.inner? run = none) :
      Reads chunk (run ++ after) (.ok (.atom run)) (some after)
  | literal {run after inner bs : Bytes} (hrun : ∀ b ∈ run, isDelimiter b = false)
      (hcut : Cut after) (hblank : after.all isBlank = true) (hinner : Marker.inner? run = some inner)
      (h : takeLiteral chunk inner = .ok bs) :
      Reads chunk (run ++ after) (.ok (.literal bs)) none
  | refused {run after inner : Bytes} {cause : LexCause} (hrun : ∀ b ∈ run, isDelimiter b = false)
      (hcut : Cut after) (hblank : after.all isBlank = true) (hinner : Marker.inner? run = some inner)
      (h : takeLiteral chunk inner = .error cause) :
      Reads chunk (run ++ after) (.error cause) (some after)

/-- Where the cursor stands behind what it read. -/
def placeAfter (index pos : Nat) (ahead : Bytes) (chunk : Chunk) (later : List Chunk) :
    Option Bytes → Cursor
  | some behind => ⟨index, pos + (ahead.length - behind.length), behind, chunk :: later⟩
  | none => following index later

/-- What follows a run starts with a delimiter. -/
theorem cut_dropWhile (rest : Bytes) : Cut (rest.dropWhile fun c => !isDelimiter c) := by
  intro b hb
  have hhead := List.head?_dropWhile_not (fun c => !isDelimiter c) rest
  rw [Option.mem_def.1 hb] at hhead
  simpa using hhead

/-- A delimiter that is no blank is a bracket or a quote. -/
theorem bracket_or_quote {b : UInt8} (hb : isBlank b = false) (hd : isDelimiter b = true) :
    (∃ k : Bracket, b = k.opens) ∨ (∃ k : Bracket, b = k.closes) ∨ b = Bytes.quote := by
  simp only [isDelimiter, hb, Bool.false_or, Bool.or_eq_true, beq_iff_eq] at hd
  rcases hd with (((h | h) | h) | h) | h
  · exact Or.inl ⟨.round, h⟩
  · exact Or.inr (Or.inl ⟨.round, h⟩)
  · exact Or.inl ⟨.square, h⟩
  · exact Or.inr (Or.inl ⟨.square, h⟩)
  · exact Or.inr (Or.inr h)

/-- **A token is read by the rules.** -/
theorem tokenAt_reads {b : UInt8} (hb : isBlank b = false) (rest : Bytes) (chunk : Chunk) :
    ∃ result behind, Reads chunk (b :: rest) result behind ∧ ∀ index pos later,
      tokenAt index pos b rest chunk later =
        (result.mapError fun cause => ⟨index, pos, cause, chunk.line⟩,
          placeAfter index pos (b :: rest) chunk later behind) := by
  by_cases hd : isDelimiter b = true
  · rcases bracket_or_quote hb hd with ⟨k, rfl⟩ | ⟨k, rfl⟩ | rfl
    · have hopened : Bracket.opened? k.opens = some k := Bracket.opened?_eq_some.2 rfl
      refine ⟨_, _, .opening k rest, ?_⟩
      simp [tokenAt, hopened, placeAfter]
    · have hopened : Bracket.opened? k.closes = none := by cases k <;> rfl
      have hclosed : Bracket.closed? k.closes = some k := Bracket.closed?_eq_some.2 rfl
      refine ⟨_, _, .closing k rest, ?_⟩
      simp [tokenAt, hopened, hclosed, placeAfter]
    · have hopened : Bracket.opened? Bytes.quote = none := rfl
      have hclosed : Bracket.closed? Bytes.quote = none := rfl
      cases hread : Quoted.read rest with
      | none =>
        refine ⟨_, _, .unclosed hread, ?_⟩
        simp [tokenAt, hopened, hclosed, hread, placeAfter]
      | some r =>
        have hsize := Quoted.size_add_length hread
        have hused : rest.length + 1 - r.rest.length = r.size + 1 := by omega
        refine ⟨_, _, .quoted hread, ?_⟩
        simp [tokenAt, hopened, hclosed, hread, placeAfter, hused]
  · have hd : isDelimiter b = false := Bool.eq_false_iff.2 hd
    generalize hr : (b :: rest.takeWhile fun c => !isDelimiter c) = run
    generalize ha : (rest.dropWhile fun c => !isDelimiter c) = after
    have hline : b :: rest = run ++ after := by
      rw [← hr, ← ha, List.cons_append, List.takeWhile_append_dropWhile]
    have hne : run ≠ [] := by
      rw [← hr]
      exact List.cons_ne_nil _ _
    have hrun : ∀ c ∈ run, isDelimiter c = false := by
      intro c hc
      rw [← hr] at hc
      rcases List.mem_cons.1 hc with rfl | hc
      · exact hd
      · simpa using List.all_eq_true.1 List.all_takeWhile c hc
    have hcut : Cut after := ha ▸ cut_dropWhile rest
    have hused : (run ++ after).length - after.length = run.length := by simp
    simp only [tokenAt_run hd, hr, ha]
    rw [hline]
    -- at the end of a line the run may be a marker
    by_cases hblank : after.all isBlank = true
    · cases hinner : Marker.inner? run with
      | none =>
        refine ⟨_, _, .atom hne hrun hcut fun _ => hinner, ?_⟩
        simp [placeAfter]
      | some inner =>
        cases htake : takeLiteral chunk inner with
        | ok bs =>
          refine ⟨_, _, .literal hrun hcut hblank hinner htake, ?_⟩
          simp only [hblank, if_true, htake, placeAfter, Result.mapError_ok, implies_true]
        | error cause =>
          refine ⟨_, _, .refused hrun hcut hblank hinner htake, ?_⟩
          simp only [hblank, if_true, htake, placeAfter, Result.mapError_error, hused,
            implies_true]
    · refine ⟨_, _, .atom hne hrun hcut fun h => absurd h hblank, ?_⟩
      simp only [hblank, if_false, placeAfter, Result.mapError_ok, hused, Bool.false_eq_true,
        implies_true]

/-! ## Up to a token -/

/-- Blanks in front of a token are skipped. -/
theorem nextAt_token {rest rest' : Bytes} {b : UInt8} (hdrop : rest.dropWhile isBlank = b :: rest')
    (chunk : Chunk) :
    ∃ result behind, Reads chunk (b :: rest') result behind ∧ ∀ index pos later,
      nextAt index pos rest (chunk :: later) =
        ((result.mapError fun cause =>
            ⟨index, pos + (rest.takeWhile isBlank).length, cause, chunk.line⟩).map some,
          placeAfter index (pos + (rest.takeWhile isBlank).length) (b :: rest') chunk later
            behind) := by
  have hb : isBlank b = false := by
    have hhead := List.head?_dropWhile_not isBlank rest
    rwa [hdrop] at hhead
  obtain ⟨result, behind, hreads, htoken⟩ := tokenAt_reads hb rest' chunk
  refine ⟨result, behind, hreads, ?_⟩
  intro index pos later
  rw [nextAt, hdrop]
  simp only [htoken]

/-- A line without a token is left, if it has no literal. -/
theorem nextAt_lineBlank {rest : Bytes} {chunk : Chunk} (hdrop : rest.dropWhile isBlank = [])
    (hc : chunk.literal = none) (index pos : Nat) (later : List Chunk) :
    nextAt index pos rest (chunk :: later) = nextAt (index + 1) 0 (firstLine later) later := by
  rw [nextAt, hdrop]
  simp [hc]

/-- A literal that no marker took is refused. -/
theorem nextAt_stray {rest : Bytes} {chunk : Chunk} (hdrop : rest.dropWhile isBlank = [])
    (hc : chunk.literal ≠ none) (index pos : Nat) (later : List Chunk) :
    nextAt index pos rest (chunk :: later) =
      (.error ⟨index, pos + (rest.takeWhile isBlank).length, .strayLiteral, chunk.line⟩,
        ⟨index, pos + (rest.takeWhile isBlank).length, [], chunk :: later⟩) := by
  rw [nextAt, hdrop]
  simp [Option.isSome_iff_ne_none.2 hc]

end Cursor

end ImapWire
