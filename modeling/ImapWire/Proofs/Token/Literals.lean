/-
  The stream reader and the scan agree on literals.

  The stream reader asks a line what it announces, and takes a literal of that length or none.  A
  scan cuts the same line into tokens and takes the literal where it meets its marker.  The rule
  that the reader keeps (`Chunk.Agrees`) is all that a scan asks for: it never misses a literal, is
  never given one that it does not want, and never one of another length (`Cursor.scan_announced`).

  The invariant is about what is still ahead: the rest of the line announces the literal of its
  chunk, as if the line started there (`Cursor.Agrees`).  Every token that is found, brackets,
  quoted strings and atoms alike, leaves this as it is, and a marker is met exactly where the rest
  of the line is nothing else (`Reads.takes`).  A quote that is never closed hides a marker, and
  a run that looks like a marker may hold no length: these are the two failures that are left.
-/
import ImapWire.Proofs.Reader.Sound
import ImapWire.Proofs.Token.Announced
import ImapWire.Proofs.Token.Reads

namespace ImapWire

open Bytes (isBlank isDelimiter)

/-- The rule of the stream reader: the literal of a chunk is of the length that its line announces,
    and there is none if the line announces none. -/
def Chunk.Agrees (c : Chunk) : Prop := c.literal.map List.length = announced? c.line

instance (c : Chunk) : Decidable c.Agrees :=
  inferInstanceAs (Decidable (c.literal.map List.length = announced? c.line))

/-- The literal that a token is. -/
def Token.literal? : Token → Option Bytes
  | .literal bs => some bs
  | .opening _ | .closing _ | .atom _ | .quoted _ => none

/-- The literals of some chunks, in order. -/
def Chunk.literals (chunks : List Chunk) : List Bytes := chunks.filterMap Chunk.literal

/-! ## One token -/

namespace Cursor

/-- The two failures that the rule of the stream reader leaves. -/
def OfLine (cause : LexCause) : Prop := cause = .unterminatedQuote ∨ cause = .invalidLength

theorem takeLiteral_eq_ok_iff {chunk : Chunk} {inner bs : Bytes} :
    takeLiteral chunk inner = .ok bs ↔
      chunk.literal = some bs ∧ Marker.length? inner = some bs.length := by
  unfold takeLiteral
  cases hlength : Marker.length? inner with
  | none => simp
  | some size =>
    cases hc : chunk.literal with
    | none => simp
    | some literal => grind

/-- A literal of the announced length is refused only if its marker holds no length. -/
theorem takeLiteral_error {chunk : Chunk} {inner : Bytes} {cause : LexCause}
    (hagree : chunk.literal.map List.length = Marker.length? inner)
    (h : takeLiteral chunk inner = .error cause) : cause = .invalidLength := by
  unfold takeLiteral at h
  cases hlength : Marker.length? inner with
  | none =>
    rw [hlength] at h
    cases h
    rfl
  | some size =>
    rw [hlength] at h hagree
    obtain ⟨literal, hliteral, hsize⟩ := Option.map_eq_some_iff.1 hagree
    rw [hliteral] at h
    simp [hsize] at h

variable {chunk : Chunk} {ahead behind : Bytes} {t : Token} {cause : LexCause}

/-- A token that does not end its line is no literal, and what it leaves ahead announces what was
    announced before. -/
theorem Reads.keeps (h : Reads chunk ahead (.ok t) (some behind)) :
    t.literal? = none ∧ announced? ahead = announced? behind := by
  cases h with
  | opening k => exact ⟨rfl, announced?_cons (by cases k <;> rfl) behind⟩
  | closing k => exact ⟨rfl, announced?_cons (by cases k <;> rfl) behind⟩
  | quoted hread =>
    obtain ⟨front, rfl, -⟩ := Quoted.read_eq_some_iff.1 hread
    refine ⟨rfl, ?_⟩
    rw [announced?_cons rfl]
    exact announced?_append_cons rfl rfl front _
  | atom hne hrun hcut hmarker =>
    refine ⟨rfl, ?_⟩
    rw [announced?_run hrun hcut]
    split
    · next hblank =>
      rw [hmarker hblank]
      exact (announced?_blanks (List.all_eq_true.1 hblank)).symm
    · rfl

/-- A token that ends its line is the literal of the chunk. -/
theorem Reads.takes (h : Reads chunk ahead (.ok t) none) : chunk.literal = t.literal? ∧
    chunk.literal ≠ none := by
  cases h with
  | literal hrun hcut hblank hinner htake =>
    have hliteral := (takeLiteral_eq_ok_iff.1 htake).1
    refine ⟨hliteral, ?_⟩
    rw [hliteral]
    exact Option.some_ne_none _

/-- Where the announced literal is there, no token is missed for the sake of one. -/
theorem Reads.fails {behind : Option Bytes} (h : Reads chunk ahead (.error cause) behind)
    (hagree : chunk.literal.map List.length = announced? ahead) : OfLine cause := by
  cases h with
  | unclosed => exact Or.inl rfl
  | refused hrun hcut hblank hinner htake =>
    refine Or.inr (takeLiteral_error ?_ htake)
    rw [hagree, announced?_run hrun hcut, if_pos hblank, hinner, Option.bind_some]

/-! ## Up to a token -/

/-- What is ahead on a line announces the literal of its chunk, and the later chunks keep the rule of
    the stream reader. -/
structure Agrees (rest : Bytes) (chunks : List Chunk) : Prop where
  ahead : ∀ chunk ∈ chunks.head?, chunk.literal.map List.length = announced? rest
  later : ∀ chunk ∈ chunks.tail, chunk.Agrees

theorem Agrees.firstLine {chunks : List Chunk} (h : ∀ c ∈ chunks, c.Agrees) :
    Agrees (firstLine chunks) chunks := by
  cases chunks with
  | nil =>
    constructor
    · intro c hc
      cases hc
    · intro c hc
      cases hc
  | cons c cs =>
    refine ⟨?_, fun d hd => h d (List.mem_cons_of_mem c hd)⟩
    intro d hd
    cases hd
    exact h c List.mem_cons_self

/-- Blanks ahead announce nothing. -/
theorem announced?_dropBlanks (rest : Bytes) :
    announced? (rest.dropWhile isBlank) = announced? rest := by
  induction rest with
  | nil => rfl
  | cons b rest ih =>
    by_cases hb : isBlank b = true
    · rw [List.dropWhile_cons_of_pos hb, ih, announced?_cons (isDelimiter_of_isBlank hb)]
    · rw [List.dropWhile_cons_of_neg hb]

/-- What one step of a scan does about literals: a token takes its literal off those ahead; at the
    end there are none left; a failure is one of the line. -/
inductive Faithful (chunks : List Chunk) : Except LexFault (Option Token) × Cursor → Prop
  | token {t : Token} {c : Cursor} (hagrees : Agrees c.rest c.chunks)
      (hliterals : Chunk.literals chunks = t.literal?.toList ++ Chunk.literals c.chunks) :
      Faithful chunks (.ok (some t), c)
  | done {c : Cursor} (hliterals : Chunk.literals chunks = []) : Faithful chunks (.ok none, c)
  | fault {f : LexFault} {c : Cursor} (hcause : OfLine f.cause) : Faithful chunks (.error f, c)

/-- Lines without literals make no difference. -/
theorem Faithful.congr {a b : List Chunk} {step : Except LexFault (Option Token) × Cursor}
    (h : Faithful b step) (hliterals : Chunk.literals a = Chunk.literals b) : Faithful a step := by
  cases h with
  | token hagrees hrest => exact .token hagrees (hliterals.trans hrest)
  | done hrest => exact .done (hliterals.trans hrest)
  | fault hcause => exact .fault hcause

/-- **One step** of a scan. -/
theorem nextAt_faithful {rest : Bytes} {chunks : List Chunk} (h : Agrees rest chunks)
    (index pos : Nat) : Faithful chunks (nextAt index pos rest chunks) := by
  induction chunks generalizing index pos rest with
  | nil => exact .done rfl
  | cons chunk later ih =>
    have hchunk : chunk.literal.map List.length = announced? (rest.dropWhile isBlank) := by
      rw [announced?_dropBlanks]
      exact h.ahead chunk rfl
    have hlater := Agrees.firstLine h.later
    cases hdrop : rest.dropWhile isBlank with
    | nil =>
      -- nothing is ahead on the line, so nothing is announced and no literal is there
      have hnone : chunk.literal = none := by
        rw [hdrop] at hchunk
        exact Option.map_eq_none_iff.1 hchunk
      rw [nextAt_lineBlank hdrop hnone]
      exact (ih hlater (index + 1) 0).congr (by simp [Chunk.literals, hnone])
    | cons b rest' =>
      rw [hdrop] at hchunk
      obtain ⟨result, behind, hreads, hnext⟩ := nextAt_token hdrop chunk
      rw [hnext index pos later]
      cases result with
      | error cause => exact .fault (hreads.fails hchunk)
      | ok t =>
        cases behind with
        | some behind =>
          obtain ⟨hnone, hkeeps⟩ := hreads.keeps
          refine .token ⟨?_, h.later⟩ ?_
          · intro c hc
            cases hc
            exact hchunk.trans hkeeps
          · rw [hnone]
            rfl
        | none =>
          obtain ⟨hliteral, hsome⟩ := hreads.takes
          refine .token hlater ?_
          obtain ⟨bs, hbs⟩ := Option.ne_none_iff_exists'.1 hsome
          rw [← hliteral, hbs]
          simp [Chunk.literals, hbs, placeAfter, following]

/-! ## A whole scan -/

/-- **A whole scan** finds the literals that are ahead, or stops at a failure of a line. -/
theorem scan_faithful {c : Cursor} (h : Agrees c.rest c.chunks) :
    (∀ f ∈ c.scan.fault, OfLine f.cause) ∧
      (c.scan.fault = none → c.scan.tokens.filterMap Token.literal? = Chunk.literals c.chunks) := by
  fun_induction scan c with
  | case1 c t c' hnext s ih =>
    have hstep : Faithful c.chunks (.ok (some t), c') := hnext ▸ nextAt_faithful h c.index c.pos
    cases hstep with
    | token hagrees hliterals =>
      obtain ⟨hfaults, hfound⟩ := ih hagrees
      refine ⟨hfaults, ?_⟩
      intro hnone
      rw [hliterals, ← hfound hnone]
      cases ht : t.literal? <;> simp [ht, s]
  | case2 c c' hnext =>
    have hstep : Faithful c.chunks (.ok none, c') := hnext ▸ nextAt_faithful h c.index c.pos
    cases hstep with
    | done hliterals =>
      refine ⟨?_, fun _ => hliterals.symm⟩
      intro f hf
      cases hf
  | case3 c f c' hnext =>
    have hstep : Faithful c.chunks (.error f, c') := hnext ▸ nextAt_faithful h c.index c.pos
    cases hstep with
    | fault hcause =>
      constructor
      · intro f' hf'
        cases hf'
        exact hcause
      · intro hnone
        cases hnone

end Cursor

/-- What the stream reader reads keeps its rule. -/
theorem Response.Framed.agrees {chunks : List Chunk} (h : Response.Framed chunks) :
    ∀ c ∈ chunks, c.Agrees := by
  obtain ⟨front, last, rfl, hnone, -, hfront⟩ := Response.framed_iff.1 h
  intro c hc
  rcases List.mem_append.1 hc with hc | hc
  · obtain ⟨-, bs, hbs, hsome⟩ := hfront c hc
    rw [Chunk.Agrees, hbs, hsome]
    rfl
  · rw [List.mem_singleton.1 hc, Chunk.Agrees, hnone]
    rfl

namespace Cursor

/-- **The stream reader and the scan agree on literals.**  Chunks each of which has the literal that
    its line announces, or none if it announces none, are scanned to their end, and the literals
    found are theirs, in order; or the scan stops at a quote that is never closed or at braces
    without a length.  Responses that were read, any number of them, are such chunks. -/
theorem scan_announced :
    (∀ chunks : List Chunk, (∀ c ∈ chunks, c.literal.map List.length = announced? c.line) →
      (∀ f ∈ (start chunks).scan.fault,
        f.cause = .unterminatedQuote ∨ f.cause = .invalidLength) ∧
      ((start chunks).scan.fault = none →
        (start chunks).scan.tokens.filterMap Token.literal? = chunks.filterMap Chunk.literal)) ∧
    (∀ responses : List (List Chunk),
      (∀ chunks ∈ responses, ∃ r r' : Reader, r.readResponse = (.ok chunks, r')) →
      ∀ c ∈ responses.flatten, c.literal.map List.length = announced? c.line) := by
  refine ⟨?_, ?_⟩
  · intro chunks hagree
    exact scan_faithful (c := start chunks) (Agrees.firstLine hagree)
  · intro responses hread c hc
    obtain ⟨chunks, hchunks, hc⟩ := List.mem_flatten.1 hc
    obtain ⟨r, r', hr⟩ := hread chunks hchunks
    exact (Reader.readResponse_takes hr).1.agrees c hc

/-- Braces in quotes, a marker with all its trimmings, and braces behind a letter; then a marker in
    a quote that is never closed; and two responses off a stream. -/
theorem scan_announced_braces :
    ((start [⟨Bytes.ofString "(\"{1}\" ~{2+} \t", some lineEnd⟩,
        .plain (Bytes.ofString "x{3})")]).scan.tokens.filterMap Token.literal? = [lineEnd]) ∧
    (∀ f ∈ (start [⟨Bytes.ofString "\"a {2}", some lineEnd⟩]).scan.fault,
      f.cause = .unterminatedQuote ∨ f.cause = .invalidLength) ∧
    (∀ c ∈ [[Chunk.mk (Bytes.ofString "{1}") (some [Bytes.quote]), .plain []],
        [.plain (Bytes.ofString "{x}")]].flatten,
      c.literal.map List.length = announced? c.line) := by
  obtain ⟨hscan, hread⟩ := scan_announced
  refine ⟨(hscan _ (by decide)).2 (by decide +kernel), (hscan _ (by decide)).1, ?_⟩
  refine hread _ fun chunks hchunks => ?_
  rcases List.mem_cons.1 hchunks with rfl | hchunks
  · exact ⟨.ofStream default [.bytes (Bytes.ofString "{1}\r\n\"\r\n")], .ofStream default [],
      by decide +kernel⟩
  · rw [List.mem_singleton.1 hchunks]
    exact ⟨.ofStream default [.bytes (Bytes.ofString "{x}\r\n")], .ofStream default [],
      by decide +kernel⟩

end Cursor

end ImapWire
