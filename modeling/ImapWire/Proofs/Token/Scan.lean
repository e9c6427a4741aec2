/-
  What a scan finds, read off the bytes in front of it.

  `Cursor.scan` keeps count of lines and positions for its error messages.  Which tokens it finds
  does not depend on them: `Yields rest chunks toks` says that from any place with the bytes `rest`
  ahead on the line of the first of `chunks`, the scan finds the tokens `toks` and no fault.

  There is one rule for each thing that can stand at the front: a blank, a bracket, a quoted string,
  an atom, a marker with its literal, the end of a line, the end of the input.  An atom is cut where
  its run of bytes ends, so its rule asks that what follows starts with a delimiter or is empty
  (`Cut`).

  The last section bounds what is found: a token carries no more bytes than a line or an announced
  literal can have.
-/
import ImapWire.Proofs.Token.Quoted
import ImapWire.Token.Cursor

namespace ImapWire

open Bytes (isBlank isDelimiter)

namespace Cursor

/-! ## One round of a scan -/

theorem scan_of_token {c c' : Cursor} {t : Token} (h : c.next = (.ok (some t), c')) :
    c.scan = { c'.scan with tokens := t :: c'.scan.tokens } := by
  rw [scan]
  split
  · next t₁ c₁ h₁ =>
    rw [h] at h₁
    cases h₁
    rfl
  · next c₁ h₁ => rw [h] at h₁; cases h₁
  · next f c₁ h₁ => rw [h] at h₁; cases h₁

theorem scan_of_end {c c' : Cursor} (h : c.next = (.ok none, c')) : c.scan = ⟨[], none⟩ := by
  rw [scan]
  split
  · next t₁ c₁ h₁ => rw [h] at h₁; cases h₁
  · rfl
  · next f c₁ h₁ => rw [h] at h₁; cases h₁

theorem scan_of_fault {c c' : Cursor} {f : LexFault} (h : c.next = (.error f, c')) :
    c.scan = ⟨[], some f⟩ := by
  rw [scan]
  split
  · next t₁ c₁ h₁ => rw [h] at h₁; cases h₁
  · next c₁ h₁ => rw [h] at h₁; cases h₁
  · next f₁ c₁ h₁ =>
    rw [h] at h₁
    cases h₁
    rfl

/-- Cursors with the same next token and place behind it scan the same. -/
theorem scan_congr {c d : Cursor} (h : c.next = d.next) : c.scan = d.scan := by
  rw [scan, scan]
  split <;> split <;> simp_all

/-! ## Where a token starts -/

theorem nextAt_blank {b : UInt8} (hb : isBlank b = true) (index pos : Nat) (rest : Bytes)
    (chunk : Chunk) (later : List Chunk) :
    nextAt index pos (b :: rest) (chunk :: later)
      = nextAt index (pos + 1) rest (chunk :: later) := by
  rw [nextAt, nextAt]
  simp only [List.takeWhile_cons, List.dropWhile_cons, hb, if_true, List.length_cons]
  have hpos : pos + ((rest.takeWhile isBlank).length + 1)
      = pos + 1 + (rest.takeWhile isBlank).length := by omega
  rw [hpos]

theorem nextAt_start {b : UInt8} (hb : isBlank b = false) (index pos : Nat) (rest : Bytes)
    (chunk : Chunk) (later : List Chunk) :
    nextAt index pos (b :: rest) (chunk :: later)
      = ((tokenAt index pos b rest chunk later).1.map some,
          (tokenAt index pos b rest chunk later).2) := by
  rw [nextAt]
  simp [hb]

theorem nextAt_lineEnd {chunk : Chunk} (hc : chunk.literal = none) (index pos : Nat)
    (later : List Chunk) :
    nextAt index pos [] (chunk :: later) = nextAt (index + 1) 0 (firstLine later) later := by
  rw [nextAt]
  simp [hc]

/-- A byte that is no delimiter is no bracket and no quote. -/
theorem no_bracket_of_run {b : UInt8} (hb : isDelimiter b = false) :
    Bracket.opened? b = none ∧ Bracket.closed? b = none ∧ b ≠ Bytes.quote := by
  have hopened : Bracket.opened? b = none := by
    cases ho : Bracket.opened? b with
    | none => rfl
    | some k =>
      rw [Bracket.opened?_eq_some.1 ho] at hb
      cases k <;> simp [Bracket.opens, isDelimiter] at hb
  have hclosed : Bracket.closed? b = none := by
    cases hcl : Bracket.closed? b with
    | none => rfl
    | some k =>
      rw [Bracket.closed?_eq_some.1 hcl] at hb
      cases k <;> simp [Bracket.closes, isDelimiter] at hb
  have hquote : b ≠ Bytes.quote := by
    rintro rfl
    simp [isDelimiter] at hb
  exact ⟨hopened, hclosed, hquote⟩

/-- A byte that is no delimiter starts an atom or a marker. -/
theorem tokenAt_run {b : UInt8} (hb : isDelimiter b = false) (index pos : Nat) (rest : Bytes)
    (chunk : Chunk) (later : List Chunk) :
    tokenAt index pos b rest chunk later =
      match (if (rest.dropWhile fun c => !isDelimiter c).all isBlank then
        Marker.inner? (b :: rest.takeWhile fun c => !isDelimiter c) else none) with
      | none => (.ok (.atom (b :: rest.takeWhile fun c => !isDelimiter c)),
          ⟨index, pos + (b :: rest.takeWhile fun c => !isDelimiter c).length,
            rest.dropWhile fun c => !isDelimiter c, chunk :: later⟩)
      | some inner =>
        match takeLiteral chunk inner with
        | .ok literal => (.ok (.literal literal), following index later)
        | .error cause => (.error ⟨index, pos, cause, chunk.line⟩,
            ⟨index, pos + (b :: rest.takeWhile fun c => !isDelimiter c).length,
              rest.dropWhile fun c => !isDelimiter c, chunk :: later⟩) := by
  obtain ⟨hopened, hclosed, hquote⟩ := no_bracket_of_run hb
  -- no bracket and no quote: what is left is the branch of a run
  unfold tokenAt
  rw [hopened, hclosed]
  show (if b = Bytes.quote then _ else _) = _
  exact if_neg hquote

end Cursor

/-! ## What a scan yields -/

/-- From any place with these bytes ahead on the first line, a scan finds these tokens and no
    fault. -/
def Yields (rest : Bytes) (chunks : List Chunk) (toks : List Token) : Prop :=
  ∀ index pos, (Cursor.mk index pos rest chunks).scan = ⟨toks, none⟩

/-- The run of an atom ends here: nothing follows on the line, or a delimiter does. -/
def Cut (rest : Bytes) : Prop := ∀ b ∈ rest.head?, isDelimiter b = true

namespace Yields

open Cursor

variable {rest : Bytes} {chunk : Chunk} {later : List Chunk} {toks : List Token}

theorem scan_start {chunks : List Chunk} (h : Yields (firstLine chunks) chunks toks) :
    (Cursor.start chunks).scan = ⟨toks, none⟩ :=
  h 0 0

/-- From each place the next token is found, with a place behind it that yields the others. -/
theorem of_next {t : Token}
    (h : ∀ index pos, ∃ c, nextAt index pos rest (chunk :: later) = (.ok (some t), c)
      ∧ c.scan = ⟨toks, none⟩) :
    Yields rest (chunk :: later) (t :: toks) := by
  intro index pos
  obtain ⟨c, hnext, hscan⟩ := h index pos
  have hnext' : (Cursor.mk index pos rest (chunk :: later)).next = (.ok (some t), c) := hnext
  rw [scan_of_token hnext', hscan]

theorem nil (rest : Bytes) : Yields rest [] [] := by
  intro index pos
  have hnext : (Cursor.mk index pos rest []).next = (.ok none, ⟨index, pos, [], []⟩) := rfl
  exact scan_of_end hnext

theorem blank {b : UInt8} (hb : isBlank b = true) (h : Yields rest (chunk :: later) toks) :
    Yields (b :: rest) (chunk :: later) toks := by
  intro index pos
  rw [← h index (pos + 1)]
  exact scan_congr (nextAt_blank hb index pos rest chunk later)

theorem lineEnd (hc : chunk.literal = none) (h : Yields (firstLine later) later toks) :
    Yields [] (chunk :: later) toks := by
  intro index pos
  rw [← h (index + 1) 0]
  exact scan_congr (nextAt_lineEnd hc index pos later)

theorem opening (k : Bracket) (h : Yields rest (chunk :: later) toks) :
    Yields (k.opens :: rest) (chunk :: later) (.opening k :: toks) := by
  refine of_next fun index pos => ⟨⟨index, pos + 1, rest, chunk :: later⟩, ?_, h _ _⟩
  have hb : isBlank k.opens = false := by cases k <;> rfl
  have hopened : Bracket.opened? k.opens = some k := Bracket.opened?_eq_some.2 rfl
  rw [nextAt_start hb]
  simp [tokenAt, hopened, Except.map]

theorem closing (k : Bracket) (h : Yields rest (chunk :: later) toks) :
    Yields (k.closes :: rest) (chunk :: later) (.closing k :: toks) := by
  refine of_next fun index pos => ⟨⟨index, pos + 1, rest, chunk :: later⟩, ?_, h _ _⟩
  have hb : isBlank k.closes = false := by cases k <;> rfl
  have hopened : Bracket.opened? k.closes = none := by cases k <;> rfl
  have hclosed : Bracket.closed? k.closes = some k := Bracket.closed?_eq_some.2 rfl
  rw [nextAt_start hb]
  simp [tokenAt, hopened, hclosed, Except.map]

/-- A quoted string, however it is spelled. -/
theorem spelled {text bs : Bytes} (htext : Quoted.Spelled text bs)
    (h : Yields rest (chunk :: later) toks) :
    Yields (Bytes.quote :: (text ++ Bytes.quote :: rest)) (chunk :: later) (.quoted bs :: toks) := by
  refine of_next fun index pos =>
    ⟨⟨index, pos + (text.length + 1 + 1), rest, chunk :: later⟩, ?_, h _ _⟩
  have hb : isBlank Bytes.quote = false := rfl
  have hopened : Bracket.opened? Bytes.quote = none := rfl
  have hclosed : Bracket.closed? Bytes.quote = none := rfl
  rw [nextAt_start hb]
  simp [tokenAt, hopened, hclosed, htext.read_eq, Except.map]

theorem quoted (bs : Bytes) (h : Yields rest (chunk :: later) toks) :
    Yields (Quoted.write bs ++ rest) (chunk :: later) (.quoted bs :: toks) := by
  have hwrite : Quoted.write bs ++ rest
      = Bytes.quote :: (Quoted.protect bs ++ Bytes.quote :: rest) := by simp [Quoted.write]
  rw [hwrite]
  exact spelled (Quoted.spelled_protect bs) h

/-- A byte of a run is no blank. -/
theorem isBlank_of_not_delimiter {b : UInt8} (hb : isDelimiter b = false) :
    isBlank b = false := by
  simp only [isDelimiter, Bool.or_eq_false_iff] at hb
  exact hb.1.1.1.1.1

theorem takeWhile_run {run : Bytes} (hrun : ∀ b ∈ run, isDelimiter b = false) (hcut : Cut rest) :
    (run ++ rest).takeWhile (fun c => !isDelimiter c) = run := by
  have hall : ∀ b ∈ run, (!isDelimiter b) = true := fun b hb => by rw [hrun b hb]; rfl
  rw [List.takeWhile_append_of_pos hall]
  cases rest with
  | nil => simp
  | cons d rest =>
    have hd : isDelimiter d = true := hcut d rfl
    simp [hd]

theorem dropWhile_run {run : Bytes} (hrun : ∀ b ∈ run, isDelimiter b = false) (hcut : Cut rest) :
    (run ++ rest).dropWhile (fun c => !isDelimiter c) = rest := by
  have hall : ∀ b ∈ run, (!isDelimiter b) = true := fun b hb => by rw [hrun b hb]; rfl
  rw [List.dropWhile_append_of_pos hall]
  cases rest with
  | nil => simp
  | cons d rest =>
    have hd : isDelimiter d = true := hcut d rfl
    simp [hd]

/-- A run that is no marker is an atom, also at the end of its line. -/
theorem atom {run : Bytes} (hne : run ≠ []) (hrun : ∀ b ∈ run, isDelimiter b = false)
    (hinner : Marker.inner? run = none) (hcut : Cut rest) (h : Yields rest (chunk :: later) toks) :
    Yields (run ++ rest) (chunk :: later) (.atom run :: toks) := by
  obtain ⟨b, run, rfl⟩ := List.exists_cons_of_ne_nil hne
  have hb : isDelimiter b = false := hrun b List.mem_cons_self
  have hmore : ∀ c ∈ run, isDelimiter c = false := fun c hc => hrun c (List.mem_cons_of_mem b hc)
  refine of_next fun index pos =>
    ⟨⟨index, pos + (b :: run).length, rest, chunk :: later⟩, ?_, h _ _⟩
  rw [List.cons_append, nextAt_start (isBlank_of_not_delimiter hb), tokenAt_run hb,
    takeWhile_run hmore hcut, dropWhile_run hmore hcut, hinner]
  simp [Except.map]

/-- A marker at the end of its line is the literal that was announced. -/
theorem literal {marker inner bs : Bytes} (hne : marker ≠ [])
    (hrun : ∀ b ∈ marker, isDelimiter b = false) (hinner : Marker.inner? marker = some inner)
    (hlength : Marker.length? inner = some bs.length) (hc : chunk.literal = some bs)
    (h : Yields (firstLine later) later toks) :
    Yields marker (chunk :: later) (.literal bs :: toks) := by
  obtain ⟨b, run, rfl⟩ := List.exists_cons_of_ne_nil hne
  have hb : isDelimiter b = false := hrun b List.mem_cons_self
  have hmore : ∀ c ∈ run, isDelimiter c = false := fun c hc => hrun c (List.mem_cons_of_mem b hc)
  have hcut : Cut ([] : Bytes) := by intro d hd; cases hd
  have htake : run.takeWhile (fun c => !isDelimiter c) = run := by
    simpa using takeWhile_run hmore hcut
  have hdrop : run.dropWhile (fun c => !isDelimiter c) = [] := by
    simpa using dropWhile_run hmore hcut
  have htaken : takeLiteral chunk inner = .ok bs := by
    simp [takeLiteral, hlength, hc]
  -- nothing is left of the line, so the next token is looked for in the one after it
  refine of_next fun index pos => ⟨following index later, ?_, h (index + 1) 0⟩
  rw [nextAt_start (isBlank_of_not_delimiter hb), tokenAt_run hb, htake, hdrop]
  simp [hinner, htaken, Except.map]

end Yields

/-! ## How long a token is -/

/-- Is shorter than 2⁶⁴ bytes, as every byte string that is held in a memory of 64-bit addresses.  A
    marker can announce no other. -/
def Bytes.Fits (bs : Bytes) : Prop := bs.length < UInt64.size

instance (bs : Bytes) : Decidable bs.Fits := inferInstanceAs (Decidable (bs.length < UInt64.size))

theorem Bytes.Fits.mono {a b : Bytes} (h : b.Fits) (hle : a.length ≤ b.length) : a.Fits :=
  Nat.lt_of_le_of_lt hle h

namespace Cursor

/-- The line ahead and all lines behind it are shorter than 2⁶⁴ bytes. -/
structure Fits (c : Cursor) : Prop where
  rest : c.rest.Fits
  lines : ∀ chunk ∈ c.chunks, chunk.line.Fits

theorem fits_following {later : List Chunk} (h : ∀ chunk ∈ later, chunk.line.Fits) (index : Nat) :
    (following index later).Fits := by
  refine ⟨?_, h⟩
  cases later with
  | nil => exact Nat.two_pow_pos 64
  | cons chunk later => exact h chunk List.mem_cons_self

theorem takeLiteral_fits {chunk : Chunk} {inner literal : Bytes}
    (h : takeLiteral chunk inner = .ok literal) : literal.Fits := by
  unfold takeLiteral at h
  split at h
  · cases h
  · cases h
  · next size found hlength hfound =>
    split at h
    · next hsize =>
      cases h
      have hlt : size < UInt64.size := (Decimal.natBelow?_eq_some.1 hlength).2
      rw [← hsize] at hlt
      exact hlt
    · cases h

theorem tokenAt_fits {index pos : Nat} {b : UInt8} {rest : Bytes} {chunk : Chunk}
    {later : List Chunk} {t : Token} {c' : Cursor} (hrest : Bytes.Fits (b :: rest))
    (hlines : ∀ c ∈ chunk :: later, c.line.Fits)
    (h : tokenAt index pos b rest chunk later = (.ok t, c')) :
    (∀ bs ∈ t.bytes?, bs.Fits) ∧ c'.Fits := by
  have hshort : rest.Fits := hrest.mono (by simp)
  have hlater : ∀ c ∈ later, c.line.Fits := fun c hc => hlines c (List.mem_cons_of_mem chunk hc)
  have hrun : Bytes.Fits (b :: rest.takeWhile fun c => !isDelimiter c) :=
    hrest.mono (by simpa using (List.takeWhile_sublist _).length_le)
  have hafter : Bytes.Fits (rest.dropWhile fun c => !isDelimiter c) :=
    hshort.mono (List.dropWhile_sublist _).length_le
  unfold tokenAt at h
  dsimp only at h
  split at h
  · cases h; exact ⟨by simp [Token.bytes?], hshort, hlines⟩
  · cases h; exact ⟨by simp [Token.bytes?], hshort, hlines⟩
  · split at h
    · split at h
      · next r hr =>
        have hsize := Quoted.size_add_length hr
        have hbytes := Quoted.length_bytes_le hr
        have hbehind : r.rest.length ≤ rest.length := by omega
        cases h
        refine ⟨?_, hshort.mono hbehind, hlines⟩
        rintro bs hbs
        cases hbs
        exact hshort.mono (by omega)
      · cases h
    · split at h
      · cases h
        exact ⟨by rintro bs hbs; cases hbs; exact hrun, hafter, hlines⟩
      · split at h
        · next hliteral =>
          cases h
          exact ⟨by rintro bs hbs; cases hbs; exact takeLiteral_fits hliteral,
            fits_following hlater index⟩
        · cases h

theorem nextAt_fits {index pos : Nat} {rest : Bytes} {chunks : List Chunk} {t : Token}
    {c' : Cursor} (hrest : rest.Fits) (hlines : ∀ c ∈ chunks, c.line.Fits)
    (h : nextAt index pos rest chunks = (.ok (some t), c')) :
    (∀ bs ∈ t.bytes?, bs.Fits) ∧ c'.Fits := by
  induction chunks generalizing index pos rest with
  | nil => simp [nextAt] at h
  | cons chunk later ih =>
    have hlater : ∀ c ∈ later, c.line.Fits := fun c hc => hlines c (List.mem_cons_of_mem chunk hc)
    cases hdrop : rest.dropWhile isBlank with
    | nil =>
      cases hc : chunk.literal with
      | some literal => simp [nextAt, hdrop, hc] at h
      | none =>
        rw [nextAt, hdrop] at h
        simp only [hc, Option.isSome_none, Bool.false_eq_true, if_false] at h
        exact ih (fits_following hlater index).rest hlater h
    | cons b rest' =>
      have hb : Bytes.Fits (b :: rest') := by
        rw [← hdrop]
        exact hrest.mono (List.dropWhile_sublist _).length_le
      rw [nextAt, hdrop] at h
      cases ht : tokenAt index (pos + (rest.takeWhile isBlank).length) b rest' chunk later with
      | mk result c₁ =>
        cases result with
        | error e => simp [ht, Except.map] at h
        | ok t₁ =>
          simp only [ht, Except.map, Prod.mk.injEq, Except.ok.injEq, Option.some.injEq] at h
          obtain ⟨rfl, rfl⟩ := h
          exact tokenAt_fits hb hlines ht

/-- No token of short lines is longer than a line or a literal can be. -/
theorem scan_fits {c : Cursor} (hc : c.Fits) : ∀ t ∈ c.scan.tokens, ∀ bs ∈ t.bytes?, bs.Fits := by
  fun_induction scan c with
  | case1 c t c' hnext s ih =>
    obtain ⟨hbytes, hc'⟩ := nextAt_fits hc.rest hc.lines hnext
    intro t' ht'
    rcases List.mem_cons.1 ht' with rfl | ht'
    · exact hbytes
    · exact ih hc' t' ht'
  | case2 => intro t ht; cases ht
  | case3 => intro t ht; cases ht

end Cursor

end ImapWire
