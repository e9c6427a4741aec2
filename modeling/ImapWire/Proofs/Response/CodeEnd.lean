/-
  A code ends where its brackets are closed.

  Two readers go over the same line: `splitCode` looks for the bracket that closes a code, byte by
  byte, and a scan reads tokens.  They see the same brackets.  The bracket that the first one finds
  is the token with which, for the first time, as many square brackets are closed as were opened;
  and it finds none exactly if the scan never comes to such a token, because a bracket stays open or
  a quoted string is not closed (`codeOf?_closes`).

    1. **Tokens in a row** (`Cursor.Takes`).  What a cursor reads one after the other, and where it
       stands then.
    2. **One token** (`Cursor.Reads`, rule by rule).  A token is passed over as its bracket says
       (`Reads.passes`), or it is the bracket that closes the code (`Reads.closes`); where a scan
       fails, there is no such bracket (`Reads.stops`).
    3. **All tokens.**  From one token to the next, by induction on the bytes ahead, and on the
       tokens for the converse.
    4. How many brackets are open is how many more were opened than closed (`count_of_level`).
-/
import ImapWire.Proofs.Response.Code
import ImapWire.Proofs.Token.Literals

namespace ImapWire

open Bytes (isBlank isDelimiter)

/-! ## Tokens in a row -/

/-- From the first cursor on these tokens are read, and then the reader stands at the second one. -/
inductive Cursor.Takes : Cursor → List Token → Cursor → Prop
  | nil (c : Cursor) : Takes c [] c
  | cons {c c' d : Cursor} {t : Token} {toks : List Token} (hnext : c.next = (.ok (some t), c'))
      (hmore : Takes c' toks d) : Takes c (t :: toks) d

/-- Some tokens, with as many square brackets closed as opened. -/
structure Closes (toks : List Token) : Prop where
  ne_nil : toks ≠ []
  count : toks.count (.closing .square) = toks.count (.opening .square)

/-- The first tokens of a line that close what they opened, and the place behind them. -/
structure ClosesFirst (line : Bytes) (toks : List Token) (c : Cursor) : Prop where
  takes : Cursor.Takes (Cursor.start [.plain line]) toks c
  closes : Closes toks
  first : ∀ front, front <+: toks → Closes front → front = toks

/-! ## The brackets of tokens, counted -/

theorem levelAfter_cons (d : Nat) (t : Token) (toks : List Token) :
    levelAfter d (t :: toks) = (levelAfter d [t]).bind fun e => levelAfter e toks := by
  cases t with
  | opening k => cases k <;> rfl
  | closing k =>
    cases k with
    | round => rfl
    | square =>
      simp only [levelAfter]
      split <;> rfl
  | _ => rfl

theorem levelAfter_append (d : Nat) (toks more : List Token) :
    levelAfter d (toks ++ more) = (levelAfter d toks).bind fun e => levelAfter e more := by
  induction toks generalizing d with
  | nil => rfl
  | cons t toks ih =>
    rw [List.cons_append, levelAfter_cons, levelAfter_cons d t toks, Option.bind_assoc]
    congr 1
    funext e
    exact ih e

/-- Behind some tokens that close no outermost bracket, so many are open as were opened in
    excess. -/
theorem count_of_level {d e : Nat} {toks : List Token} (h : levelAfter (d + 1) toks = some e) :
    0 < e ∧ e + toks.count (.closing .square) = d + 1 + toks.count (.opening .square) := by
  induction toks generalizing d with
  | nil =>
    obtain rfl := Option.some.inj h
    exact ⟨Nat.succ_pos d, rfl⟩
  | cons t toks ih =>
    have hother : t ≠ .opening .square → t ≠ .closing .square →
        levelAfter (d + 1) toks = some e → 0 < e ∧ e + (t :: toks).count (.closing .square)
          = d + 1 + (t :: toks).count (.opening .square) := by
      intro hopen hclose hmore
      rw [List.count_cons_of_ne hopen, List.count_cons_of_ne hclose]
      exact ih hmore
    cases t with
    | opening k =>
      cases k with
      | round => exact hother nofun nofun h
      | square =>
        obtain ⟨hpos, hcount⟩ := ih (d := d + 1) h
        simp only [List.count_cons, beq_self_eq_true, if_true, reduceCtorEq, beq_iff_eq, if_false]
        exact ⟨hpos, by omega⟩
    | closing k =>
      cases k with
      | round => exact hother nofun nofun h
      | square =>
        have hlevel : (if d + 1 ≤ 1 then none else levelAfter d toks) = some e := h
        split at hlevel
        · cases hlevel
        · next hdeep =>
          obtain ⟨d, rfl⟩ : ∃ n, d = n + 1 := ⟨d - 1, by omega⟩
          obtain ⟨hpos, hcount⟩ := ih hlevel
          simp only [List.count_cons, beq_self_eq_true, if_true, reduceCtorEq, beq_iff_eq, if_false]
          exact ⟨hpos, by omega⟩
    | _ => exact hother nofun nofun h

/-! ## One token -/

/-- Blanks do not count. -/
theorem Passes.blanks {bs : Bytes} (h : ∀ b ∈ bs, isBlank b = true) (d : Nat) : Passes d d bs := by
  induction bs with
  | nil => exact nil d
  | cons b bs ih =>
    obtain ⟨hb, hbs⟩ := List.forall_mem_cons.1 h
    have hne : ∀ c, isBlank c = false → b ≠ c := by
      rintro c hc rfl
      rw [hb] at hc
      cases hc
    exact (byte (hne _ rfl) (hne _ rfl) (hne _ rfl) d).append (ih hbs)

/-- What is passed over to the end holds no bracket that closes the code. -/
theorem Passes.splitCode_eq_none {d e : Nat} {bs : Bytes} (h : Passes d e bs) :
    splitCode d .outside bs = none := by
  have hend := h []
  rwa [List.append_nil] at hend

namespace Quoted

/-- The quote that opens a quoted string. -/
theorem splitCode_quote (d : Nat) (rest : Bytes) :
    splitCode d .outside (Bytes.quote :: rest) =
      (splitCode d .inside rest).map fun (code, behind) => (Bytes.quote :: code, behind) := by
  have hopen : Bytes.quote ≠ Bytes.openSquare := by decide
  have hclose : Bytes.quote ≠ Bytes.closeSquare := by decide
  simp [splitCode, Quoting.next, hopen, hclose]

/-- A byte inside quotes that neither closes them nor takes away a meaning. -/
theorem splitCode_inside_cons {b : UInt8} (hquote : b ≠ Bytes.quote)
    (hbackslash : b ≠ Bytes.backslash) (d : Nat) (rest : Bytes) : splitCode d .inside (b :: rest) =
      (splitCode d .inside rest).map fun (code, behind) => (b :: code, behind) := by
  simp [splitCode, Quoting.next, hquote, hbackslash]

/-- The quote that closes them. -/
theorem splitCode_inside_quote (d : Nat) (rest : Bytes) :
    splitCode d .inside (Bytes.quote :: rest) =
      (splitCode d .outside rest).map fun (code, behind) => (Bytes.quote :: code, behind) := by
  have hne : Bytes.quote ≠ Bytes.backslash := by decide
  simp [splitCode, Quoting.next, hne]

/-- A backslash, whatever is behind it. -/
theorem splitCode_inside_backslash (d : Nat) (c : UInt8) (rest : Bytes) :
    splitCode d .inside (Bytes.backslash :: c :: rest) =
      (splitCode d .inside rest).map fun (code, behind) =>
        (Bytes.backslash :: c :: code, behind) := by
  simp only [splitCode, Quoting.next, reduceCtorEq, false_and, if_false, if_true, Option.map_map]
  rfl

/-- Any other byte, before another one. -/
theorem splitCode_inside_step {b c : UInt8} (hquote : b ≠ Bytes.quote)
    (hescape : ¬ (b = Bytes.backslash ∧ isSpecial c = true)) (d : Nat) (rest : Bytes) :
    splitCode d .inside (b :: c :: rest) =
      (splitCode d .inside (c :: rest)).map fun (code, behind) => (b :: code, behind) := by
  by_cases hbackslash : b = Bytes.backslash
  · -- the byte behind the backslash has no meaning that could be taken away
    have hplain : isSpecial c = false := Bool.eq_false_iff.2 fun hc => hescape ⟨hbackslash, hc⟩
    simp only [isSpecial, Bool.or_eq_false_iff, beq_eq_false_iff_ne] at hplain
    rw [hbackslash, splitCode_inside_backslash, splitCode_inside_cons hplain.1 hplain.2,
      Option.map_map]
    rfl
  · exact splitCode_inside_cons hquote hbackslash d (c :: rest)

/-- **A quoted string does not count**, up to the quote that closes it. -/
theorem splitCode_of_read {bs : Bytes} {r : Reading} (h : read bs = some r) :
    ∃ front, bs = front ++ r.rest ∧ ∀ d, splitCode d .inside bs =
      (splitCode d .outside r.rest).map fun (code, behind) => (front ++ code, behind) := by
  fun_induction read bs generalizing r with
  | case1 => cases h
  | case2 => cases h; exact ⟨[Bytes.quote], rfl, fun d => splitCode_inside_quote d []⟩
  | case3 => cases h
  | case4 c rest =>
    cases h
    exact ⟨[Bytes.quote], rfl, fun d => splitCode_inside_quote d (c :: rest)⟩
  | case5 b c rest hb hesc ih =>
    obtain ⟨r', hr', rfl⟩ := Option.map_eq_some_iff.1 h
    obtain ⟨front, hfront, hsplit⟩ := ih hr'
    obtain rfl := hesc.1
    refine ⟨Bytes.backslash :: c :: front, by rw [hfront]; rfl, fun d => ?_⟩
    rw [splitCode_inside_backslash, hsplit, Option.map_map]
    rfl
  | case6 b c rest hb hesc ih =>
    obtain ⟨r', hr', rfl⟩ := Option.map_eq_some_iff.1 h
    obtain ⟨front, hfront, hsplit⟩ := ih hr'
    refine ⟨b :: front, by rw [hfront]; rfl, fun d => ?_⟩
    rw [splitCode_inside_step hb hesc, hsplit, Option.map_map]
    rfl

/-- Inside a quoted string that is never closed, nothing closes a code. -/
theorem splitCode_of_unclosed {bs : Bytes} (h : read bs = none) (d : Nat) :
    splitCode d .inside bs = none := by
  fun_induction read bs with
  | case1 => rfl
  | case2 => cases h
  | case3 b hb => simp [splitCode]
  | case4 => cases h
  | case5 b c rest hb hesc ih =>
    obtain rfl := hesc.1
    rw [splitCode_inside_backslash, ih (Option.map_eq_none_iff.1 h), Option.map_none]
  | case6 b c rest hb hesc ih =>
    rw [splitCode_inside_step hb hesc, ih (Option.map_eq_none_iff.1 h), Option.map_none]

end Quoted

namespace Cursor.Reads

variable {chunk : Chunk} {ahead rest : Bytes} {t : Token} {d e : Nat}

/-- A token takes up some bytes. -/
theorem exists_used (h : Reads chunk ahead (.ok t) (some rest)) :
    ∃ used, used ≠ [] ∧ ahead = used ++ rest := by
  cases h with
  | opening k => exact ⟨[k.opens], List.cons_ne_nil _ _, rfl⟩
  | closing k => exact ⟨[k.closes], List.cons_ne_nil _ _, rfl⟩
  | quoted hread =>
    obtain ⟨front, hfront, -⟩ := Quoted.splitCode_of_read hread
    exact ⟨Bytes.quote :: front, List.cons_ne_nil _ _, by rw [hfront]; rfl⟩
  | atom hne hrun hcut hmarker => exact ⟨_, hne, rfl⟩

/-- **A token is passed over** as its bracket says. -/
theorem passes (h : Reads chunk ahead (.ok t) (some rest)) (hlevel : levelAfter d [t] = some e) :
    ∃ used, ahead = used ++ rest ∧ splitCode d .outside ahead =
      (splitCode e .outside rest).map fun (code, behind) => (used ++ code, behind) := by
  cases h with
  | opening k =>
    refine ⟨[k.opens], rfl, ?_⟩
    cases k with
    | round =>
      obtain rfl := Option.some.inj hlevel
      exact Passes.byte (by decide) (by decide) (by decide) d rest
    | square =>
      obtain rfl := Option.some.inj hlevel
      exact Passes.opening d rest
  | closing k =>
    refine ⟨[k.closes], rfl, ?_⟩
    cases k with
    | round =>
      obtain rfl := Option.some.inj hlevel
      exact Passes.byte (by decide) (by decide) (by decide) d rest
    | square =>
      have hlevel : (if d ≤ 1 then none else some (d - 1)) = some e := hlevel
      split at hlevel
      · cases hlevel
      · next hdeep =>
        obtain ⟨d, rfl⟩ : ∃ n, d = n + 2 := ⟨d - 2, by omega⟩
        obtain rfl := Option.some.inj hlevel
        exact Passes.closing d rest
  | @quoted rest' r hread =>
    obtain rfl := Option.some.inj hlevel
    obtain ⟨front, hfront, hsplit⟩ := Quoted.splitCode_of_read hread
    refine ⟨Bytes.quote :: front, by rw [hfront]; rfl, ?_⟩
    rw [Quoted.splitCode_quote, hsplit, Option.map_map]
    rfl
  | atom hne hrun hcut hmarker =>
    obtain rfl := Option.some.inj hlevel
    exact ⟨_, rfl, Passes.run hrun d rest⟩

/-- A token behind which no bracket is open closes the code. -/
theorem closes (h : Reads chunk ahead (.ok t) (some rest)) (hlevel : levelAfter d [t] = none) :
    t = .closing .square ∧ ahead = Bytes.closeSquare :: rest ∧
      splitCode d .outside ahead = some ([], rest) := by
  cases h with
  | opening k => cases k <;> cases hlevel
  | closing k =>
    cases k with
    | round => cases hlevel
    | square =>
      have hlevel : (if d ≤ 1 then none else some (d - 1)) = none := hlevel
      split at hlevel
      · next hshallow =>
        refine ⟨rfl, rfl, ?_⟩
        show splitCode d .outside (Bytes.closeSquare :: rest) = _
        simp [splitCode, hshallow]
      · cases hlevel
  | quoted hread => cases hlevel
  | atom hne hrun hcut hmarker => cases hlevel

/-- Where no token can be read, nothing closes a code. -/
theorem stops {cause : LexCause} {behind : Option Bytes}
    (h : Reads chunk ahead (.error cause) behind) (d : Nat) :
    splitCode d .outside ahead = none := by
  cases h with
  | unclosed hread =>
    rw [Quoted.splitCode_quote, Quoted.splitCode_of_unclosed hread, Option.map_none]
  | refused hrun hcut hblank hinner htake =>
    exact ((Passes.run hrun d).append
      (Passes.blanks (List.all_eq_true.1 hblank) d)).splitCode_eq_none

end Cursor.Reads

/-- The next token of a line, `used` being the bytes up to its end, and what it says of codes: it is
    passed over as its bracket says, or it is the bracket that closes the code. -/
structure Cursor.Finds (rest used behind : Bytes) (t : Token) : Prop where
  rest_eq : rest = used ++ behind
  ne_nil : used ≠ []
  passes : ∀ d e, levelAfter d [t] = some e → splitCode d .outside rest =
    (splitCode e .outside behind).map fun (code, after) => (used ++ code, after)
  closes : ∀ d, levelAfter d [t] = none → t = .closing .square ∧
    ∃ code, used = code ++ [Bytes.closeSquare] ∧ splitCode d .outside rest = some (code, behind)

/-- A token that is read behind blanks. -/
theorem Cursor.Finds.of_reads {chunk : Chunk} {blanks ahead behind : Bytes} {t : Token}
    (hblanks : ∀ b ∈ blanks, isBlank b = true) (h : Reads chunk ahead (.ok t) (some behind)) :
    ∃ used, ahead = used ++ behind ∧ Finds (blanks ++ ahead) (blanks ++ used) behind t := by
  obtain ⟨used, hne, hused⟩ := h.exists_used
  have hpasses := Passes.blanks hblanks
  refine ⟨used, hused, ?_, ?_, ?_, ?_⟩
  · rw [List.append_assoc, ← hused]
  · exact fun hnil => hne (List.append_eq_nil_iff.1 hnil).2
  · intro d e hlevel
    obtain ⟨used', hused', hpassed⟩ := h.passes hlevel
    obtain rfl := List.append_cancel_right (hused.symm.trans hused')
    rw [hpasses, hpassed, Option.map_map]
    congr 1
    funext ⟨code, after⟩
    simp
  · intro d hlevel
    obtain ⟨ht, hahead, hclosed⟩ := h.closes hlevel
    have hbracket : used = [Bytes.closeSquare] :=
      List.append_cancel_right (hused.symm.trans hahead)
    refine ⟨ht, blanks, by rw [hbracket], ?_⟩
    rw [hpasses, hclosed]
    exact congrArg (fun code => some (code, behind)) (List.append_nil blanks)

/-- **The next token** of a line, if there is one; otherwise nothing on it closes a code. -/
theorem Cursor.next_line {chunk : Chunk} (hc : chunk.literal = none) (rest : Bytes) :
    ((∀ index pos t c, (Cursor.mk index pos rest [chunk]).next ≠ (.ok (some t), c)) ∧
      ∀ d, splitCode d .outside rest = none) ∨
    ∃ used behind t, Finds rest used behind t ∧ ∀ index pos,
      (Cursor.mk index pos rest [chunk]).next
        = (.ok (some t), ⟨index, pos + used.length, behind, [chunk]⟩) := by
  have hblanks : ∀ b ∈ rest.takeWhile isBlank, isBlank b = true :=
    List.all_eq_true.1 List.all_takeWhile
  have hpasses := Passes.blanks hblanks
  have hcut : rest.takeWhile isBlank ++ rest.dropWhile isBlank = rest :=
    List.takeWhile_append_dropWhile
  cases hdrop : rest.dropWhile isBlank with
  | nil =>
    rw [hdrop, List.append_nil] at hcut
    rw [hcut] at hpasses
    refine Or.inl ⟨?_, fun d => (hpasses d).splitCode_eq_none⟩
    intro index pos t c
    show nextAt index pos rest [chunk] ≠ _
    rw [nextAt_lineBlank hdrop hc]
    nofun
  | cons b ahead =>
    rw [hdrop] at hcut
    obtain ⟨result, behind, hreads, hnext⟩ := nextAt_token hdrop chunk
    cases result with
    | error cause =>
      refine Or.inl ⟨?_, fun d => ?_⟩
      · intro index pos t c
        show nextAt index pos rest [chunk] ≠ _
        rw [hnext]
        nofun
      · rw [← hcut, hpasses, hreads.stops, Option.map_none]
    | ok t =>
      cases behind with
      | none => exact absurd hc hreads.takes.2
      | some behind =>
        obtain ⟨used, hused, hfinds⟩ := Finds.of_reads hblanks hreads
        rw [hcut] at hfinds
        refine Or.inr ⟨_, behind, t, hfinds, ?_⟩
        intro index pos
        show nextAt index pos rest [chunk] = _
        have hlength : (b :: ahead).length - behind.length = used.length := by
          rw [hused, List.length_append, Nat.add_sub_cancel]
        rw [hnext, placeAfter, hlength, List.length_append, ← Nat.add_assoc]
        rfl

/-! ## All tokens -/

section Line

variable {chunk : Chunk} (hc : chunk.literal = none)
include hc

/-- **The bracket that closes a code** is a token, and with it the outermost bracket is closed. -/
theorem Cursor.takes_of_splitCode {rest code behind : Bytes} {d : Nat} (index pos : Nat)
    (h : splitCode d .outside rest = some (code, behind)) :
    ∃ toks e c, Takes ⟨index, pos, rest, [chunk]⟩ (toks ++ [.closing .square]) c ∧
      levelAfter d toks = some e ∧ e ≤ 1 ∧ c.pos = pos + code.length + 1 ∧ c.rest = behind := by
  induction hn : rest.length using Nat.strongRecOn generalizing rest code d pos with
  | _ n ih =>
    rcases next_line hc rest with ⟨-, hnone⟩ | ⟨used, after, t, hfinds, hnext⟩
    · rw [hnone] at h
      cases h
    · cases hlevel : levelAfter d [t] with
      | none =>
        obtain ⟨rfl, code', rfl, hsplit⟩ := hfinds.closes d hlevel
        rw [hsplit] at h
        cases h
        refine ⟨[], d, _, .cons (hnext index pos) (.nil _), rfl, ?_, ?_, rfl⟩
        · have hshallow : (if d ≤ 1 then none else some (d - 1)) = none := hlevel
          split at hshallow
          · assumption
          · cases hshallow
        · show pos + (code ++ [Bytes.closeSquare]).length = _
          rw [List.length_append]
          rfl
      | some e =>
        rw [hfinds.passes d e hlevel] at h
        obtain ⟨⟨code', _⟩, hsplit, hsame⟩ := Option.map_eq_some_iff.1 h
        cases hsame
        have hshorter : after.length < n := by
          have hlength := congrArg List.length hfinds.rest_eq
          have hpos := List.length_pos_iff.2 hfinds.ne_nil
          rw [List.length_append] at hlength
          omega
        obtain ⟨toks, e', c, htakes, hlevel', he, hpos, hrest⟩ :=
          ih after.length hshorter (pos + used.length) hsplit rfl
        refine ⟨t :: toks, e', c, .cons (hnext index pos) htakes, ?_, he, ?_, hrest⟩
        · rw [levelAfter_cons, hlevel]
          exact hlevel'
        · rw [hpos, List.length_append]
          omega

/-- If no bracket closes the code, no token does. -/
theorem Cursor.level_of_splitCode_eq_none {rest : Bytes} {d : Nat} {index pos : Nat}
    {toks : List Token} {c : Cursor} (h : splitCode d .outside rest = none)
    (htakes : Takes ⟨index, pos, rest, [chunk]⟩ toks c) : ∃ e, levelAfter d toks = some e := by
  induction toks generalizing rest d pos with
  | nil => exact ⟨d, rfl⟩
  | cons t toks ih =>
    cases htakes with
    | cons hnext hmore =>
      rcases next_line hc rest with ⟨hnever, -⟩ | ⟨used, after, t', hfinds, hnext'⟩
      · exact absurd hnext (hnever _ _ _ _)
      · rw [hnext'] at hnext
        cases hnext
        cases hlevel : levelAfter d [t] with
        | none =>
          obtain ⟨-, code, -, hsplit⟩ := hfinds.closes d hlevel
          rw [hsplit] at h
          cases h
        | some e =>
          rw [hfinds.passes d e hlevel] at h
          obtain ⟨e', he'⟩ := ih (Option.map_eq_none_iff.1 h) hmore
          refine ⟨e', ?_⟩
          rw [levelAfter_cons, hlevel]
          exact he'

end Line

/-! ## Codes -/

/-- The bracket that a line starts with. -/
theorem Cursor.next_openSquare (tail : Bytes) :
    (Cursor.start [.plain (Bytes.openSquare :: tail)]).next
      = (.ok (some (.opening .square)), ⟨0, 1, tail, [.plain (Bytes.openSquare :: tail)]⟩) := by
  have hopened : Bracket.opened? Bytes.openSquare = some .square := rfl
  show nextAt 0 0 (Bytes.openSquare :: tail) [.plain (Bytes.openSquare :: tail)] = _
  rw [nextAt_start (by decide)]
  simp [tokenAt, hopened, Except.map]

/-- Tokens that leave the bracket in front of them open close less than was opened. -/
theorem not_closes {toks : List Token} {e : Nat} (h : levelAfter 1 toks = some e) :
    ¬ Closes (.opening .square :: toks) := by
  rintro ⟨-, hcount⟩
  obtain ⟨hpos, hsum⟩ := count_of_level (d := 0) h
  simp only [List.count_cons, beq_self_eq_true, if_true, reduceCtorEq, beq_iff_eq,
    if_false] at hcount
  omega

/-- The bracket behind such tokens, if only the one in front is open, is the first one with which as
    many are closed as were opened. -/
theorem closesFirst_of_level {line : Bytes} {toks : List Token} {c : Cursor} {e : Nat}
    (htakes : Cursor.Takes (Cursor.start [.plain line])
      (.opening .square :: (toks ++ [.closing .square])) c)
    (hlevel : levelAfter 1 toks = some e) (he : e ≤ 1) :
    ClosesFirst line (.opening .square :: (toks ++ [.closing .square])) c := by
  refine ⟨htakes, ⟨List.cons_ne_nil _ _, ?_⟩, ?_⟩
  · obtain ⟨hone, hsum⟩ := count_of_level (d := 0) hlevel
    simp only [List.count_cons, List.count_append, List.count_nil, beq_self_eq_true, if_true,
      reduceCtorEq, beq_iff_eq, if_false]
    omega
  · intro front hprefix hcloses
    cases front with
    | nil => exact absurd rfl hcloses.ne_nil
    | cons t front =>
      obtain ⟨rfl, hbehind⟩ := List.cons_prefix_cons.1 hprefix
      rcases List.prefix_concat_iff.1 hbehind with hwhole | ⟨more, hmore⟩
      · rw [hwhole]
      · rw [← hmore, levelAfter_append] at hlevel
        obtain ⟨e', he', -⟩ := Option.bind_eq_some_iff.1 hlevel
        exact absurd hcloses (not_closes he')

/-- **A code ends where its brackets are closed.**  On a line that starts with an opening square
    bracket, `codeOf?` takes the bytes up to the token with which, for the first time, as many
    square brackets are closed as were opened.  It finds none exactly if there is no such token. -/
theorem codeOf?_closes {line : Bytes} (hopen : line.head? = some Bytes.openSquare) :
    (∀ code behind, codeOf? line = some (code, behind) →
      ∃ toks c, ClosesFirst line toks c ∧ c.pos = code.length + 2 ∧ c.rest = behind) ∧
    (codeOf? line = none ↔
      ¬ ∃ toks c, Cursor.Takes (Cursor.start [.plain line]) toks c ∧ Closes toks) := by
  obtain ⟨tail, rfl⟩ := List.head?_eq_some_iff.1 hopen
  have hopening := Cursor.next_openSquare tail
  have hsome : ∀ code behind, codeOf? (Bytes.openSquare :: tail) = some (code, behind) →
      ∃ toks c, ClosesFirst (Bytes.openSquare :: tail) toks c ∧ c.pos = code.length + 2 ∧
        c.rest = behind := by
    intro code behind hcode
    have hsplit : splitCode 1 .outside tail = some (code, behind) := hcode
    have hplain : (Chunk.plain (Bytes.openSquare :: tail)).literal = none := rfl
    obtain ⟨toks, e, c, htakes, hlevel, he, hpos, hrest⟩ :=
      Cursor.takes_of_splitCode hplain 0 1 hsplit
    exact ⟨_, c, closesFirst_of_level (.cons hopening htakes) hlevel he, by omega, hrest⟩
  refine ⟨hsome, ?_⟩
  constructor
  · rintro hnone ⟨toks, c, htakes, hcloses⟩
    cases htakes with
    | nil => exact hcloses.ne_nil rfl
    | cons hnext hmore =>
      rw [hopening] at hnext
      cases hnext
      obtain ⟨e, he⟩ := Cursor.level_of_splitCode_eq_none rfl hnone hmore
      exact not_closes he hcloses
  · intro hnever
    cases hcode : codeOf? (Bytes.openSquare :: tail) with
    | none => rfl
    | some found =>
      obtain ⟨toks, c, hfirst, -⟩ := hsome found.1 found.2 hcode
      exact absurd ⟨toks, c, hfirst.takes, hfirst.closes⟩ hnever

end ImapWire
