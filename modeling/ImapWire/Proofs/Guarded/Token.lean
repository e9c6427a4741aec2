/-
  Tokens by position.

  A scan as a program makes it that keeps the number of its chunk and a position in the line of that
  chunk.  Both are whatever they are: a scan may start anywhere, behind the end of a line, too.  It
  looks at single bytes before it takes a part of the line, so that part is always there.

  1. **One token** (`nextToken_eq`).  From any chunk and any position it is the token that a cursor
     there finds, and the new position is that of the cursor behind it.

  2. **All tokens** (`scanFrom_eq`), one after the other.

  3. **What a line announces** (`literalLength_eq`), from positions counted from its end.
-/
import ImapWire.Proofs.Guarded.Line
import ImapWire.Proofs.Token.Announced
import ImapWire.Proofs.Token.Reads

namespace ImapWire

open Bytes (isBlank isDelimiter)

namespace Guarded

/-! ## Loops -/

/-- The position behind bytes of a class, one byte after the other. -/
def advance (p : UInt8 → Bool) (line : Bytes) (pos : Nat) : Nat :=
  match _h : (line)[pos]? with
  | some b => if p b then advance p line (pos + 1) else pos
  | none => pos
termination_by line.length - pos
decreasing_by
  have hlt := (List.getElem?_eq_some_iff.1 _h).1
  omega

/-- A quoted string from behind its opening quote on, and the position behind its closing one. -/
def readQuoted (line : Bytes) (pos : Nat) (front : Bytes) : Option (Bytes × Nat) :=
  match _h : (line)[pos]? with
  | none => none
  | some b =>
    if b = Bytes.quote then some (front, pos + 1)
    else if b = Bytes.backslash then
      match (line)[pos + 1]? with
      | none => none
      | some c =>
        if Quoted.isSpecial c then readQuoted line (pos + 2) (front ++ [c])
        else readQuoted line (pos + 1) (front ++ [Bytes.backslash])
    else readQuoted line (pos + 1) (front ++ [b])
termination_by line.length - pos
decreasing_by all_goals
  have hlt := (List.getElem?_eq_some_iff.1 _h).1
  omega

theorem drop_of_getElem? {line : Bytes} {pos : Nat} {b : UInt8} (h : (line)[pos]? = some b) :
    line.drop pos = b :: line.drop (pos + 1) := by
  obtain ⟨hlt, rfl⟩ := List.getElem?_eq_some_iff.1 h
  exact List.drop_eq_getElem_cons hlt

theorem drop_of_getElem?_none {line : Bytes} {pos : Nat} (h : (line)[pos]? = none) :
    line.drop pos = [] :=
  List.drop_eq_nil_of_le (List.getElem?_eq_none_iff.1 h)

theorem advance_eq (p : UInt8 → Bool) (line : Bytes) (pos : Nat) :
    advance p line pos = pos + ((line.drop pos).takeWhile p).length := by
  fun_induction advance p line pos with
  | case1 pos b h hb ih =>
    rw [ih, drop_of_getElem? h, List.takeWhile_cons, if_pos hb, List.length_cons]
    omega
  | case2 pos b h hb =>
    rw [drop_of_getElem? h, List.takeWhile_cons, if_neg hb]
    rfl
  | case3 pos h =>
    rw [drop_of_getElem?_none h]
    rfl

/-- It stays on the line. -/
theorem advance_le (p : UInt8 → Bool) {line : Bytes} {pos : Nat} (hpos : pos ≤ line.length) :
    advance p line pos ≤ line.length := by
  have hrun := (List.takeWhile_sublist p (l := line.drop pos)).length_le
  rw [List.length_drop] at hrun
  rw [advance_eq]
  omega

/-- What is left is behind the position. -/
theorem drop_advance (p : UInt8 → Bool) (line : Bytes) (pos : Nat) :
    line.drop (advance p line pos) = (line.drop pos).dropWhile p := by
  rw [advance_eq]
  exact ((Place.on_ofLine line pos).skip p).symm

theorem readQuoted_eq (line : Bytes) (pos : Nat) (front : Bytes) :
    readQuoted line pos front =
      (Quoted.read (line.drop pos)).map fun r => (front ++ r.bytes, pos + r.size) := by
  fun_induction readQuoted line pos front with
  | case1 pos front h =>
    rw [drop_of_getElem?_none h]
    rfl
  | case2 pos front h =>
    rw [drop_of_getElem? h, Quoted.read_quote]
    simp
  | case3 pos front hnext h hne =>
    rw [drop_of_getElem? h, drop_of_getElem?_none hnext]
    simp [Quoted.read, hne]
  | case4 pos front c hnext hc h hne ih =>
    rw [ih, drop_of_getElem? h, drop_of_getElem? hnext, Quoted.read_escape hc, Option.map_map]
    congr 1
    funext r
    simp only [Function.comp, Quoted.Reading.push, List.append_assoc, List.singleton_append,
      Prod.mk.injEq, true_and]
    omega
  | case5 pos front c hnext hc h hne ih =>
    have hplain : Quoted.read (Bytes.backslash :: line.drop (pos + 1))
        = (Quoted.read (line.drop (pos + 1))).map (Quoted.Reading.push Bytes.backslash 1) := by
      refine Quoted.read_byte hne fun _ d hd => ?_
      rw [drop_of_getElem? hnext] at hd
      obtain rfl : c = d := Option.some.inj hd
      exact Bool.eq_false_iff.2 hc
    rw [ih, drop_of_getElem? h, hplain, Option.map_map]
    congr 1
    funext r
    simp only [Function.comp, Quoted.Reading.push, List.append_assoc, List.singleton_append,
      Prod.mk.injEq, true_and]
    omega
  | case6 pos front b h hquote hbackslash ih =>
    rw [ih, drop_of_getElem? h, Quoted.read_byte hquote fun hb => absurd hb hbackslash,
      Option.map_map]
    congr 1
    funext r
    simp only [Function.comp, Quoted.Reading.push, List.append_assoc, List.singleton_append,
      Prod.mk.injEq, true_and]
    omega

/-! ## One token -/

/-- An atom, or the literal that it is the marker of; with the number of the chunk and the position
    behind it. -/
def readAtom (chunk : Chunk) (index start : Nat) : Guarded (Except LexFault Token × Nat × Nat) := do
  let stop := advance (fun b => !isDelimiter b) chunk.line start
  let atom ← between chunk.line start stop
  let after ← behind chunk.line stop
  match (if after.all isBlank then Marker.inner? atom else none) with
  | none => .ok (.ok (.atom atom), index, stop)
  | some inner =>
    match Cursor.takeLiteral chunk inner with
    | .ok literal => .ok (.ok (.literal literal), index + 1, 0)
    | .error cause => .ok (.error ⟨index, start, cause, chunk.line⟩, index, stop)

/-- The next token, none at the end, with the number of the chunk and the position behind it. -/
def nextToken (chunks : List Chunk) (index pos : Nat) :
    Guarded (Except LexFault (Option Token) × Nat × Nat) :=
  match _h : chunks[index]? with
  | none => .ok (.ok none, index, pos)
  | some chunk =>
    let pos := advance isBlank chunk.line pos
    match chunk.line[pos]? with
    | none =>
      if chunk.literal.isSome then .ok (.error ⟨index, pos, .strayLiteral, chunk.line⟩, index, pos)
      else nextToken chunks (index + 1) 0
    | some b =>
      match Bracket.opened? b, Bracket.closed? b with
      | some k, _ => .ok (.ok (some (.opening k)), index, pos + 1)
      | none, some k => .ok (.ok (some (.closing k)), index, pos + 1)
      | none, none =>
        if b = Bytes.quote then
          match readQuoted chunk.line (pos + 1) [] with
          | some (bytes, stop) => .ok (.ok (some (.quoted bytes)), index, stop)
          | none =>
            .ok (.error ⟨index, pos, .unterminatedQuote, chunk.line⟩, index, chunk.line.length)
        else do
          let (result, place) ← readAtom chunk index pos
          .ok (result.map some, place)
termination_by chunks.length - index
decreasing_by
  have hlt := (List.getElem?_eq_some_iff.1 _h).1
  omega

end Guarded

/-- The cursor at a position of a chunk. -/
def Cursor.ofPosition (chunks : List Chunk) (index pos : Nat) : Cursor :=
  ⟨index, pos, (Cursor.firstLine (chunks.drop index)).drop pos, chunks.drop index⟩

namespace Guarded

open Cursor (ofPosition)

variable {chunks : List Chunk} {chunk : Chunk} {index : Nat}

theorem drop_of_chunk (h : chunks[index]? = some chunk) :
    chunks.drop index = chunk :: chunks.drop (index + 1) := by
  obtain ⟨hlt, rfl⟩ := List.getElem?_eq_some_iff.1 h
  exact List.drop_eq_getElem_cons hlt

theorem ofPosition_eq (h : chunks[index]? = some chunk) (pos : Nat) :
    ofPosition chunks index pos
      = ⟨index, pos, chunk.line.drop pos, chunk :: chunks.drop (index + 1)⟩ := by
  unfold ofPosition
  rw [drop_of_chunk h]
  rfl

theorem ofPosition_next (chunks : List Chunk) (index : Nat) :
    ofPosition chunks (index + 1) 0 = Cursor.following index (chunks.drop (index + 1)) := rfl

/-- **An atom** is a part of the line, and so is what is behind it. -/
theorem readAtom_eq {start : Nat} {b : UInt8} {rest : Bytes} (h : chunks[index]? = some chunk)
    (hdrop : chunk.line.drop start = b :: rest) (hb : isDelimiter b = false) :
    ∃ result i p, readAtom chunk index start = .ok (result, i, p) ∧
      Cursor.tokenAt index start b rest chunk (chunks.drop (index + 1))
        = (result, ofPosition chunks i p) := by
  have hstart : start ≤ chunk.line.length := by
    have hlength := congrArg List.length hdrop
    rw [List.length_drop, List.length_cons] at hlength
    omega
  have hrun : (chunk.line.drop start).takeWhile (fun b => !isDelimiter b)
      = b :: rest.takeWhile fun b => !isDelimiter b := by
    rw [hdrop, List.takeWhile_cons, hb]
    rfl
  have hafter : (chunk.line.drop start).dropWhile (fun b => !isDelimiter b)
      = rest.dropWhile fun b => !isDelimiter b := by
    rw [hdrop, List.dropWhile_cons, hb]
    rfl
  have hstop : advance (fun b => !isDelimiter b) chunk.line start
      = start + (b :: rest.takeWhile fun b => !isDelimiter b).length := by
    rw [advance_eq, hrun]
  have hbehind := drop_advance (fun b => !isDelimiter b) chunk.line start
  have hle := advance_le (fun b => !isDelimiter b) hstart
  have hread : readAtom chunk index start =
      match (if (rest.dropWhile fun b => !isDelimiter b).all isBlank then
        Marker.inner? (b :: rest.takeWhile fun b => !isDelimiter b) else none) with
      | none => .ok (.ok (.atom (b :: rest.takeWhile fun b => !isDelimiter b)), index,
          advance (fun b => !isDelimiter b) chunk.line start)
      | some inner =>
        match Cursor.takeLiteral chunk inner with
        | .ok literal => .ok (.ok (.literal literal), index + 1, 0)
        | .error cause => .ok (.error ⟨index, start, cause, chunk.line⟩, index,
            advance (fun b => !isDelimiter b) chunk.line start) := by
    have hatom := between_run (fun b => !isDelimiter b) hstart
    rw [← advance_eq, hrun] at hatom
    unfold readAtom
    simp only
    rw [hatom, behind_eq hle, hbehind, hafter]
    rfl
  rw [hread, Cursor.tokenAt_run hb]
  have hplace : ofPosition chunks index (advance (fun b => !isDelimiter b) chunk.line start)
      = ⟨index, start + (b :: rest.takeWhile fun b => !isDelimiter b).length,
          rest.dropWhile fun b => !isDelimiter b, chunk :: chunks.drop (index + 1)⟩ := by
    rw [ofPosition_eq h, hbehind, hafter, hstop]
  cases (if (rest.dropWhile fun b => !isDelimiter b).all isBlank then
    Marker.inner? (b :: rest.takeWhile fun b => !isDelimiter b) else none) with
  | none =>
    refine ⟨_, _, _, rfl, ?_⟩
    rw [hplace]
  | some inner =>
    simp only
    cases Cursor.takeLiteral chunk inner with
    | ok literal => exact ⟨_, _, _, rfl, rfl⟩
    | error cause =>
      refine ⟨_, _, _, rfl, ?_⟩
      rw [hplace]

/-- A byte that is no blank, no bracket and no quote is part of a run. -/
theorem isDelimiter_eq_false {b : UInt8} (hblank : isBlank b = false)
    (hopened : Bracket.opened? b = none) (hclosed : Bracket.closed? b = none)
    (hquote : b ≠ Bytes.quote) : isDelimiter b = false := by
  rw [← Bool.not_eq_true]
  intro hdelimiter
  rcases Cursor.bracket_or_quote hblank hdelimiter with ⟨k, rfl⟩ | ⟨k, rfl⟩ | rfl
  · rw [Bracket.opened?_eq_some.2 rfl] at hopened
    cases hopened
  · rw [Bracket.closed?_eq_some.2 rfl] at hclosed
    cases hclosed
  · exact hquote rfl

/-- On a used up line nothing is left. -/
theorem dropWhile_of_end {pos : Nat} (h : chunk.line[advance isBlank chunk.line pos]? = none) :
    (chunk.line.drop pos).dropWhile isBlank = [] := by
  rw [← drop_advance]
  exact drop_of_getElem?_none h

/-- The cursor skips the same blanks, and reads a token that starts with the same byte. -/
theorem next_of_byte {pos : Nat} {b : UInt8} (h : chunks[index]? = some chunk)
    (hb : chunk.line[advance isBlank chunk.line pos]? = some b) :
    isBlank b = false ∧ (ofPosition chunks index pos).next =
      ((Cursor.tokenAt index (advance isBlank chunk.line pos) b
          (chunk.line.drop (advance isBlank chunk.line pos + 1)) chunk
          (chunks.drop (index + 1))).1.map some,
        (Cursor.tokenAt index (advance isBlank chunk.line pos) b
          (chunk.line.drop (advance isBlank chunk.line pos + 1)) chunk
          (chunks.drop (index + 1))).2) := by
  have hdrop : (chunk.line.drop pos).dropWhile isBlank
      = b :: chunk.line.drop (advance isBlank chunk.line pos + 1) := by
    rw [← drop_advance]
    exact drop_of_getElem? hb
  constructor
  · have hhead := List.head?_dropWhile_not isBlank (chunk.line.drop pos)
    rwa [hdrop] at hhead
  · rw [ofPosition_eq h]
    show Cursor.nextAt _ _ _ (chunk :: _) = _
    rw [Cursor.nextAt, hdrop, ← advance_eq]

/-- **One token.**  From any chunk and any position, the token is the one that a cursor there finds,
    and the position behind it is that of the cursor. -/
theorem nextToken_eq (chunks : List Chunk) (index pos : Nat) :
    ∃ result i p, nextToken chunks index pos = .ok (result, i, p) ∧
      (ofPosition chunks index pos).next = (result, ofPosition chunks i p) := by
  fun_induction nextToken chunks index pos with
  | case1 index pos h =>
    have hnone : chunks.drop index = [] := List.drop_eq_nil_of_le (List.getElem?_eq_none_iff.1 h)
    refine ⟨_, _, _, rfl, ?_⟩
    unfold ofPosition
    rw [hnone]
    show (_, Cursor.mk index pos [] []) = (_, Cursor.mk index pos (List.drop pos []) [])
    rw [List.drop_nil]
  | case2 index pos chunk h start hend hliteral =>
    -- a literal behind a line without a marker
    refine ⟨_, _, _, rfl, ?_⟩
    rw [ofPosition_eq h, ofPosition_eq h, drop_of_getElem?_none hend]
    show Cursor.nextAt _ _ _ (chunk :: _) = _
    rw [Cursor.nextAt_stray (dropWhile_of_end hend) (Option.isSome_iff_ne_none.1 hliteral),
      ← advance_eq]
  | case3 index pos chunk h start hend hliteral ih =>
    -- the line is used up
    obtain ⟨result, i, p, hread, hnext⟩ := ih
    refine ⟨result, i, p, hread, ?_⟩
    rw [← hnext, ofPosition_eq h, ofPosition_next]
    exact Cursor.nextAt_lineBlank (dropWhile_of_end hend) (by simpa using hliteral) _ _ _
  | case4 index pos chunk h start b hb k hk =>
    refine ⟨_, _, _, rfl, ?_⟩
    rw [(next_of_byte h hb).2, ofPosition_eq h]
    simp [Cursor.tokenAt, hk, Except.map, start]
  | case5 index pos chunk h start b hb k hk hnot =>
    refine ⟨_, _, _, rfl, ?_⟩
    rw [(next_of_byte h hb).2, ofPosition_eq h]
    simp [Cursor.tokenAt, hk, hnot, Except.map, start]
  | case6 index pos chunk h start bytes stop hread hb hclosed hopened =>
    rw [readQuoted_eq] at hread
    obtain ⟨r, hr, hsame⟩ := Option.map_eq_some_iff.1 hread
    cases hsame
    refine ⟨_, _, _, rfl, ?_⟩
    have hrest : chunk.line.drop (start + 1 + r.size) = r.rest := by
      rw [← List.drop_drop, Quoted.rest_eq_drop hr]
    rw [(next_of_byte h hb).2, ofPosition_eq h, hrest]
    simp only [Cursor.tokenAt, hopened, hclosed, if_true]
    rw [hr]
    simp [Except.map, start, Nat.add_assoc, Nat.add_comm]
  | case7 index pos chunk h start hread hb hclosed hopened =>
    have hnone : Quoted.read (chunk.line.drop (start + 1)) = none := by
      rw [readQuoted_eq] at hread
      simpa using hread
    have hlt : start < chunk.line.length := (List.getElem?_eq_some_iff.1 hb).1
    have hend : start + ((chunk.line.drop (start + 1)).length + 1) = chunk.line.length := by
      rw [List.length_drop]
      omega
    refine ⟨_, _, _, rfl, ?_⟩
    rw [(next_of_byte h hb).2, ofPosition_eq h, List.drop_length]
    simp only [Cursor.tokenAt, hopened, hclosed, if_true]
    rw [hnone]
    simp only [Except.map]
    rw [hend]
  | case8 index pos chunk h start b hb hclosed hopened hquote =>
    obtain ⟨hblank, hnext⟩ := next_of_byte h hb
    have hrun := isDelimiter_eq_false hblank hopened hclosed hquote
    obtain ⟨result, i, p, hread, htoken⟩ := readAtom_eq h (drop_of_getElem? hb) hrun
    refine ⟨result.map some, i, p, ?_, ?_⟩
    · rw [hread]
      rfl
    · rw [hnext, htoken]

/-! ## All tokens -/

/-- The tokens from a position on, up to the end or up to the first failure. -/
def scanFrom (chunks : List Chunk) (index pos : Nat) : Guarded Cursor.Scan :=
  match _h : nextToken chunks index pos with
  | .error trap => .error trap
  | .ok (.error fault, _) => .ok ⟨[], some fault⟩
  | .ok (.ok none, _) => .ok ⟨[], none⟩
  | .ok (.ok (some t), i, p) => do
    let s ← scanFrom chunks i p
    .ok { s with tokens := t :: s.tokens }
termination_by (ofPosition chunks index pos).unread
decreasing_by
  obtain ⟨result, i', p', hread, hnext⟩ := nextToken_eq chunks index pos
  rw [hread] at _h
  cases _h
  exact Cursor.next_unread_lt hnext

/-- **A scan by position** never fails, and it is the scan of a cursor. -/
theorem scanFrom_eq (chunks : List Chunk) (index pos : Nat) :
    scanFrom chunks index pos = .ok (ofPosition chunks index pos).scan := by
  fun_induction scanFrom chunks index pos with
  | case1 index pos trap h =>
    obtain ⟨result, i, p, hread, -⟩ := nextToken_eq chunks index pos
    rw [hread] at h
    cases h
  | case2 index pos fault place h =>
    obtain ⟨result, i, p, hread, hnext⟩ := nextToken_eq chunks index pos
    rw [hread] at h
    cases h
    rw [Cursor.scan_of_fault hnext]
  | case3 index pos place h =>
    obtain ⟨result, i, p, hread, hnext⟩ := nextToken_eq chunks index pos
    rw [hread] at h
    cases h
    rw [Cursor.scan_of_end hnext]
  | case4 index pos t i p h ih =>
    obtain ⟨result, i', p', hread, hnext⟩ := nextToken_eq chunks index pos
    rw [hread] at h
    cases h
    rw [ih, Cursor.scan_of_token hnext]
    rfl

/-! ## What a line announces -/

/-- The byte in front of a position, if there is one. -/
def byteBefore (line : Bytes) (pos : Nat) : Guarded (Option UInt8) :=
  if 0 < pos then do
    let last ← pred pos
    let b ← get line last
    .ok (some b)
  else .ok none

/-- The length that the marker at the end of a line announces, if it stands alone. -/
def lengthFrom (line : Bytes) (start : Nat) : Guarded (Option Nat) := do
  let before ← byteBefore line start
  if before.all isDelimiter then do
    let marker ← behind line start
    .ok ((Marker.inner? marker).bind Marker.length?)
  else .ok none

/-- The length that a line announces: up to its last byte that is no blank, from the last opening
    brace on, or from the tilde in front of it. -/
def literalLength (line : Bytes) : Guarded (Option Nat) := do
  let stop := ((lastIdx? (fun b => !isBlank b) line).map (· + 1)).getD 0
  let trimmed ← upTo line stop
  match lastIdx? (· == Bytes.openBrace) trimmed with
  | none => .ok none
  | some brace =>
    let before ← byteBefore trimmed brace
    let start ← if before = some Bytes.tilde then pred brace else .ok brace
    lengthFrom trimmed start

/-- Any byte before a position is on the line. -/
theorem byteBefore_append (front back : Bytes) :
    byteBefore (front ++ back) front.length = .ok front.getLast? := by
  rcases List.eq_nil_or_concat front with rfl | ⟨front, b, rfl⟩
  · rfl
  · rw [List.concat_eq_append]
    have hpos : 0 < (front ++ [b]).length := by simp
    have hget : get ((front ++ [b]) ++ back) front.length = .ok b := get_eq (by simp)
    unfold byteBefore
    rw [if_pos hpos, List.length_append, List.getLast?_concat]
    show (pred (front.length + 1) >>= _) = _
    simp only [pred, bind, Except.bind]
    rw [hget]

theorem lengthFrom_append (front marker : Bytes) :
    lengthFrom (front ++ marker) front.length =
      .ok (if front.getLast?.all isDelimiter then (Marker.inner? marker).bind Marker.length?
        else none) := by
  unfold lengthFrom
  rw [byteBefore_append, behind_eq (by simp), List.drop_left]
  show (if front.getLast?.all isDelimiter = true then _ else _) = _
  split <;> rfl

/-- The line up to its last byte that is no blank. -/
theorem upTo_trimmed (line : Bytes) :
    upTo line (((lastIdx? (fun b => !isBlank b) line).map (· + 1)).getD 0)
      = .ok (line.reverse.dropWhile isBlank).reverse := by
  rcases exists_last (fun b => !isBlank b) line with hnone | ⟨front, b, back, rfl, hb, hback⟩
  · have hall : ∀ b ∈ line.reverse, isBlank b = true := by
      intro b hb
      simpa using hnone b (List.mem_reverse.1 hb)
    have hdrop : line.reverse.dropWhile isBlank = [] := by
      rw [← List.append_nil line.reverse, List.dropWhile_append_of_pos hall]
      rfl
    rw [lastIdx?_eq_none hnone, hdrop]
    exact upTo_eq (Nat.zero_le _)
  · have hall : ∀ c ∈ back.reverse, isBlank c = true := by
      intro c hc
      simpa using hback c (List.mem_reverse.1 hc)
    have hb' : ¬ isBlank b = true := by simpa using hb
    have hreverse : (front ++ b :: back).reverse = back.reverse ++ (b :: front.reverse) := by simp
    rw [lastIdx?_append (fun b => !isBlank b) hb front hback, hreverse,
      List.dropWhile_append_of_pos hall, List.dropWhile_cons, if_neg hb']
    show upTo (front ++ b :: back) (front.length + 1) = _
    rw [upTo_eq (by simp), List.take_length_add_append]
    simp

/-- Behind the last opening brace of a line without blanks at its end. -/
theorem announced?_of_brace {line front inner : Bytes}
    (htrimmed : (line.reverse.dropWhile isBlank).reverse = front ++ Bytes.openBrace :: inner)
    (hinner : ∀ c ∈ inner, (c == Bytes.openBrace) = false) :
    announced? line =
      if (if front.getLast? = some Bytes.tilde then front.dropLast else front).getLast?.all
          isDelimiter then
        (Marker.inner? (Bytes.openBrace :: inner)).bind Marker.length?
      else none := by
  have hback : line.reverse.dropWhile isBlank
      = inner.reverse ++ (Bytes.openBrace :: front.reverse) := by
    rw [← List.reverse_reverse (line.reverse.dropWhile isBlank), htrimmed]
    simp
  have hskip : ∀ c ∈ inner.reverse, (c != Bytes.openBrace) = true := by
    intro c hc
    simpa using hinner c (List.mem_reverse.1 hc)
  have hstop : ¬ (Bytes.openBrace != Bytes.openBrace) = true := by simp
  unfold announced?
  simp only
  rw [hback, List.dropWhile_append_of_pos hskip, List.takeWhile_append_of_pos hskip,
    List.dropWhile_cons, List.takeWhile_cons, if_neg hstop, if_neg hstop, List.append_nil,
    List.reverse_reverse]
  simp only [List.head?_reverse]
  split
  · rw [List.tail_reverse, List.head?_reverse]
  · rw [List.head?_reverse]

/-- **What a line announces** is found without leaving the line. -/
theorem literalLength_eq (line : Bytes) : literalLength line = .ok (announced? line) := by
  unfold literalLength
  simp only
  rw [upTo_trimmed]
  rcases exists_last (· == Bytes.openBrace) (line.reverse.dropWhile isBlank).reverse with
    hnone | ⟨front, b, inner, htrimmed, hb, hinner⟩
  · -- no brace at all
    have hdrop : (line.reverse.dropWhile isBlank).dropWhile (· != Bytes.openBrace) = [] := by
      have hskip : ∀ c ∈ line.reverse.dropWhile isBlank, (c != Bytes.openBrace) = true := by
        intro c hc
        simpa using hnone c (List.mem_reverse.2 hc)
      rw [← List.append_nil (line.reverse.dropWhile isBlank), List.dropWhile_append_of_pos hskip]
      rfl
    unfold announced?
    simp only
    rw [hdrop]
    show (match lastIdx? _ _ with | none => _ | some brace => _) = _
    rw [lastIdx?_eq_none hnone]
  · obtain rfl : b = Bytes.openBrace := by simpa using hb
    rw [announced?_of_brace htrimmed hinner, htrimmed]
    have hlast : lastIdx? (· == Bytes.openBrace) (front ++ Bytes.openBrace :: inner)
        = some front.length := lastIdx?_append (· == Bytes.openBrace) hb front hinner
    show (match lastIdx? _ _ with | none => _ | some brace => _) = _
    rw [hlast]
    show (byteBefore _ front.length >>= _) = _
    rw [byteBefore_append]
    by_cases htilde : front.getLast? = some Bytes.tilde
    · -- the marker starts at the tilde
      obtain ⟨front, rfl⟩ := List.getLast?_eq_some_iff.1 htilde
      have hpred : pred (front ++ [Bytes.tilde]).length = .ok front.length := by
        rw [List.length_append]
        rfl
      have hlength := lengthFrom_append front (Bytes.tilde :: Bytes.openBrace :: inner)
      rw [Marker.inner?_tilde] at hlength
      rw [htilde, if_pos rfl, List.dropLast_concat, ← hlength]
      simp only [bind, Except.bind, if_true, hpred, List.append_assoc, List.singleton_append]
    · rw [if_neg htilde, ← lengthFrom_append]
      simp only [bind, Except.bind, if_neg htilde]

end Guarded

end ImapWire
