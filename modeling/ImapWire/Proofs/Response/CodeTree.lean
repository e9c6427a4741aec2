/-
  The code of a status response and the tree of its brackets.

  A code is read without its brackets, as if it were a line of its own.  With its brackets it is a
  section, which the tree parser could read as well.  The two readings agree but for one thing: the
  end of a line has a meaning.  An atom such as `{5}` that stands last in the brackets is a byte
  string inside them; at the end of a line it is the marker of a literal, and there is none.

    1. **One token** (`Cursor.tokenAt_bracket`).  A closing bracket behind the bytes ahead makes a
       difference only for an atom with nothing but blanks between it and the bracket.
    2. **All tokens** (`Cursor.scan_bracket`).  So the tokens in the brackets are those of the code,
       or the last of them is such a marker, where the scan of the code fails.
    3. **The tree** of the code is then that of the brackets, without them (`Tree.parse_inside`).
    4. **The response** (`Response.parse_code`).
-/
import ImapWire.Proofs.Response.CodeEnd
import ImapWire.Proofs.Response.StatusParts
import ImapWire.Proofs.Tree.Grammar

namespace ImapWire

open Bytes (isBlank isDelimiter)

/-! ## One token -/

/-- A byte without a meaning of its own behind a quoted string, or in it, changes nothing. -/
theorem Quoted.read_concat {c : UInt8} (hc : isSpecial c = false) (bs : Bytes) :
    read (bs ++ [c]) = (read bs).map fun r => { r with rest := r.rest ++ [c] } := by
  have hquote : c ≠ Bytes.quote := by
    rintro rfl
    cases hc
  fun_induction read bs with
  | case1 => simp [read, hquote]
  | case2 => simp [read]
  | case3 b hb => simp [read, hb, hc, hquote]
  | case4 c' rest => simp [read]
  | case5 b c' rest hb hesc ih =>
    have hstep : ∀ more, read (b :: c' :: more) = (read more).map (Reading.push c' 2) := by
      intro more
      rw [read, if_neg hb, if_pos hesc]
    show read (b :: c' :: (rest ++ [c])) = _
    rw [hstep, ih, Option.map_map, Option.map_map]
    rfl
  | case6 b c' rest hb hesc ih =>
    have hstep : read (b :: c' :: rest ++ [c])
        = (read (c' :: rest ++ [c])).map (Reading.push b 1) := by
      show read (b :: c' :: (rest ++ [c])) = _
      rw [read, if_neg hb, if_neg hesc]
      rfl
    rw [hstep, ih, Option.map_map, Option.map_map]
    rfl

namespace Cursor

/-- What is read in front of a closing bracket, compared with what is read where the line ends
    instead: the same token, or an atom where there is a marker without a literal. -/
inductive SameToken (index index' : Nat) (chunk chunk' : Chunk) :
    Except LexFault Token × Cursor → Except LexFault Token × Cursor → Prop
  | token {t : Token} {behind : Bytes} (n n' : Nat)
      (hmarker : ∀ run, t = .atom run → behind.all isBlank = true → Marker.inner? run = none) :
      SameToken index index' chunk chunk'
        (.ok t, ⟨index, n, behind ++ [Bytes.closeSquare], [chunk]⟩)
        (.ok t, ⟨index', n', behind, [chunk']⟩)
  | marker {run inner behind : Bytes} (n : Nat) (f : LexFault) (c : Cursor)
      (hblank : behind.all isBlank = true) (hinner : Marker.inner? run = some inner) :
      SameToken index index' chunk chunk'
        (.ok (.atom run), ⟨index, n, behind ++ [Bytes.closeSquare], [chunk]⟩) (.error f, c)
  | fault (f : LexFault) (c : Cursor) (alone : Except LexFault Token × Cursor) :
      SameToken index index' chunk chunk' (.error f, c) alone

/-- A bracket, or a quoted string. -/
theorem tokenAt_bracket_delimiter {b : UInt8} (hb : isBlank b = false) (hd : isDelimiter b = true)
    (ahead : Bytes) (chunk chunk' : Chunk) (index pos index' pos' : Nat) :
    SameToken index index' chunk chunk'
      (tokenAt index pos b (ahead ++ [Bytes.closeSquare]) chunk [])
      (tokenAt index' pos' b ahead chunk' []) := by
  rcases bracket_or_quote hb hd with ⟨k, rfl⟩ | ⟨k, rfl⟩ | rfl
  · have hopened : Bracket.opened? k.opens = some k := Bracket.opened?_eq_some.2 rfl
    simp only [tokenAt, hopened]
    exact .token _ _ (by rintro _ ⟨⟩)
  · have hopened : Bracket.opened? k.closes = none := by cases k <;> rfl
    have hclosed : Bracket.closed? k.closes = some k := Bracket.closed?_eq_some.2 rfl
    simp only [tokenAt, hopened, hclosed]
    exact .token _ _ (by rintro _ ⟨⟩)
  · have hopened : Bracket.opened? Bytes.quote = none := rfl
    have hclosed : Bracket.closed? Bytes.quote = none := rfl
    have hplain : Quoted.isSpecial Bytes.closeSquare = false := rfl
    simp only [tokenAt, hopened, hclosed, if_true, Quoted.read_concat hplain]
    cases Quoted.read ahead with
    | none => exact .fault _ _ _
    | some r => exact .token _ _ (by rintro _ ⟨⟩)

/-- A run of bytes: where the line ends behind it, it may be a marker, but there is no literal. -/
theorem tokenAt_bracket_run {b : UInt8} (hd : isDelimiter b = false) {run after : Bytes}
    (hrun : ∀ c ∈ run, isDelimiter c = false) (hcut : Cut after) (chunk : Chunk) {chunk' : Chunk}
    (hc : chunk'.literal = none) (index pos index' pos' : Nat) :
    SameToken index index' chunk chunk'
      (tokenAt index pos b (run ++ after ++ [Bytes.closeSquare]) chunk [])
      (tokenAt index' pos' b (run ++ after) chunk' []) := by
  have hcut' : Cut (after ++ [Bytes.closeSquare]) := by
    cases after with
    | nil => exact fun c hc => Option.some.inj hc ▸ rfl
    | cons c after => exact hcut
  have hmore : (after ++ [Bytes.closeSquare]).all isBlank = false := by
    rw [List.all_append]
    exact Bool.and_false _
  rw [List.append_assoc, tokenAt_run hd, tokenAt_run hd, Yields.takeWhile_run hrun hcut,
    Yields.takeWhile_run hrun hcut', Yields.dropWhile_run hrun hcut,
    Yields.dropWhile_run hrun hcut', hmore]
  simp only [Bool.false_eq_true, if_false]
  by_cases hblank : after.all isBlank = true
  · cases hinner : Marker.inner? (b :: run) with
    | none =>
      simp only [hblank, if_true]
      refine .token _ _ ?_
      rintro _ ⟨⟩ -
      exact hinner
    | some inner =>
      cases htake : takeLiteral chunk' inner with
      | ok bs =>
        have hliteral := (takeLiteral_eq_ok_iff.1 htake).1
        rw [hc] at hliteral
        cases hliteral
      | error cause =>
        simp only [hblank, if_true, htake]
        exact .marker _ _ _ hblank hinner
  · simp only [hblank, if_false, Bool.false_eq_true]
    exact .token _ _ fun _ _ h => absurd h hblank

/-- **One token** in front of a closing bracket, and where the line ends. -/
theorem tokenAt_bracket {b : UInt8} (hb : isBlank b = false) (ahead : Bytes) (chunk : Chunk)
    {chunk' : Chunk} (hc : chunk'.literal = none) (index pos index' pos' : Nat) :
    SameToken index index' chunk chunk'
      (tokenAt index pos b (ahead ++ [Bytes.closeSquare]) chunk [])
      (tokenAt index' pos' b ahead chunk' []) := by
  cases hd : isDelimiter b with
  | true => exact tokenAt_bracket_delimiter hb hd ahead chunk chunk' index pos index' pos'
  | false =>
    obtain ⟨run, after, rfl, hrun, hcut⟩ : ∃ run after, ahead = run ++ after ∧
        (∀ c ∈ run, isDelimiter c = false) ∧ Cut after := by
      refine ⟨ahead.takeWhile fun c => !isDelimiter c, ahead.dropWhile fun c => !isDelimiter c,
        List.takeWhile_append_dropWhile.symm, fun c hc => ?_, cut_dropWhile ahead⟩
      simpa using List.all_eq_true.1 List.all_takeWhile c hc
    exact tokenAt_bracket_run hd hrun hcut chunk hc index pos index' pos'

/-! ## All tokens -/

/-- The last token is an atom that would be the marker of a literal at the end of a line. -/
def endsInMarker (toks : List Token) : Bool :=
  match toks.getLast? with
  | some (.atom run) => (Marker.inner? run).isSome
  | _ => false

theorem endsInMarker_cons {t : Token} {toks : List Token} (hne : toks ≠ []) :
    endsInMarker (t :: toks) = endsInMarker toks := by
  obtain ⟨u, toks, rfl⟩ := List.exists_cons_of_ne_nil hne
  rfl

/-- Behind the blanks in front the next token starts. -/
theorem next_eq_tokenAt {b : UInt8} {rest ahead : Bytes}
    (hdrop : rest.dropWhile isBlank = b :: ahead) (chunk : Chunk) (index pos : Nat) :
    ∃ start, (Cursor.mk index pos rest [chunk]).next
      = ((tokenAt index start b ahead chunk []).1.map some,
          (tokenAt index start b ahead chunk []).2) := by
  refine ⟨pos + (rest.takeWhile isBlank).length, ?_⟩
  show nextAt index pos rest [chunk] = _
  rw [nextAt, hdrop]

/-- The first byte that is no blank. -/
theorem isBlank_of_dropWhile {b : UInt8} {rest ahead : Bytes}
    (hdrop : rest.dropWhile isBlank = b :: ahead) : isBlank b = false := by
  have hhead := List.head?_dropWhile_not isBlank rest
  rwa [hdrop] at hhead

theorem all_blank {rest : Bytes} (hdrop : rest.dropWhile isBlank = []) :
    rest.all isBlank = true := by
  have hcut := List.takeWhile_append_dropWhile (p := isBlank) (l := rest)
  rw [hdrop, List.append_nil] at hcut
  rw [← hcut]
  exact List.all_takeWhile

/-- A line without tokens holds blanks. -/
theorem blank_of_scan {chunk : Chunk} {index pos : Nat} {rest : Bytes}
    (h : (Cursor.mk index pos rest [chunk]).scan = ⟨[], none⟩) : rest.all isBlank = true := by
  cases hdrop : rest.dropWhile isBlank with
  | nil => exact all_blank hdrop
  | cons b ahead =>
    obtain ⟨start, hnext⟩ := next_eq_tokenAt hdrop chunk index pos
    cases htoken : tokenAt index start b ahead chunk [] with
    | mk result c =>
      rw [htoken] at hnext
      cases result with
      | ok t =>
        rw [scan_of_token hnext] at h
        cases h
      | error f =>
        rw [scan_of_fault hnext] at h
        cases h

/-- Only a closing bracket is left of a line. -/
theorem scan_blank_bracket {chunk : Chunk} (hc : chunk.literal = none) {blanks : Bytes}
    (h : blanks.all isBlank = true) (index pos : Nat) :
    (Cursor.mk index pos (blanks ++ [Bytes.closeSquare]) [chunk]).scan
      = ⟨[.closing .square], none⟩ :=
  Yields.blanks (List.all_eq_true.1 h) (Yields.closing .square (Yields.lineEnd hc (Yields.nil _)))
    index pos

/-- **The tokens in front of a closing bracket** are those of the line that ends there instead, or
    the last of them is a marker, for which there is no literal on the line. -/
theorem scan_bracket {chunk chunk' : Chunk} (hc : chunk.literal = none)
    (hc' : chunk'.literal = none) {code : Bytes} {index pos : Nat} (index' pos' : Nat)
    {toks : List Token}
    (h : (Cursor.mk index pos (code ++ [Bytes.closeSquare]) [chunk]).scan = ⟨toks, none⟩) :
    ∃ inside, toks = inside ++ [.closing .square] ∧
      ((endsInMarker inside = false ∧
          (Cursor.mk index' pos' code [chunk']).scan = ⟨inside, none⟩) ∨
        (endsInMarker inside = true ∧ ∃ front run f, inside = front ++ [.atom run] ∧
          (Cursor.mk index' pos' code [chunk']).scan = ⟨front, some f⟩)) := by
  induction hn : code.length using Nat.strongRecOn generalizing code index pos index' pos' toks with
  | _ n ih =>
    cases hdrop : code.dropWhile isBlank with
    | nil =>
      have hblank := all_blank hdrop
      rw [scan_blank_bracket hc hblank] at h
      cases h
      have halone := Yields.blanks (List.all_eq_true.1 hblank)
        (Yields.lineEnd hc' (Yields.nil (firstLine [])))
      rw [List.append_nil] at halone
      exact ⟨[], rfl, Or.inl ⟨rfl, halone index' pos'⟩⟩
    | cons b ahead =>
      have hb := isBlank_of_dropWhile hdrop
      have hdrop' : (code ++ [Bytes.closeSquare]).dropWhile isBlank
          = b :: (ahead ++ [Bytes.closeSquare]) := by
        rw [List.dropWhile_append, hdrop]
        rfl
      obtain ⟨start, hwhole⟩ := next_eq_tokenAt hdrop' chunk index pos
      obtain ⟨start', halone⟩ := next_eq_tokenAt hdrop chunk' index' pos'
      have hsame := tokenAt_bracket hb ahead chunk hc' index start index' start'
      generalize tokenAt index start b (ahead ++ [Bytes.closeSquare]) chunk [] = whole
        at hsame hwhole
      generalize halone' : tokenAt index' start' b ahead chunk' [] = alone at hsame halone
      cases hsame with
      | @token t behind place place' hmarker =>
        have hshorter : behind.length < n := by
          have hunread := next_unread_lt halone
          simp only [unread, List.tail_cons, linesSize] at hunread
          omega
        rw [scan_of_token hwhole] at h
        obtain ⟨htoks, hfault⟩ := Scan.mk.inj h
        have hmore : (Cursor.mk index place (behind ++ [Bytes.closeSquare]) [chunk]).scan
            = ⟨toks.tail, none⟩ := by
          rw [← htoks, ← hfault]
          rfl
        obtain ⟨inside, hinside, hcode⟩ := ih behind.length hshorter index' place' hmore rfl
        refine ⟨t :: inside, by rw [← htoks] at hinside ⊢; exact congrArg _ hinside, ?_⟩
        rcases hcode with ⟨hnot, hscan⟩ | ⟨hends, front, run, f, hlast, hscan⟩
        · refine Or.inl ⟨?_, by rw [scan_of_token halone, hscan]⟩
          cases inside with
          | cons u inside => rwa [endsInMarker_cons (List.cons_ne_nil u inside)]
          | nil =>
            -- nothing but blanks is behind this token
            cases t with
            | atom run =>
              show (Marker.inner? run).isSome = false
              rw [hmarker run rfl (blank_of_scan hscan)]
              rfl
            | _ => rfl
        · refine Or.inr ⟨?_, t :: front, run, f, by rw [hlast]; rfl,
            by rw [scan_of_token halone, hscan]⟩
          have hne : inside ≠ [] := by
            rw [hlast]
            exact List.append_ne_nil_of_right_ne_nil _ (List.cons_ne_nil _ _)
          rwa [endsInMarker_cons hne]
      | @marker run inner behind place f c hblank hinner =>
        rw [scan_of_token hwhole, scan_blank_bracket hc hblank] at h
        cases h
        refine ⟨[.atom run], rfl, Or.inr ⟨?_, [], run, f, rfl, scan_of_fault halone⟩⟩
        show (Marker.inner? run).isSome = true
        rw [hinner]
        rfl
      | fault f c =>
        rw [scan_of_fault hwhole] at h
        cases h

end Cursor

/-! ## The tree -/

/-- A forest whose last token is an atom ends in that word. -/
theorem Written.eq_concat_of_tokensAll {ws : List Written} {front : List Token} {run : Bytes}
    (h : tokensAll ws = front ++ [.atom run]) :
    ∃ vs, ws = vs ++ [.word (.atom run)] ∧ front = tokensAll vs := by
  rcases List.eq_nil_or_concat ws with rfl | ⟨vs, w, rfl⟩
  · exact absurd h.symm (List.append_ne_nil_of_right_ne_nil _ (List.cons_ne_nil _ _))
  · have hlast : tokensAll vs ++ w.tokens = front ++ [.atom run] := by
      rw [← h, List.concat_eq_append, tokensAll_append]
      exact congrArg _ (List.append_nil _).symm
    cases w with
    | word w =>
      obtain ⟨hfront, htoken⟩ := List.append_inj' hlast rfl
      have hword : w = .atom run := token_injective (List.cons.inj htoken).1
      exact ⟨vs, by rw [hword, List.concat_eq_append], hfront.symm⟩
    | group k items =>
      -- the last token of a group is its bracket
      have hclosing : (tokensAll vs ++ .opening k :: tokensAll items) ++ [.closing k]
          = front ++ [.atom run] := by
        rw [← hlast]
        simp [tokens]
      cases (List.append_inj' hclosing rfl).2

/-- Only a group means a group. -/
theorem Written.eq_group_of_treeAll {ws : List Written} {k : Bracket} {ts : List Tree}
    (h : treeAll ws = [.group k ts]) : ∃ items, ws = [.group k items] ∧ treeAll items = ts := by
  cases ws with
  | nil => cases h
  | cons w ws =>
    obtain ⟨hw, hws⟩ := List.cons.inj h
    cases ws with
    | cons v ws => cases hws
    | nil =>
      cases w with
      | group k' items =>
        cases hw
        exact ⟨items, rfl, rfl⟩
      | word w =>
        have hdepth : (Tree.group k ts).depth = 0 := by
          rw [← hw]
          exact w.depth_tree
        cases hdepth

/-- **The trees of a code** are those in its brackets, unless the last token there is a marker. -/
theorem Tree.parse_inside {code : Bytes} {ts : List Tree}
    (h : parse [.plain (Bytes.openSquare :: (code ++ [Bytes.closeSquare]))]
      = .ok [.group .square ts]) :
    ∃ inside, (Cursor.start [.plain (Bytes.openSquare :: (code ++ [Bytes.closeSquare]))]).scan
        = ⟨.opening .square :: (inside ++ [.closing .square]), none⟩ ∧
      (Cursor.endsInMarker inside = false → parse [.plain code] = .ok ts) ∧
      (Cursor.endsInMarker inside = true → ∃ f, parse [.plain code] = .error (.lex f)) := by
  obtain ⟨hfault, hdepth, ws, hws, hts⟩ := ofScan_ok h
  obtain ⟨items, rfl, rfl⟩ := Written.eq_group_of_treeAll hts.symm
  have hroom : depthAll (Written.treeAll items) ≤ maxDepth := by
    have hgroup : max (depthAll (Written.treeAll items) + 1) 0 ≤ maxDepth := hdepth
    omega
  have hplain : ∀ line, (Chunk.plain line).literal = none := fun _ => rfl
  have hscan : (Cursor.start [.plain (Bytes.openSquare :: (code ++ [Bytes.closeSquare]))]).scan
      = ⟨.opening .square :: (Written.tokensAll items ++ [.closing .square]), none⟩ := by
    have htokens : Written.tokensAll [.group .square items]
        = .opening .square :: (Written.tokensAll items ++ [.closing .square]) := List.append_nil _
    rw [← htokens, ← hws, ← hfault]
    rfl
  -- behind the bracket in front the code and its bracket are scanned
  have hbehind : (Cursor.mk 0 1 (code ++ [Bytes.closeSquare])
      [.plain (Bytes.openSquare :: (code ++ [Bytes.closeSquare]))]).scan
        = ⟨Written.tokensAll items ++ [.closing .square], none⟩ := by
    rw [Cursor.scan_of_token (Cursor.next_openSquare (code ++ [Bytes.closeSquare]))] at hscan
    obtain ⟨htoks, hnone⟩ := Cursor.Scan.mk.inj hscan
    rw [← (List.cons.inj htoks).2, ← hnone]
  obtain ⟨inside, hinside, hcode⟩ := Cursor.scan_bracket (hplain _) (hplain code) 0 0 hbehind
  obtain rfl := List.append_cancel_right hinside
  refine ⟨Written.tokensAll items, hscan, ?_, ?_⟩
  · intro hends
    rcases hcode with ⟨-, halone⟩ | ⟨hmarker, -⟩
    · show ofScan (Cursor.mk 0 0 code [.plain code]).scan = _
      rw [halone]
      exact ofScan_tokensAll hroom
    · rw [hends] at hmarker
      cases hmarker
  · intro hends
    rcases hcode with ⟨hnot, -⟩ | ⟨-, front, run, f, hlast, halone⟩
    · rw [hends] at hnot
      cases hnot
    · obtain ⟨vs, rfl, rfl⟩ := Written.eq_concat_of_tokensAll hlast
      refine ⟨f, ?_⟩
      show ofScan (Cursor.mk 0 0 code [.plain code]).scan = _
      rw [halone]
      rw [Written.treeAll_append, depthAll_append] at hroom
      have hfront : Nest.empty.frames.length + depthAll (Written.treeAll vs) ≤ maxDepth := by
        show 0 + _ ≤ _
        omega
      -- the forest in front is read, and then there is no token
      have hrun := Nest.run_tokensAll vs 0 Nest.empty [] (some f) hfront
      rw [List.append_nil] at hrun
      exact hrun

/-! ## The response -/

namespace Response

variable {chunk : Chunk} {tag : Option Tag} {status : Status} {p : Place}

/-- A code whose trees are known. -/
theorem readCode_of_parse {code : Bytes} {first : Tree} {rest : List Tree} {name : Bytes}
    (hparse : Tree.parse [.plain code] = .ok (first :: rest))
    (hname : (Value.ofTree first).lossless? = some name) (line : Bytes) :
    readCode code line = .ok ⟨keyOf name, Value.ofTrees rest⟩ := by
  unfold readCode
  rw [hparse]
  cases first with
  | int n => cases hname; rfl
  | bytes bs => cases hname; rfl
  | nil => cases hname
  | group k items => cases hname

/-- A code whose trees cannot be read. -/
theorem readCode_of_fault {code : Bytes} {f : LexFault}
    (hparse : Tree.parse [.plain code] = .error (.lex f)) (line : Bytes) :
    readCode code line = .error (.lex f) := by
  unfold readCode
  rw [hparse]
  rfl

/-- Where the code that opens at an index of a line is closed. -/
def codeEnd? (line : Bytes) (start : Nat) : Option Nat :=
  Guarded.closedAt (start + 1) (codeOf? (line.drop start))

theorem codeEnd?_eq_some_iff {line : Bytes} {start stop : Nat} : codeEnd? line start = some stop ↔
    ∃ code behind, codeOf? (line.drop start) = some (code, behind) ∧
      stop = start + 1 + code.length := by
  constructor
  · intro h
    obtain ⟨⟨code, behind⟩, hcode, rfl⟩ := Option.map_eq_some_iff.1 h
    exact ⟨code, behind, hcode, rfl⟩
  · rintro ⟨code, behind, hcode, rfl⟩
    exact Option.map_eq_some_iff.2 ⟨(code, behind), hcode, rfl⟩

theorem codeEnd?_eq_none_iff {line : Bytes} {start : Nat} :
    codeEnd? line start = none ↔ codeOf? (line.drop start) = none :=
  Option.map_eq_none_iff

/-- The last token in brackets is an atom that would be a marker at the end of a line. -/
def hasMarkerLast (brackets : Bytes) : Bool :=
  Cursor.endsInMarker (Cursor.start [.plain brackets]).scan.tokens.dropLast

/-- **Text that starts with a code** says what the code says, and what is behind its bracket. -/
theorem readText_of_codeEnd? {line : Bytes} {stop : Nat} (h : p.Within line)
    (hopen : (line.drop p.skipSpaces.pos).head? = some Bytes.openSquare)
    (hstop : codeEnd? line p.skipSpaces.pos = some stop) :
    ∃ code, line.extract p.skipSpaces.pos (stop + 1)
        = Bytes.openSquare :: (code ++ [Bytes.closeSquare]) ∧
      readText line p = (readCode code line).map fun c =>
        (some c, (Place.ofLine line (stop + 1)).text) := by
  have hrest : p.skipSpaces.rest = line.drop p.skipSpaces.pos := (h.skip _).on
  rw [← hrest] at hopen
  obtain ⟨tail, htail⟩ := List.head?_eq_some_iff.1 hopen
  obtain ⟨code, behind, hcode, rfl⟩ := codeEnd?_eq_some_iff.1 hstop
  have hline : line.drop p.skipSpaces.pos
      = Bytes.openSquare :: (code ++ [Bytes.closeSquare]) ++ behind := by
    rw [← hrest, htail] at hcode ⊢
    have hinside : tail = code ++ Bytes.closeSquare :: behind := splitCode_spec hcode
    rw [hinside]
    simp
  have hlength : (Bytes.openSquare :: (code ++ [Bytes.closeSquare])).length
      = p.skipSpaces.pos + 1 + code.length + 1 - p.skipSpaces.pos := by
    simp only [List.length_cons, List.length_append, List.length_nil]
    omega
  refine ⟨code, ?_, ?_⟩
  · rw [List.extract_eq_take_drop, hline, ← hlength, List.take_left]
  · have hbehind : line.drop (p.skipSpaces.pos + 1 + code.length + 1) = behind := by
      have hsum : p.skipSpaces.pos + 1 + code.length + 1 = p.skipSpaces.pos
          + (Bytes.openSquare :: (code ++ [Bytes.closeSquare])).length := by omega
      rw [hsum, ← List.drop_drop, hline, List.drop_left]
    unfold readText
    simp only
    rw [if_pos hopen, hrest, hcode]
    show (readCode code line >>= _) = _
    unfold Place.ofLine
    rw [hbehind]
    cases readCode code line <;> rfl

/-- **The code of a status response is what stands in its brackets.**

    Where the brackets, read as a line of their own, are a section that starts with a byte string or
    an integer, the response has that code, unless the last token in them is an atom that would be a
    marker at the end of a line: then it cannot be read.  The brackets end where, for the first
    time, the tokens of the line have closed as many square brackets as they opened, if they ever
    do. -/
theorem parse_code (options : Options) (h : statusOf? chunk.line = some (tag, status, p))
    {start : Nat} (hstart : p.skipSpaces.pos = start)
    (hopen : chunk.line[start]? = some Bytes.openSquare) :
    (∀ stop, codeEnd? chunk.line start = some stop →
      (∀ first rest name,
        Tree.parse [.plain (chunk.line.extract start (stop + 1))]
          = .ok [.group .square (first :: rest)] →
        (Value.ofTree first).lossless? = some name →
        (hasMarkerLast (chunk.line.extract start (stop + 1)) = false →
          parse options [chunk] = .ok (ofStatus tag status (some ⟨keyOf name, Value.ofTrees rest⟩)
            (Place.ofLine chunk.line (stop + 1)).text)) ∧
        (hasMarkerLast (chunk.line.extract start (stop + 1)) = true →
          ∃ f, parse options [chunk] = .error (.lex f))) ∧
      ∃ toks c, ClosesFirst (chunk.line.drop start) toks c ∧ start + c.pos = stop + 1) ∧
    (codeEnd? chunk.line start = none ↔
      ¬ ∃ toks c, Cursor.Takes (Cursor.start [.plain (chunk.line.drop start)]) toks c ∧
        Closes toks) := by
  subst hstart
  have hhead : (chunk.line.drop p.skipSpaces.pos).head? = some Bytes.openSquare := by
    rw [List.head?_drop]
    exact hopen
  obtain ⟨hcloses, hnever⟩ := codeOf?_closes hhead
  refine ⟨fun stop hstop => ⟨?_, ?_⟩, codeEnd?_eq_none_iff.trans hnever⟩
  · intro first rest name hbrackets hname
    obtain ⟨code, hcode, htext⟩ := readText_of_codeEnd? (within_of_statusOf? h) hhead hstop
    rw [hcode] at hbrackets
    obtain ⟨inside, hscan, hread, hfails⟩ := Tree.parse_inside hbrackets
    have hlast : hasMarkerLast (chunk.line.extract p.skipSpaces.pos (stop + 1))
        = Cursor.endsInMarker inside := by
      rw [hcode, hasMarkerLast, hscan]
      show Cursor.endsInMarker
        ((Token.opening .square :: inside) ++ [Token.closing .square]).dropLast = _
      rw [List.dropLast_concat]
      cases inside with
      | nil => rfl
      | cons t inside => exact Cursor.endsInMarker_cons (List.cons_ne_nil t inside)
    rw [hlast, parse_of_statusOf? options h, htext]
    constructor
    · intro hends
      rw [readCode_of_parse (hread hends) hname]
      rfl
    · intro hends
      obtain ⟨f, hfault⟩ := hfails hends
      rw [readCode_of_fault hfault]
      exact ⟨f, rfl⟩
  · obtain ⟨code, behind, hcode, rfl⟩ := codeEnd?_eq_some_iff.1 hstop
    obtain ⟨toks, c, hfirst, hpos, -⟩ := hcloses code behind hcode
    exact ⟨toks, c, hfirst, by omega⟩

/-- A marker in front of another token is an atom, as it is in brackets. -/
theorem parse_code_marker :
    parse default [.plain (Bytes.ofString "* ok [x {5} \"]\"] done")]
        = .ok (.data (.condition .ok (some ⟨"X", [.bytes (Bytes.ofString "{5}"),
            .bytes (Bytes.ofString "]")]⟩) "done")) ∧
      ∃ f, parse default [.plain (Bytes.ofString "a1 NO [X [{5}] {5}] done")]
        = .error (.lex f) := by
  constructor
  · have hparts : statusOf? (Bytes.ofString "* ok [x {5} \"]\"] done")
        = some (none, .ok, ⟨4, Bytes.ofString " [x {5} \"]\"] done"⟩) := by decide +kernel
    obtain ⟨hcode, -⟩ := @parse_code (.plain (Bytes.ofString "* ok [x {5} \"]\"] done")) none .ok
      ⟨4, Bytes.ofString " [x {5} \"]\"] done"⟩ default hparts 5 (by decide) (by decide)
    obtain ⟨hread, -⟩ := (hcode 15 (by decide +kernel)).1 (.bytes (Bytes.ofString "x"))
      [.bytes (Bytes.ofString "{5}"), .bytes (Bytes.ofString "]")] (Bytes.ofString "x")
      (by decide +kernel) rfl
    exact hread (by decide +kernel)
  · have hparts : statusOf? (Bytes.ofString "a1 NO [X [{5}] {5}] done")
        = some (some ⟨"a1"⟩, .no, ⟨5, Bytes.ofString " [X [{5}] {5}] done"⟩) := by decide +kernel
    obtain ⟨hcode, -⟩ := @parse_code (.plain (Bytes.ofString "a1 NO [X [{5}] {5}] done"))
      (some ⟨"a1"⟩) .no ⟨5, Bytes.ofString " [X [{5}] {5}] done"⟩ default hparts 6 (by decide)
      (by decide)
    obtain ⟨-, hfails⟩ := (hcode 18 (by decide +kernel)).1 (.bytes (Bytes.ofString "X"))
      [.group .square [.bytes (Bytes.ofString "{5}")], .bytes (Bytes.ofString "{5}")]
      (Bytes.ofString "X") (by decide +kernel) rfl
    exact hfails (by decide +kernel)

/-- Brackets that can be read, around a code that cannot. -/
theorem parse_code_lost :
    statusOf? (Bytes.ofString "* OK [X {5}] done")
        = some (none, .ok, ⟨4, Bytes.ofString " [X {5}] done"⟩) ∧
      codeEnd? (Bytes.ofString "* OK [X {5}] done") 5 = some 11 ∧
      Tree.parse [.plain ((Bytes.ofString "* OK [X {5}] done").extract 5 12)]
        = .ok [.group .square [.bytes (Bytes.ofString "X"), .bytes (Bytes.ofString "{5}")]] ∧
      ¬ ∃ r, parse default [.plain (Bytes.ofString "* OK [X {5}] done")] = .ok r := by
  have hparts : statusOf? (Chunk.plain (Bytes.ofString "* OK [X {5}] done")).line
      = some (none, .ok, ⟨4, Bytes.ofString " [X {5}] done"⟩) := by decide +kernel
  have hstop : codeEnd? (Chunk.plain (Bytes.ofString "* OK [X {5}] done")).line 5 = some 11 := by
    decide +kernel
  refine ⟨hparts, hstop, by decide +kernel, ?_⟩
  have hfault : Tree.parse [.plain (Bytes.ofString "X {5}")]
      = .error (.lex ⟨0, 2, .missingLiteral 5, Bytes.ofString "X {5}"⟩) := by decide +kernel
  obtain ⟨code, hcode, htext⟩ :=
    readText_of_codeEnd? (within_of_statusOf? hparts) (by decide) hstop
  have hinside : Bytes.openSquare :: (code ++ [Bytes.closeSquare])
      = Bytes.openSquare :: (Bytes.ofString "X {5}" ++ [Bytes.closeSquare]) :=
    hcode.symm.trans (by decide +kernel)
  rintro ⟨r, hread⟩
  rw [parse_of_statusOf? default hparts, htext, List.append_cancel_right (List.cons.inj hinside).2,
    readCode_of_fault hfault] at hread
  cases hread

end Response

end ImapWire
