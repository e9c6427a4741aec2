/-
  What is written is read back.

  Writing a tree and reading the lines gives the tree again, for every tree that a reader takes at
  all: one that nests no deeper than `maxDepth`.  The two halves were made ready elsewhere: a scan
  of the lines finds the tokens of the tree in the writer's spelling (`Tree.scan_chunks`), and the
  nest makes the tree of them (`Tree.ofScan_written`).

  A value is written as its generic form, so that form is what comes back of it.  For trees that
  were read from somewhere there is nothing to ask: they are shallow enough because they were
  accepted (`Tree.parse_ok`), however their words were spelt there.

  The lines may also go over a stream (`Value.readResponse_written`): they are one response, which
  is taken off the stream as it was laid out (`Tree.readResponse_closed`), but for an empty line
  that a literal at the end needs behind it.
-/
import ImapWire.Proofs.Tree.Framed
import ImapWire.Proofs.Tree.Spelling
import ImapWire.Proofs.Value.Form
import Mathlib.Control.Monad.Basic

namespace ImapWire

/-! ## Trees -/

/-- **Writing a tree and reading it** gives the tree. -/
theorem Tree.parse_chunks {ts : List Tree} (hdepth : Tree.depthAll ts ≤ maxDepth)
    (hfits : Tree.FitsAll ts) : Tree.parse (Tree.chunks ts) = .ok ts := by
  show Tree.ofScan (Cursor.start (Tree.chunks ts)).scan = _
  rw [Tree.scan_chunks hfits]
  exact Tree.ofScan_written hdepth

/-! ## Trees that were read -/

theorem Word.fits_tree {w : Word} (h : ∀ bs ∈ w.token.bytes?, bs.Fits) : w.tree.Fits := by
  cases w with
  | atom bs =>
    have hbs : bs.Fits := h bs rfl
    show (Tree.ofAtom bs).Fits
    unfold Tree.ofAtom
    split
    · exact trivial
    · split
      · exact trivial
      · exact hbs
  | quoted bs => exact h bs rfl
  | literal bs => exact h bs rfl

mutual
/-- Trees hold no longer byte strings than their tokens. -/
theorem Written.fits_tree (w : Written) (h : ∀ t ∈ w.tokens, ∀ bs ∈ t.bytes?, bs.Fits) :
    w.tree.Fits := by
  cases w with
  | word w => exact Word.fits_tree (h w.token (List.mem_singleton.2 rfl))
  | group b items =>
    refine Written.fits_treeAll items fun t ht => h t ?_
    exact List.mem_cons_of_mem _ (List.mem_append_left _ ht)

theorem Written.fits_treeAll (ws : List Written)
    (h : ∀ t ∈ Written.tokensAll ws, ∀ bs ∈ t.bytes?, bs.Fits) :
    Tree.FitsAll (Written.treeAll ws) := by
  cases ws with
  | nil => exact trivial
  | cons w ws =>
    refine ⟨Written.fits_tree w fun t ht => h t ?_, Written.fits_treeAll ws fun t ht => h t ?_⟩
    · exact List.mem_append_left _ ht
    · exact List.mem_append_right _ ht
end

/-- Trees that were read are not too deep, and hold nothing longer than the lines and literals that
    they were read from. -/
theorem Tree.parse_ok {received : List Chunk} {ts : List Tree}
    (hlines : ∀ c ∈ received, c.line.Fits) (h : Tree.parse received = .ok ts) :
    Tree.depthAll ts ≤ maxDepth ∧ Tree.FitsAll ts := by
  obtain ⟨-, hdepth, ws, hws, hts⟩ := Tree.ofScan_ok h
  refine ⟨hdepth, ?_⟩
  have hstart : (Cursor.startAt received 0).Fits := by
    refine ⟨?_, hlines⟩
    cases received with
    | nil => exact Nat.two_pow_pos 64
    | cons c cs => exact hlines c List.mem_cons_self
  rw [hts]
  refine Written.fits_treeAll ws ?_
  rw [← hws]
  exact Cursor.scan_fits hstart

/-! ## Values -/

/-- A value is written as its form. -/
theorem Value.chunks?_of_formAll {vs : List Value} {ts : List Tree} (h : Value.FormAll vs ts) :
    Value.chunks? vs = some (Tree.chunks ts) := by
  unfold Value.chunks?
  rw [Value.treeAll?_of_formAll h]
  rfl

/-- **What is written is read back.**  Values whose envelope dates have years of at most four digits
    have a generic form and can be written, and reading gives their form, if it nests no deeper than
    `maxDepth`.  Generic values themselves come back unchanged, and so do all trees that were ever
    read from any lines.  (`Fits`: no byte string, and no line that was received, has 2⁶⁴ bytes,
    which is more than memory addresses can tell apart.) -/
theorem Value.parse_written :
    (∀ vs : List Value, (∀ s ∈ Value.datesAll vs, 0 ≤ s.year ∧ s.year ≤ 9999) →
      ∃ ts cs, Value.FormAll vs ts ∧ Value.chunks? vs = some cs ∧
        (Tree.depthAll ts ≤ maxDepth → Tree.FitsAll ts → Tree.parse cs = .ok ts)) ∧
    (∀ ts : List Tree, Tree.depthAll ts ≤ maxDepth → Tree.FitsAll ts →
      ∃ cs, Value.chunks? (Value.ofTrees ts) = some cs ∧ Tree.parse cs = .ok ts) ∧
    (∀ (received : List Chunk) (ts : List Tree), (∀ c ∈ received, c.line.Fits) →
      Tree.parse received = .ok ts →
      ∃ cs, Value.chunks? (Value.ofTrees ts) = some cs ∧ Tree.parse cs = .ok ts) := by
  refine ⟨?_, ?_, ?_⟩
  · intro vs hdates
    obtain ⟨ts, hform⟩ := (Value.exists_formAll_iff vs).2 hdates
    refine ⟨ts, Tree.chunks ts, hform, Value.chunks?_of_formAll hform, ?_⟩
    intro hdepth hfits
    exact Tree.parse_chunks hdepth hfits
  · intro ts hdepth hfits
    exact ⟨Tree.chunks ts, Value.chunks?_of_formAll (Value.formAll_ofTrees ts),
      Tree.parse_chunks hdepth hfits⟩
  · intro received ts hlines hread
    obtain ⟨hdepth, hfits⟩ := Tree.parse_ok hlines hread
    exact ⟨Tree.chunks ts, Value.chunks?_of_formAll (Value.formAll_ofTrees ts),
      Tree.parse_chunks hdepth hfits⟩

/-- A look-alike of `NIL`, a line break, an understood part and an envelope with a date; then a
    literal that was received, and its tree. -/
theorem Value.parse_written_mixed :
    (∃ cs, Value.chunks?
        [.group .round [.bytes Tree.nilWord, .bytes [0x7B, 0x0D, 0x0A], .flags [[0x5C]]],
          .envelope ⟨some ⟨0, 0, 3600⟩, none, [], [], [], [], [], [], none, some []⟩] = some cs ∧
      Tree.parse cs = .ok
        [.group .round [.bytes Tree.nilWord, .bytes [0x7B, 0x0D, 0x0A],
            .group .round [.bytes [0x5C]]],
          .group .round [.bytes (Bytes.ofString "Thu, 1 Jan 1970 01:00:00 +0100"), .nil, .nil, .nil,
            .nil, .nil, .nil, .nil, .nil, .bytes []]]) ∧
    (∃ cs, Value.chunks? (Value.ofTrees [.group .square [.bytes [0x0D]]]) = some cs ∧
      Tree.parse cs = .ok [.group .square [.bytes [0x0D]]]) ∧
    (Tree.parse [⟨Bytes.ofString "({1}", some [0x0D]⟩, .plain (Bytes.ofString ")")]
        = .ok [.group .round [.bytes [0x0D]]] ∧
      ∃ cs, Value.chunks? (Value.ofTrees [.group .round [.bytes [0x0D]]]) = some cs ∧
        Tree.parse cs = .ok [.group .round [.bytes [0x0D]]]) := by
  obtain ⟨hvalues, htrees, hreceived⟩ := Value.parse_written
  refine ⟨?_, htrees _ (by decide) (by decide), ?_⟩
  · obtain ⟨ts, cs, hform, hcs, hread⟩ := hvalues
      [.group .round [.bytes Tree.nilWord, .bytes [0x7B, 0x0D, 0x0A], .flags [[0x5C]]],
        .envelope ⟨some ⟨0, 0, 3600⟩, none, [], [], [], [], [], [], none, some []⟩] (by decide)
    have htrees : ts = [.group .round [.bytes Tree.nilWord, .bytes [0x7B, 0x0D, 0x0A],
          .group .round [.bytes [0x5C]]],
        .group .round [.bytes (Bytes.ofString "Thu, 1 Jan 1970 01:00:00 +0100"), .nil, .nil, .nil,
          .nil, .nil, .nil, .nil, .nil, .bytes []]] :=
      Option.some.inj ((Value.treeAll?_of_formAll hform).symm.trans (by decide +kernel))
    subst htrees
    exact ⟨cs, hcs, hread (by decide) (by decide)⟩
  · have hparse : Tree.parse [⟨Bytes.ofString "({1}", some [0x0D]⟩, .plain (Bytes.ofString ")")]
        = .ok [.group .round [.bytes [0x0D]]] := by decide +kernel
    exact ⟨hparse, hreceived _ _ (by decide) hparse⟩

/-! ## Over a stream -/

/-- **What is written survives a stream.**  The lines of values, with a line end more behind a
    literal at the end, are taken off a stream as they were laid out, and what is read of them is
    the form of the values.  It does not matter how the bytes arrive, nor what is behind them; no
    line and no literal may be too long for the reader. -/
theorem Value.readResponse_written (vs : List Value)
    (hdates : ∀ s ∈ Value.datesAll vs, 0 ≤ s.year ∧ s.year ≤ 9999) :
    ∃ ts cs, Value.FormAll vs ts ∧ Value.chunks? vs = some cs ∧
      (Tree.depthAll ts ≤ maxDepth → Tree.FitsAll ts → ∀ (r : Reader) (rest : Bytes),
        r.stream.Healthy → Response.Below r.limits.line r.limits.literal cs →
        r.unread = (wire cs ++ if Response.endsInLiteral cs then lineEnd else []) ++ rest →
        ∃ received r', received = cs ++ (if Response.endsInLiteral cs then [.plain []] else []) ∧
          r.readResponse = (.ok received, r') ∧ r'.unread = rest ∧
            Tree.parse received = .ok ts) := by
  obtain ⟨ts, hform⟩ := (Value.exists_formAll_iff vs).2 hdates
  refine ⟨ts, Tree.chunks ts, hform, Value.chunks?_of_formAll hform, ?_⟩
  intro hdepth hfits r rest hr hbelow hunread
  rw [← Response.wire_closed] at hunread
  obtain ⟨r', hread, hrest⟩ := Tree.readResponse_closed hfits hr hbelow hunread
  exact ⟨Response.closed (Tree.chunks ts), r', rfl, hread, hrest, Tree.parse_closed hdepth hfits⟩

/-- A quoted string that ends as a marker does, and a literal at the end; the reader has room for
    them and no more, and each line end comes in two pieces. -/
theorem Value.readResponse_written_pieces :
    ∃ r', (Reader.ofStream ⟨15, 1⟩ [.bytes (Bytes.ofString "(\"a b{3}\") {1}\r"),
          .bytes (Bytes.ofString "\n\r"), .bytes (Bytes.ofString "\r"),
          .bytes (Bytes.ofString "\n")]).readResponse
        = (.ok [⟨Bytes.ofString "(\"a b{3}\") {1}", some [Bytes.cr]⟩, .plain []], r') ∧
      r'.unread = [] ∧
      Tree.parse [⟨Bytes.ofString "(\"a b{3}\") {1}", some [Bytes.cr]⟩, .plain []]
        = .ok [.group .round [.bytes (Bytes.ofString "a b{3}")], .bytes [Bytes.cr]] := by
  obtain ⟨ts, cs, hform, hcs, hread⟩ := Value.readResponse_written
    [.flags [Bytes.ofString "a b{3}"], .bytes [Bytes.cr]] (by decide)
  have htrees : ts = [.group .round [.bytes (Bytes.ofString "a b{3}")], .bytes [Bytes.cr]] :=
    Option.some.inj ((Value.treeAll?_of_formAll hform).symm.trans (by decide +kernel))
  have hchunks : cs = [⟨Bytes.ofString "(\"a b{3}\") {1}", some [Bytes.cr]⟩] :=
    Option.some.inj (hcs.symm.trans (by decide +kernel))
  subst htrees hchunks
  obtain ⟨received, r', hreceived, hresponse, hrest, hparse⟩ := hread (by decide) (by decide)
    (Reader.ofStream ⟨15, 1⟩ [.bytes (Bytes.ofString "(\"a b{3}\") {1}\r"),
      .bytes (Bytes.ofString "\n\r"), .bytes (Bytes.ofString "\r"),
      .bytes (Bytes.ofString "\n")]) [] (by decide) (by decide) (by decide)
  subst hreceived
  exact ⟨r', hresponse, hrest, hparse⟩

end ImapWire
