/-
  When a command is over.

  Two parts of the program look for the completion of a command, and neither asks the other.  The
  collector looks at the bytes of a line: is the tag in front, and a space behind it?  The parser
  cuts off the first word of the line and reads it as text, and it compares that text with the tag.

  They agree on every response that can be read and has no space in front (`parse_completes`):

  1. **Text in ASCII has one spelling** (`Bytes.text_eq_iff`).  What is no text is read as
     replacement characters, so different bytes may be read alike, but not as a tag in ASCII.  A
     longer word with the tag in front is another text.

  2. **Behind the tag there is a space** (`isTaggedWith_iff`).  A word for a status must follow it,
     and words end at spaces.

  3. **So the collector stops where the parser says so**: of what it gives, the last response
     completes the command and no other one does.

  A space in front of the response is left out, since it is there that the two differ: the parser
  skips it, the collector does not.
-/
import ImapWire.Proofs.Reader.Collected
import ImapWire.Proofs.Response.Status

namespace ImapWire

/-! ## Text in ASCII -/

namespace Bytes

open Text (IsAscii)

theorem ofChars_ascii {bs : Bytes} (h : ∀ b ∈ bs, b < 0x80) :
    ofChars (bs.map fun b => Char.ofNat b.toNat) = bs := by
  induction bs with
  | nil => rfl
  | cons b bs ih =>
    obtain ⟨hb, hbs⟩ := List.forall_mem_cons.1 h
    have hlt : (Char.ofNat b.toNat).toNat < 0x80 := by
      rw [toNat_ofByte hb]
      exact UInt8.lt_iff_toNat_lt.1 hb
    rw [List.map_cons, ofChars_cons, encodeChar_of_ascii hlt, toNat_ofByte hb, UInt8.ofNat_toNat,
      ih hbs]
    rfl

/-- Bytes in ASCII are the text that they are read as. -/
theorem ofString_text {bs : Bytes} (h : ∀ b ∈ bs, b < 0x80) : ofString bs.text = bs :=
  calc ofString bs.text
    _ = ofChars (Utf8.decode bs) := ofString_ofList _
    _ = ofChars (bs.map fun b => Char.ofNat b.toNat) := by rw [Utf8.decode_ascii h]
    _ = bs := ofChars_ascii h

/-- **Only the text itself is read as a text in ASCII.** -/
theorem text_eq_iff {bs : Bytes} {s : String} (hs : ∀ c ∈ s.toList, IsAscii c) :
    bs.text = s ↔ bs = ofString s := by
  constructor
  · rintro rfl
    refine (ofString_text (Utf8.lt_of_decode_ascii fun c hc => hs c ?_)).symm
    rw [toList_text]
    exact hc
  · rintro rfl
    exact text_ofString s

end Bytes

/-! ## The tag of a line -/

namespace Tag

/-- A line that starts with a tag has a space behind it. -/
theorem starts_iff {tag : String} {line : Bytes} :
    starts ⟨tag⟩ line = true ↔ ∃ behind, line = Bytes.ofString tag ++ Bytes.space :: behind := by
  unfold starts
  rw [List.isPrefixOf_iff_prefix]
  constructor
  · rintro ⟨behind, rfl⟩
    exact ⟨behind, List.append_assoc ..⟩
  · rintro ⟨behind, rfl⟩
    exact ⟨behind, List.append_assoc ..⟩

end Tag

namespace Place

/-- A line without a space in front is its first word and what is behind that. -/
theorem line_eq {line : Bytes} (h : line.head? ≠ some Bytes.space) :
    line = (ofLine line 0).word.1 ++ (ofLine line 0).word.2.rest := by
  show line = (ofLine line 0).skipSpaces.rest.takeWhile _
    ++ (ofLine line 0).skipSpaces.rest.dropWhile _
  rw [List.takeWhile_append_dropWhile]
  exact (skipSpaces_rest (p := ofLine line 0) h).symm

/-- In front of a further word there is a space. -/
theorem exists_space_of_word {p : Place} (h : p.word.2.word.1 ≠ []) :
    ∃ behind, p.word.2.rest = Bytes.space :: behind := by
  cases hrest : p.word.2.rest with
  | nil =>
    refine absurd ?_ h
    show (p.word.2.rest.dropWhile _).takeWhile _ = []
    rw [hrest]
    rfl
  | cons b behind =>
    have hspace := List.head?_dropWhile_not (· != Bytes.space) p.skipSpaces.rest
    have hhead : (p.skipSpaces.rest.dropWhile (· != Bytes.space)).head? = some b :=
      congrArg List.head? hrest
    rw [hhead] at hspace
    obtain rfl : b = Bytes.space := by simpa using hspace
    exact ⟨behind, rfl⟩

end Place

namespace Response

/-- The parser reads the response as `r`, and there is no space in front of it. -/
structure IsReading (options : Options) (chunks : List Chunk) (r : Response) : Prop where
  no_space : ∀ first ∈ chunks.head?, first.line.head? ≠ some Bytes.space
  parse_eq : parse options chunks = .ok r

variable {tag : String} {options : Options} {first : Chunk} {later : List Chunk} {r : Response}

/-- **A completion** is known by the first word of its line, and a space follows that word. -/
theorem isTaggedWith_iff (htag : Tag.IsWord tag) (hascii : ∀ c ∈ tag.toList, Text.IsAscii c)
    (h : parse options (first :: later) = .ok r) :
    (r.isTaggedWith tag = true ↔ (Place.ofLine first.line 0).word.1 = Bytes.ofString tag) ∧
      (r.isTaggedWith tag = true →
        ∃ behind, (Place.ofLine first.line 0).word.2.rest = Bytes.space :: behind) := by
  obtain ⟨-, -, hplus, hstar⟩ := htag.bytes
  unfold parse at h
  dsimp only at h
  split at h
  · cases h
  · split at h
    · next hcontinuation =>
      obtain ⟨_, -, h⟩ := Result.bind_eq_ok.1 h
      cases h
      refine ⟨⟨nofun, fun hword => ?_⟩, nofun⟩
      rw [hword] at hcontinuation
      exact absurd hcontinuation hplus
    · split at h
      · next hdata =>
        obtain ⟨d, -, rfl⟩ := Result.map_eq_ok.1 h
        refine ⟨⟨nofun, fun hword => ?_⟩, nofun⟩
        exact absurd (hword.symm.trans hdata) hstar
      · obtain ⟨_, -, h⟩ := Result.bind_eq_ok.1 h
        unfold readCompletion at h
        dsimp only at h
        split at h
        · cases h
        · next status hstatus =>
          obtain ⟨⟨code, text⟩, -, h⟩ := Result.bind_eq_ok.1 h
          cases h
          -- a word for a status is not empty
          have hname := List.find?_some hstatus
          obtain ⟨hne, -⟩ := Status.letter hname
          exact ⟨beq_iff_eq.trans (Bytes.text_eq_iff hascii),
            fun _ => Place.exists_space_of_word hne⟩

/-- **The parser and the collector agree** on one response. -/
theorem isTaggedWith_iff_starts (htag : Tag.IsWord tag)
    (hascii : ∀ c ∈ tag.toList, Text.IsAscii c) (h : IsReading options (first :: later) r) :
    r.isTaggedWith tag = true ↔ Tag.starts ⟨tag⟩ first.line = true := by
  have hspace := h.no_space first rfl
  obtain ⟨hword, hbehind⟩ := isTaggedWith_iff htag hascii h.parse_eq
  rw [Tag.starts_iff]
  constructor
  · intro hr
    obtain ⟨behind, hrest⟩ := hbehind hr
    refine ⟨behind, ?_⟩
    rw [← hword.1 hr, ← hrest]
    exact Place.line_eq hspace
  · rintro ⟨behind, hline⟩
    have hrest : (Place.ofLine first.line 0).skipSpaces.rest = _ :=
      (Place.skipSpaces_rest hspace).trans hline
    exact hword.2 (Place.word_eq hrest htag.bytes.2.1).1

/-- So what completes a command for the collector does so for the parser. -/
theorem isCompletedBy_eq {c : Collector} {chunks : List Chunk} (htag : Tag.IsWord tag)
    (hascii : ∀ c ∈ tag.toList, Text.IsAscii c) (hc : c.tag = ⟨tag⟩)
    (h : IsReading options chunks r) : c.isCompletedBy chunks = r.isTaggedWith tag := by
  cases chunks with
  | nil => cases h.parse_eq
  | cons first later =>
    unfold Collector.isCompletedBy
    rw [hc, Bool.eq_iff_iff]
    exact (isTaggedWith_iff_starts htag hascii h).symm

/-- **The collector stops at a response exactly if the parser says that it completes the command.**
    Of the responses that it gives, one that the parser can read is said to complete the command
    exactly if it is the last one; of those that it keeps, none is. -/
theorem parse_completes (htag : Tag.IsWord tag) (hascii : ∀ c ∈ tag.toList, Text.IsAscii c) :
    (∀ options first later r, IsReading options (first :: later) r →
      (r.isTaggedWith tag = true ↔ Tag.starts ⟨tag⟩ first.line = true)) ∧
    ∀ (c c' : Collector) (reader reader' : Reader) (result : Result (List (List Chunk))),
      c.tag = ⟨tag⟩ → c.Pending → c.readUntilTagged reader = (result, c', reader') →
      (∀ front chunks behind, result = .ok (front ++ chunks :: behind) →
        ∀ options r, IsReading options chunks r → (r.isTaggedWith tag = true ↔ behind = [])) ∧
      ∀ chunks ∈ c'.responses, ∀ options r, IsReading options chunks r →
        r.isTaggedWith tag = false := by
  refine ⟨fun _ _ _ _ => isTaggedWith_iff_starts htag hascii, ?_⟩
  intro c c' reader reader' result hc hpending hcall
  obtain ⟨htag', hpending', hgiven, -⟩ := Collector.readUntilTagged_accounts hpending hcall
  constructor
  · intro front chunks behind hresult options r hr
    obtain ⟨before, last, heq, hlast, hbefore⟩ := hgiven _ hresult
    rw [← isCompletedBy_eq htag hascii hc hr]
    constructor
    · intro hcompleted
      by_contra hbehind
      -- a response with another one behind it is among those before the last
      have hmem : chunks ∈ before := by
        have hdrop := congrArg List.dropLast heq
        rw [List.dropLast_concat, List.dropLast_append_of_ne_nil (List.cons_ne_nil _ _),
          List.dropLast_cons_of_ne_nil hbehind] at hdrop
        rw [← hdrop]
        exact List.mem_append_right _ List.mem_cons_self
      rw [hbefore chunks hmem] at hcompleted
      cases hcompleted
    · rintro rfl
      obtain ⟨-, hlast'⟩ := List.append_inj' heq rfl
      rw [List.singleton_inj.1 hlast']
      exact hlast
  · intro chunks hkept options r hr
    rw [← isCompletedBy_eq htag hascii (htag'.trans hc) hr]
    exact hpending' chunks hkept

/-- The response with a byte behind the tag that is no text, and the one with a longer tag, do not
    complete the command; with the byte in the text behind the status, the response does. -/
theorem parse_completes_a1 :
    Tag.IsWord "a1" ∧ (∀ c ∈ "a1".toList, Text.IsAscii c) ∧
      (∃ r, parse default [.plain (Bytes.ofString "a1" ++ 0xFF :: Bytes.ofString " OK")] = .ok r ∧
        r.isTaggedWith "a1" = false) ∧
      (∃ r, parse default [.plain (Bytes.ofString "a10 OK")] = .ok r ∧
        r.isTaggedWith "a1" = false) ∧
      (∃ r, parse default [.plain (Bytes.ofString "a1 OK " ++ [0xFF])] = .ok r ∧
        r.isTaggedWith "a1" = true) ∧
      ∃ c' reader', (Collector.ofTag ⟨"a1"⟩).readUntilTagged (Reader.ofStream default
          [.bytes (Bytes.ofString "a10 OK\r\na1 OK\r\n")])
            = (.ok [[.plain (Bytes.ofString "a10 OK")], [.plain (Bytes.ofString "a1 OK")]],
              c', reader') ∧
        ∃ r, IsReading default [.plain (Bytes.ofString "a1 OK")] r ∧ r.isTaggedWith "a1" = true := by
  have htag : Tag.IsWord "a1" := ⟨by decide, by decide +kernel, by decide +kernel, by decide +kernel⟩
  have hascii : ∀ c ∈ "a1".toList, Text.IsAscii c :=
    List.forall_mem_cons.2 ⟨by decide, List.forall_mem_singleton.2 (by decide)⟩
  obtain ⟨hone, hrun⟩ := parse_completes htag hascii
  refine ⟨htag, hascii, ⟨_, rfl, ?_⟩, ⟨_, rfl, ?_⟩, ⟨_, rfl, ?_⟩, ?_⟩
  · have h := hone default (.plain (Bytes.ofString "a1" ++ 0xFF :: Bytes.ofString " OK")) [] _
      ⟨by decide, rfl⟩
    exact Bool.eq_false_iff.2 (mt h.1 (by decide))
  · have h := hone default (.plain (Bytes.ofString "a10 OK")) [] _ ⟨by decide, rfl⟩
    exact Bool.eq_false_iff.2 (mt h.1 (by decide))
  · exact (hone default (.plain (Bytes.ofString "a1 OK " ++ [0xFF])) [] _ ⟨by decide, rfl⟩).2
      (by decide)
  · rcases hcall : (Collector.ofTag ⟨"a1"⟩).readUntilTagged (Reader.ofStream default
      [.bytes (Bytes.ofString "a10 OK\r\na1 OK\r\n")]) with ⟨result, c', reader'⟩
    have hresult : result
        = .ok [[.plain (Bytes.ofString "a10 OK")], [.plain (Bytes.ofString "a1 OK")]] :=
      (congrArg Prod.fst hcall).symm.trans (by decide +kernel)
    have hpending : (Collector.ofTag ⟨"a1"⟩).Pending := nofun
    have hlast := (hrun _ _ _ _ _ rfl hpending hcall).1 [[.plain (Bytes.ofString "a10 OK")]] _ []
      hresult default
    exact ⟨c', reader', by rw [hresult], _, ⟨by decide, rfl⟩, (hlast _ ⟨by decide, rfl⟩).2 rfl⟩

end Response

end ImapWire
