/-
  Status responses are read back.

  A status response is one line: a tag or a star, a word for a status in any case, perhaps a code in
  square brackets, and text for people.  Only the code is read as tokens.  The rest is cut at spaces,
  and the text is taken as it is, so it may hold quotes, brackets and backslashes that belong to
  nothing.

  1. **Words** are cut off one after the other (`Place.word_eq`).  A word for a status is made of
     letters, so it is no number (`Status.letter`).

  2. **What stands behind the status** is read back (`Response.readText_of_code`,
     `Response.readText_of_text`).  That the code ends where it was closed is `Tree.exists_line`; what
     is behind its bracket plays no part in that.

  3. **The whole line** (`Response.parse_status`).
-/
import ImapWire.Proofs.Response.Code
import ImapWire.Proofs.Response.Words
import ImapWire.Proofs.Text.Encoded
import ImapWire.Proofs.Value.Form

namespace ImapWire

open Bytes (Clean)

/-! ## Words -/

namespace Place

variable {p : Place} {rest : Bytes}

theorem skipSpaces_rest (h : p.rest.head? ≠ some Bytes.space) : p.skipSpaces.rest = p.rest := by
  show p.rest.dropWhile (· == Bytes.space) = p.rest
  cases hp : p.rest with
  | nil => rfl
  | cons b bs =>
    rw [hp] at h
    have hb : (b == Bytes.space) = false := by
      rw [beq_eq_false_iff_ne]
      rintro rfl
      exact h rfl
    rw [List.dropWhile_cons, hb]
    rfl

theorem skipSpaces_rest_cons (h : p.rest = Bytes.space :: rest)
    (hrest : rest.head? ≠ some Bytes.space) : p.skipSpaces.rest = rest := by
  show p.rest.dropWhile (· == Bytes.space) = rest
  rw [h]
  exact skipSpaces_rest (p := ⟨0, rest⟩) hrest

/-- **A word in front of a space** is cut off there. -/
theorem word_eq {word behind : Bytes} (h : p.skipSpaces.rest = word ++ Bytes.space :: behind)
    (hword : ∀ b ∈ word, b ≠ Bytes.space) :
    p.word.1 = word ∧ p.word.2.rest = Bytes.space :: behind := by
  have hall : ∀ b ∈ word, (b != Bytes.space) = true := fun b hb => bne_iff_ne.2 (hword b hb)
  constructor
  · show p.skipSpaces.rest.takeWhile (· != Bytes.space) = word
    rw [h, List.takeWhile_append_of_pos hall]
    exact List.append_nil word
  · show p.skipSpaces.rest.dropWhile (· != Bytes.space) = _
    rw [h, List.dropWhile_append_of_pos hall]
    rfl

/-- **Two words at the start of a line**, and what is behind them. -/
theorem words_of_line {line front word behind : Bytes}
    (hline : line = front ++ Bytes.space :: (word ++ Bytes.space :: behind))
    (hfront : front ≠ [] ∧ ∀ b ∈ front, b ≠ Bytes.space)
    (hword : word ≠ [] ∧ ∀ b ∈ word, b ≠ Bytes.space) :
    (ofLine line 0).word.1 = front ∧ (ofLine line 0).word.2.word.1 = word ∧
      (ofLine line 0).word.2.word.2.rest = Bytes.space :: behind := by
  subst hline
  -- a word that is not empty does not start with a space
  have hstart : ∀ {w : Bytes} (more : Bytes), (w ≠ [] ∧ ∀ b ∈ w, b ≠ Bytes.space) →
      (w ++ more).head? ≠ some Bytes.space := by
    rintro w more ⟨hne, hall⟩
    obtain ⟨b, bs, rfl⟩ := List.exists_cons_of_ne_nil hne
    intro hhead
    exact hall b List.mem_cons_self (Option.some.inj hhead)
  obtain ⟨hfirst, hrest⟩ := word_eq
    (p := ofLine (front ++ Bytes.space :: (word ++ Bytes.space :: behind)) 0)
    (skipSpaces_rest (hstart _ hfront)) hfront.2
  obtain ⟨hsecond, hlast⟩ := word_eq (skipSpaces_rest_cons hrest (hstart _ hword)) hword.2
  exact ⟨hfirst, hsecond, hlast⟩

/-- Text behind a space is taken as it is. -/
theorem text_eq {s : String} (h : p.skipSpaces.rest = Bytes.ofString s) : p.text = s := by
  show p.skipSpaces.rest.text = s
  rw [h, Bytes.text_ofString]

end Place

namespace Status

variable {status : Status} {word : Bytes}

theorem ofWord?_of_sameName (h : Bytes.sameName word (Bytes.ofString status.name) = true) :
    ofWord? word = some status := by
  have hlower : Bytes.lower word = Bytes.lower (Bytes.ofString status.name) := Bytes.sameName_iff.1 h
  unfold ofWord? Bytes.sameName
  rw [hlower]
  cases status <;> decide +kernel

/-- A word for a status is made of letters. -/
theorem letter (h : Bytes.sameName word (Bytes.ofString status.name) = true) :
    word ≠ [] ∧ ∀ b ∈ word, b ≠ Bytes.space ∧ Bytes.isDigit b = false := by
  refine ⟨Bytes.ne_nil_of_sameName h ?_, Bytes.forall_of_sameName h ?_⟩
  · cases status <;> decide
  · cases status <;> exact Bytes.forall_of_fin (by decide +kernel)

theorem number?_eq_none (h : Bytes.sameName word (Bytes.ofString status.name) = true) :
    ServerData.number? word = none := by
  obtain ⟨hne, hletters⟩ := letter h
  obtain ⟨b, hb⟩ := List.exists_mem_of_ne_nil word hne
  exact ServerData.number?_eq_none hb (hletters b hb).2

end Status

/-! ## How a status response is written -/

/-- A code in its brackets, if its name and its values are written on one line. -/
def ResponseCode.written? (c : ResponseCode) : Option Bytes :=
  match Value.chunks? (.bytes (Bytes.ofString c.name) :: c.values) with
  | some [⟨line, none⟩] => some (Bytes.openSquare :: line ++ [Bytes.closeSquare])
  | _ => none

/-- Has a name in capitals, and values that nest no deeper than `maxDepth` and none of whose byte
    strings needs a literal. -/
structure ResponseCode.FitsLine (c : ResponseCode) : Prop where
  upper_name : Text.upper c.name = c.name
  clean_name : Clean (Bytes.ofString c.name)
  values : ∃ ts, c.values = Value.ofTrees ts ∧ Tree.depthAll ts ≤ maxDepth ∧
    ∀ bs ∈ Tree.stringsAll ts, Clean bs

/-- Is a word that neither a star nor a request to go on starts with. -/
structure Tag.IsWord (tag : String) : Prop where
  ne_empty : tag ≠ ""
  no_space : ' ' ∉ tag.toList
  ne_star : tag ≠ "*"
  no_plus : tag.toList.head? ≠ some '+'

/-- The bytes of such a word. -/
theorem Tag.IsWord.bytes {tag : String} (h : Tag.IsWord tag) :
    Bytes.ofString tag ≠ [] ∧ (∀ b ∈ Bytes.ofString tag, b ≠ Bytes.space) ∧
      (Bytes.ofString tag).head? ≠ some Bytes.plus ∧ Bytes.ofString tag ≠ [Bytes.star] := by
  have hinjective : ∀ s, Bytes.ofString tag = Bytes.ofString s → tag = s :=
    fun s => Bytes.ofString_injective
  refine ⟨fun hnil => h.ne_empty (hinjective "" hnil), ?_,
    Bytes.head?_ofString_ne (by decide) h.no_plus,
    fun hstar => h.ne_star (hinjective "*" (hstar.trans (by decide)))⟩
  rintro b hb rfl
  exact h.no_space ((Bytes.mem_ofChars_iff (by decide)).1 hb)

namespace Response

/-- What stands between a status and its text, if it can be written. -/
def codePart? : Option ResponseCode → Option Bytes
  | none => some []
  | some code => code.written?.map (Bytes.space :: ·)

/-- The line of a status response: what stands in front, the word for the status, the code with a
    space before it, and the text. -/
def statusLine (front word part : Bytes) (text : String) : Bytes :=
  front ++ Bytes.space :: (word ++ part ++ Bytes.space :: Bytes.ofString text)

/-! ## What stands behind the status -/

variable {text : String}

/-- A code is read back, whatever is behind its bracket. -/
theorem readText_of_code {code : ResponseCode} (hcode : code.FitsLine)
    (htext : text.toList.head? ≠ some ' ') :
    ∃ written, code.written? = some written ∧ ∀ (line : Bytes) (p : Place),
      p.rest = Bytes.space :: (written ++ Bytes.space :: Bytes.ofString text) →
        readText line p = .ok (some code, text) := by
  obtain ⟨name, values⟩ := code
  obtain ⟨ts, rfl, hdepth, hclean⟩ := hcode.values
  have hname : keyOf (Bytes.ofString name) = name := by
    rw [keyOf, Bytes.text_ofString]
    exact hcode.upper_name
  have hstrings : ∀ bs ∈ Tree.stringsAll (.bytes (Bytes.ofString name) :: ts), Clean bs :=
    List.forall_mem_cons.2 ⟨hcode.clean_name, hclean⟩
  have hdeep : Tree.depthAll (.bytes (Bytes.ofString name) :: ts) ≤ maxDepth := by
    show max 0 (Tree.depthAll ts) ≤ maxDepth
    omega
  obtain ⟨written, hchunks, hparse, hsplit⟩ := Tree.exists_line hstrings hdeep
  refine ⟨Bytes.openSquare :: written ++ [Bytes.closeSquare], ?_, ?_⟩
  · have hvalues : Value.chunks? (.bytes (Bytes.ofString name) :: Value.ofTrees ts)
        = some [.plain written] := by
      show (Value.treeAll? (Value.ofTrees (.bytes (Bytes.ofString name) :: ts))).map Tree.chunks = _
      rw [Value.treeAll?_ofTrees, Option.map_some, hchunks]
    unfold ResponseCode.written?
    rw [hvalues]
  · intro line p hp
    have hrest : p.skipSpaces.rest = Bytes.openSquare :: written ++ Bytes.closeSquare ::
        Bytes.space :: Bytes.ofString text := by
      have hopen : Bytes.openSquare ≠ Bytes.space := by decide
      rw [Place.skipSpaces_rest_cons hp (by simpa using hopen)]
      simp
    have htaken : codeOf? p.skipSpaces.rest
        = some (written, Bytes.space :: Bytes.ofString text) := by
      rw [hrest]
      exact hsplit _
    have hread : readCode written line = .ok ⟨name, Value.ofTrees ts⟩ := by
      show (Tree.parse [.plain written] >>= _) = _
      rw [hparse]
      show Except.ok (ResponseCode.mk (keyOf (Bytes.ofString name)) (Value.ofTrees ts)) = _
      rw [hname]
    have hbehind : (Place.mk p.skipSpaces.pos (Bytes.space :: Bytes.ofString text)).text = text :=
      Place.text_eq (Place.skipSpaces_rest_cons rfl (Bytes.head?_ofString_ne (by decide) htext))
    unfold readText
    simp only
    rw [if_pos (by rw [hrest]; rfl), htaken]
    show (readCode written line >>= _) = _
    rw [hread]
    show Except.ok (_, Place.text _) = _
    rw [hbehind]

/-- Text that starts with neither a space nor a bracket is read back. -/
theorem readText_of_text (htext : text.toList.head? ≠ some ' ')
    (hbracket : text.toList.head? ≠ some '[') (line : Bytes) {p : Place}
    (hp : p.rest = Bytes.space :: Bytes.ofString text) : readText line p = .ok (none, text) := by
  have hspace : (Bytes.ofString text).head? ≠ some Bytes.space :=
    Bytes.head?_ofString_ne (by decide) htext
  have hrest : p.skipSpaces.rest = Bytes.ofString text := Place.skipSpaces_rest_cons hp hspace
  have hagain : p.skipSpaces.skipSpaces.rest = Bytes.ofString text := by
    rw [Place.skipSpaces_rest (by rwa [hrest]), hrest]
  unfold readText
  simp only
  rw [if_neg (by rw [hrest]; exact Bytes.head?_ofString_ne (by decide) hbracket), Place.text_eq hagain]

/-- What was written behind a status is read back. -/
theorem readText_written {code : Option ResponseCode} (hcode : ∀ c ∈ code, c.FitsLine)
    (htext : text.toList.head? ≠ some ' ')
    (hbracket : code = none → text.toList.head? ≠ some '[') :
    ∃ part, codePart? code = some part ∧ ∀ (line : Bytes) (p : Place),
      p.rest = part ++ Bytes.space :: Bytes.ofString text → readText line p = .ok (code, text) := by
  cases code with
  | none => exact ⟨[], rfl, fun line p => readText_of_text htext (hbracket rfl) line⟩
  | some code =>
    obtain ⟨written, hwritten, hread⟩ := readText_of_code (hcode code rfl) htext
    refine ⟨Bytes.space :: written, ?_, hread⟩
    show code.written?.map _ = _
    rw [hwritten]
    rfl

/-! ## The whole line -/

/-- What is written behind a status starts with a space. -/
theorem exists_space {code : Option ResponseCode} {part : Bytes} (h : codePart? code = some part)
    (text : String) :
    ∃ behind, part ++ Bytes.space :: Bytes.ofString text = Bytes.space :: behind := by
  cases code with
  | none =>
    obtain rfl : part = [] := (Option.some.inj h).symm
    exact ⟨_, rfl⟩
  | some code =>
    obtain ⟨written, -, rfl⟩ := Option.map_eq_some_iff.1 h
    exact ⟨_, rfl⟩

variable {status : Status} {word front part : Bytes} {code : Option ResponseCode}

/-- The words of a status line, and what is behind them. -/
theorem words_of_statusLine (text : String)
    (hword : Bytes.sameName word (Bytes.ofString status.name) = true)
    (hpart : codePart? code = some part) (hne : front ≠ []) (hfront : ∀ b ∈ front, b ≠ Bytes.space) :
    (Place.ofLine (statusLine front word part text) 0).word.1 = front ∧
      (Place.ofLine (statusLine front word part text) 0).word.2.word.1 = word ∧
      (Place.ofLine (statusLine front word part text) 0).word.2.word.2.rest
        = part ++ Bytes.space :: Bytes.ofString text := by
  obtain ⟨hwordNe, hletters⟩ := Status.letter hword
  obtain ⟨behind, hbehind⟩ := exists_space hpart text
  have hline : statusLine front word part text
      = front ++ Bytes.space :: (word ++ Bytes.space :: behind) := by
    rw [statusLine, List.append_assoc, hbehind]
  rw [hbehind]
  exact Place.words_of_line hline ⟨hne, hfront⟩ ⟨hwordNe, fun b hb => (hletters b hb).1⟩

/-- **Status responses are read back.**  Behind a tag or a star stand a word for a status in any case,
    perhaps a code that fits on the line, and text that does not start with a space (nor, if there is
    no code, with a square bracket).  The response has that tag or none, the status, the code with its
    values, and the text as it is, whatever quotes, brackets or backslashes stand in the values and in
    the text. -/
theorem parse_status (options : Options)
    (hword : Bytes.sameName word (Bytes.ofString status.name) = true)
    (hcode : ∀ c ∈ code, c.FitsLine) (htext : text.toList.head? ≠ some ' ')
    (hbracket : code = none → text.toList.head? ≠ some '[') :
    ∃ part, codePart? code = some part ∧
      (∀ tag, Tag.IsWord tag →
        parse options [.plain (statusLine (Bytes.ofString tag) word part text)]
          = .ok (.completion ⟨tag⟩ status code text)) ∧
      parse options [.plain (statusLine [Bytes.star] word part text)]
        = .ok (.data (.condition status code text)) := by
  obtain ⟨part, hpart, hread⟩ := readText_written hcode htext hbracket
  have hstatus : Status.ofWord? word = some status := Status.ofWord?_of_sameName hword
  refine ⟨part, hpart, ?_, ?_⟩
  · intro tag htag
    obtain ⟨hne, hspaces, hplus, hstar⟩ := htag.bytes
    obtain ⟨hfirst, hsecond, hbehind⟩ :=
      words_of_statusLine text hword hpart hne hspaces
    have hempty : (Bytes.ofString tag).isEmpty = false := List.isEmpty_eq_false_iff.2 hne
    unfold parse
    simp only
    rw [hfirst, hempty, if_neg Bool.false_ne_true, if_neg hplus, if_neg hstar]
    show readCompletion _ _ _ = _
    unfold readCompletion
    simp only
    rw [hsecond, hstatus]
    simp only
    rw [hread _ _ hbehind]
    show Except.ok (Response.completion (Tag.ofWord (Bytes.ofString tag)) status code text) = _
    rw [Tag.ofWord, Bytes.text_ofString]
  · obtain ⟨hfirst, hsecond, hbehind⟩ :=
      words_of_statusLine text hword hpart (List.cons_ne_nil Bytes.star [])
        (by decide +kernel)
    unfold parse
    simp only
    rw [hfirst, if_neg (by decide), if_neg (by decide), if_pos rfl]
    unfold ServerData.read
    simp only
    rw [hsecond, Status.number?_eq_none hword, hstatus]
    show Except.map _ (readText _ _ >>= _) = _
    rw [hread _ _ hbehind]
    rfl

/-- Brackets, quotes and backslashes that belong to nothing, in the values and in the text. -/
theorem parse_status_brackets :
    parse default [.plain (Bytes.ofString "a1 oK [X \"]\\\"\" ([a\\] NIL) 5] ] \"(oops\\")]
      = .ok (.completion ⟨"a1"⟩ .ok
          (some ⟨"X", [.bytes (Bytes.ofString "]\""),
            .group .round [.group .square [.bytes (Bytes.ofString "a\\")], .nil], .int 5]⟩)
          "] \"(oops\\") ∧
    parse default [.plain (Bytes.ofString "* Bye \"no [code")]
      = .ok (.data (.condition .bye none "\"no [code")) := by
  constructor
  · have hcode : (ResponseCode.mk "X" (Value.ofTrees [.bytes (Bytes.ofString "]\""),
        .group .round [.group .square [.bytes (Bytes.ofString "a\\")], .nil], .int 5])).FitsLine :=
      ⟨by decide, by decide +kernel, _, rfl, by decide, by decide +kernel⟩
    obtain ⟨part, hpart, htag, -⟩ := @parse_status "] \"(oops\\" .ok (Bytes.ofString "oK")
      (some _) default (by decide) (fun c hc => Option.some.inj hc ▸ hcode) (by decide) nofun
    obtain rfl : part = Bytes.ofString " [X \"]\\\"\" ([a\\] NIL) 5]" :=
      Option.some.inj (hpart.symm.trans (by decide +kernel))
    exact htag "a1" ⟨by decide, by decide, by decide, by decide⟩
  · obtain ⟨part, hpart, -, hstar⟩ := @parse_status "\"no [code" .bye (Bytes.ofString "Bye") none
      default (by decide) nofun (by decide) (fun _ => by decide)
    obtain rfl : part = [] := (Option.some.inj hpart).symm
    exact hstar

end Response

end ImapWire
