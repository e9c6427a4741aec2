/-
  Names of folders come back as they were sent.

  A name on the wire need not be in quotes, and then it may look like a number.  It is read as one, but
  only if it is spelled as that number would be written, so the name is not lost: the digits of the
  integer are the name again, whatever zeros or sign it has, and however long it is
  (`Value.string_ofAtom`).  The same holds for flags.

  1. **A line with bare names** has the heading of a list (`ServerData.exists_heading?`), and its values
     are spelled as they stand there: the flags one by one, the delimiter in any spelling of a quoted
     string or as `NIL`, and the name (`Yields.listed`).

  2. **So the folder is read from it** (`Folder.parse_line`), and it is read from its own values, too,
     in whatever spelling these were written (`Folder.readList_trees`).
-/
import ImapWire.Proofs.Response.StatusParts
import ImapWire.Proofs.Value.Field

namespace ImapWire

open Bytes (isDelimiter)

/-! ## Bare words -/

/-- A byte string that a server may send without quotes: it is not empty, holds no delimiter and no
    brace, and is not `NIL`. -/
structure IsBareWord (bs : Bytes) : Prop where
  ne_nil : bs ≠ []
  not_delimiter : ∀ b ∈ bs, isDelimiter b = false
  no_brace : Bytes.openBrace ∉ bs
  not_nil : Bytes.sameName bs Tree.nilWord = false

/-- Looks at all of that. -/
def isBareWord (bs : Bytes) : Bool :=
  !bs.isEmpty && bs.all (fun b => !isDelimiter b) && !bs.contains Bytes.openBrace &&
    !Bytes.sameName bs Tree.nilWord

theorem isBareWord_iff {bs : Bytes} : isBareWord bs = true ↔ IsBareWord bs := by
  simp only [isBareWord, Bool.and_eq_true, Bool.not_eq_true', List.isEmpty_eq_false_iff,
    List.all_eq_true, List.contains_eq_mem, decide_eq_false_iff_not]
  constructor
  · rintro ⟨⟨⟨hne, hdelimiter⟩, hbrace⟩, hnil⟩
    exact ⟨hne, hdelimiter, hbrace, hnil⟩
  · rintro ⟨hne, hdelimiter, hbrace, hnil⟩
    exact ⟨⟨⟨hne, hdelimiter⟩, hbrace⟩, hnil⟩

instance (bs : Bytes) : Decidable (IsBareWord bs) := decidable_of_iff _ isBareWord_iff

theorem IsBareWord.isRun {bs : Bytes} (h : IsBareWord bs) : IsRun bs :=
  ⟨h.ne_nil, h.not_delimiter, Marker.inner?_eq_none fun _ hb hbrace => h.no_brace (hbrace ▸ hb)⟩

/-- `NIL` in any case is one run, and means nothing. -/
theorem IsRun.of_nilWord {word : Bytes} (h : Bytes.sameName word Tree.nilWord = true) :
    IsRun word := by
  have hletters : ∀ b ∈ word, isDelimiter b = false ∧ b ≠ Bytes.openBrace :=
    Bytes.forall_of_sameName h (Bytes.forall_of_fin (by decide +kernel))
  exact ⟨Bytes.ne_nil_of_sameName h (by decide), fun b hb => (hletters b hb).1,
    Marker.inner?_eq_none fun b hb => (hletters b hb).2⟩

namespace Yields

variable {rest : Bytes} {chunk : Chunk} {later : List Chunk} {toks : List Token}

/-- Runs with a space between them are one atom each. -/
theorem runs {words : List Bytes} (hwords : ∀ w ∈ words, IsRun w) (hcut : Cut rest)
    (h : Yields rest (chunk :: later) toks) :
    Yields ([Bytes.space].intercalate words ++ rest) (chunk :: later)
      (words.map .atom ++ toks) := by
  induction words with
  | nil => exact h
  | cons w words ih =>
    obtain ⟨hw, hmore⟩ := List.forall_mem_cons.1 hwords
    cases words with
    | nil =>
      rw [List.intercalate_singleton]
      exact atom hw.ne_nil hw.not_delimiter hw.not_marker hcut h
    | cons v words =>
      have hbehind := blank (b := Bytes.space) rfl (ih hmore)
      rw [List.intercalate_cons_cons, List.append_assoc, List.append_assoc]
      exact atom hw.ne_nil hw.not_delimiter hw.not_marker (by rintro _ ⟨⟩; rfl) hbehind

end Yields

namespace Folder

/-! ## The line of a folder -/

/-- The names under which folders are listed. -/
def listNames : List String := ["LIST", "LSUB", "XLIST"]

/-- The spelling of a delimiter: a string in quotes, or `NIL` in any case. -/
inductive SpelledDelimiter : Bytes → Option Bytes → Prop
  | quoted {text delimiter : Bytes} (h : Quoted.Spelled text delimiter) :
      SpelledDelimiter (Bytes.quote :: (text ++ [Bytes.quote])) (some delimiter)
  | nil {word : Bytes} (h : Bytes.sameName word Tree.nilWord = true) : SpelledDelimiter word none

/-- What stands behind the name of the data: the flags in brackets, the delimiter in its spelling, and
    the name. -/
def lineValues (flags : List Bytes) (spelling name : Bytes) : Bytes :=
  Bytes.space :: Bytes.openRound :: ([Bytes.space].intercalate flags ++
    Bytes.closeRound :: Bytes.space :: (spelling ++ Bytes.space :: name))

/-- The line of a folder: a star, the name of the data, and the values. -/
def line (word : Bytes) (flags : List Bytes) (spelling name : Bytes) : Bytes :=
  Bytes.star :: Bytes.space :: (word ++ lineValues flags spelling name)

/-- A word for a list is made of letters, and is no word for a status. -/
theorem word_of_listNames {word : Bytes} (h : keyOf word ∈ listNames) :
    word ≠ [] ∧ (∀ b ∈ word, b ≠ Bytes.space ∧ Bytes.isDigit b = false) ∧
      Status.ofWord? word = none := by
  have hname : ∃ name ∈ listNames, Bytes.sameName word (Bytes.ofString name) = true := by
    have hall : ∀ name ∈ listNames, keyOf (Bytes.ofString name) = name ∧
        ∀ b ∈ Bytes.ofString name, 0 < b ∧ b < 0x80 := by decide +kernel
    obtain ⟨hkey, hascii⟩ := hall _ h
    exact ⟨keyOf word, h, Bytes.sameName_of_keyOf hascii hkey.symm⟩
  obtain ⟨name, hmem, hsame⟩ := hname
  have hlower : Bytes.lower word = Bytes.lower (Bytes.ofString name) := Bytes.sameName_iff.1 hsame
  have hnames : name = "LIST" ∨ name = "LSUB" ∨ name = "XLIST" := by simpa [listNames] using hmem
  have hstatus : ∀ s ∈ Status.all,
      ¬ Bytes.sameName word (Bytes.ofString (Status.name s)) = true := by
    unfold Bytes.sameName
    rw [hlower]
    rcases hnames with rfl | rfl | rfl <;> decide +kernel
  refine ⟨Bytes.ne_nil_of_sameName hsame ?_, Bytes.forall_of_sameName hsame ?_,
    List.find?_eq_none.2 hstatus⟩
  · rcases hnames with rfl | rfl | rfl <;> decide
  · rcases hnames with rfl | rfl | rfl <;> exact Bytes.forall_of_fin (by decide +kernel)

end Folder

/-- **A line with a name behind the star** has a heading, if the name is no number and no word for a
    status. -/
theorem ServerData.exists_heading? {line word behind : Bytes}
    (hline : line = [Bytes.star] ++ Bytes.space :: (word ++ Bytes.space :: behind))
    (hword : word ≠ [] ∧ ∀ b ∈ word, b ≠ Bytes.space) (hnumber : number? word = none)
    (hstatus : Status.ofWord? word = none) :
    ∃ place, heading? line = some ⟨none, keyOf word, place⟩ ∧ place.On line ∧
      place.rest = Bytes.space :: behind := by
  have hfront : [Bytes.star] ≠ [] ∧ ∀ b ∈ [Bytes.star], b ≠ Bytes.space :=
    ⟨List.cons_ne_nil _ _, List.forall_mem_singleton.2 (by decide)⟩
  obtain ⟨hstar, hname, hrest⟩ := Place.words_of_line hline hfront hword
  refine ⟨(Place.ofLine line 0).word.2.word.2, ?_, (Place.on_ofLine line 0).word.word, hrest⟩
  unfold heading?
  dsimp only
  rw [hstar, hname, if_pos rfl, hnumber, hstatus]
  rfl

/-! ## Values on a line -/

namespace Written

/-- Bare words in a row. -/
def atoms (words : List Bytes) : List Written := words.map fun w => .word (.atom w)

theorem tokensAll_atoms (words : List Bytes) : tokensAll (atoms words) = words.map .atom := by
  induction words with
  | nil => rfl
  | cons w words ih => exact congrArg (Token.atom w :: ·) ih

theorem treeAll_atoms (words : List Bytes) : treeAll (atoms words) = words.map Tree.ofAtom := by
  induction words with
  | nil => rfl
  | cons w words ih => exact congrArg (Tree.ofAtom w :: ·) ih

theorem depthAll_atoms (words : List Bytes) : depthAll (atoms words) = 0 := by
  induction words with
  | nil => rfl
  | cons w words ih =>
    show max 0 (depthAll (atoms words)) = 0
    rw [ih]
    rfl

end Written

namespace Yields

variable {flags : List Bytes} {spelling name : Bytes} {delimiter : Option Bytes} {chunk : Chunk}

/-- The delimiter in front of what follows a space. -/
theorem spelledDelimiter {rest : Bytes} {toks : List Token}
    (h : Folder.SpelledDelimiter spelling delimiter) (hrest : Yields rest [chunk] toks) :
    ∃ d : Word, d.tree = Tree.ofOption delimiter ∧
      Yields (spelling ++ Bytes.space :: rest) [chunk] (d.token :: toks) := by
  have hbehind := blank (b := Bytes.space) rfl hrest
  cases h with
  | @quoted text bs h =>
    have hline : Bytes.quote :: (text ++ [Bytes.quote]) ++ Bytes.space :: rest
        = Bytes.quote :: (text ++ Bytes.quote :: Bytes.space :: rest) := by simp
    rw [hline]
    exact ⟨.quoted bs, rfl, spelled h hbehind⟩
  | nil h =>
    have hrun := IsRun.of_nilWord h
    have hnil : Tree.ofAtom spelling = .nil := by
      unfold Tree.ofAtom
      rw [h]
      rfl
    exact ⟨.atom spelling, hnil,
      atom hrun.ne_nil hrun.not_delimiter hrun.not_marker (by rintro _ ⟨⟩; rfl) hbehind⟩

/-- **The values of a listed folder** are what they look like. -/
theorem listed (hflags : ∀ f ∈ flags, IsBareWord f)
    (hspelling : Folder.SpelledDelimiter spelling delimiter) (hname : IsBareWord name)
    (hchunk : chunk.literal = none) :
    ∃ d : Word, d.tree = Tree.ofOption delimiter ∧
      Yields (Folder.lineValues flags spelling name) [chunk] (Written.tokensAll
        [.group .round (Written.atoms flags), .word d, .word (.atom name)]) := by
  have hlast : Yields (name ++ []) [chunk] [.atom name] :=
    atom hname.isRun.ne_nil hname.isRun.not_delimiter hname.isRun.not_marker nofun
      (lineEnd hchunk (nil _))
  rw [List.append_nil] at hlast
  obtain ⟨d, hd, hbehind⟩ := spelledDelimiter hspelling hlast
  have hclosed := closing .round (blank (b := Bytes.space) rfl hbehind)
  have hinside := runs (fun f hf => (hflags f hf).isRun) (by rintro _ ⟨⟩; rfl) hclosed
  have hall := blank (b := Bytes.space) rfl (opening .round hinside)
  refine ⟨d, hd, ?_⟩
  show Yields _ [chunk] (.opening .round :: (Written.tokensAll (Written.atoms flags)
    ++ [.closing .round]) ++ [d.token, .atom name])
  rw [Written.tokensAll_atoms, List.cons_append, List.append_assoc]
  exact hall

end Yields

namespace Folder

variable {word spelling name : Bytes} {flags : List Bytes} {delimiter : Option Bytes}

/-- Three values are one folder. -/
theorem readList_three (flags delimiter name : Value) :
    readList [flags, delimiter, name] = (readOne flags delimiter name).map fun f => [f] := by
  have hlength : [flags, delimiter, name].length % 3 = 0 := Nat.mod_self 3
  unfold readList Value.tripleUp Value.tripleUp
  rw [if_pos hlength, List.mapM_cons, List.mapM_nil]
  show (readOne flags delimiter name >>= fun f => .ok [f]) = _
  cases readOne flags delimiter name <;> rfl

/-- The values of a line are read as the folder. -/
theorem readList_listed (hflags : ∀ f ∈ flags, IsBareWord f) (hname : IsBareWord name) :
    readList (Value.ofTrees [.group .round (flags.map Tree.ofAtom), .ofOption delimiter,
      .ofAtom name]) = .ok [⟨flags, delimiter, name⟩] := by
  have hread : Value.strings "folder flag" (Value.ofTrees (flags.map Tree.ofAtom)) = .ok flags := by
    rw [Value.ofTrees_eq_map, List.map_map]
    exact Result.mapM_map_ok fun f hf => Value.string_ofAtom _ (hflags f hf).not_nil
  simp only [Value.ofTrees, Value.ofTree, readList_three, readOne, hread, Value.nstring_ofOption,
    Value.string_ofAtom _ hname.not_nil]
  rfl

/-- **A folder is read from its line**, with its name and its flags as they stand there. -/
theorem parse_line (options : Options) (hword : keyOf word ∈ listNames)
    (hflags : ∀ f ∈ flags, IsBareWord f) (hspelling : SpelledDelimiter spelling delimiter)
    (hname : IsBareWord name) :
    Response.parse options [.plain (line word flags spelling name)] =
      .ok (.data (.list ⟨flags, delimiter, name⟩)) := by
  obtain ⟨hne, hletters, hstatus⟩ := word_of_listNames hword
  obtain ⟨b, hb⟩ := List.exists_mem_of_ne_nil word hne
  have hnumber := ServerData.number?_eq_none hb (hletters b hb).2
  have hline : line word flags spelling name =
      [Bytes.star] ++ Bytes.space :: (word ++ lineValues flags spelling name) := rfl
  obtain ⟨place, hheading, hplace, hrest⟩ := ServerData.exists_heading? hline
    ⟨hne, fun b hb => (hletters b hb).1⟩ hnumber hstatus
  have hchunk : (Chunk.plain (line word flags spelling name)).literal = none := rfl
  obtain ⟨d, hd, hyields⟩ := Yields.listed hflags hspelling hname hchunk
  have hscan : (Cursor.startAt [.plain (line word flags spelling name)] place.pos).scan =
      ⟨Written.tokensAll [.group .round (Written.atoms flags), .word d, .word (.atom name)],
        none⟩ := by
    show Cursor.scan ⟨0, place.pos, (line word flags spelling name).drop place.pos, _⟩ = _
    rw [← hplace, hrest]
    exact hyields 0 place.pos
  have hdepth : Tree.depthAll (Written.treeAll
      [.group .round (Written.atoms flags), .word d, .word (.atom name)]) ≤ maxDepth := by
    rw [Written.depthAll_treeAll]
    show max (Written.depthAll (Written.atoms flags) + 1) 0 ≤ maxDepth
    rw [Written.depthAll_atoms]
    decide
  have htrees : Tree.parseFrom [.plain (line word flags spelling name)] place.pos
      = .ok [.group .round (flags.map Tree.ofAtom), .ofOption delimiter, .ofAtom name] := by
    rw [Tree.parseFrom, hscan, Tree.ofScan_tokensAll hdepth, ← hd, ← Written.treeAll_atoms]
    rfl
  rw [Response.parse_of_heading hheading, Response.valuesFrom_of_parseFrom htrees]
  refine Result.map_eq_ok.2 ⟨_, ServerData.readNamed_eq_ok_iff.2 (.list ?_ ?_), rfl⟩
  · simpa [listNames] using hword
  · exact readList_listed hflags hname

/-! ## Written values -/

/-- A folder as values: the list of its flags, its delimiter or `NIL`, and its name. -/
def trees (f : Folder) : List Tree :=
  [.group .round (f.flags.map .bytes), .ofOption f.delimiter, .bytes f.name]

theorem readList_trees (f : Folder) : readList (Value.ofTrees f.trees) = .ok [f] := by
  simp only [trees, Value.ofTrees, Value.ofTree, readList_three, readOne, Value.strings_bytes,
    Value.nstring_ofOption]
  rfl

theorem depthAll_trees (f : Folder) : Tree.depthAll f.trees ≤ 1 := by
  have hflags : Tree.depthAll (f.flags.map .bytes) ≤ 0 := by
    rw [Tree.depthAll_le_iff, List.forall_mem_map]
    exact fun _ _ => Nat.le_refl 0
  simp only [trees, Tree.depthAll, Tree.depth, Tree.depth_ofOption]
  omega

/-- **Names of folders are never anything else than names.**  A line of a folder, under any of the three
    names of lists, is read as the folder with the flags and the name that stand there without
    quotes, whether they look like numbers or not, and with the delimiter that its spelling means.
    And any folder at all is read back from its own values after they were written on lines.
    (`FitsAll`: no byte string has 2⁶⁴ bytes.) -/
theorem list_lossless :
    (∀ (options : Options) (word : Bytes) (flags : List Bytes) (spelling : Bytes)
        (delimiter : Option Bytes) (name : Bytes),
      keyOf word ∈ listNames → (∀ f ∈ flags, IsBareWord f) → SpelledDelimiter spelling delimiter →
      IsBareWord name →
      Response.parse options [.plain (line word flags spelling name)] =
        .ok (.data (.list ⟨flags, delimiter, name⟩))) ∧
    ∀ f : Folder, Tree.FitsAll f.trees →
      Value.reread readList (Value.ofTrees f.trees) = some (.ok [f]) := by
  refine ⟨fun options word flags spelling delimiter name => parse_line options, ?_⟩
  intro f hfits
  have hdepth : Tree.depthAll f.trees ≤ maxDepth := Nat.le_trans f.depthAll_trees (by decide)
  rw [Value.reread_ofTrees readList hdepth hfits, readList_trees]

/-- A flag with a superfluous zero and one with a sign, a delimiter that is an escaped backslash, and a
    name past the integers of 64 bits; then the same folder, whose name is written in quotes. -/
theorem list_lossless_numbers :
    line (Bytes.ofString "LSUB") [Bytes.ofString "007", Bytes.ofString "-7"]
        (Bytes.ofString "\"\\\\\"") (Bytes.ofString "9223372036854775808")
      = Bytes.ofString "* LSUB (007 -7) \"\\\\\" 9223372036854775808" ∧
    Response.parse default
        [.plain (Bytes.ofString "* LSUB (007 -7) \"\\\\\" 9223372036854775808")] =
      .ok (.data (.list ⟨[Bytes.ofString "007", Bytes.ofString "-7"], some [Bytes.backslash],
        Bytes.ofString "9223372036854775808"⟩)) ∧
    Value.reread readList [.group .round [.bytes (Bytes.ofString "007"), .bytes (Bytes.ofString "-7")],
        .bytes [Bytes.backslash], .bytes (Bytes.ofString "-0")] =
      some (.ok [⟨[Bytes.ofString "007", Bytes.ofString "-7"], some [Bytes.backslash],
        Bytes.ofString "-0"⟩]) := by
  obtain ⟨hline, hwritten⟩ := list_lossless
  have hspelling : SpelledDelimiter (Bytes.ofString "\"\\\\\"") (some [Bytes.backslash]) :=
    .quoted (.escaped rfl .nil)
  have hsame : line (Bytes.ofString "LSUB") [Bytes.ofString "007", Bytes.ofString "-7"]
      (Bytes.ofString "\"\\\\\"") (Bytes.ofString "9223372036854775808")
        = Bytes.ofString "* LSUB (007 -7) \"\\\\\" 9223372036854775808" := by decide +kernel
  refine ⟨hsame, ?_, ?_⟩
  · rw [← hsame]
    exact hline default _ _ _ _ _ (by decide +kernel) (by decide +kernel) hspelling
      (by decide +kernel)
  · exact hwritten ⟨[Bytes.ofString "007", Bytes.ofString "-7"], some [Bytes.backslash],
      Bytes.ofString "-0"⟩ (by decide +kernel)

end Folder

end ImapWire
