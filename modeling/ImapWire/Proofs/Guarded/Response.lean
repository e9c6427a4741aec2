/-
  Whole responses by position.

  A response is read from its first line up to the name, and from there on as trees.  Both readers
  share one position: where the words end, the tokens begin.  Here the readers of responses are
  written out with that position as a number, on top of the words, codes and tokens, and the records
  behind a name on top of the readers of values.

  1. **Folders and searches** (`readSearch_gives`, `readFolders_gives`, `readState_gives`).

  2. **Data by its name** (`readNumbered_gives`, `readNamed_gives`).  The values are what has been
     read into trees, so no message shows an envelope date.

  3. **Responses** (`parse_gives`, `parseAll_gives`).  Every position is one of the first line: words
     stay on it (`Place.Within.word`), the text of a request starts behind a byte that is there, and
     the text behind a code starts behind its bracket.
-/
import ImapWire.Proofs.Guarded.Fetch
import ImapWire.Proofs.Guarded.Line
import ImapWire.Proofs.Guarded.Token
import ImapWire.Response.Read

namespace ImapWire

namespace Guarded

variable {α : Type} {v : Value} {vs : List Value}

/-! ## Readers without accesses -/

/-- What a reader gives that takes nothing by position and shows no value. -/
def settled (r : Result α) : Checked α :=
  match r with
  | .ok a => pure a
  | .error e => if h : e = .unwritable then stop .date else throw ⟨e, h⟩

theorem settled_gives {r : Result α} (h : r ≠ .error .unwritable) : Gives (settled r) r := by
  cases r with
  | ok a => exact gives_pure a
  | error e =>
    have he : e ≠ .unwritable := fun he => h (congrArg Except.error he)
    unfold settled
    dsimp only
    rw [dif_neg he]
    exact gives_throw ⟨e, he⟩

/-- No tree is without a text, so reading trees never fails for one. -/
theorem run_ne_unwritable (count : Nat) (s : Nest) (ts : List Token) (fault : Option LexFault) :
    Nest.run count s ts fault ≠ .error .unwritable := by
  induction ts generalizing count s with
  | nil =>
    cases fault with
    | some fault => nofun
    | none =>
      show s.finish.mapError _ ≠ _
      cases s.finish <;> nofun
  | cons t ts ih =>
    unfold Nest.run
    split
    · exact ih _ _
    · nofun

/-- The trees of a response without the first `offset` bytes of its first line. -/
def parseFrom (chunks : List Chunk) (offset : Nat) : Checked (List Tree) := do
  let tokens ← scanFrom chunks 0 offset
  settled (Tree.ofScan tokens)

/-- **Trees** are read from any position. -/
theorem parseFrom_gives (chunks : List Chunk) (offset : Nat) :
    Gives (parseFrom chunks offset) (Tree.parseFrom chunks offset) :=
  Gives.access (scanFrom_eq chunks 0 offset) (settled_gives (run_ne_unwritable 0 _ _ _))

/-! ## Folders and searches -/

/-- A value of a search. -/
def searchItem (v : Value) : Checked (UInt32 ⊕ UInt64) :=
  match v with
  | .int n => .inl <$> number32 "message id" (.int n)
  | .group .round items =>
    if items.length = 2 then do
      let name ← (get items 0 : Guarded Value)
      if SearchResult.isModseq name then do
        let n ← (get items 1 : Guarded Value)
        .inr <$> number64 "MODSEQ" n
      else wrong "message list item" v
    else wrong "message list item" v
  | other => wrong "message list item" other

/-- The values of a search. -/
def readSearch (vs : List Value) : Checked SearchResult := do
  let items ← vs.mapM searchItem
  pure ⟨items.filterMap Sum.getLeft?, (items.filterMap Sum.getRight?).getLast?⟩

/-- Attributes, delimiter and name of a folder. -/
def readFolder (flags delimiter name : Value) : Checked Folder :=
  match flags with
  | .group .round flags => do
    let flags ← flags.mapM (string "folder flag")
    let delimiter ← nstring "folder delimiter" delimiter
    let name ← string "folder name" name
    pure ⟨flags, delimiter, name⟩
  | other => wrong "folder flags" other

/-- Folders one after the other. -/
def readFolders (vs : List Value) : Checked (List Folder) :=
  if vs.length % 3 = 0 then do
    let triples ← triplesAt vs
    triples.mapM fun (flags, delimiter, name) => readFolder flags delimiter name
  else near (.folderTriplets vs.length) vs

/-- A folder and the list of its status items. -/
def readState (vs : List Value) : Checked FolderState :=
  match vs with
  | [mailbox, .group .round items] => do
    let mailbox ← string "mailbox name" mailbox
    let pairs ← pairs "STATUS" items
    let entries ← pairs.mapM fun (name, value) => do
      let name ← string "status item" name
      pure (keyOf name, value)
    pure ⟨mailbox, Table.ofList entries⟩
  | vs => near .statusShape vs

theorem searchItem_gives (h : v.dates = []) : Gives (searchItem v) (SearchResult.readItem v) := by
  match v with
  | .int n => exact (number32_gives _ h).map Sum.inl
  | .group .round [] | .group .round [_] | .group .round (_ :: _ :: _ :: _) =>
    exact wrong_gives _ h
  | .group .round [name, n] =>
    have hn : n.dates = [] := (Value.datesAll_eq_nil_iff [name, n]).1 h n (by simp)
    unfold searchItem SearchResult.readItem
    dsimp only
    rw [if_pos (show [name, n].length = 2 from rfl)]
    refine Gives.access (a := name) rfl ?_
    cases SearchResult.isModseq name with
    | true => exact Gives.access (a := n) rfl ((number64_gives _ hn).map Sum.inr)
    | false => exact wrong_gives _ h
  | .bytes _ | .nil | .group .square _ | .flags _ | .stamp _ | .envelope _ | .address _
  | .body _ => exact wrong_gives _ h

theorem readSearch_gives (h : Value.datesAll vs = []) :
    Gives (readSearch vs) (SearchResult.read vs) :=
  (Gives.mapM fun _ hv => searchItem_gives (dates_of_mem h hv)).bind fun _ => gives_pure _

theorem readFolder_gives {flags delimiter name : Value} (hflags : flags.dates = [])
    (hdelimiter : delimiter.dates = []) (hname : name.dates = []) :
    Gives (readFolder flags delimiter name) (Folder.readOne flags delimiter name) := by
  cases flags with
  | group k flags =>
    cases k with
    | round =>
      refine (strings_gives _ (show Value.datesAll flags = [] from hflags)).bind fun flags => ?_
      refine (nstring_gives _ hdelimiter).bind fun delimiter => ?_
      exact (string_gives _ hname).bind fun name => gives_pure _
    | square => exact wrong_gives _ hflags
  | _ => exact wrong_gives _ hflags

theorem readFolders_gives (h : Value.datesAll vs = []) :
    Gives (readFolders vs) (Folder.readList vs) := by
  unfold readFolders Folder.readList
  split
  · refine Gives.access (triplesAt_eq vs) ?_
    refine Gives.mapM fun (flags, delimiter, name) htriple => ?_
    obtain ⟨hflags, hdelimiter, hname⟩ := mem_of_mem_tripleUp htriple
    exact readFolder_gives (dates_of_mem h hflags) (dates_of_mem h hdelimiter)
      (dates_of_mem h hname)
  · exact near_gives _ h

theorem readState_gives (h : Value.datesAll vs = []) :
    Gives (readState vs) (FolderState.read vs) := by
  unfold readState
  split
  · next mailbox items =>
    unfold FolderState.read
    have hmailbox : mailbox.dates = [] := dates_of_mem h (by simp)
    have hlist : (Value.group .round items).dates = [] := dates_of_mem h (by simp)
    have hitems : Value.datesAll items = [] := hlist
    refine (string_gives _ hmailbox).bind fun mailbox => ?_
    refine (pairs_gives _ hitems).bind_of_ok fun ps hps => ?_
    refine Gives.bind (Gives.mapM fun (name, value) hpair => ?_) fun entries => gives_pure _
    refine (string_gives _ (dates_of_mem hitems (mem_of_pairs hps hpair).1)).bind fun name => ?_
    exact gives_pure _
  · next hshape =>
    unfold FolderState.read
    split
    · next mailbox items => exact absurd rfl (hshape mailbox items)
    · exact near_gives _ h

/-! ## Data by its name -/

/-- The list of items of one message. -/
def readFetch (options : Options) (seq : MessageNumber) (values : List Value) :
    Checked ServerData :=
  match values with
  | [.group .round items] => do
    let record ← readRecord seq.number items options
    pure (.fetch seq record)
  | [v] => wrong "FETCH item list" v
  | _ => throw ⟨.parse 0 .oneItemList "", nofun⟩

/-- Data of a name that stands behind a number. -/
def readNumbered (options : Options) (number : UInt32) (name : String) (values : List Value) :
    Checked ServerData :=
  if name = "EXISTS" then pure (.messages number)
  else if name = "RECENT" then pure (.recent number)
  else if name = "EXPUNGE" then .expunge <$> settled (MessageNumber.ofNumber number)
  else if name = "FETCH" then do
    let seq ← settled (MessageNumber.ofNumber number)
    readFetch options seq values
  else pure (.other (some number) name values)

/-- Data of a name without a number; `line` is the first line of the response. -/
def readNamed (line : Bytes) (name : String) (values : List Value) : Checked ServerData :=
  if name = "CAPABILITY" then do
    let names ← values.mapM (string "capability")
    pure (.capability (names.map keyOf))
  else if name = "FLAGS" then
    match values with
    | [.group .round fs] => .flags <$> fs.mapM (string "flag")
    | _ => throw ⟨.parse 0 .oneFlagList line.escaped, nofun⟩
  else if name = "LIST" ∨ name = "LSUB" ∨ name = "XLIST" then do
    let entries ← readFolders values
    match entries with
    | [entry] => pure (.list entry)
    | _ => throw ⟨.parse 0 (.oneEntry name) line.escaped, nofun⟩
  else if name = "SEARCH" ∨ name = "SORT" then .search <$> readSearch values
  else if name = "STATUS" then .folderState <$> readState values
  else pure (.other none name values)

theorem ofNumber_gives (number : UInt32) :
    Gives (settled (MessageNumber.ofNumber number)) (MessageNumber.ofNumber number) := by
  refine settled_gives ?_
  unfold MessageNumber.ofNumber
  split <;> nofun

theorem readFetch_gives (options : Options) (seq : MessageNumber) (h : Value.datesAll vs = []) :
    Gives (readFetch options seq vs) (ServerData.readFetch options seq vs) := by
  match vs with
  | [.group .round items] =>
    have hlist : (Value.group .round items).dates = [] := dates_of_mem h List.mem_cons_self
    exact (readRecord_gives seq.number options hlist).bind fun record => gives_pure _
  | [] => exact gives_throw _
  | first :: _ :: _ =>
    match first with
    | .group .round _ | .group .square _ | .int _ | .bytes _ | .nil | .flags _ | .stamp _
    | .envelope _ | .address _ | .body _ => exact gives_throw _
  | [.group .square _] | [.int _] | [.bytes _] | [.nil] | [.flags _] | [.stamp _] | [.envelope _]
  | [.address _] | [.body _] => exact wrong_gives _ (dates_of_mem h List.mem_cons_self)

/-- **Data behind a number** is read. -/
theorem readNumbered_gives (options : Options) (number : UInt32) (name : String)
    (h : Value.datesAll vs = []) :
    Gives (readNumbered options number name vs)
      (ServerData.readNumbered options number name vs) := by
  unfold readNumbered ServerData.readNumbered
  by_cases hexists : name = "EXISTS"
  · rw [if_pos hexists, if_pos hexists]
    exact gives_pure _
  rw [if_neg hexists, if_neg hexists]
  by_cases hrecent : name = "RECENT"
  · rw [if_pos hrecent, if_pos hrecent]
    exact gives_pure _
  rw [if_neg hrecent, if_neg hrecent]
  by_cases hexpunge : name = "EXPUNGE"
  · rw [if_pos hexpunge, if_pos hexpunge]
    exact (ofNumber_gives number).map ServerData.expunge
  rw [if_neg hexpunge, if_neg hexpunge]
  by_cases hfetch : name = "FETCH"
  · rw [if_pos hfetch, if_pos hfetch]
    exact (ofNumber_gives number).bind fun seq => readFetch_gives options seq h
  rw [if_neg hfetch, if_neg hfetch]
  exact gives_pure _

/-- **Data without a number** is read. -/
theorem readNamed_gives (line : Bytes) (name : String) (h : Value.datesAll vs = []) :
    Gives (readNamed line name vs) (ServerData.readNamed line name vs) := by
  unfold readNamed ServerData.readNamed
  by_cases hcapability : name = "CAPABILITY"
  · rw [if_pos hcapability, if_pos hcapability]
    exact (strings_gives _ h).bind fun names => gives_pure _
  rw [if_neg hcapability, if_neg hcapability]
  by_cases hflags : name = "FLAGS"
  · rw [if_pos hflags, if_pos hflags]
    match vs with
    | [.group .round fs] =>
      have hlist : (Value.group .round fs).dates = [] := dates_of_mem h List.mem_cons_self
      have hfs : Value.datesAll fs = [] := hlist
      exact (strings_gives _ hfs).map ServerData.flags
    | [] | [.group .square _] | [.int _] | [.bytes _] | [.nil] | [.flags _] | [.stamp _]
    | [.envelope _] | [.address _] | [.body _] => exact gives_throw _
    | first :: _ :: _ =>
      match first with
      | .group .round _ | .group .square _ | .int _ | .bytes _ | .nil | .flags _ | .stamp _
      | .envelope _ | .address _ | .body _ => exact gives_throw _
  rw [if_neg hflags, if_neg hflags]
  by_cases hlist : name = "LIST" ∨ name = "LSUB" ∨ name = "XLIST"
  · rw [if_pos hlist, if_pos hlist]
    refine (readFolders_gives h).bind fun entries => ?_
    match entries with
    | [entry] => exact gives_pure _
    | [] | _ :: _ :: _ => exact gives_throw _
  rw [if_neg hlist, if_neg hlist]
  by_cases hsearch : name = "SEARCH" ∨ name = "SORT"
  · rw [if_pos hsearch, if_pos hsearch]
    exact (readSearch_gives h).map ServerData.search
  rw [if_neg hsearch, if_neg hsearch]
  by_cases hstate : name = "STATUS"
  · rw [if_pos hstate, if_pos hstate]
    exact (readState_gives h).map ServerData.folderState
  rw [if_neg hstate, if_neg hstate]
  exact gives_pure _

/-! ## Responses -/

/-- The code in the brackets of a line. -/
def readCode (code line : Bytes) : Checked ResponseCode := do
  let trees ← parseFrom [.plain code] 0
  match Value.ofTrees trees with
  | [] => throw ⟨.parse 0 .emptyCode line.escaped, nofun⟩
  | name :: values => do
    let name ← string "response code" name
    pure ⟨keyOf name, values⟩

/-- What stands behind a status: perhaps a code, and text. -/
def readText (line : Bytes) (pos : Nat) : Checked (Option ResponseCode × String) :=
  let start := skipSpaces line pos
  if (line)[start]? = some Bytes.openSquare then do
    let stop? ← codeEnd 0 false false start (line.drop start)
    match stop? with
    | none => throw ⟨.parse 0 .unterminatedCode line.escaped, nofun⟩
    | some stop => do
      let bytes ← (between line (start + 1) stop : Guarded Bytes)
      let code ← readCode bytes line
      let text ← textAfter line (stop + 1)
      pure (some code, text)
  else do
    let text ← textAfter line start
    pure (none, text)

/-- A completion: the status and what stands behind it. -/
def readCompletion (tag line : Bytes) (pos : Nat) : Checked Response := do
  let (word, pos) ← nextWord line pos
  match Status.ofWord? word with
  | none => throw ⟨.parse 0 (.invalidStatus word) line.escaped, nofun⟩
  | some status => do
    let (code, text) ← readText line pos
    pure (.completion (Tag.ofWord tag) status code text)

/-- Data of the server: what stands behind the star. -/
def readData (options : Options) (chunks : List Chunk) (line : Bytes) (pos : Nat) :
    Checked ServerData := do
  let (word, pos) ← nextWord line pos
  match ServerData.number? word with
  | some number => do
    let (name, pos) ← nextWord line pos
    let trees ← parseFrom chunks pos
    readNumbered options number (keyOf name) (Value.ofTrees trees)
  | none =>
    match Status.ofWord? word with
    | some status => do
      settled (Response.oneChunk chunks line)
      let (code, text) ← readText line pos
      pure (.condition status code text)
    | none => do
      let trees ← parseFrom chunks pos
      readNamed line (keyOf word) (Value.ofTrees trees)

/-- Reads a response. -/
def parse (options : Options) (chunks : List Chunk) : Checked Response :=
  match chunks with
  | [] => throw ⟨.parse 0 .emptyResponse "", nofun⟩
  | first :: _ => do
    let line := first.line
    let (word, pos) ← nextWord line 0
    if word.isEmpty then throw ⟨.parse 0 .emptyResponse "", nofun⟩
    else if word.head? = some Bytes.plus then do
      settled (Response.oneChunk chunks line)
      let text ← textAfter line 1
      pure (.continuation (if text.isEmpty then none else some text))
    else if word = [Bytes.star] then .data <$> readData options chunks line pos
    else do
      settled (Response.oneChunk chunks line)
      readCompletion word line pos

/-- The messages of a response, or of several responses one after the other. -/
def parseAll (chunks : List Chunk) (options : Options) :
    Checked (Table UInt32 FetchRecord) := do
  let trees ← parseFrom chunks 0
  readMessages options Table.empty (Value.ofTrees trees)

theorem oneChunk_gives (chunks : List Chunk) (line : Bytes) :
    Gives (settled (Response.oneChunk chunks line)) (Response.oneChunk chunks line) := by
  refine settled_gives ?_
  unfold Response.oneChunk
  split <;> nofun

theorem readCode_gives (code line : Bytes) :
    Gives (readCode code line) (Response.readCode code line) := by
  refine (parseFrom_gives [.plain code] 0).bind fun trees => ?_
  have hdates := Value.datesAll_ofTrees trees
  generalize Value.ofTrees trees = values at hdates ⊢
  cases values with
  | nil => exact gives_throw _
  | cons name values =>
    exact (string_gives _ (dates_of_mem hdates List.mem_cons_self)).bind fun name => gives_pure _

variable {line : Bytes} {p : Place}

/-- **The text behind a status** is cut out of the line. -/
theorem readText_gives (h : p.Within line) :
    Gives (readText line p.pos) (Response.readText line p) := by
  have hstart : p.skipSpaces.Within line := h.skip _
  have hhead : (line)[p.skipSpaces.pos]? = p.skipSpaces.rest.head? := by
    rw [hstart.on, List.head?_drop]
  unfold readText Response.readText
  simp only [h.skipSpaces_eq, hhead]
  by_cases hopen : p.skipSpaces.rest.head? = some Bytes.openSquare
  · rw [if_pos hopen, if_pos hopen, ← hstart.on]
    refine Gives.access (codeEnd_start hopen) ?_
    cases hcode : codeOf? p.skipSpaces.rest with
    | none => exact gives_throw _
    | some found =>
      obtain ⟨code, text⟩ := found
      obtain ⟨hbetween, hbehind⟩ := between_code hstart hopen hcode
      refine Gives.access hbetween ?_
      refine (readCode_gives code line).bind fun code => ?_
      exact Gives.access (textAfter_eq hbehind) (gives_pure _)
  · rw [if_neg hopen, if_neg hopen]
    exact Gives.access (textAfter_eq hstart) (gives_pure _)

theorem readCompletion_gives (tag : Bytes) (h : p.Within line) :
    Gives (readCompletion tag line p.pos) (Response.readCompletion tag line p) := by
  unfold readCompletion Response.readCompletion
  refine Gives.access (nextWord_eq h) ?_
  dsimp only
  cases Status.ofWord? p.word.1 with
  | none => exact gives_throw _
  | some status => exact (readText_gives h.word).bind fun behind => gives_pure _

theorem readData_gives (options : Options) (chunks : List Chunk) (h : p.Within line) :
    Gives (readData options chunks line p.pos) (ServerData.read options chunks line p) := by
  -- the values from a place on are those of the trees from its position on
  have hvalues : ∀ (q : Place) {c : List Tree → Checked ServerData}
      {f : List Value → Result ServerData}, (∀ trees, Gives (c trees) (f (Value.ofTrees trees))) →
      Gives (parseFrom chunks q.pos >>= c) (ServerData.valuesFrom chunks q >>= f) := by
    intro q c f hc
    have hboth := (parseFrom_gives chunks q.pos).bind hc
    unfold ServerData.valuesFrom
    cases htrees : Tree.parseFrom chunks q.pos <;> rwa [htrees] at hboth
  unfold readData ServerData.read
  refine Gives.access (nextWord_eq h) ?_
  dsimp only
  cases ServerData.number? p.word.1 with
  | some number =>
    refine Gives.access (nextWord_eq h.word) ?_
    exact hvalues _ fun trees => readNumbered_gives _ _ _ (Value.datesAll_ofTrees trees)
  | none =>
    cases Status.ofWord? p.word.1 with
    | none => exact hvalues _ fun trees => readNamed_gives _ _ (Value.datesAll_ofTrees trees)
    | some status =>
      refine (oneChunk_gives chunks line).bind fun _ => ?_
      exact (readText_gives h.word).bind fun behind => gives_pure _

/-- **A response** is read from positions of its line alone, and read the same. -/
theorem parse_gives (options : Options) (chunks : List Chunk) :
    Gives (parse options chunks) (Response.parse options chunks) := by
  cases chunks with
  | nil => exact gives_throw _
  | cons first later =>
    have hstart : (Place.ofLine first.line 0).Within first.line :=
      Place.within_ofLine (Nat.zero_le _)
    have hword : nextWord first.line 0 = .ok ((Place.ofLine first.line 0).word.1,
        (Place.ofLine first.line 0).word.2.pos) := nextWord_eq hstart
    unfold parse Response.parse
    refine Gives.access hword ?_
    dsimp only
    by_cases hempty : (Place.ofLine first.line 0).word.1.isEmpty = true
    · rw [if_pos hempty, if_pos hempty]
      exact gives_throw _
    rw [if_neg hempty, if_neg hempty]
    by_cases hplus : (Place.ofLine first.line 0).word.1.head? = some Bytes.plus
    · rw [if_pos hplus, if_pos hplus]
      -- the word is not empty, so neither is the line
      have hbehind : (Place.ofLine first.line 1).Within first.line := by
        refine Place.within_ofLine (Nat.pos_of_ne_zero fun hzero => hempty ?_)
        rw [List.length_eq_zero_iff.1 hzero]
        rfl
      have htext : textAfter first.line 1 = .ok (Place.ofLine first.line 1).text :=
        textAfter_eq hbehind
      refine (oneChunk_gives _ first.line).bind fun _ => ?_
      exact Gives.access htext (gives_pure _)
    rw [if_neg hplus, if_neg hplus]
    by_cases hstar : (Place.ofLine first.line 0).word.1 = [Bytes.star]
    · rw [if_pos hstar, if_pos hstar]
      exact (readData_gives options _ hstart.word).map Response.data
    rw [if_neg hstar, if_neg hstar]
    refine (oneChunk_gives _ first.line).bind fun _ => ?_
    exact readCompletion_gives _ hstart.word

/-- **The messages of any chunks** are read without a stop. -/
theorem parseAll_gives (chunks : List Chunk) (options : Options) :
    Gives (parseAll chunks options) (FetchRecord.parseAll chunks options) :=
  (parseFrom_gives chunks 0).bind fun trees =>
    readMessages_gives options Table.empty _ (Value.datesAll_ofTrees trees)

/-! ## All readers -/

/-- **No bytes stop a reader.**  Responses, trees from any position on and messages; single tokens;
    the length that a line announces; dates: each reader that takes its input by position gives what
    the running one gives, with every access in range and at whole characters, no counter below zero
    and no envelope date in a text.  So no failure is one to write a value. -/
theorem reads_without_stop :
    (∀ options chunks, Gives (parse options chunks) (Response.parse options chunks) ∧
      Response.parse options chunks ≠ .error .unwritable) ∧
    (∀ chunks offset, Gives (parseFrom chunks offset) (Tree.parseFrom chunks offset) ∧
      Tree.parseFrom chunks offset ≠ .error .unwritable) ∧
    (∀ chunks options, Gives (parseAll chunks options) (FetchRecord.parseAll chunks options) ∧
      FetchRecord.parseAll chunks options ≠ .error .unwritable) ∧
    (∀ chunks index pos, ∃ result index' pos',
      nextToken chunks index pos = .ok (result, index', pos') ∧
        (Cursor.ofPosition chunks index pos).next
          = (result, Cursor.ofPosition chunks index' pos')) ∧
    (∀ line, literalLength line = .ok (announced? line)) ∧
    (∀ text toUtc, readDate text toUtc = .ok (Stamp.read? text toUtc)) := by
  refine ⟨?_, ?_, ?_, nextToken_eq, literalLength_eq, readDate_eq⟩
  · intro options chunks
    exact ⟨parse_gives options chunks, (parse_gives options chunks).ne_unwritable⟩
  · intro chunks offset
    exact ⟨parseFrom_gives chunks offset, (parseFrom_gives chunks offset).ne_unwritable⟩
  · intro chunks options
    exact ⟨parseAll_gives chunks options, (parseAll_gives chunks options).ne_unwritable⟩

end Guarded

end ImapWire
