/-
  Data that is made of values.

  Behind the star of a response stand a word for a status and text, or else a name, perhaps with a
  number in front of it, and values.

  1. **What a name makes of values** (`ServerData.OfName`, `ServerData.OfNumber`), one rule for each
     sort of data.  Reading gives some data exactly if a rule does (`readNamed_eq_ok_iff`,
     `readNumbered_eq_ok_iff`).

  2. **The heading** of such a response (`ServerData.heading?`): the number, the name and the place
     where its values start.  It is a matter of the line alone.  A response with a heading is what
     its name makes of its values (`Response.parse_of_heading`), and all data but conditions comes
     from one (`Response.exists_heading`).
-/
import ImapWire.Response.Read

namespace ImapWire

theorem MessageNumber.ofNumber_eq_ok_iff {n : UInt32} {seq : MessageNumber} :
    ofNumber n = .ok seq ↔ seq.number = n := by
  unfold ofNumber
  constructor
  · intro h
    split at h
    · cases h
      rfl
    · cases h
  · rintro rfl
    rw [dif_pos seq.ne_zero]

namespace ServerData

/-! ## What a name makes of values -/

/-- The names under which values are read as something else than values. -/
def knownNames : List String :=
  ["CAPABILITY", "FLAGS", "LIST", "LSUB", "XLIST", "SEARCH", "SORT", "STATUS"]

/-- The names that have a meaning behind a number. -/
def numberedNames : List String := ["EXISTS", "RECENT", "EXPUNGE", "FETCH"]

/-- What a name makes of the values behind it. -/
inductive OfName : String → List Value → ServerData → Prop
  | capability {values : List Value} {names : List Bytes}
      (hnames : Value.strings "capability" values = .ok names) :
      OfName "CAPABILITY" values (.capability (names.map keyOf))
  | flags {items : List Value} {fs : List Bytes} (hflags : Value.strings "flag" items = .ok fs) :
      OfName "FLAGS" [.group .round items] (.flags fs)
  | list {name : String} {values : List Value} {entry : Folder}
      (hname : name = "LIST" ∨ name = "LSUB" ∨ name = "XLIST")
      (hentry : Folder.readList values = .ok [entry]) : OfName name values (.list entry)
  | search {name : String} {values : List Value} {result : SearchResult}
      (hname : name = "SEARCH" ∨ name = "SORT") (hresult : SearchResult.read values = .ok result) :
      OfName name values (.search result)
  | folderState {values : List Value} {result : FolderState}
      (hresult : FolderState.read values = .ok result) :
      OfName "STATUS" values (.folderState result)
  | other {name : String} {values : List Value} (hname : name ∉ knownNames) :
      OfName name values (.other none name values)

/-- What a name makes of the number in front of it and the values behind it. -/
inductive OfNumber (options : Options) (number : UInt32) : String → List Value → ServerData → Prop
  | messages {values : List Value} : OfNumber options number "EXISTS" values (.messages number)
  | recent {values : List Value} : OfNumber options number "RECENT" values (.recent number)
  | expunge {values : List Value} {seq : MessageNumber} (hseq : seq.number = number) :
      OfNumber options number "EXPUNGE" values (.expunge seq)
  | fetch {items : List Value} {seq : MessageNumber} {record : FetchRecord}
      (hseq : seq.number = number) (hread : FetchRecord.read number items options = .ok record) :
      OfNumber options number "FETCH" [.group .round items] (.fetch seq record)
  | other {name : String} {values : List Value} (hname : name ∉ numberedNames) :
      OfNumber options number name values (.other (some number) name values)

variable {options : Options} {line : Bytes} {number : UInt32} {name : String} {values : List Value}
  {d : ServerData}

/-- Folders are listed one by one. -/
theorem readNamed_list (hname : name = "LIST" ∨ name = "LSUB" ∨ name = "XLIST") :
    readNamed line name values = (Folder.readList values >>= fun entries =>
      match entries with
      | [entry] => .ok (list entry)
      | _ => .error (.parse 0 (.oneEntry name) line.escaped)) := by
  rcases hname with rfl | rfl | rfl <;> rfl

/-- **Data under a name** is what the name makes of the values. -/
theorem readNamed_eq_ok_iff : readNamed line name values = .ok d ↔ OfName name values d := by
  constructor
  · intro h
    unfold readNamed at h
    split at h
    · next hname =>
      obtain ⟨names, hnames, hd⟩ := Result.bind_eq_ok.1 h
      cases hd
      exact hname ▸ .capability hnames
    · next hcapability =>
      split at h
      · next hname =>
        split at h
        · next items =>
          obtain ⟨fs, hflags, rfl⟩ := Result.map_eq_ok.1 h
          exact hname ▸ .flags hflags
        · cases h
      · next hflags =>
        split at h
        · next hname =>
          obtain ⟨entries, hentries, h⟩ := Result.bind_eq_ok.1 h
          split at h
          · cases h
            exact .list hname hentries
          · cases h
        · next hlist =>
          split at h
          · next hname =>
            obtain ⟨result, hresult, rfl⟩ := Result.map_eq_ok.1 h
            exact .search hname hresult
          · next hsearch =>
            split at h
            · next hname =>
              obtain ⟨result, hresult, rfl⟩ := Result.map_eq_ok.1 h
              exact hname ▸ .folderState hresult
            · next hstatus =>
              cases h
              refine .other ?_
              simp only [knownNames, List.mem_cons, List.not_mem_nil, or_false, not_or] at *
              exact ⟨hcapability, hflags, hlist.1, hlist.2.1, hlist.2.2, hsearch.1, hsearch.2,
                hstatus⟩
  · intro h
    cases h with
    | @capability values names hnames =>
      show (Value.strings "capability" values >>= _) = _
      rw [hnames]
      rfl
    | @flags items fs hflags =>
      show (Value.strings "flag" items).map _ = _
      rw [hflags]
      rfl
    | @list name values entry hname hentry =>
      rw [readNamed_list hname, hentry]
      rfl
    | @search name values result hname hresult =>
      have hread : readNamed line name values = (SearchResult.read values).map search := by
        rcases hname with rfl | rfl <;> rfl
      rw [hread, hresult]
      rfl
    | @folderState values result hresult =>
      show (FolderState.read values).map _ = _
      rw [hresult]
      rfl
    | @other name values hname =>
      simp only [knownNames, List.mem_cons, List.not_mem_nil, or_false, not_or] at hname
      obtain ⟨hcapability, hflags, hlist, hlsub, hxlist, hsearch, hsort, hstatus⟩ := hname
      unfold readNamed
      simp only [hcapability, hflags, hlist, hlsub, hxlist, hsearch, hsort, hstatus, or_self,
        if_false]

theorem readFetch_eq_ok {seq : MessageNumber} (h : readFetch options seq values = .ok d) :
    ∃ items r, values = [.group .round items] ∧ FetchRecord.read seq.number items options = .ok r ∧
      d = fetch seq r := by
  unfold readFetch at h
  split at h
  · next items =>
    obtain ⟨r, hread, hd⟩ := Result.bind_eq_ok.1 h
    cases hd
    exact ⟨items, r, rfl, hread, rfl⟩
  · cases h
  · cases h

/-- **Data behind a number** is what the name makes of the number and the values. -/
theorem readNumbered_eq_ok_iff :
    readNumbered options number name values = .ok d ↔ OfNumber options number name values d := by
  constructor
  · intro h
    unfold readNumbered at h
    split at h
    · next hname =>
      cases h
      exact hname ▸ .messages
    · next hexists =>
      split at h
      · next hname =>
        cases h
        exact hname ▸ .recent
      · next hrecent =>
        split at h
        · next hname =>
          obtain ⟨seq, hseq, rfl⟩ := Result.map_eq_ok.1 h
          exact hname ▸ .expunge (MessageNumber.ofNumber_eq_ok_iff.1 hseq)
        · next hexpunge =>
          split at h
          · next hname =>
            obtain ⟨seq, hseq, h⟩ := Result.bind_eq_ok.1 h
            obtain ⟨items, record, rfl, hread, rfl⟩ := readFetch_eq_ok h
            obtain rfl := MessageNumber.ofNumber_eq_ok_iff.1 hseq
            exact hname ▸ .fetch rfl hread
          · next hfetch =>
            cases h
            refine .other ?_
            simp only [numberedNames, List.mem_cons, List.not_mem_nil, or_false, not_or]
            exact ⟨hexists, hrecent, hexpunge, hfetch⟩
  · intro h
    cases h with
    | messages => rfl
    | recent => rfl
    | @expunge values seq hseq =>
      show (MessageNumber.ofNumber number).map _ = _
      rw [MessageNumber.ofNumber_eq_ok_iff.2 hseq]
      rfl
    | @fetch items seq record hseq hread =>
      show (MessageNumber.ofNumber number >>= _) = _
      rw [MessageNumber.ofNumber_eq_ok_iff.2 hseq]
      show (FetchRecord.read seq.number items options >>= _) = _
      rw [hseq, hread]
      rfl
    | @other name values hname =>
      simp only [numberedNames, List.mem_cons, List.not_mem_nil, or_false, not_or] at hname
      obtain ⟨hexists, hrecent, hexpunge, hfetch⟩ := hname
      unfold readNumbered
      simp only [hexists, hrecent, hexpunge, hfetch, if_false]

variable {status : Status} {code : Option ResponseCode} {text : String}

/-- Under a name that is no word for a status there is no condition. -/
theorem readNamed_ne_condition :
    readNamed line name values ≠ .ok (condition status code text) := by
  intro h
  cases readNamed_eq_ok_iff.1 h

/-- Behind a number there is none. -/
theorem readNumbered_ne_condition :
    readNumbered options number name values ≠ .ok (condition status code text) := by
  intro h
  cases readNumbered_eq_ok_iff.1 h

/-! ## The heading -/

/-- What stands in front of the values of a response. -/
structure Heading where
  /-- The number in front of the name. -/
  number : Option UInt32
  /-- The name, in capitals. -/
  name : String
  /-- Where the values start. -/
  place : Place
  deriving DecidableEq

/-- The heading of a line: none if it does not start with a star, or if a word for a status stands
    behind it. -/
def heading? (line : Bytes) : Option Heading :=
  let (star, p) := (Place.ofLine line 0).word
  let (word, behind) := p.word
  if star = [Bytes.star] then
    match number? word with
    | some number =>
      let (name, behind) := behind.word
      some ⟨some number, keyOf name, behind⟩
    | none =>
      if (Status.ofWord? word).isSome then none else some ⟨none, keyOf word, behind⟩
  else none

/-- What a heading makes of values; `line` is the first line of the response. -/
def Heading.read (options : Options) (line : Bytes) (h : Heading) (values : List Value) :
    Result ServerData :=
  match h.number with
  | some number => readNumbered options number h.name values
  | none => readNamed line h.name values

/-- No heading makes a condition. -/
theorem Heading.read_ne_condition {h : Heading} :
    h.read options line values ≠ .ok (.condition status code text) := by
  obtain ⟨number, name, place⟩ := h
  cases number with
  | none => exact readNamed_ne_condition
  | some number => exact readNumbered_ne_condition

end ServerData

namespace Response

open ServerData (Heading heading? valuesFrom)

variable {options : Options} {first : Chunk} {later : List Chunk} {h : Heading}

/-- A line with a heading starts with a star. -/
theorem star_of_heading? (hline : heading? first.line = some h) :
    (Place.ofLine first.line 0).word.1 = [Bytes.star] := by
  unfold heading? at hline
  dsimp only at hline
  split at hline
  · assumption
  · cases hline

theorem valuesFrom_of_parseFrom {chunks : List Chunk} {p : Place} {ts : List Tree}
    (h : Tree.parseFrom chunks p.pos = .ok ts) : valuesFrom chunks p = .ok (Value.ofTrees ts) := by
  unfold valuesFrom
  rw [h]
  rfl

/-- **A response with a heading** is what the heading makes of the values. -/
theorem parse_of_heading (hline : heading? first.line = some h) :
    parse options (first :: later) = (valuesFrom (first :: later) h.place >>= fun values =>
      h.read options first.line values).map .data := by
  have hstar := star_of_heading? hline
  unfold parse
  dsimp only
  rw [hstar, if_neg (by decide), if_neg (by decide), if_pos rfl]
  congr 1
  unfold heading? at hline
  dsimp only at hline
  rw [if_pos hstar] at hline
  unfold ServerData.read
  dsimp only
  cases hnumber : ServerData.number? (Place.ofLine first.line 0).word.2.word.1 with
  | some number =>
    rw [hnumber] at hline
    cases hline
    rfl
  | none =>
    rw [hnumber] at hline
    cases hstatus : Status.ofWord? (Place.ofLine first.line 0).word.2.word.1 with
    | some status =>
      rw [hstatus] at hline
      cases hline
    | none =>
      rw [hstatus] at hline
      cases hline
      rfl

/-- Data of the server stands behind a star. -/
theorem parse_eq_data {chunks : List Chunk} {d : ServerData}
    (h : parse options chunks = .ok (.data d)) :
    ∃ first later, chunks = first :: later ∧ (Place.ofLine first.line 0).word.1 = [Bytes.star] ∧
      ServerData.read options chunks first.line (Place.ofLine first.line 0).word.2 = .ok d := by
  unfold parse at h
  split at h
  · cases h
  · next first later =>
    dsimp only at h
    split at h
    · cases h
    · split at h
      · obtain ⟨_, -, hd⟩ := Result.bind_eq_ok.1 h
        cases hd
      · split at h
        · next hstar =>
          obtain ⟨d', hread, hd⟩ := Result.map_eq_ok.1 h
          cases hd
          exact ⟨first, later, rfl, hstar, hread⟩
        · obtain ⟨_, -, h⟩ := Result.bind_eq_ok.1 h
          unfold readCompletion at h
          dsimp only at h
          split at h
          · cases h
          · obtain ⟨text, -, hd⟩ := Result.bind_eq_ok.1 h
            cases hd

/-- **Data** is a condition, or its line has a heading. -/
theorem exists_heading {chunks : List Chunk} {d : ServerData}
    (hparse : parse options chunks = .ok (.data d))
    (hd : ∀ status code text, d ≠ .condition status code text) :
    ∃ first later h, chunks = first :: later ∧ heading? first.line = some h := by
  obtain ⟨first, later, hchunks, hstar, hread⟩ := parse_eq_data hparse
  suffices hline : ∃ h, heading? first.line = some h by
    obtain ⟨h, hh⟩ := hline
    exact ⟨first, later, h, hchunks, hh⟩
  unfold heading?
  dsimp only
  rw [if_pos hstar]
  unfold ServerData.read at hread
  dsimp only at hread
  cases hnumber : ServerData.number? (Place.ofLine first.line 0).word.2.word.1 with
  | some number => exact ⟨_, rfl⟩
  | none =>
    rw [hnumber] at hread
    cases hstatus : Status.ofWord? (Place.ofLine first.line 0).word.2.word.1 with
    | some status =>
      rw [hstatus] at hread
      obtain ⟨_, -, hread⟩ := Result.bind_eq_ok.1 hread
      obtain ⟨⟨code, text⟩, -, hcondition⟩ := Result.bind_eq_ok.1 hread
      cases hcondition
      exact absurd rfl (hd _ _ _)
    | none => exact ⟨_, rfl⟩

end Response

end ImapWire
