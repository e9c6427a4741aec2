/-
  Values that are left over.

  A response is read as its name promises, and the name promises so many values: a list of flags, the
  three values of a folder, a folder and a list of its items, one list of items of a message.  What
  becomes of further values?

  1. **Where a fixed number of values is taken** (`ServerData.room?`), further ones are refused
     (`ServerData.Heading.read_refused`).

  2. **Counts of messages, and messages that were removed** (`ServerData.isCount`), say all they say
     in front of their name.  They should take no values at all, but whatever stands behind the name
     is read as trees and then dropped (`ServerData.Heading.read_count_iff`).

  3. **All other data has a part for each value** (`Heading.takes_of_read`).

  So values are left over in counts and in nothing else (`Response.parse_leftover`).
-/
import ImapWire.Proofs.Guarded.Value
import ImapWire.Proofs.Response.Values
import ImapWire.Proofs.Value.Field

namespace ImapWire

/-! ## Folders of a list -/

namespace Value

theorem length_tripleUp (vs : List Value) : (tripleUp vs).length = vs.length / 3 := by
  fun_induction tripleUp vs with
  | case1 a b c rest ih =>
    rw [List.length_cons, ih]
    simp only [List.length_cons]
    omega
  | case2 vs hshort =>
    rcases vs with _ | ⟨a, _ | ⟨b, _ | ⟨c, rest⟩⟩⟩
    · rfl
    · exact (by decide : 0 = 1 / 3)
    · exact (by decide : 0 = 2 / 3)
    · exact absurd rfl (hshort a b c rest)

end Value

namespace Folder

variable {ts : List Tree} {e : Error} {vs : List Value} {entries : List Folder}

theorem isRefusal_readOne {flags delimiter name : Tree}
    (h : readOne (.ofTree flags) (.ofTree delimiter) (.ofTree name) = .error e) :
    e.IsRefusal := by
  cases flags with
  | group b items =>
    cases b with
    | round =>
      have hread : (Value.strings "folder flag" (Value.ofTrees items) >>= fun flags =>
          (Value.ofTree delimiter).nstring "folder delimiter" >>= fun delimiter =>
            (Value.ofTree name).string "folder name" >>= fun name =>
              .ok (⟨flags, delimiter, name⟩ : Folder)) = .error e := h
      rcases Result.bind_eq_error.1 hread with he | ⟨fs, -, hread⟩
      · exact Value.isRefusal_strings he
      · rcases Result.bind_eq_error.1 hread with he | ⟨d, -, hread⟩
        · exact Value.isRefusal_nstring he
        · rcases Result.bind_eq_error.1 hread with he | ⟨n, -, hread⟩
          · exact Value.isRefusal_string he
          · cases hread
    | square =>
      cases h
      exact Value.isRefusal_wrong _ (.group .square items)
  | int n =>
    cases h
    exact Value.isRefusal_wrong _ (.int n)
  | bytes bs =>
    cases h
    exact Value.isRefusal_wrong _ (.bytes bs)
  | nil =>
    cases h
    exact Value.isRefusal_wrong _ .nil

/-- Folders that are trees are read, or refused. -/
theorem isRefusal_readList (h : readList (Value.ofTrees ts) = .error e) : e.IsRefusal := by
  unfold readList at h
  split at h
  · obtain ⟨⟨flags, delimiter, name⟩, htriple, he⟩ := Result.exists_of_mapM_error h
    obtain ⟨hflags, hdelimiter, hname⟩ := Guarded.mem_of_mem_tripleUp htriple
    obtain ⟨flags, rfl⟩ := Value.exists_tree hflags
    obtain ⟨delimiter, rfl⟩ := Value.exists_tree hdelimiter
    obtain ⟨name, rfl⟩ := Value.exists_tree hname
    exact isRefusal_readOne he
  · cases h
    exact Error.isRefusal_near _ ts

/-- Each folder takes three values. -/
theorem length_of_readList (h : readList vs = .ok entries) : vs.length = 3 * entries.length := by
  unfold readList at h
  split at h
  · have hlength := Result.length_of_mapM h
    rw [Value.length_tripleUp] at hlength
    omega
  · cases h

end Folder

/-! ## Where a fixed number of values is taken -/

namespace ServerData

/-- How many values are taken under a name, where that is a fixed number. -/
def room? (number : Option UInt32) (name : String) : Option Nat :=
  match number with
  | some _ => if name = "FETCH" then some 1 else none
  | none =>
    if name = "FLAGS" then some 1
    else if name = "LIST" ∨ name = "LSUB" ∨ name = "XLIST" then some 3
    else if name = "STATUS" then some 2
    else none

variable {options : Options} {line : Bytes} {ts : List Tree} {room : Nat}

/-- **Further values are refused** there. -/
theorem Heading.read_refused {h : Heading} (hroom : room? h.number h.name = some room)
    (hleft : room < ts.length) :
    ∃ e, h.read options line (Value.ofTrees ts) = .error e ∧ e.IsRefusal := by
  have hlength : (Value.ofTrees ts).length = ts.length := by
    rw [Value.ofTrees_eq_map, List.length_map]
  obtain ⟨number, name, place⟩ := h
  cases number with
  | some number =>
    obtain ⟨rfl, hone⟩ := Option.ite_none_right_eq_some.1 hroom
    cases hone
    show ∃ e, (MessageNumber.ofNumber number >>= fun seq =>
      readFetch options seq (Value.ofTrees ts)) = .error e ∧ _
    cases hseq : MessageNumber.ofNumber number with
    | error e =>
      unfold MessageNumber.ofNumber at hseq
      split at hseq
      · cases hseq
      · cases hseq
        exact ⟨_, rfl, _, _, rfl⟩
    | ok seq =>
      show ∃ e, readFetch options seq (Value.ofTrees ts) = .error e ∧ _
      unfold readFetch
      split
      · next hvalues =>
        rw [hvalues, List.length_singleton] at hlength
        omega
      · next hvalues =>
        rw [hvalues, List.length_singleton] at hlength
        omega
      · exact ⟨_, rfl, _, _, rfl⟩
  | none =>
    show ∃ e, readNamed line name (Value.ofTrees ts) = .error e ∧ _
    unfold room? at hroom
    simp only at hroom
    split at hroom
    · next hname =>
      cases hroom
      subst hname
      unfold readNamed
      rw [if_neg (by decide), if_pos rfl]
      split
      · next hvalues =>
        rw [hvalues, List.length_singleton] at hlength
        omega
      · exact ⟨_, rfl, _, _, rfl⟩
    · split at hroom
      · next hname =>
        cases hroom
        rw [readNamed_list hname]
        cases hentries : Folder.readList (Value.ofTrees ts) with
        | error e => exact ⟨e, rfl, Folder.isRefusal_readList hentries⟩
        | ok entries =>
          have hcount := Folder.length_of_readList hentries
          rcases entries with _ | ⟨entry, _ | ⟨second, more⟩⟩
          · exact ⟨_, rfl, _, _, rfl⟩
          · rw [List.length_singleton] at hcount
            omega
          · exact ⟨_, rfl, _, _, rfl⟩
      · split at hroom
        · next hname =>
          cases hroom
          subst hname
          show ∃ e, (FolderState.read (Value.ofTrees ts)).map folderState = .error e ∧ _
          unfold FolderState.read
          split
          · next hvalues =>
            rw [hvalues] at hlength
            simp only [List.length_cons, List.length_nil] at hlength
            omega
          · exact ⟨_, rfl, Error.isRefusal_near _ ts⟩
        · cases hroom

/-! ## Data of a number alone -/

/-- Is a count of messages, or a message that was removed: data of a number, without values. -/
def isCount : ServerData → Bool
  | messages _ | recent _ | expunge _ => true
  | _ => false

/-- What a number and a name say by themselves. -/
inductive Counts (number : UInt32) : String → ServerData → Prop
  | messages : Counts number "EXISTS" (.messages number)
  | recent : Counts number "RECENT" (.recent number)
  | expunge {seq : MessageNumber} (hseq : seq.number = number) :
      Counts number "EXPUNGE" (.expunge seq)

/-- Some data has a part for each of the values: none is left over. -/
def Takes : ServerData → List Value → Prop
  | condition .., _ => False
  | capability names, values => names.length = values.length
  | flags fs, values => ∃ items, values = [.group .round items] ∧ fs.length = items.length
  | list _, values => values.length = 3
  | search _, values => ∀ v ∈ values, ∃ item, SearchResult.readItem v = .ok item
  | folderState _, values => values.length = 2
  | messages _, values | recent _, values | expunge _, values => values = []
  | fetch _ _, values => values.length = 1
  | other _ _ kept, values => kept = values

variable {values : List Value} {d : ServerData}

/-- **All other data** has a part for each value. -/
theorem Heading.takes_of_read {h : Heading} (hread : h.read options line values = .ok d)
    (hd : d.isCount = false) : d.Takes values := by
  obtain ⟨number, name, place⟩ := h
  cases number with
  | some number =>
    cases readNumbered_eq_ok_iff.1 hread with
    | messages => cases hd
    | recent => cases hd
    | expunge => cases hd
    | fetch => rfl
    | other => rfl
  | none =>
    cases readNamed_eq_ok_iff.1 hread with
    | capability hnames =>
      show (List.map _ _).length = _
      rw [List.length_map, Result.length_of_mapM hnames]
    | flags hflags => exact ⟨_, rfl, Result.length_of_mapM hflags⟩
    | list hname hentry => exact Folder.length_of_readList hentry
    | search hname hresult =>
      obtain ⟨items, hitems, -⟩ := Result.bind_eq_ok.1 hresult
      exact Result.exists_of_mapM hitems
    | folderState hresult =>
      unfold FolderState.read at hresult
      split at hresult
      · rfl
      · cases hresult
    | other => rfl

/-- Counts have a part for no value. -/
theorem takes_of_isCount (hd : d.isCount = true) : d.Takes values ↔ values = [] := by
  cases d with
  | messages count => exact Iff.rfl
  | recent count => exact Iff.rfl
  | expunge seq => exact Iff.rfl
  | _ => cases hd

/-- **A count is read** under its name, behind its number, whatever the values are. -/
theorem Heading.read_count_iff {h : Heading} (hd : d.isCount = true) :
    h.read options line values = .ok d ↔ ∃ number, h.number = some number ∧ Counts number h.name d := by
  obtain ⟨number, name, place⟩ := h
  constructor
  · intro hread
    cases number with
    | some number =>
      refine ⟨number, rfl, ?_⟩
      cases readNumbered_eq_ok_iff.1 hread with
      | messages => exact .messages
      | recent => exact .recent
      | expunge hseq => exact .expunge hseq
      | fetch => cases hd
      | other => cases hd
    | none => cases readNamed_eq_ok_iff.1 hread <;> cases hd
  · rintro ⟨number, hnumber, hcounts⟩
    cases hnumber
    refine readNumbered_eq_ok_iff.2 ?_
    cases hcounts with
    | messages => exact .messages
    | recent => exact .recent
    | expunge hseq => exact .expunge hseq

end ServerData

namespace Response

open ServerData (Heading heading? valuesFrom room? Counts)

variable {options : Options} {first : Chunk} {later : List Chunk}

/-- What stands behind a heading is trees. -/
theorem ofTrees_of_valuesFrom {chunks : List Chunk} {p : Place} {values : List Value}
    (h : valuesFrom chunks p = .ok values) : ∃ ts, values = Value.ofTrees ts := by
  obtain ⟨ts, -, hvalues⟩ := Result.bind_eq_ok.1 h
  cases hvalues
  exact ⟨ts, rfl⟩

/-- What a response with a heading and values says. -/
theorem parse_of_values {h : Heading} {values : List Value} (hline : heading? first.line = some h)
    (hvalues : valuesFrom (first :: later) h.place = .ok values) :
    parse options (first :: later) = (h.read options first.line values).map .data := by
  rw [parse_of_heading hline, hvalues]
  rfl

/-- **Which values are left over.**

    A response is a count exactly if its line has a number and the name of the count behind it, and
    what follows can be read as trees: these are dropped.  Where a fixed number of values is taken,
    further ones are refused.  Of any other data that is read, each value has a part in it; so of a
    response that is read, all values have a part in its data exactly if it is no count or there are
    no values. -/
theorem parse_leftover (options : Options) (first : Chunk) (later : List Chunk) :
    (∀ d, d.isCount = true → (parse options (first :: later) = .ok (.data d) ↔
      ∃ h number values, heading? first.line = some h ∧ h.number = some number ∧
        Counts number h.name d ∧ valuesFrom (first :: later) h.place = .ok values)) ∧
    ∀ h values, heading? first.line = some h →
      valuesFrom (first :: later) h.place = .ok values →
      (∀ room, room? h.number h.name = some room → room < values.length →
        ∃ cause context, parse options (first :: later) = .error (.parse 0 cause context)) ∧
      ∀ d, parse options (first :: later) = .ok (.data d) →
        (d.Takes values ↔ (d.isCount = true → values = [])) := by
  refine ⟨?_, ?_⟩
  · intro d hd
    constructor
    · intro hparse
      obtain ⟨first', later', h, hchunks, hline⟩ := exists_heading hparse (by
        rintro status code text rfl
        cases hd)
      cases hchunks
      rw [parse_of_heading hline] at hparse
      obtain ⟨d', hread, hdata⟩ := Result.map_eq_ok.1 hparse
      cases hdata
      obtain ⟨values, hvalues, hread⟩ := Result.bind_eq_ok.1 hread
      obtain ⟨number, hnumber, hcounts⟩ := (Heading.read_count_iff hd).1 hread
      exact ⟨h, number, values, hline, hnumber, hcounts, hvalues⟩
    · rintro ⟨h, number, values, hline, hnumber, hcounts, hvalues⟩
      rw [parse_of_values hline hvalues, (Heading.read_count_iff hd).2 ⟨number, hnumber, hcounts⟩]
      rfl
  · intro h values hline hvalues
    rw [parse_of_values hline hvalues]
    refine ⟨?_, ?_⟩
    · intro room hroom hleft
      obtain ⟨ts, rfl⟩ := ofTrees_of_valuesFrom hvalues
      rw [Value.ofTrees_eq_map, List.length_map] at hleft
      obtain ⟨e, he, cause, context, rfl⟩ := Heading.read_refused hroom hleft
      rw [he]
      exact ⟨cause, context, rfl⟩
    · intro d hparse
      obtain ⟨d', hread, hdata⟩ := Result.map_eq_ok.1 hparse
      cases hdata
      cases hd : d.isCount with
      | false => exact ⟨fun _ => nofun, fun _ => Heading.takes_of_read hread hd⟩
      | true =>
        rw [ServerData.takes_of_isCount hd]
        exact ⟨fun h _ => h, fun h => h rfl⟩

/-- Two lists of items are refused, the second one behind a literal. -/
theorem parse_leftover_refused :
    ∃ cause context, parse default [⟨Bytes.ofString "* 1 FETCH (BODY[] {2}",
      some (Bytes.ofString "ab")⟩, .plain (Bytes.ofString ") ()")] =
        .error (.parse 0 cause context) := by
  have hline : heading? (Bytes.ofString "* 1 FETCH (BODY[] {2}") =
      some ⟨some 1, "FETCH", 9, Bytes.ofString " (BODY[] {2}"⟩ := by decide +kernel
  have htrees : Tree.parseFrom [⟨Bytes.ofString "* 1 FETCH (BODY[] {2}",
      some (Bytes.ofString "ab")⟩, .plain (Bytes.ofString ") ()")] 9 =
        .ok [.group .round [.bytes (Bytes.ofString "BODY"), .group .square [],
          .bytes (Bytes.ofString "ab")], .group .round []] := by decide +kernel
  exact ((parse_leftover default ⟨_, _⟩ _).2 _ _ hline (valuesFrom_of_parseFrom htrees)).1 1 rfl
    (by decide)

/-- Whatever stands behind a count is dropped. -/
theorem parse_leftover_dropped :
    parse default [⟨Bytes.ofString "* 3 EXISTS 4 {2}", some (Bytes.ofString "ab")⟩,
        .plain (Bytes.ofString " (c)")] = .ok (.data (.messages 3)) ∧
      valuesFrom [⟨Bytes.ofString "* 3 EXISTS 4 {2}", some (Bytes.ofString "ab")⟩,
        .plain (Bytes.ofString " (c)")] (Place.ofLine (Bytes.ofString "* 3 EXISTS 4 {2}") 10) =
        .ok [.int 4, .bytes (Bytes.ofString "ab"), .group .round [.bytes (Bytes.ofString "c")]] := by
  have htrees : Tree.parseFrom [⟨Bytes.ofString "* 3 EXISTS 4 {2}", some (Bytes.ofString "ab")⟩,
      .plain (Bytes.ofString " (c)")] 10 = .ok [.int 4, .bytes (Bytes.ofString "ab"),
        .group .round [.bytes (Bytes.ofString "c")]] := by decide +kernel
  have hline : heading? (Bytes.ofString "* 3 EXISTS 4 {2}") =
      some ⟨some 3, "EXISTS", 10, Bytes.ofString " 4 {2}"⟩ := by decide +kernel
  have hvalues := valuesFrom_of_parseFrom (p := ⟨10, Bytes.ofString " 4 {2}"⟩) htrees
  refine ⟨?_, hvalues⟩
  rw [parse_of_values hline hvalues]
  rfl

end Response

end ImapWire
