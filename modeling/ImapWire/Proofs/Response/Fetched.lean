/-
  Fetch data, response by response and all at once.

  Two ways lead from the responses of a server to a table of records.  One takes each response for
  itself: the start of its line is cut at spaces, and trees are read from behind the name on
  (`Response.parse`).  The other reads all chunks in a row as trees, from the first byte on, and
  then finds the records among them (`FetchRecord.parseAll`).  Where the first way finds fetch data
  in every response, the second one ends in the same table (`parseAll_of_fetch`).

  1. **One response** (`OneFetch.of_parse`).  The star, the number and the name are atoms for a scan
     (`Yields.word`), and behind them the scan stands where the trees of the first way start.  So
     the response is, as trees, a star, the number, the name and the list of items (`OneFetch`).

  2. **Several** (`sent_of_fetch`).  No token goes across two responses (`Yields.append`), and the
     trees of one are one record (`OneFetch.sent`).  By induction on the responses the records of
     the whole are those of the parts.

  What is left is the table: the second way takes the records in under their keys, as the first one
  does that knows the number of each response (`foldl_enter`).
-/
import ImapWire.Proofs.Fetch.Messages
import ImapWire.Proofs.Response.Values
import ImapWire.Proofs.Response.Words
import ImapWire.Proofs.Token.Joined
import ImapWire.Proofs.Value.Field
import Mathlib

namespace ImapWire

open FetchRecord (fetchWord)

/-! ## What a classified response says of its words -/

namespace ServerData

variable {options : Options} {chunks : List Chunk} {line : Bytes} {p : Place}
  {seq : MessageNumber} {record : FetchRecord} {values : List Value}

/-- Behind a number there is fetch data only under its name. -/
theorem readNumbered_eq_fetch {number : UInt32} {name : String}
    (h : readNumbered options number name values = .ok (fetch seq record)) :
    name = "FETCH" ∧ seq.number = number ∧
      ∃ items, values = [.group .round items] ∧
        FetchRecord.read seq.number items options = .ok record := by
  cases readNumbered_eq_ok_iff.1 h with
  | fetch hseq hread =>
    subst hseq
    exact ⟨rfl, rfl, _, rfl, hread⟩

/-- Without a number there is none. -/
theorem readNamed_ne_fetch {name : String} :
    readNamed line name values ≠ .ok (fetch seq record) := by
  intro h
  cases readNamed_eq_ok_iff.1 h

/-- Fetch data is a number, the name, and one list of items behind it. -/
theorem read_eq_fetch (h : read options chunks line p = .ok (fetch seq record)) :
    number? p.word.1 = some seq.number ∧ keyOf p.word.2.word.1 = "FETCH" ∧
      ∃ trees items, Tree.parseFrom chunks p.word.2.word.2.pos = .ok trees ∧
        Value.ofTrees trees = [.group .round items] ∧
          FetchRecord.read seq.number items options = .ok record := by
  unfold read at h
  dsimp only at h
  split at h
  · next number hnumber =>
    obtain ⟨values, hvalues, h⟩ := Result.bind_eq_ok.1 h
    obtain ⟨trees, htrees, hv⟩ := Result.bind_eq_ok.1 hvalues
    cases hv
    obtain ⟨hname, hseq, items, hitems, hread⟩ := readNumbered_eq_fetch h
    rw [hseq]
    rw [hseq] at hread
    exact ⟨hnumber, hname, trees, items, htrees, hitems, hread⟩
  · split at h
    · obtain ⟨_, -, h⟩ := Result.bind_eq_ok.1 h
      obtain ⟨text, -, hd⟩ := Result.bind_eq_ok.1 h
      cases hd
    · obtain ⟨values, -, h⟩ := Result.bind_eq_ok.1 h
      exact absurd h readNamed_ne_fetch

end ServerData

/-! ## One response as trees -/

theorem IsRun.star : IsRun [Bytes.star] := by
  refine ⟨by decide, ?_, by decide⟩
  intro b hb
  rw [List.mem_singleton.1 hb]
  rfl

theorem Value.ofTrees_eq_group {ts : List Tree} {k : Bracket} {vs : List Value}
    (h : Value.ofTrees ts = [.group k vs]) :
    ∃ items, ts = [.group k items] ∧ vs = Value.ofTrees items := by
  cases ts with
  | nil => cases h
  | cons t ts =>
    obtain ⟨hfirst, hrest⟩ := List.cons.inj h
    cases ts with
    | cons u us => cases hrest
    | nil =>
      cases t with
      | group k' items =>
        cases hfirst
        exact ⟨items, rfl, rfl⟩
      | _ => cases hfirst

namespace FetchRecord

variable {options : Options} {seq : UInt32} {record : FetchRecord}

/-- The trees of one response with fetch data: a star, the number, the name, and the items that are
    read as the record. -/
inductive OneFetch (options : Options) (seq : UInt32) (record : FetchRecord) : List Tree → Prop
  | intro {n : Int64} {name : Bytes} {items : List Tree}
      (hseq : (Value.int n).number32 "message id" = .ok seq)
      (hname : Bytes.sameName name fetchWord = true)
      (hread : read seq (Value.ofTrees items) options = .ok record) :
      OneFetch options seq record
        [.bytes [Bytes.star], .int n, .bytes name, .group .round items]

namespace OneFetch

/-- **One record is sent** with these trees, in front of those behind them. -/
theorem sent {trees : List Tree} (h : OneFetch options seq record trees) {vs : List Value}
    {rs : List FetchRecord} (hlater : Sent options vs rs) :
    Sent options (Value.ofTrees trees ++ vs) (record :: rs) := by
  obtain ⟨hseq, hname, hread⟩ := h
  exact .record rfl hseq (if_pos hname) hread hlater

/-- **A response that is classified as fetch data** has the tokens of these trees. -/
theorem of_parse {chunks : List Chunk} {number : MessageNumber}
    (h : Response.parse options chunks = .ok (.data (.fetch number record))) :
    ∃ ws, Yields (Cursor.firstLine chunks) chunks (Written.tokensAll ws) ∧
      Tree.depthAll (Written.treeAll ws) ≤ maxDepth ∧
        OneFetch options number.number record (Written.treeAll ws) := by
  obtain ⟨first, later, rfl, hstar, h⟩ := Response.parse_eq_data h
  obtain ⟨hnumber, hkey, trees, values, htrees, hvalues, hread⟩ := ServerData.read_eq_fetch h
  generalize hp : Place.ofLine first.line 0 = p at *
  have hline : p.On first.line := by
    rw [← hp]
    exact Place.on_ofLine first.line 0
  have hname := sameName_of_keyOf_fetch hkey
  obtain ⟨hfault, hdepth, ws, hws, rfl⟩ := Tree.ofScan_ok htrees
  obtain ⟨items, hitems, rfl⟩ := Value.ofTrees_eq_group hvalues
  have hscan : (Cursor.startAt (first :: later) p.word.2.word.2.word.2.pos).scan
      = ⟨Written.tokensAll ws, none⟩ := by
    rw [← hws, ← hfault]
  -- the tokens of the list are ahead behind the three words, and each word is an atom
  have hlist : Yields p.word.2.word.2.word.2.rest (first :: later) (Written.tokensAll ws) := by
    rw [hline.word.word.word]
    exact Yields.of_scan hscan
  have hfromName := Yields.word (isRun_fetch hname) hlist
  have hfromNumber := Yields.word (IsRun.of_isPlain (ServerData.number?_spec hnumber).1) hfromName
  have hstarRun : IsRun p.word.1 := by
    rw [hstar]
    exact IsRun.star
  have hall := Yields.word hstarRun hfromNumber
  have hahead : p.rest = first.line := hline.trans (by rw [← hp]; rfl)
  rw [hahead] at hall
  have hmeaning : Written.treeAll (.word (.atom p.word.1) :: .word (.atom p.word.2.word.1)
      :: .word (.atom p.word.2.word.2.word.1) :: ws)
        = [.bytes [Bytes.star], .int (Int64.ofInt (Decimal.value p.word.2.word.1)),
          .bytes p.word.2.word.2.word.1, .group .round items] := by
    show Tree.ofAtom p.word.1 :: Tree.ofAtom p.word.2.word.1
      :: Tree.ofAtom p.word.2.word.2.word.1 :: Written.treeAll ws = _
    rw [hstar, ServerData.ofAtom_of_number? hnumber, ofAtom_of_fetch hname, hitems]
    rfl
  refine ⟨.word (.atom p.word.1) :: .word (.atom p.word.2.word.1)
    :: .word (.atom p.word.2.word.2.word.1) :: ws, hall, ?_, ?_⟩
  · rw [hmeaning]
    rw [hitems] at hdepth
    simpa [Tree.depthAll, Tree.depth] using hdepth
  · rw [hmeaning]
    exact .intro (ServerData.number32_of_number? hnumber _) hname hread

end OneFetch

/-! ## Several responses -/

/-- The key of a record with the number of its response: its UID if the table is by UID and it has
    one, otherwise the number. -/
def entryKey (options : Options) (e : MessageNumber × FetchRecord) : UInt32 :=
  if options.keyByUid then e.2.uid?.getD e.1.number else e.1.number

/-- Takes a record in under its key, merged into the record that is there. -/
def enter (options : Options) (t : Table UInt32 FetchRecord) (e : MessageNumber × FetchRecord) :
    Table UInt32 FetchRecord :=
  match t.get? (entryKey options e) with
  | none => t.insert (entryKey options e) e.2
  | some earlier => t.insert (entryKey options e) (earlier.merge e.2)

/-- A record with the number of its response is taken in as it is among others. -/
theorem foldl_enter {entries : List (MessageNumber × FetchRecord)}
    (h : ∀ e ∈ entries, e.2.seq = e.1.number) (t : Table UInt32 FetchRecord) :
    entries.foldl (enter options) t = (entries.map Prod.snd).foldl (collect options) t := by
  induction entries generalizing t with
  | nil => rfl
  | cons e entries ih =>
    obtain ⟨he, hentries⟩ := List.forall_mem_cons.1 h
    have hkey : entryKey options e = e.2.key options := by
      unfold entryKey key
      rw [he]
    have hone : enter options t e = collect options t e.2 := by
      cases hget : t.get? (e.2.key options) with
      | none => simp [enter, collect, hkey, hget]
      | some earlier => simp [enter, collect, hkey, hget]
    rw [List.foldl_cons, List.map_cons, List.foldl_cons, hone, ih hentries]

theorem OneFetch.seq_eq {trees : List Tree} (h : OneFetch options seq record trees) :
    record.seq = seq := by
  obtain ⟨-, -, hread⟩ := h
  exact seq_of_read hread

/-- **The records of several responses** in a row are the records of each. -/
theorem sent_of_fetch {responses : List (List Chunk)} {entries : List (MessageNumber × FetchRecord)}
    (h : List.Forall₂ (fun chunks e =>
      Response.parse options chunks = .ok (.data (.fetch e.1 e.2))) responses entries) :
    ∃ ws, Yields (Cursor.firstLine responses.flatten) responses.flatten (Written.tokensAll ws) ∧
      Tree.depthAll (Written.treeAll ws) ≤ maxDepth ∧
        Sent options (Value.ofTrees (Written.treeAll ws)) (entries.map Prod.snd) ∧
          ∀ e ∈ entries, e.2.seq = e.1.number := by
  induction h with
  | nil => exact ⟨[], Yields.nil _, Nat.zero_le _, .done rfl, nofun⟩
  | @cons chunks e responses entries hparse _ ih =>
    obtain ⟨ws, htokens, hdepth, hone⟩ := OneFetch.of_parse hparse
    obtain ⟨ws', htokens', hdepth', hsent, hseqs⟩ := ih
    refine ⟨ws ++ ws', ?_, ?_, ?_, List.forall_mem_cons.2 ⟨hone.seq_eq, hseqs⟩⟩
    · rw [Written.tokensAll_append]
      exact htokens.append htokens'
    · rw [Written.treeAll_append, Tree.depthAll_append]
      exact Nat.max_le.2 ⟨hdepth, hdepth'⟩
    · rw [Written.treeAll_append, Value.ofTrees_append]
      exact hone.sent hsent

/-- **Response by response or all at once.**  If each of several responses is classified as fetch
    data, reading all their chunks in a row succeeds, and gives the table into which the records
    are entered one after the other. -/
theorem parseAll_of_fetch {responses : List (List Chunk)}
    {entries : List (MessageNumber × FetchRecord)}
    (h : List.Forall₂ (fun chunks e =>
      Response.parse options chunks = .ok (.data (.fetch e.1 e.2))) responses entries) :
    parseAll responses.flatten options = .ok (entries.foldl (enter options) Table.empty) := by
  obtain ⟨ws, htokens, hdepth, hsent, hseqs⟩ := sent_of_fetch h
  have hparse : Tree.parse responses.flatten = .ok (Written.treeAll ws) := by
    show Tree.ofScan (Cursor.start responses.flatten).scan = _
    rw [htokens.scan_start]
    exact Tree.ofScan_tokensAll hdepth
  rw [foldl_enter hseqs]
  exact parseAll_eq_ok_iff.2 ⟨_, _, hparse, hsent, rfl⟩

/-- A message with a literal among its items, further items of it, and one with a UID. -/
theorem parseAll_of_fetch_literal :
    parseAll [⟨Bytes.ofString "*  7 fetch (BODY[] {2}", some (Bytes.ofString "ab")⟩,
        .plain (Bytes.ofString ")"), .plain (Bytes.ofString "* 7 Fetch (FLAGS NIL)"),
        .plain (Bytes.ofString "* 5 FETCH (UID 9)")] default =
      .ok (enter default (enter default (enter default Table.empty
        (⟨7, by decide⟩, ⟨7, Table.ofList [("BODY[]", .bytes (Bytes.ofString "ab"))]⟩))
        (⟨7, by decide⟩, ⟨7, Table.ofList [("FLAGS", .flags [])]⟩))
        (⟨5, by decide⟩, ⟨5, Table.ofList [("UID", .int 9)]⟩)) := by
  have hbody : Response.parse default [⟨Bytes.ofString "*  7 fetch (BODY[] {2}",
      some (Bytes.ofString "ab")⟩, .plain (Bytes.ofString ")")] = .ok (.data (.fetch ⟨7, by decide⟩
        ⟨7, Table.ofList [("BODY[]", .bytes (Bytes.ofString "ab"))]⟩)) := by cbv
  have hflags : Response.parse default [.plain (Bytes.ofString "* 7 Fetch (FLAGS NIL)")]
      = .ok (.data (.fetch ⟨7, by decide⟩ ⟨7, Table.ofList [("FLAGS", .flags [])]⟩)) := by cbv
  have huid : Response.parse default [.plain (Bytes.ofString "* 5 FETCH (UID 9)")]
      = .ok (.data (.fetch ⟨5, by decide⟩ ⟨5, Table.ofList [("UID", .int 9)]⟩)) := by cbv
  exact @parseAll_of_fetch default _ [(_, _), (_, _), (_, _)]
    (.cons hbody (.cons hflags (.cons huid .nil)))

end FetchRecord

end ImapWire
