/-
  The numbers in records.

  Many fields of records are numbers: the messages that a search found, the sequence of modifications,
  how much of a resource is used, sizes and counts of lines in body structures, the numbers of
  messages.  Each record is compared here with the values that it was read from, field by field:
  every number in it is what the value in its place is taken for (`Value.TakenFor`), no other one and
  no number of another place.

  1. **Searches and quotas** (`SearchResult.read_eq_ok_iff`, `Quota.readAll_eq_ok_iff`).  Both are lists
     of fields of one form, so reading them is said by one rule for each form, value by value.

  2. **Body structures** (`Body.Numbered`).  The rules follow the structure: the lists of the parts, the
     size in its place among the fields of a single part, the structure of an attached message, the
     count of lines behind it.  Whatever is read is numbered so, by induction on the structure
     (`Body.numbered_of_read`).

  3. **Messages**.  A record stores the body structures and the UID of its items
     (`FetchRecord.numbered_of_read`), and its sequence number is that in front of its items; a table
     of several messages is that of such records (`FetchRecord.numbered_of_parseAll`).  A message that
     comes alone has its number in front of the name, where only a canonical text is a number
     (`Response.canonical_of_fetch`).

  Together: `Value.numbers_exact`.
-/
import ImapWire.Proofs.Body.RoundTrip
import ImapWire.Proofs.Fetch.Dates
import ImapWire.Proofs.Fetch.Groups
import ImapWire.Proofs.Response.Fetched
import ImapWire.Proofs.Result
import ImapWire.Proofs.Value.Number
import Mathlib

namespace ImapWire

/-! ## Searches -/

namespace SearchResult

/-- What a value of a search says: the number of a message, or the sequence of modifications in a list
    with its name. -/
inductive ItemNumbered : Value → UInt32 ⊕ UInt64 → Prop
  | id {i : Int64} {n : UInt32} (h : i.toInt = n.toNat) : ItemNumbered (.int i) (.inl n)
  | modseq {name : Bytes} {v : Value} {n : UInt64}
      (hname : Bytes.sameName name (Bytes.ofString "MODSEQ") = true) (h : v.TakenFor n.toNat) :
      ItemNumbered (.group .round [.bytes name, v]) (.inr n)

theorem readItem_eq_ok_iff {v : Value} {item : UInt32 ⊕ UInt64} :
    readItem v = .ok item ↔ ItemNumbered v item := by
  constructor
  · intro h
    unfold readItem at h
    split at h
    · next i =>
      obtain ⟨n, hn, rfl⟩ := Result.map_eq_ok.1 h
      exact .id (Value.takenFor_int_iff.1 (Value.number32_eq_ok_iff.1 hn))
    · next name v =>
      split at h
      · next hname =>
        obtain ⟨n, hn, rfl⟩ := Result.map_eq_ok.1 h
        cases name with
        | bytes name => exact .modseq hname (Value.number64_eq_ok_iff.1 hn)
        | _ => cases hname
      · cases h
    · cases h
  · intro h
    cases h with
    | id h =>
      exact Result.map_eq_ok.2 ⟨_, Value.number32_eq_ok_iff.2 (Value.takenFor_int_iff.2 h), rfl⟩
    | modseq hname h =>
      refine (if_pos hname).trans ?_
      exact Result.map_eq_ok.2 ⟨_, Value.number64_eq_ok_iff.2 h, rfl⟩

/-- **A search** has the numbers of its values, and the last sequence of modifications. -/
theorem read_eq_ok_iff {vs : List Value} {r : SearchResult} :
    read vs = .ok r ↔ ∃ items, List.Forall₂ ItemNumbered vs items ∧
      r = ⟨items.filterMap Sum.getLeft?, (items.filterMap Sum.getRight?).getLast?⟩ := by
  have hitems : ∀ items, vs.mapM readItem = .ok items ↔ List.Forall₂ ItemNumbered vs items := by
    intro items
    simp only [Result.mapM_eq_ok_iff, readItem_eq_ok_iff]
  unfold read
  rw [Result.bind_eq_ok]
  constructor
  · rintro ⟨items, hread, h⟩
    cases h
    exact ⟨items, (hitems items).1 hread, rfl⟩
  · rintro ⟨items, hnumbered, rfl⟩
    exact ⟨items, (hitems items).2 hnumbered, rfl⟩

end SearchResult

/-! ## Quotas -/

namespace Quota

/-- The three values are the resource of the root, with its numbers. -/
structure Numbered (root : Bytes) (row : Value × Value × Value) (q : Quota) : Prop where
  root : q.root = root
  resource : row.1.string "quota resource" = .ok q.resource
  usage : row.2.1.TakenFor q.usage.toNat
  limit : row.2.2.TakenFor q.limit.toNat

/-- The two values are a root with the quotas of its resources. -/
inductive RootNumbered : Value × Value → List Quota → Prop
  | intro {root : Value} {name : Bytes} {resources : List Value} {qs : List Quota}
      (hname : root.string "quota root" = .ok name) (hlength : resources.length % 3 = 0)
      (hrows : List.Forall₂ (Numbered name) (Value.tripleUp resources) qs) :
      RootNumbered (root, .group .round resources) qs

/-- Reads the three values of a resource. -/
def readRow (root : Bytes) (row : Value × Value × Value) : Result Quota := do
  let resource ← row.1.string "quota resource"
  let usage ← row.2.1.number64 "quota usage"
  let limit ← row.2.2.number64 "quota limit"
  .ok { root, resource, usage, limit }

theorem readRow_eq_ok_iff {root : Bytes} {row : Value × Value × Value} {q : Quota} :
    readRow root row = .ok q ↔ Numbered root row q := by
  simp only [readRow, Result.bind_eq_ok, Value.number64_eq_ok_iff]
  constructor
  · rintro ⟨resource, hresource, usage, husage, limit, hlimit, h⟩
    cases h
    exact ⟨rfl, hresource, husage, hlimit⟩
  · rintro ⟨rfl, hresource, husage, hlimit⟩
    exact ⟨_, hresource, _, husage, _, hlimit, rfl⟩

theorem readRoot_eq_ok_iff {root resources : Value} {qs : List Quota} :
    readRoot root resources = .ok qs ↔ RootNumbered (root, resources) qs := by
  have hrows : ∀ name items, (Value.tripleUp items).mapM (readRow name) = .ok qs ↔
      List.Forall₂ (Numbered name) (Value.tripleUp items) qs := by
    intro name items
    simp only [Result.mapM_eq_ok_iff, readRow_eq_ok_iff]
  unfold readRoot
  rw [Result.bind_eq_ok]
  constructor
  · rintro ⟨name, hname, h⟩
    split at h
    · next items =>
      split at h
      · next hlength => exact .intro hname hlength ((hrows name items).1 h)
      · cases h
    · cases h
  · rintro ⟨hname, hlength, hnumbered⟩
    exact ⟨_, hname, (if_pos hlength).trans ((hrows _ _).2 hnumbered)⟩

/-- **Quotas** have the numbers of their resources, root by root. -/
theorem readAll_eq_ok_iff {vs : List Value} {qs : List Quota} :
    readAll vs = .ok qs ↔ vs.length % 2 = 0 ∧ ∃ rows,
      List.Forall₂ RootNumbered (Value.pairUp vs) rows ∧ qs = rows.flatten := by
  have hroots : ∀ rows : List (List Quota),
      ((Value.pairUp vs).mapM fun p => readRoot p.1 p.2) = .ok rows ↔
        List.Forall₂ RootNumbered (Value.pairUp vs) rows := by
    intro rows
    simp only [Result.mapM_eq_ok_iff, readRoot_eq_ok_iff]
  unfold readAll
  rw [Result.bind_eq_ok]
  constructor
  · rintro ⟨pairs, hpairs, h⟩
    unfold Value.pairs at hpairs
    split at hpairs
    · next heven =>
      cases hpairs
      obtain ⟨rows, hrows, h⟩ := Result.bind_eq_ok.1 h
      cases h
      exact ⟨heven, rows, (hroots rows).1 hrows, rfl⟩
    · cases hpairs
  · rintro ⟨heven, rows, hrows, rfl⟩
    exact ⟨_, if_pos heven, Result.bind_eq_ok.2 ⟨rows, (hroots rows).2 hrows, rfl⟩⟩

end Quota

/-! ## Body structures -/

/-- The value is no number where there is none, and is taken for the number where there is one. -/
inductive Value.TakenForOption : Value → Option UInt64 → Prop
  | none : TakenForOption .nil none
  | some {v : Value} {n : UInt64} (h : v.TakenFor n.toNat) : TakenForOption v (some n)

namespace Body

/-- The values are a count of lines, where there is one, and the extension data. -/
inductive LinesFrom : List Value → Option UInt64 → List Value → Prop
  | none {extension : List Value} : LinesFrom extension none extension
  | some {i : Int64} {n : UInt64} {extension : List Value} (h : i.toInt = n.toNat) :
      LinesFrom (.int i :: extension) (some n) extension

mutual
/-- The sizes and the counts of lines in the structure are the numbers in their places of the value. -/
inductive Numbered : Value → Body → Prop
  | multipart {lists extension : List Value} {last : Value} {parts : List Body} {subtype : Bytes}
      (hparts : NumberedAll lists parts) :
      Numbered (.group .round (lists ++ last :: extension)) (.multipart parts subtype extension)
  | message {mediaType subtype params id description encoding size envelopeValue bodyValue : Value}
      {rest extension : List Value} {head : PartHead} {envelope : Envelope} {body : Body}
      {lines : Option UInt64} (hsize : size.TakenForOption head.size)
      (hbody : Numbered bodyValue body) (hlines : LinesFrom rest lines extension) :
      Numbered (.group .round (mediaType :: subtype :: params :: id :: description :: encoding
        :: size :: envelopeValue :: bodyValue :: rest))
        (.single head (.message envelope body) lines extension)
  | part {mediaType subtype params id description encoding size : Value}
      {rest extension : List Value} {head : PartHead} {lines : Option UInt64}
      (hsize : size.TakenForOption head.size) (hlines : LinesFrom rest lines extension) :
      Numbered (.group .round (mediaType :: subtype :: params :: id :: description :: encoding
        :: size :: rest)) (.single head .none lines extension)

/-- The same of parts, each with its own value. -/
inductive NumberedAll : List Value → List Body → Prop
  | nil : NumberedAll [] []
  | cons {v : Value} {part : Body} {vs : List Value} {parts : List Body} (h : Numbered v part)
      (hs : NumberedAll vs parts) : NumberedAll (v :: vs) (part :: parts)
end

theorem takenForOption_of_readSize {v : Value} {size : Option UInt64}
    (h : readSize v = .ok size) : v.TakenForOption size := by
  unfold readSize at h
  split at h
  · cases h
    exact .none
  · obtain ⟨n, hn, rfl⟩ := Result.map_eq_ok.1 h
    exact .some (Value.number64_eq_ok_iff.1 hn)

/-- The size is the seventh field. -/
theorem takenForOption_of_readHead
    {mediaType subtype params id description encoding size : Value} {head : PartHead}
    (h : readHead mediaType subtype params id description encoding size = .ok head) :
    size.TakenForOption head.size := by
  simp only [readHead, Result.bind_eq_ok] at h
  obtain ⟨_, -, _, -, _, -, _, -, _, -, _, -, n, hsize, h⟩ := h
  cases h
  exact takenForOption_of_readSize hsize

theorem linesFrom_of_readTail {head : PartHead} {attached : Attached} {rest : List Value} {b : Body}
    (h : readTail head attached rest = .ok b) :
    ∃ lines extension, b = .single head attached lines extension ∧
      LinesFrom rest lines extension := by
  obtain ⟨lines, extension, rfl, hfits, rfl⟩ := readTail_eq_ok_iff.1 h
  refine ⟨lines, extension, rfl, ?_⟩
  cases lines with
  | none => exact .none
  | some n =>
    obtain ⟨-, hsmall⟩ := hfits.count n rfl
    have hinteger : Value.ofTree (.ofUInt64 n) = .int (Int64.ofInt n.toNat) := by
      rw [Tree.ofUInt64, if_pos hsmall]
      rfl
    show LinesFrom (Value.ofTree (.ofUInt64 n) :: extension) _ _
    rw [hinteger]
    refine .some (Int64.toInt_ofInt_of_le (by omega) ?_)
    unfold Decimal.signedSize at hsmall
    omega

mutual
/-- **What was read has the numbers of its value**, at whatever depth. -/
theorem numbered_of_read {toUtc : Bool} {v : Value} (b : Body) (h : read toUtc v = .ok b) :
    Numbered v b := by
  obtain ⟨items, rfl, hmade⟩ := madeOf_of_read h
  cases b with
  | multipart parts subtype extension =>
    cases hmade with
    | multipart hfirst hcut hparts hsubtype =>
      rw [← List.takeWhile_append_dropWhile (p := Value.isList) (l := items), hcut]
      exact .multipart (numberedAll_of_readParts parts hparts)
    | message hattaches henvelope hbody htail =>
      obtain ⟨lines, extension, hb, -⟩ := linesFrom_of_readTail htail
      cases hb
    | part hhead hnone htail =>
      obtain ⟨lines, extension, hb, -⟩ := linesFrom_of_readTail htail
      cases hb
  | single head attached lines extension =>
    cases hmade with
    | message hattaches henvelope hbody htail =>
      obtain ⟨lines', extension', hb, hlines⟩ := linesFrom_of_readTail htail
      cases attached with
      | none => cases hb
      | message envelope body =>
        obtain ⟨rfl, hmessage, rfl, rfl⟩ := Body.single.inj hb
        obtain ⟨rfl, rfl⟩ := Attached.message.inj hmessage
        obtain ⟨hhead, -, -, -⟩ := hattaches
        exact .message (takenForOption_of_readHead hhead) (numbered_of_read body hbody) hlines
    | part hhead hnone htail =>
      obtain ⟨lines', extension', hb, hlines⟩ := linesFrom_of_readTail htail
      cases hb
      exact .part (takenForOption_of_readHead hhead) hlines

theorem numberedAll_of_readParts {toUtc : Bool} {items : List Value} (parts : List Body)
    (h : readParts toUtc items = .ok parts) : NumberedAll (items.takeWhile Value.isList) parts := by
  cases items with
  | nil =>
    cases h
    exact .nil
  | cons v rest =>
    rw [readParts] at h
    split at h
    · next hlist =>
      obtain ⟨part, hpart, h⟩ := Result.bind_eq_ok.1 h
      obtain ⟨parts', hparts, h⟩ := Result.bind_eq_ok.1 h
      cases h
      rw [List.takeWhile_cons_of_pos hlist]
      exact .cons (numbered_of_read part hpart) (numberedAll_of_readParts parts' hparts)
    · next hlist =>
      cases h
      rw [List.takeWhile_cons_of_neg hlist]
      exact .nil
end

end Body

/-! ## Messages -/

namespace FetchRecord

variable {options : Options}

/-- The numbers among the items of a record are those of items of the list: in the body structures,
    under either name, and the UID. -/
structure Numbered (options : Options) (vs : List Value) (r : FetchRecord) : Prop where
  body : ∀ key b, key = "BODY" ∨ key = "BODYSTRUCTURE" → r.items.get? key = some (.body b) →
    ∃ i, KeptOf options.toUtc vs key (.body b) i ∧ Body.Numbered i.value b
  uid : ∀ n, r.uid? = some n →
    ∃ i m, KeptOf options.toUtc vs "UID" (.int m) i ∧ i.value.TakenFor n.toNat

/-- A body structure that is kept is that of its item. -/
theorem KeptOf.numbered {toUtc : Bool} {vs : List Value} {key : String} {b : Body} {i : FetchItem}
    (h : KeptOf toUtc vs key (.body b) i) (hkey : key = "BODY" ∨ key = "BODYSTRUCTURE") :
    Body.Numbered i.value b := by
  have hbracket : '[' ∉ key.toList := by
    rcases hkey with rfl | rfl <;> decide
  obtain ⟨hpart, hname⟩ := FetchItem.part_eq_none hbracket h.key_eq
  have hread : (Body.read toUtc i.value).map Value.body = .ok (.body b) := by
    have hkept := h.kept
    rw [FetchItem.converted, hpart, hname] at hkept
    rcases hkey with rfl | rfl <;> simpa [FetchItem.convert] using hkept
  obtain ⟨b', hb, heq⟩ := Result.map_eq_ok.1 hread
  cases heq
  exact Body.numbered_of_read b hb

/-- A UID that is kept is the number that its item is taken for. -/
theorem KeptOf.takenFor_uid {toUtc : Bool} {vs : List Value} {m : Int64} {i : FetchItem} {n : UInt32}
    (h : KeptOf toUtc vs "UID" (.int m) i) (hn : toUInt32? m = some n) :
    i.value.TakenFor n.toNat := by
  have hread : FetchItem.readUid i.value = .ok (.int m) := by
    obtain ⟨hpart, hname⟩ := FetchItem.part_eq_none (by decide) h.key_eq
    rw [← h.kept, FetchItem.converted, hpart, hname]
    rfl
  have hint : i.value = .int m := by
    unfold FetchItem.readUid at hread
    split at hread
    · next hvalue =>
      obtain ⟨-, -, heq⟩ := Result.map_eq_ok.1 hread
      cases heq
      exact hvalue
    · cases hread
  rw [hint, Value.takenFor_int_iff]
  unfold toUInt32? at hn
  split at hn
  · next hbelow =>
    cases hn
    have hlt : m.toInt.toNat < UInt32.size := by omega
    rw [UInt32.toNat_ofNat_of_lt' hlt]
    omega
  · cases hn

/-- **What a record stores** has the numbers of its items. -/
theorem numbered_of_read {seq : UInt32} {vs : List Value} {r : FetchRecord}
    (h : read seq vs options = .ok r) : Numbered options vs r := by
  constructor
  case body =>
    intro key b hkey hget
    obtain ⟨i, hi⟩ := read_stored h hget
    exact ⟨i, hi, hi.numbered hkey⟩
  case uid =>
    intro n hn
    rw [uid?_eq] at hn
    obtain ⟨m, hm, hn⟩ := Option.bind_eq_some_iff.1 hn
    obtain ⟨w, hget, hw⟩ := Option.bind_eq_some_iff.1 hm
    cases w with
    | int m' =>
      cases hw
      obtain ⟨i, hi⟩ := read_stored h hget
      exact ⟨i, m, hi, hi.takenFor_uid hn⟩
    | _ => cases hw

/-- A record has the numbers of its group: the number of the message, and those of the items. -/
structure GroupNumbered (options : Options) (g : FetchGroup) (r : FetchRecord) : Prop where
  reads : g.Reads options r
  seq : g.number.TakenFor r.seq.toNat
  items : Numbered options g.items r

theorem groupNumbered_of_reads {g : FetchGroup} {r : FetchRecord} (h : g.Reads options r) :
    GroupNumbered options g r := by
  obtain ⟨seq, hseq, hread⟩ := h.record
  refine ⟨h, ?_, numbered_of_read hread⟩
  rw [seq_of_read hread]
  exact Value.number32_eq_ok_iff.1 hseq

/-- **The records of a response** have the numbers of their groups, and the table is that of these
    records. -/
theorem numbered_of_parseAll {chunks : List Chunk} {table : Table UInt32 FetchRecord}
    (h : parseAll chunks options = .ok table) :
    ∃ trees groups last rs, Tree.parse chunks = .ok trees ∧
      Value.ofTrees trees = groups.flatMap FetchGroup.values ++ FetchGroup.starIf last ∧
      List.Forall₂ (GroupNumbered options) groups rs ∧ Merged options rs table := by
  obtain ⟨trees, rs, htrees, hsent, rfl⟩ := parseAll_eq_ok_iff.1 h
  obtain ⟨groups, last, hvalues, hgroups⟩ := sent_iff.1 hsent
  exact ⟨trees, groups, last, rs, htrees, hvalues, hgroups.imp fun _ _ => groupNumbered_of_reads,
    Merged.foldl_collect options rs⟩

end FetchRecord

/-- A number in front of a name is in canonical form. -/
theorem ServerData.canonical_of_number? {word : Bytes} {n : UInt32} (h : number? word = some n) :
    Decimal.Canonical word n.toNat := by
  obtain ⟨hplain, hlt, rfl⟩ := number?_spec h
  have hnumber : (UInt32.ofNat (Decimal.value word)).toNat = Decimal.value word :=
    UInt32.toNat_ofNat_of_lt hlt
  rw [hnumber, Decimal.value_eq_placeValue]
  rcases Decimal.isPlain_iff.1 hplain with rfl | hpositive
  · exact .zero
  · exact .positive hpositive

/-- **The record of one message** has the number behind the star, and the numbers of the items behind
    the name. -/
theorem Response.canonical_of_fetch {options : Options} {chunks : List Chunk}
    {seq : MessageNumber} {record : FetchRecord}
    (h : parse options chunks = .ok (.data (.fetch seq record))) :
    ∃ first later p trees items, chunks = first :: later ∧
      p = (Place.ofLine first.line 0).word.2 ∧ Decimal.Canonical p.word.1 seq.number.toNat ∧
      Tree.parseFrom chunks p.word.2.word.2.pos = .ok trees ∧
      Value.ofTrees trees = [.group .round items] ∧ record.seq = seq.number ∧
      FetchRecord.Numbered options items record := by
  obtain ⟨first, later, hchunks, -, hdata⟩ := parse_eq_data h
  obtain ⟨hnumber, -, trees, items, htrees, hitems, hread⟩ := ServerData.read_eq_fetch hdata
  exact ⟨first, later, _, trees, items, hchunks, rfl, ServerData.canonical_of_number? hnumber, htrees,
    hitems, FetchRecord.seq_of_read hread, FetchRecord.numbered_of_read hread⟩

/-! ## All numbers -/

namespace Value

/-- A number of 32 bits is a number of 64 bits that is small enough. -/
theorem number32_eq_ok_iff_number64 {v : Value} {role : String} {n : UInt32} :
    v.number32 role = .ok n ↔ ∃ m : UInt64, v.number64 role = .ok m ∧ m.toNat = n.toNat := by
  rw [number32_eq_ok_iff]
  constructor
  · intro h
    have hsame : n.toUInt64.toNat = n.toNat := UInt32.toNat_toUInt64 n
    exact ⟨n.toUInt64, number64_eq_ok_iff.2 (hsame ▸ h), hsame⟩
  · rintro ⟨m, hm, hsame⟩
    exact hsame ▸ number64_eq_ok_iff.1 hm

/-- **Numbers are exact.**  A value that has no plus sign in front is read as the number that it says,
    if that has 64 bits, or 32; a plus sign is passed over; any other value is refused.  A bare word
    is read like its bytes in quotes.  Whatever record is read, its numbers are those that the values
    in their places are taken for. -/
theorem numbers_exact (role : String) (v : Value) (a : Bytes) (vs : List Value) (options : Options)
    (chunks : List Chunk) :
    ((∀ ds, v ≠ .bytes (Bytes.plus :: ds)) →
      ∀ n : UInt64, v.number64 role = .ok n ↔ v.Says n.toNat) ∧
    (∀ ds, v = .bytes (Bytes.plus :: ds) →
      ∀ n : UInt64, v.number64 role = .ok n ↔ (Value.bytes ds).Says n.toNat) ∧
    ((∀ n : UInt64, ¬ v.TakenFor n.toNat) → v.number64 role = .error (v.wrong role)) ∧
    (∀ n : UInt32, v.number32 role = .ok n ↔
      ∃ m : UInt64, v.number64 role = .ok m ∧ m.toNat = n.toNat) ∧
    ((∀ n : UInt32, ¬ v.TakenFor n.toNat) → v.number32 role = .error (v.wrong role)) ∧
    (∀ n : UInt64,
      (ofTree (.ofAtom a)).number64 role = .ok n ↔ (Value.bytes a).number64 role = .ok n) ∧
    (∀ r, SearchResult.read vs = .ok r ↔
      ∃ items, List.Forall₂ SearchResult.ItemNumbered vs items ∧
        r = ⟨items.filterMap Sum.getLeft?, (items.filterMap Sum.getRight?).getLast?⟩) ∧
    (∀ qs, Quota.readAll vs = .ok qs ↔
      vs.length % 2 = 0 ∧ ∃ rows, List.Forall₂ Quota.RootNumbered (pairUp vs) rows ∧
        qs = rows.flatten) ∧
    (∀ toUtc b, Body.read toUtc v = .ok b → Body.Numbered v b) ∧
    (∀ table, FetchRecord.parseAll chunks options = .ok table →
      ∃ trees groups last rs, Tree.parse chunks = .ok trees ∧
        ofTrees trees = groups.flatMap FetchGroup.values ++ FetchGroup.starIf last ∧
        List.Forall₂ (FetchRecord.GroupNumbered options) groups rs ∧
        FetchRecord.Merged options rs table) ∧
    (∀ seq record, Response.parse options chunks = .ok (.data (.fetch seq record)) →
      ∃ first later p trees items, chunks = first :: later ∧
        p = (Place.ofLine first.line 0).word.2 ∧ Decimal.Canonical p.word.1 seq.number.toNat ∧
        Tree.parseFrom chunks p.word.2.word.2.pos = .ok trees ∧
        ofTrees trees = [.group .round items] ∧ record.seq = seq.number ∧
        FetchRecord.Numbered options items record) := by
  refine ⟨?plain, ?plus, (number64_spec role v).2, fun _ => number32_eq_ok_iff_number64,
    (number32_spec role v).2, ?word, fun _ => SearchResult.read_eq_ok_iff,
    fun _ => Quota.readAll_eq_ok_iff, fun _ => Body.numbered_of_read,
    fun _ => FetchRecord.numbered_of_parseAll, fun _ _ => Response.canonical_of_fetch⟩
  case plain => exact fun hplain n => number64_eq_ok_iff.trans (takenFor_iff_plain hplain)
  case plus =>
    rintro ds rfl n
    exact number64_eq_ok_iff.trans takenFor_plus_iff
  case word =>
    intro n
    rw [number64_eq_ok_iff, number64_eq_ok_iff]
    exact takenFor_ofAtom_iff

/-- Leading zeros, a number past those of 64 bits, a size and a count of lines, and the numbers of two
    messages, one behind a plus sign and with a UID. -/
theorem numbers_exact_mixed :
    (Value.bytes (Bytes.ofString "007")).number64 "MODSEQ" = .ok 7 ∧
    (Value.bytes (Bytes.plus :: Bytes.ofString "7")).number64 "MODSEQ" = .ok 7 ∧
    (Value.bytes (Bytes.ofString "18446744073709551616")).number64 "MODSEQ" =
      .error ((Value.bytes (Bytes.ofString "18446744073709551616")).wrong "MODSEQ") ∧
    (Value.int 4294967296).number32 "message id" =
      .error ((Value.int 4294967296).wrong "message id") ∧
    Body.Numbered
      (.group .round [.bytes (Bytes.ofString "TEXT"), .bytes [], .nil, .nil, .nil, .nil,
        .bytes (Bytes.ofString "0012"), .int 5])
      (.single ⟨Bytes.ofString "TEXT", [], [], none, none, none, some 12⟩ .none (some 5) []) ∧
    (∃ groups last rs, ofTrees [.bytes (Bytes.ofString "+7"),
        .group .round [.bytes (Bytes.ofString "UID"), .int 9]] =
        groups.flatMap FetchGroup.values ++ FetchGroup.starIf last ∧
      List.Forall₂ (FetchRecord.GroupNumbered default) groups rs) ∧
    Decimal.Canonical (Place.ofLine (Bytes.ofString "* 3 FETCH ()") 0).word.2.word.1 3 := by
  have hnumbers := fun role v chunks => numbers_exact role v [] [] default chunks
  refine ⟨?zeros, ?sign, ?large, ?wide, ?size, ?several, ?single⟩
  case zeros =>
    obtain ⟨hplain, -⟩ := hnumbers "MODSEQ" (.bytes (Bytes.ofString "007")) []
    have hfirst : (Bytes.ofString "007").head? ≠ some Bytes.plus := by decide +kernel
    refine (hplain ?_ 7).2 (says_bytes_iff.2 (by decide +kernel))
    intro ds h
    exact hfirst (congrArg List.head? (Value.bytes.inj h))
  case sign =>
    obtain ⟨-, hplus, -⟩ := hnumbers "MODSEQ" (.bytes (Bytes.plus :: Bytes.ofString "7")) []
    exact (hplus _ rfl 7).2 (says_bytes_iff.2 (by decide +kernel))
  case large =>
    obtain ⟨-, -, hrefused, -⟩ :=
      hnumbers "MODSEQ" (.bytes (Bytes.ofString "18446744073709551616")) []
    refine hrefused fun n h => ?_
    have hbelow := natBelow?_eq_some_iff.2 ⟨h, n.toNat_lt⟩
    have hnone : (Value.bytes (Bytes.ofString "18446744073709551616")).natBelow? (2 ^ 64) = none := by
      decide +kernel
    rw [hnone] at hbelow
    cases hbelow
  case wide =>
    obtain ⟨-, -, -, -, hrefused, -⟩ := hnumbers "message id" (.int 4294967296) []
    refine hrefused fun n h => ?_
    have hvalue : (4294967296 : Int64).toInt = 4294967296 := by decide
    have hlt := n.toNat_lt
    have hsame := takenFor_int_iff.1 h
    omega
  case size =>
    obtain ⟨-, -, -, -, -, -, -, -, hbody, -⟩ := hnumbers "" (.group .round
      [.bytes (Bytes.ofString "TEXT"), .bytes [], .nil, .nil, .nil, .nil,
        .bytes (Bytes.ofString "0012"), .int 5]) []
    exact hbody true _ rfl
  case several =>
    have hparse : Tree.parse [.plain (Bytes.ofString "+7 (UID 9)")]
        = .ok [.bytes (Bytes.ofString "+7"), .group .round [.bytes (Bytes.ofString "UID"), .int 9]] := by
      decide +kernel
    have hread : FetchRecord.parseAll [.plain (Bytes.ofString "+7 (UID 9)")] default
        = .ok (Table.empty.insert 9 ⟨7, Table.empty.insert "UID" (.int 9)⟩) := by cbv
    obtain ⟨-, -, -, -, -, -, -, -, -, htable, -⟩ :=
      hnumbers "" .nil [.plain (Bytes.ofString "+7 (UID 9)")]
    obtain ⟨trees, groups, last, rs, htrees, hvalues, hgroups, -⟩ := htable _ hread
    rw [hparse] at htrees
    cases htrees
    exact ⟨groups, last, rs, hvalues, hgroups⟩
  case single =>
    have hread : Response.parse default [.plain (Bytes.ofString "* 3 FETCH ()")]
        = .ok (.data (.fetch ⟨3, by decide⟩ ⟨3, Table.empty⟩)) := by cbv
    obtain ⟨-, -, -, -, -, -, -, -, -, -, hone⟩ :=
      hnumbers "" .nil [.plain (Bytes.ofString "* 3 FETCH ()")]
    obtain ⟨first, later, p, -, -, hchunks, rfl, hcanonical, -⟩ := hone _ _ hread
    cases hchunks
    exact hcanonical

/-- A plus sign is passed over in what is used of a resource, although the value says nothing. -/
theorem number64_plus :
    (Value.bytes (Bytes.ofString "+5")).number64 "quota usage" = .ok 5 ∧
    (∀ n, ¬ (Value.bytes (Bytes.ofString "+5")).Says n) ∧
    Quota.readAll [.bytes [], .group .round [.bytes (Bytes.ofString "STORAGE"),
      .bytes (Bytes.ofString "+5"), .int 10]] = .ok [⟨[], Bytes.ofString "STORAGE", 5, 10⟩] := by
  have hbytes : Bytes.ofString "+5" = [Bytes.plus, 0x35] := by decide
  refine ⟨by rw [hbytes]; rfl, fun n => ?_, by rw [hbytes]; rfl⟩
  rw [hbytes]
  exact not_says_cons (by decide)

end Value

end ImapWire
