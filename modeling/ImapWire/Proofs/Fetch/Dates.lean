/-
  What was read can be written, but for its dates.

  A value is written by its shape on the wire, and only the date of an envelope may have none: one
  whose year has more than four digits or is negative.  This follows the dates from the bytes of a
  server to the values that are stored, and says when each of these can be written.

  1. **An item** (`FetchItem.mem_dates_iff`).  The dates of the value that is kept are what the date
     texts of the item are read as: the date field of an envelope, and those of the messages
     attached to a body structure.

  2. **A record, a table** (`FetchRecord.read_stored`, `FetchRecord.parseAll_stored`).  Every value
     that is stored was kept of an item that was sent.

  3. **What can be written** (`Value.written_back`).  An envelope, a body structure and a stored
     value can be written exactly if the date texts that they were read from have a year from 0 to
     9999, on the clock that they are kept with.  A loosely written date always does, as long as it
     is not moved to the local clock (assumed to stand at UTC, `Stamp.toUtc`).  Dates in the two
     stricter forms need not: the years of message headers have no greatest number of digits, and
     the clock of the last day of the year 9999 may be moved into the year after.
-/
import ImapWire.Proofs.Body.Dates
import ImapWire.Proofs.Fetch.Messages
import ImapWire.Proofs.Stamp.Years

namespace ImapWire

/-! ## What can be written -/

/-- A value can be written: it has a shape, lines and a text. -/
structure Value.Writes (v : Value) : Prop where
  shape : v.tree?.isSome = true
  lines : (Value.chunks? [v]).isSome = true
  text : (Value.render? [v]).isSome = true

/-- All dates that these texts are read as have a year from 0 to 9999. -/
def Stamp.FourDigits (toUtc : Bool) (texts : Bytes → Prop) : Prop :=
  ∀ text, texts text → ∀ s, Stamp.read? text toUtc = some s → 0 ≤ s.year ∧ s.year ≤ 9999

/-- Lines and text are made of the shape. -/
theorem Value.writes_iff_shape {v : Value} : v.Writes ↔ v.tree?.isSome = true := by
  constructor
  · exact Writes.shape
  · intro h
    obtain ⟨t, ht⟩ := Option.isSome_iff_exists.1 h
    refine ⟨h, ?_, ?_⟩ <;> simp [chunks?, render?, treeAll?, ht]

theorem Value.writes_iff {v : Value} :
    v.Writes ↔ ∀ s ∈ v.dates, 0 ≤ s.year ∧ s.year ≤ 9999 := by
  rw [writes_iff_shape, isSome_tree?, List.all_eq_true]
  simp [Stamp.isWritable]

/-- A value whose dates are read from some texts can be written if these are fine. -/
theorem Value.writes_iff_fourDigits {v : Value} {toUtc : Bool} {texts : Bytes → Prop}
    (h : ∀ s, s ∈ v.dates ↔ ∃ text, texts text ∧ Stamp.read? text toUtc = some s) :
    v.Writes ↔ Stamp.FourDigits toUtc texts := by
  rw [writes_iff]
  constructor
  · intro hdates text ht s hs
    exact hdates s ((h s).2 ⟨text, ht, hs⟩)
  · intro hdates s hs
    obtain ⟨text, ht, hread⟩ := (h s).1 hs
    exact hdates text ht s hread

/-! ## Items -/

namespace FetchItem

/-- A text that is read as an envelope date of an item. -/
inductive DateText : FetchItem → Bytes → Prop
  | envelope {origin : Option Bytes} {v : Value} {text : Bytes} (h : Envelope.DateText v text) :
      DateText ⟨"ENVELOPE", none, origin, v⟩ text
  | body {name : String} {origin : Option Bytes} {v : Value} {text : Bytes}
      (hname : name = "BODY" ∨ name = "BODYSTRUCTURE") (h : Body.DateText v text) :
      DateText ⟨name, none, origin, v⟩ text

theorem dateText_iff {i : FetchItem} {text : Bytes} :
    i.DateText text ↔ i.part = none ∧ ((i.name = "ENVELOPE" ∧ Envelope.DateText i.value text) ∨
      ((i.name = "BODY" ∨ i.name = "BODYSTRUCTURE") ∧ Body.DateText i.value text)) := by
  constructor
  · intro h
    cases h with
    | envelope h => exact ⟨rfl, .inl ⟨rfl, h⟩⟩
    | body hname h => exact ⟨rfl, .inr ⟨hname, h⟩⟩
  · obtain ⟨name, part, origin, value⟩ := i
    rintro ⟨hpart, ⟨hname, h⟩ | ⟨hname, h⟩⟩
    · cases hpart
      cases hname
      exact .envelope h
    · cases hpart
      exact .body hname h

/-- A UID, flags and a date of arrival have no envelope date. -/
theorem dates_of_readUid {v w : Value} (h : readUid v = .ok w) : w.dates = [] := by
  cases v with
  | int n =>
    obtain ⟨_, -, rfl⟩ := Result.map_eq_ok.1 h
    rfl
  | _ => cases h

theorem dates_of_readFlags {v w : Value} (h : readFlags v = .ok w) : w.dates = [] := by
  unfold readFlags at h
  split at h
  · obtain ⟨_, -, rfl⟩ := Result.map_eq_ok.1 h
    rfl
  · cases h
    rfl
  · cases h

theorem dates_readInternalDate (toUtc : Bool) (v : Value) :
    (readInternalDate toUtc v).dates = [] := by
  cases v with
  | bytes text =>
    show (((Stamp.read? text toUtc).map Value.stamp).getD .nil).dates = []
    cases Stamp.read? text toUtc <;> rfl
  | _ => rfl

/-- Items other than envelopes and body structures have no envelope dates. -/
theorem dates_of_convert {toUtc : Bool} {name : String} {v w : Value} (hv : v.dates = [])
    (henvelope : name ≠ "ENVELOPE") (hbody : ¬ (name = "BODY" ∨ name = "BODYSTRUCTURE"))
    (h : convert toUtc name v = .ok w) : w.dates = [] := by
  unfold convert at h
  rw [if_neg henvelope, if_neg hbody] at h
  split at h
  · exact dates_of_readUid h
  · split at h
    · cases h
      exact dates_readInternalDate toUtc v
    · split at h
      · exact dates_of_readFlags h
      · cases h
        exact hv

/-- **The dates of a kept value are what the date texts of its item are read as.** -/
theorem mem_dates_iff {i : FetchItem} {toUtc : Bool} {v : Value} {s : Stamp}
    (hi : i.value.dates = []) (h : i.converted toUtc = .ok v) :
    s ∈ v.dates ↔ ∃ text, i.DateText text ∧ Stamp.read? text toUtc = some s := by
  obtain ⟨name, part, origin, value⟩ := i
  have hvalue : value.dates = [] := hi
  simp only [dateText_iff]
  cases part with
  | some part =>
    cases h
    simp [hvalue]
  | none =>
    have hconvert : convert toUtc name value = .ok v := h
    by_cases henvelope : name = "ENVELOPE"
    · subst henvelope
      have hread : (Envelope.read toUtc value).map .envelope = .ok v := by
        simpa [convert] using hconvert
      obtain ⟨e, he, rfl⟩ := Result.map_eq_ok.1 hread
      show s ∈ e.date.toList ↔ _
      rw [Envelope.mem_date_iff he]
      simp
    · by_cases hbody : name = "BODY" ∨ name = "BODYSTRUCTURE"
      · have hread : (Body.read toUtc value).map .body = .ok v := by
          rcases hbody with rfl | rfl <;> simpa [convert] using hconvert
        obtain ⟨b, hb, rfl⟩ := Result.map_eq_ok.1 hread
        show s ∈ b.dates ↔ _
        rw [(Body.read_dates value hvalue hb).1]
        simp [henvelope, hbody]
      · rw [dates_of_convert hvalue henvelope hbody hconvert]
        simp [henvelope, hbody]

end FetchItem

/-! ## Records and tables -/

namespace FetchRecord

open FetchItem (MadeOf)

/-- The value is what is kept of an item of a list, under its key. -/
structure KeptOf (toUtc : Bool) (vs : List Value) (key : String) (v : Value) (i : FetchItem) :
    Prop where
  listed : ∃ front, MadeOf i front ∧ front <:+: vs
  key_eq : i.key = key
  kept : i.converted toUtc = .ok v

/-- The value of an item is among the values that it is made of. -/
theorem value_mem_of_madeOf {i : FetchItem} {front : List Value} (h : MadeOf i front) :
    i.value ∈ front := by
  cases h <;> simp

/-- The value of an item of a response has no dates yet. -/
theorem KeptOf.mem_dates_iff {toUtc : Bool} {ts : List Tree} {key : String} {v : Value}
    {i : FetchItem} (h : KeptOf toUtc (Value.ofTrees ts) key v i) {s : Stamp} :
    s ∈ v.dates ↔ ∃ text, i.DateText text ∧ Stamp.read? text toUtc = some s := by
  obtain ⟨⟨front, hmade, hfront⟩, -, hkept⟩ := h
  refine FetchItem.mem_dates_iff ?_ hkept
  exact (Value.datesAll_eq_nil_iff _).1 (Value.datesAll_ofTrees ts) _
    (hfront.subset (value_mem_of_madeOf hmade))

/-- What a record stores was kept of an item of its list. -/
theorem read_stored {seq : UInt32} {vs : List Value} {options : Options} {r : FetchRecord}
    (h : read seq vs options = .ok r) {k : String} {v : Value} (hv : r.items.get? k = some v) :
    ∃ i, KeptOf options.toUtc vs k v i := by
  refine read_forall (P := fun k v => ∃ i, KeptOf options.toUtc vs k v i) ?_ h k v hv
  intro i front v hmade hfront hkept
  exact ⟨i, ⟨front, hmade, hfront⟩, rfl, hkept⟩

/-- A list of values that are trees holds the values of its trees. -/
theorem ofTrees_of_mem {trees : List Tree} {items : List Value}
    (h : .group .round items ∈ Value.ofTrees trees) :
    ∃ ts, .group .round ts ∈ trees ∧ items = Value.ofTrees ts := by
  rw [Value.ofTrees_eq_map] at h
  obtain ⟨t, ht, hvalue⟩ := List.mem_map.1 h
  cases t with
  | group b ts =>
    cases hvalue
    exact ⟨ts, ht, rfl⟩
  | _ => cases hvalue

/-- What a table stores was kept of an item of one of the lists of the response. -/
theorem parseAll_stored {chunks : List Chunk} {options : Options}
    {table : Table UInt32 FetchRecord} (h : parseAll chunks options = .ok table) :
    ∃ trees, Tree.parse chunks = .ok trees ∧
      ∀ n r, table.get? n = some r → ∀ k v, r.items.get? k = some v →
        ∃ ts i, .group .round ts ∈ trees ∧ KeptOf options.toUtc (Value.ofTrees ts) k v i := by
  obtain ⟨trees, rs, htrees, hsent, rfl⟩ := parseAll_eq_ok_iff.1 h
  have hall : ∀ r ∈ rs, ∀ k v, r.items.get? k = some v →
      ∃ ts i, .group .round ts ∈ trees ∧ KeptOf options.toUtc (Value.ofTrees ts) k v i := by
    refine hsent.forall_read ?_
    intro seq items r hitems hread k v hv
    obtain ⟨ts, hts, rfl⟩ := ofTrees_of_mem hitems
    obtain ⟨i, hi⟩ := read_stored hread hv
    exact ⟨ts, i, hts, hi⟩
  refine ⟨trees, htrees, ?_⟩
  intro n r hr k v hv
  rw [get?_foldl_collect] at hr
  obtain ⟨r', hr', hv'⟩ := stored_of_mergeAll hr hv
  exact hall r' (mem_ofKey.1 hr').1 k v hv'

end FetchRecord

/-! ## Writing back -/

open Stamp (FourDigits) in
/-- **What was read can be written back, if its dates have four digits.**  Envelopes and body
    structures that were read, the values that a record stores, and those of a table: each can be
    written exactly if the date texts that it was read from have a year from 0 to 9999, on the clock
    that they are kept with.  A date that is only loosely written has, on its own clock. -/
theorem Value.written_back (options : Options) :
    (∀ t e, Envelope.read options.toUtc (ofTree t) = .ok e →
      ((envelope e).Writes ↔ FourDigits options.toUtc (Envelope.DateText (ofTree t)))) ∧
    (∀ t b, Body.read options.toUtc (ofTree t) = .ok b →
      ((body b).Writes ↔ FourDigits options.toUtc (Body.DateText (ofTree t))) ∧
      (b.value?.isSome = true ↔ FourDigits options.toUtc (Body.DateText (ofTree t)))) ∧
    (∀ seq ts r, FetchRecord.read seq (ofTrees ts) options = .ok r →
      ∀ k v, r.items.get? k = some v →
        ∃ i, FetchRecord.KeptOf options.toUtc (ofTrees ts) k v i ∧
          (v.Writes ↔ FourDigits options.toUtc i.DateText)) ∧
    (∀ chunks table, FetchRecord.parseAll chunks options = .ok table →
      ∃ trees, Tree.parse chunks = .ok trees ∧
        ∀ n r, table.get? n = some r → ∀ k v, r.items.get? k = some v →
          ∃ ts i, .group .round ts ∈ trees ∧
            FetchRecord.KeptOf options.toUtc (ofTrees ts) k v i ∧
            (v.Writes ↔ FourDigits options.toUtc i.DateText)) ∧
    (∀ text s, MessageDate.read? (Stamp.dateText text) = none →
      InternalDate.read? (Stamp.dateText text) = none → Stamp.read? text false = some s →
      0 ≤ s.year ∧ s.year ≤ 9999) := by
  refine ⟨?_, ?_, ?_, ?_, ?_⟩
  · intro t e h
    exact writes_iff_fourDigits fun s => Envelope.mem_date_iff h
  · intro t b h
    obtain ⟨hdates, hsome⟩ := Body.read_dates (ofTree t) (dates_ofTree t) h
    have hwrites : (body b).Writes ↔ FourDigits options.toUtc (Body.DateText (ofTree t)) :=
      writes_iff_fourDigits hdates
    refine ⟨hwrites, ?_⟩
    have hshape : (body b).Writes ↔ b.tree?.isSome = true := writes_iff_shape
    rw [← hwrites, hshape, hsome, Body.isSome_tree?]
  · intro seq ts r h k v hv
    obtain ⟨i, hi⟩ := FetchRecord.read_stored h hv
    exact ⟨i, hi, writes_iff_fourDigits fun s => hi.mem_dates_iff⟩
  · intro chunks table h
    obtain ⟨trees, htrees, hstored⟩ := FetchRecord.parseAll_stored h
    refine ⟨trees, htrees, ?_⟩
    intro n r hr k v hv
    obtain ⟨ts, i, hts, hi⟩ := hstored n r hr k v hv
    exact ⟨ts, i, hts, hi, writes_iff_fourDigits fun s => hi.mem_dates_iff⟩
  · intro text s hmessage hinternal h
    exact Stamp.year_of_read?_loose hmessage hinternal h

/-- An envelope with a date text and nothing else. -/
def Tree.datedEnvelope (text : String) : Tree :=
  .group .round (.bytes (Bytes.ofString text) :: List.replicate 9 .nil)

/-- The last second of the year 9999. -/
theorem Value.written_back_last :
    ∃ e, Envelope.read false (ofTree (Tree.datedEnvelope "31 Dec 9999 23:59:59 +0000")) = .ok e ∧
      (envelope e).Writes := by
  obtain ⟨e, he⟩ : ∃ e, Envelope.read false
      (ofTree (Tree.datedEnvelope "31 Dec 9999 23:59:59 +0000")) = .ok e := ⟨_, rfl⟩
  refine ⟨e, he, ((Value.written_back ⟨false, true⟩).1 _ e he).2 ?_⟩
  rintro text ⟨⟩ s hs
  have hread : Stamp.read? (Bytes.ofString "31 Dec 9999 23:59:59 +0000") false
      = some ⟨253402300799, 0, 0⟩ := by decide +kernel
  rw [hread] at hs
  cases hs
  decide +kernel

/-- The year 10000 is read, and so is the last hour of the year 9999 west of Greenwich, which lies
    in the year 10000 at UTC.  Neither can be written. -/
theorem Value.written_back_far :
    (∃ e, Envelope.read false (ofTree (Tree.datedEnvelope "1 Jan 10000 00:00:00 +0000")) = .ok e ∧
      e.tree? = none ∧ ¬ (envelope e).Writes) ∧
    (∃ e, Envelope.read true (ofTree (Tree.datedEnvelope "31 Dec 9999 23:30:00 -0100")) = .ok e ∧
      e.tree? = none ∧ ¬ (envelope e).Writes) := by
  have hfails : ∀ {e : Envelope}, e.tree? = none → e.tree? = none ∧ ¬ (envelope e).Writes := by
    intro e h
    refine ⟨h, fun hwrites => ?_⟩
    have hsome : e.tree?.isSome = true := hwrites.shape
    rw [h] at hsome
    cases hsome
  exact ⟨⟨_, rfl, hfails (by decide +kernel)⟩, ⟨_, rfl, hfails (by decide +kernel)⟩⟩

end ImapWire
