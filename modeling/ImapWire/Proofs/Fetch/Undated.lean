/-
  Messages without their dates.

  1. **Date texts of a list of items** (`FetchRecord.blank`).  They are the value of an item
     `INTERNALDATE`, the date of an envelope and the dates of a structure, each in an item without a
     section; also where the item is not read for another reason.  A list with all of them made
     empty is cut into the same items (`first_blank`).

  2. **One item** (`FetchItem.converted_blank`) gives the same value but for its dates, or fails in
     both lists.

  3. **One message** (`FetchRecord.readItems_blank`, by induction on the items).  The keys do not depend
     on any date, so the tables have the same keys, and at each key the same value but for the dates.

  Two lists that are the same but for their date texts have the same list with empty ones.  Each of
  them is read like that one, so they are read alike (`FetchRecord.read_undated`): **no date text
  makes a message fail, and none changes anything but a date**.
-/
import ImapWire.Proofs.Body.Undated
import ImapWire.Proofs.Fetch.Dates

namespace ImapWire

open Result (SameBy sameBy_ok sameBy_error)

/-! ## One item -/

/-- A value under a key without dates: nothing in place of a date of arrival. -/
def Value.undatedAt (key : String) (v : Value) : Value :=
  if key = "INTERNALDATE" then .nil else v.undated

namespace FetchItem

/-- The value of an item of a name with its date texts made empty. -/
def blankValue (name : String) (v : Value) : Value :=
  if name = "INTERNALDATE" then v.blankText
  else if name = "ENVELOPE" then Envelope.blank v
  else if name = "BODY" ∨ name = "BODYSTRUCTURE" then Body.blank v
  else v

theorem kind_blankValue (name : String) (v : Value) : (blankValue name v).kind = v.kind := by
  unfold blankValue
  split
  · exact Value.kind_blankText v
  · split
    · exact Envelope.kind_blank v
    · split
      · exact Body.kind_blank v
      · rfl

/-- An item with its date texts made empty: it has none if it has a section. -/
def blank (i : FetchItem) : FetchItem :=
  match i.part with
  | none => { i with value := blankValue i.name i.value }
  | some _ => i

theorem key_blank (i : FetchItem) : i.blank.key = i.key := by
  unfold blank
  split <;> rfl

theorem convert_blank (toUtc toUtc' : Bool) (name : String) (v : Value) :
    SameBy (Value.undatedAt name) (convert toUtc name v)
      (convert toUtc' name (blankValue name v)) := by
  unfold convert blankValue
  by_cases hdate : name = "INTERNALDATE"
  · have huid : name ≠ "UID" := by
      rw [hdate]
      decide
    rw [if_neg huid, if_pos hdate, if_neg huid, if_pos hdate, if_pos hdate]
    refine sameBy_ok ?_
    rw [Value.undatedAt, Value.undatedAt, if_pos hdate, if_pos hdate]
  have hother : Value.undatedAt name = Value.undated := by
    funext v
    exact if_neg hdate
  rw [hother]
  by_cases huid : name = "UID"
  · have henvelope : name ≠ "ENVELOPE" := by
      rw [huid]
      decide
    have hbody : ¬ (name = "BODY" ∨ name = "BODYSTRUCTURE") := by
      rw [huid]
      decide
    rw [if_pos huid, if_pos huid, if_neg hdate, if_neg henvelope, if_neg hbody]
    exact SameBy.refl _ _
  rw [if_neg huid, if_neg huid, if_neg hdate, if_neg hdate, if_neg hdate]
  by_cases henvelope : name = "ENVELOPE"
  · rw [if_pos henvelope, if_pos henvelope, if_pos henvelope]
    exact (Envelope.read_blank toUtc toUtc' v).map fun e e' he => congrArg Value.envelope he
  rw [if_neg henvelope, if_neg henvelope, if_neg henvelope]
  by_cases hbody : name = "BODY" ∨ name = "BODYSTRUCTURE"
  · rw [if_pos hbody, if_pos hbody, if_pos hbody]
    exact (Body.read_blank toUtc toUtc' v).map fun b b' hb => congrArg Value.body hb
  rw [if_neg hbody, if_neg hbody, if_neg hbody]
  exact SameBy.refl _ _

/-- **What is kept of an item** does not depend on its date texts, but for the dates. -/
theorem converted_blank (toUtc toUtc' : Bool) (i : FetchItem) :
    SameBy (Value.undatedAt i.key) (i.converted toUtc) (i.blank.converted toUtc') := by
  obtain ⟨name, part, origin, value⟩ := i
  cases part with
  | none => exact convert_blank toUtc toUtc' name value
  | some part => exact SameBy.refl _ _

end FetchItem

/-! ## Lists of items -/

namespace FetchRecord

open FetchItem (blankValue isOrigin first takeOrigin)

/-- A list of items with its date texts made empty. -/
def blank : List Value → List Value
  | .bytes name :: .group .square items :: .bytes bs :: v :: rest =>
    .bytes name :: .group .square items :: .bytes bs ::
      (if isOrigin bs then v :: blank rest else blank (v :: rest))
  | .bytes name :: .group .square items :: v :: rest =>
    .bytes name :: .group .square items :: v :: blank rest
  | .bytes name :: v :: rest => .bytes name :: blankValue (keyOf name) v :: blank rest
  | vs => vs

/-- Emptied lists give the same item, but for its date texts, or both give none. -/
inductive TakesAlike (whole whole' : List Tree) (name : Value) (vs vs' : List Value) : Prop
  | failed {e e' : Error} (h : first whole name vs = .error e)
      (h' : first whole' name vs' = .error e')
  | taken {i : FetchItem} {behind : List Value} (h : first whole name vs = .ok (i, behind))
      (h' : first whole' name vs' = .ok (i.blank, blank behind))

/-- What is no section stays none. -/
theorem blankValue_ne_section {v : Value} (hv : ∀ items, v ≠ .group .square items) (name : String)
    (items : List Value) : blankValue name v ≠ .group .square items := by
  intro hsection
  have hkind : v.kind = .group .square := by
    rw [← FetchItem.kind_blankValue name v, hsection]
    rfl
  cases v with
  | group bracket vs =>
    cases bracket with
    | round => cases hkind
    | square => exact hv vs rfl
  | _ => cases hkind

theorem blank_plain (name : Bytes) {v : Value} (hv : ∀ items, v ≠ .group .square items)
    (rest : List Value) :
    blank (.bytes name :: v :: rest) = .bytes name :: blankValue (keyOf name) v :: blank rest := by
  cases v with
  | group b items =>
    cases b with
    | round => rfl
    | square => exact absurd rfl (hv items)
  | _ => rfl

/-- Behind a section the same origin is taken off, and the same value. -/
theorem blank_section (name : Bytes) (items rest : List Value) :
    ∃ rest', blank (.bytes name :: .group .square items :: rest)
        = .bytes name :: .group .square items :: rest' ∧
      ((∃ origin, takeOrigin rest = (origin, []) ∧ takeOrigin rest' = (origin, [])) ∨
        ∃ origin v behind, takeOrigin rest = (origin, v :: behind) ∧
          takeOrigin rest' = (origin, v :: blank behind)) := by
  have hsection : blankValue (keyOf name) (.group .square items) = .group .square items := by
    unfold blankValue
    split
    · rfl
    · split
      · rfl
      · split <;> rfl
  match rest with
  | [] =>
    refine ⟨[], ?_, .inl ⟨none, rfl, rfl⟩⟩
    show [_, blankValue (keyOf name) (.group .square items)] = _
    rw [hsection]
  | [.bytes bs] =>
    refine ⟨[.bytes bs], rfl, ?_⟩
    cases hbs : isOrigin bs with
    | true =>
      have htaken := FetchItem.takeOrigin_cons_of_isOrigin hbs []
      exact .inl ⟨some bs, htaken, htaken⟩
    | false =>
      have htaken : takeOrigin [.bytes bs] = (none, [.bytes bs]) :=
        FetchItem.takeOrigin_cons_of_ne (by rintro bs' ⟨⟩; exact hbs) []
      exact .inr ⟨none, .bytes bs, [], htaken, htaken⟩
  | .bytes bs :: v :: rest =>
    refine ⟨_, rfl, .inr ?_⟩
    cases hbs : isOrigin bs with
    | true =>
      exact ⟨some bs, v, rest, FetchItem.takeOrigin_cons_of_isOrigin hbs _,
        FetchItem.takeOrigin_cons_of_isOrigin hbs _⟩
    | false =>
      have hne : ∀ bs', Value.bytes bs = .bytes bs' → isOrigin bs' = false := by
        rintro bs' ⟨⟩
        exact hbs
      exact ⟨none, .bytes bs, v :: rest, FetchItem.takeOrigin_cons_of_ne hne _,
        FetchItem.takeOrigin_cons_of_ne hne _⟩
  | .int _ :: _ | .nil :: _ | .group _ _ :: _ | .flags _ :: _ | .stamp _ :: _ | .envelope _ :: _
  | .address _ :: _ | .body _ :: _ => exact ⟨_, rfl, .inr ⟨none, _, _, rfl, rfl⟩⟩

/-- **A list without date texts** is cut into the same items. -/
theorem first_blank (whole whole' : List Tree) (name : Value) (vs : List Value) :
    ∃ vs', blank (name :: vs) = name :: vs' ∧ TakesAlike whole whole' name vs vs' := by
  match name, vs with
  | .bytes name, [] => exact ⟨[], rfl, .failed rfl rfl⟩
  | .bytes name, v :: rest =>
    by_cases hpart : ∃ items, v = .group .square items
    · obtain ⟨items, rfl⟩ := hpart
      obtain ⟨rest', hblank, hbehind⟩ := blank_section name items rest
      refine ⟨_, hblank, ?_⟩
      cases htext : FetchItem.partText items with
      | error e =>
        exact .failed (FetchItem.first_of_unwritable htext) (FetchItem.first_of_unwritable htext)
      | ok text =>
        rcases hbehind with ⟨origin, hrest, hrest'⟩ | ⟨origin, v, behind, hrest, hrest'⟩
        · have hfails : ∀ whole rest, takeOrigin rest = (origin, []) →
              first whole (.bytes name) (.group .square items :: rest) =
                .error (.parse 0 (.noItemValue (FetchItem.keyText (keyOf name) (some text) origin))
                  (Tree.render whole)) := by
            intro whole rest hrest
            rw [FetchItem.first_of_part htext, hrest]
          exact .failed (hfails whole rest hrest) (hfails whole' rest' hrest')
        · have htakes : ∀ whole rest behind, takeOrigin rest = (origin, v :: behind) →
              first whole (.bytes name) (.group .square items :: rest) =
                .ok (⟨keyOf name, some text, origin, v⟩, behind) := by
            intro whole rest behind hrest
            rw [FetchItem.first_of_part htext, hrest]
          exact .taken (htakes whole rest behind hrest) (htakes whole' rest' _ hrest')
    · have hv : ∀ items, v ≠ .group .square items := fun items hitems => hpart ⟨items, hitems⟩
      refine ⟨_, blank_plain name hv rest, ?_⟩
      exact .taken (FetchItem.first_of_plain hv)
        (FetchItem.first_of_plain (blankValue_ne_section hv (keyOf name)))
  | .int _, vs | .nil, vs | .group _ _, vs | .flags _, vs | .stamp _, vs | .envelope _, vs
  | .address _, vs | .body _, vs => exact ⟨vs, rfl, .failed rfl rfl⟩

/-! ## One message -/

/-- The items of a record without dates, by their keys. -/
def undatedItems (items : Table String Value) : List (String × Value) :=
  items.entries.map fun (key, v) => (key, v.undatedAt key)

theorem undatedItems_insert {items items' : Table String Value}
    (h : undatedItems items = undatedItems items') {key : String} {v v' : Value}
    (hv : v.undatedAt key = v'.undatedAt key) :
    undatedItems (items.insert key v) = undatedItems (items'.insert key v') := by
  have hput : ∀ (w : Value) (entries : List (String × Value)),
      (Table.put key w entries).map (fun (key, v) => (key, v.undatedAt key))
        = Table.put key (w.undatedAt key) (entries.map fun (key, v) => (key, v.undatedAt key)) := by
    intro w entries
    induction entries with
    | nil => rfl
    | cons e rest ih =>
      obtain ⟨key', v'⟩ := e
      simp only [Table.put, List.map_cons]
      split
      · rfl
      · rfl
      · rw [List.map_cons, ih]
  unfold undatedItems at h ⊢
  rw [Table.insert, Table.insert, hput, hput, h, hv]

/-- **The items of a message** are read alike, up to their dates. -/
theorem readItems_blank (whole whole' : List Tree) (toUtc toUtc' : Bool) (vs : List Value)
    {items items' : Table String Value} (h : undatedItems items = undatedItems items') :
    SameBy undatedItems (readItems whole toUtc items vs)
      (readItems whole' toUtc' items' (blank vs)) := by
  fun_induction readItems whole toUtc items vs generalizing items' with
  | case1 items =>
    rw [show blank [] = [] from rfl, readItems]
    exact sameBy_ok h
  | case2 items name rest e hfirst =>
    obtain ⟨rest', hblank, htakes⟩ := first_blank whole whole' name rest
    cases htakes with
    | failed _ hfailed =>
      rw [hblank, readItems_of_error hfailed]
      exact sameBy_error _ _ _
    | taken htaken _ =>
      rw [hfirst] at htaken
      cases htaken
  | case3 items name rest i behind hfirst ih =>
    obtain ⟨rest', hblank, htakes⟩ := first_blank whole whole' name rest
    cases htakes with
    | failed hfailed _ =>
      rw [hfirst] at hfailed
      cases hfailed
    | taken htaken htaken' =>
      rw [hfirst] at htaken
      cases htaken
      rw [hblank, readItems_of_ok htaken', FetchItem.key_blank]
      refine (FetchItem.converted_blank toUtc toUtc' i).bind fun v v' hv => ?_
      exact ih v (undatedItems_insert h hv)

/-- A record without dates: its number and its items. -/
def undated (r : FetchRecord) : UInt32 × List (String × Value) := (r.seq, undatedItems r.items)

/-- **Lists with the same empty date texts** are read alike, up to their dates. -/
theorem read_sameBy_undated (seq : UInt32) (options options' : Options) {ts ts' : List Tree}
    (h : blank (Value.ofTrees ts) = blank (Value.ofTrees ts')) :
    SameBy undated (read seq (Value.ofTrees ts) options) (read seq (Value.ofTrees ts') options') := by
  have hblank := readItems_blank ts ts options.toUtc options.toUtc (Value.ofTrees ts)
    (Eq.refl (undatedItems Table.empty))
  have hblank' := readItems_blank ts' ts options'.toUtc options.toUtc (Value.ofTrees ts')
    (Eq.refl (undatedItems Table.empty))
  rw [← h] at hblank'
  unfold read
  rw [Value.treeAll?_ofTrees, Value.treeAll?_ofTrees]
  exact (hblank.trans hblank'.symm).map fun items items' hitems => congrArg (Prod.mk seq) hitems

/-- A date of arrival is kept as a date or as `NIL`. -/
theorem arrival_of_read {seq : UInt32} {vs : List Value} {options : Options} {r : FetchRecord}
    (h : read seq vs options = .ok r) {v : Value} (hv : r.items.get? "INTERNALDATE" = some v) :
    v = .nil ∨ ∃ s, v = .stamp s := by
  obtain ⟨⟨name, part, origin, value⟩, -, hkey, hkept⟩ := read_stored h hv
  obtain ⟨hpart, hname⟩ := FetchItem.part_eq_none (by decide) hkey
  cases hpart
  cases hname
  cases hkept
  cases value with
  | bytes text =>
    show ((Stamp.read? text options.toUtc).map Value.stamp).getD .nil = .nil ∨
      ∃ s, ((Stamp.read? text options.toUtc).map Value.stamp).getD .nil = .stamp s
    cases Stamp.read? text options.toUtc with
    | none => exact .inl rfl
    | some s => exact .inr ⟨s, rfl⟩
  | _ => exact .inl rfl

/-- Two records are the same but for their dates, and a date of arrival is a date or `NIL`. -/
structure SameButDates (r r' : FetchRecord) : Prop where
  seq : r.seq = r'.seq
  keys : r.items.entries.map Prod.fst = r'.items.entries.map Prod.fst
  items : undatedItems r.items = undatedItems r'.items
  arrival : ∀ v, r.items.get? "INTERNALDATE" = some v ∨ r'.items.get? "INTERNALDATE" = some v →
    v = .nil ∨ ∃ s, v = .stamp s

/-- Taking the dates out leaves the keys. -/
theorem map_fst_undatedItems (items : Table String Value) :
    (undatedItems items).map Prod.fst = items.entries.map Prod.fst := by
  rw [undatedItems, List.map_map]
  rfl

/-- **Dates stay apart.**  Of two lists that are the same but for their date texts both are read or
    neither is, whether they are moved to the local clock or not, and the records are the same but
    for their dates. -/
theorem read_undated (seq : UInt32) (options options' : Options) {ts ts' : List Tree}
    (h : blank (Value.ofTrees ts) = blank (Value.ofTrees ts')) :
    ((∃ r, read seq (Value.ofTrees ts) options = .ok r) ↔
      ∃ r', read seq (Value.ofTrees ts') options' = .ok r') ∧
    ∀ r r', read seq (Value.ofTrees ts) options = .ok r →
      read seq (Value.ofTrees ts') options' = .ok r' → SameButDates r r' := by
  have hsame := read_sameBy_undated seq options options' h
  refine ⟨⟨?_, ?_⟩, ?_⟩
  · rintro ⟨r, hr⟩
    obtain ⟨r', hr', -⟩ := hsame.exists_ok hr
    exact ⟨r', hr'⟩
  · rintro ⟨r', hr'⟩
    obtain ⟨r, hr, -⟩ := hsame.symm.exists_ok hr'
    exact ⟨r, hr⟩
  · intro r r' hr hr'
    obtain ⟨b, hb, hundated⟩ := hsame.exists_ok hr
    cases hr'.symm.trans hb
    have hitems : undatedItems r.items = undatedItems r'.items := congrArg Prod.snd hundated
    refine ⟨congrArg Prod.fst hundated, ?_, hitems, ?_⟩
    · rw [← map_fst_undatedItems, ← map_fst_undatedItems, hitems]
    · rintro v (hv | hv)
      · exact arrival_of_read hr hv
      · exact arrival_of_read hr' hv

/-- A message with an arrival date, an envelope, and a structure with an attached message. -/
def datedItems (arrival sent attached : String) : List Tree :=
  let text (s : String) : Tree := .bytes (Bytes.ofString s)
  let envelope (date : String) : Tree :=
    .group .round [text date, .nil, .nil, .nil, .nil, .nil, .nil, .nil, .nil, .nil]
  let plain : Tree :=
    .group .round [text "TEXT", text "PLAIN", .nil, .nil, .nil, text "7BIT", .int 10, .int 1]
  [text "INTERNALDATE", text arrival, text "ENVELOPE", envelope sent, text "BODYSTRUCTURE",
    .group .round [.group .round [text "MESSAGE", text "RFC822", .nil, .nil, .nil, text "7BIT",
      .int 100, envelope attached, plain, .int 5], text "MIXED"]]

/-- Three dates, and three texts that are none. -/
theorem read_undated_attached :
    ∃ r r',
      read 7 (Value.ofTrees (datedItems "17-Jul-1996 02:44:25 -0700"
        "Wed, 17 Jul 1996 02:23:25 -0700" "1 Jan 2020 00:00:00 +0100")) ⟨true, true⟩ = .ok r ∧
      read 7 (Value.ofTrees (datedItems "" "yesterday" "32 Jan 2020 25:00")) ⟨false, true⟩ = .ok r' ∧
      SameButDates r r' := by
  have hblank : blank (Value.ofTrees (datedItems "17-Jul-1996 02:44:25 -0700"
        "Wed, 17 Jul 1996 02:23:25 -0700" "1 Jan 2020 00:00:00 +0100")) =
      blank (Value.ofTrees (datedItems "" "yesterday" "32 Jan 2020 25:00")) := by
    rfl
  obtain ⟨hsuccess, hsame⟩ := read_undated 7 ⟨true, true⟩ ⟨false, true⟩ hblank
  have hread : (read 7 (Value.ofTrees (datedItems "" "yesterday" "32 Jan 2020 25:00"))
      ⟨false, true⟩).toOption.isSome = true := by decide +kernel
  cases hr' : read 7 (Value.ofTrees (datedItems "" "yesterday" "32 Jan 2020 25:00"))
      ⟨false, true⟩ with
  | error e =>
    rw [hr'] at hread
    cases hread
  | ok r' =>
    obtain ⟨r, hr⟩ := hsuccess.2 ⟨r', hr'⟩
    exact ⟨r, r', hr, rfl, hsame r r' hr hr'⟩

end FetchRecord

end ImapWire
