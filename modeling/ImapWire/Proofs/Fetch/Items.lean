/-
  The items of a message, and what becomes of the data of a section.

  1. **What an item is made of** (`FetchItem.MadeOf`): a name and a value; or a name, a section and
     a value; or a name, a section, an origin and a value.  An item is taken off a list exactly if
     the list begins with its values (`FetchItem.first_eq_ok_iff`), so reading one list and then
     another one is reading both at once (`FetchRecord.readItems_append`).

  2. **The data of a section** (`FetchRecord.read_section`).  It is kept as it is, under the key of
     its section, and has no say in what becomes of the other items.  **This holds of all data but
     one shape.**  A list of values does not say any more how a byte string was spelled.  Data in
     angle brackets therefore passes for an origin, in quotes or in a literal too: it goes into the
     key, and the next value is taken for the data, if there is one.
-/
import ImapWire.Fetch.Read
import ImapWire.Proofs.Value.Form

namespace ImapWire

namespace FetchItem

/-! ## One item -/

/-- The values that an item is made of. -/
inductive MadeOf : FetchItem → List Value → Prop
  | plain (name : Bytes) {v : Value} (hv : ∀ items, v ≠ .group .square items) :
      MadeOf ⟨keyOf name, none, none, v⟩ [.bytes name, v]
  | part (name : Bytes) {items : List Value} {text : String} {v : Value}
      (htext : partText items = .ok text) (hv : ∀ bs, v = .bytes bs → isOrigin bs = false) :
      MadeOf ⟨keyOf name, some text, none, v⟩ [.bytes name, .group .square items, v]
  | origin (name : Bytes) {items : List Value} {text : String} {bs : Bytes} (v : Value)
      (htext : partText items = .ok text) (hbs : isOrigin bs = true) :
      MadeOf ⟨keyOf name, some text, some bs, v⟩
        [.bytes name, .group .square items, .bytes bs, v]

variable {whole : List Tree} {name : Bytes} {items vs rest : List Value} {text : String} {v : Value}

theorem takePart_cons_of_ne (hv : ∀ items, v ≠ .group .square items) (rest : List Value) :
    takePart (v :: rest) = (none, v :: rest) := by
  unfold takePart
  split
  · next items _ heq =>
    cases heq
    exact absurd rfl (hv items)
  · rfl

theorem takeOrigin_cons_of_ne (hv : ∀ bs, v = .bytes bs → isOrigin bs = false) (rest : List Value) :
    takeOrigin (v :: rest) = (none, v :: rest) := by
  unfold takeOrigin
  split
  · next bs _ heq =>
    cases heq
    rw [hv bs rfl]
    rfl
  · rfl

theorem takeOrigin_cons_of_isOrigin {bs : Bytes} (hbs : isOrigin bs = true) (rest : List Value) :
    takeOrigin (.bytes bs :: rest) = (some bs, rest) := by
  show (if isOrigin bs then _ else _) = _
  rw [if_pos hbs]

theorem first_of_plain (hv : ∀ items, v ≠ .group .square items) :
    first whole (.bytes name) (v :: rest) = .ok (⟨keyOf name, none, none, v⟩, rest) := by
  simp only [first, takePart_cons_of_ne hv, bind, Except.bind]
  rfl

theorem first_of_part (htext : partText items = .ok text) :
    first whole (.bytes name) (.group .square items :: rest) =
      match takeOrigin rest with
      | (origin, []) => .error
          (.parse 0 (.noItemValue (keyText (keyOf name) (some text) origin)) (Tree.render whole))
      | (origin, v :: behind) => .ok (⟨keyOf name, some text, origin, v⟩, behind) := by
  simp only [first, takePart, htext, bind, Except.bind, Except.map]
  obtain ⟨origin, vs⟩ := takeOrigin rest
  cases vs with
  | nil => rfl
  | cons v behind => rfl

theorem first_of_unwritable {e : Error} (htext : partText items = .error e) :
    first whole (.bytes name) (.group .square items :: rest) = .error e := by
  simp only [first, takePart, htext, bind, Except.bind, Except.map]

/-- What was taken off, as far as the name is a byte string. -/
theorem madeOf_of_first {i : FetchItem} (h : first whole (.bytes name) vs = .ok (i, rest)) :
    ∃ front, MadeOf i front ∧ .bytes name :: vs = front ++ rest := by
  cases vs with
  | nil => cases h
  | cons v vs =>
    by_cases hpart : ∃ items, v = .group .square items
    · obtain ⟨items, rfl⟩ := hpart
      cases htext : partText items with
      | error e =>
        rw [first_of_unwritable htext] at h
        cases h
      | ok text =>
        rw [first_of_part htext] at h
        cases vs with
        | nil => cases h
        | cons v vs =>
          by_cases horigin : ∃ bs, v = .bytes bs ∧ isOrigin bs = true
          · obtain ⟨bs, rfl, hbs⟩ := horigin
            rw [takeOrigin_cons_of_isOrigin hbs] at h
            cases vs with
            | nil => cases h
            | cons v vs =>
              cases h
              exact ⟨_, .origin name v htext hbs, rfl⟩
          · have hv : ∀ bs, v = .bytes bs → isOrigin bs = false :=
              fun bs hbs => Bool.eq_false_iff.2 fun ho => horigin ⟨bs, hbs, ho⟩
            rw [takeOrigin_cons_of_ne hv] at h
            cases h
            exact ⟨_, .part name htext hv, rfl⟩
    · have hv : ∀ items, v ≠ .group .square items := fun items hitems => hpart ⟨items, hitems⟩
      rw [first_of_plain hv] at h
      cases h
      exact ⟨_, .plain name hv, rfl⟩

theorem first_of_madeOf (whole : List Tree) {i : FetchItem} {front : List Value}
    (h : MadeOf i front) :
    ∃ n tail, front = n :: tail ∧ ∀ rest, first whole n (tail ++ rest) = .ok (i, rest) := by
  cases h with
  | @plain name v hv =>
    refine ⟨_, _, rfl, ?_⟩
    intro rest
    exact first_of_plain hv
  | @part name items text v htext hv =>
    refine ⟨_, _, rfl, ?_⟩
    intro rest
    show first whole (.bytes name) (.group .square items :: v :: rest) = _
    rw [first_of_part htext, takeOrigin_cons_of_ne hv]
  | @origin name items text bs v htext hbs =>
    refine ⟨_, _, rfl, ?_⟩
    intro rest
    show first whole (.bytes name) (.group .square items :: .bytes bs :: v :: rest) = _
    rw [first_of_part htext, takeOrigin_cons_of_isOrigin hbs]

/-- **An item is taken off a list exactly if the list begins with its values.** -/
theorem first_eq_ok_iff {n : Value} {i : FetchItem} :
    first whole n vs = .ok (i, rest) ↔ ∃ front, MadeOf i front ∧ n :: vs = front ++ rest := by
  constructor
  · intro h
    cases n with
    | bytes name => exact madeOf_of_first h
    | _ => cases h
  · rintro ⟨front, hmade, hfront⟩
    obtain ⟨n', tail, rfl, hfirst⟩ := first_of_madeOf whole hmade
    rw [List.cons_append] at hfront
    obtain ⟨rfl, rfl⟩ := List.cons.inj hfront
    exact hfirst rest

/-- What stands behind an item has no part in it. -/
theorem first_append {n : Value} {i : FetchItem} (h : first whole n vs = .ok (i, rest))
    (more : List Value) : first whole n (vs ++ more) = .ok (i, rest ++ more) := by
  obtain ⟨front, hmade, hfront⟩ := first_eq_ok_iff.1 h
  refine first_eq_ok_iff.2 ⟨front, hmade, ?_⟩
  rw [← List.append_assoc, ← hfront, List.cons_append]

/-! ## The data of a section -/

/-- The key of the data of a section of the message. -/
def sectionKey (s : List Tree) : String := "BODY[" ++ Text.upper (Tree.render s) ++ "]"

/-- The values that a server sends for a section of the message and its data. -/
def sectionValues (s : List Tree) (c : Bytes) : List Value :=
  [.bytes (Bytes.ofString "BODY"), .group .square (Value.ofTrees s), .bytes c]

/-- The key is in capitals, so looking it up finds it. -/
theorem upper_sectionKey (s : List Tree) : Text.upper (sectionKey s) = sectionKey s := by
  unfold sectionKey
  rw [Text.upper_append, Text.upper_append, Text.upper_upper]
  rfl

theorem partText_ofTrees (s : List Tree) :
    partText (Value.ofTrees s) = .ok (Text.upper (Tree.render s)) := by
  unfold partText Value.render?
  rw [Value.treeAll?_ofTrees]
  rfl

/-- Data in angle brackets goes into the key, and the value behind it is taken for the data. -/
theorem madeOf_section (s : List Tree) (c : Bytes) :
    (isOrigin c = false → ∃ i, MadeOf i (sectionValues s c) ∧ i.key = sectionKey s ∧
      ∀ toUtc, i.converted toUtc = .ok (.bytes c)) ∧
    (isOrigin c = true → ∀ v, ∃ i, MadeOf i (sectionValues s c ++ [v]) ∧
      i.key = sectionKey s ++ c.text ∧ ∀ toUtc, i.converted toUtc = .ok v) := by
  have hname : keyOf (Bytes.ofString "BODY") = "BODY" := by rfl
  constructor
  · intro hc
    refine ⟨_, .part (Bytes.ofString "BODY") (partText_ofTrees s) ?_, ?_, fun _ => rfl⟩
    · rintro bs ⟨⟩
      exact hc
    · show keyOf (Bytes.ofString "BODY") ++ "[" ++ _ ++ "]" ++ "" = _
      rw [hname, String.append_empty]
      rfl
  · intro hc v
    refine ⟨_, .origin (Bytes.ofString "BODY") v (partText_ofTrees s) hc, ?_, fun _ => rfl⟩
    show keyOf (Bytes.ofString "BODY") ++ "[" ++ _ ++ "]" ++ c.text = _
    rw [hname]
    rfl

end FetchItem

namespace FetchRecord

open FetchItem (isOrigin MadeOf sectionKey sectionValues)

/-! ## Lists of items -/

variable {whole : List Tree} {toUtc : Bool} {items : Table String Value}

theorem readItems_of_ok {n : Value} {vs rest : List Value} {i : FetchItem}
    (h : FetchItem.first whole n vs = .ok (i, rest)) :
    readItems whole toUtc items (n :: vs) =
      (i.converted toUtc).bind fun v => readItems whole toUtc (items.insert i.key v) rest := by
  rw [readItems]
  split
  · next heq =>
    rw [h] at heq
    cases heq
  · next heq =>
    rw [h] at heq
    cases heq
    rfl

theorem readItems_of_error {n : Value} {vs : List Value} {e : Error}
    (h : FetchItem.first whole n vs = .error e) :
    readItems whole toUtc items (n :: vs) = .error e := by
  rw [readItems]
  split
  · next heq =>
    rw [h] at heq
    cases heq
    rfl
  · next heq =>
    rw [h] at heq
    cases heq

/-- **Reading one list and then another one** is reading both at once. -/
theorem readItems_append {before : List Value} {items' : Table String Value}
    (h : readItems whole toUtc items before = .ok items') (after : List Value) :
    readItems whole toUtc items (before ++ after) = readItems whole toUtc items' after := by
  fun_induction readItems whole toUtc items before with
  | case1 items =>
    cases h
    rfl
  | case2 items n rest e hfirst => cases h
  | case3 items n rest i behind hfirst ih =>
    rw [List.cons_append, readItems_of_ok (FetchItem.first_append hfirst after)]
    cases hconverted : i.converted toUtc with
    | error e =>
      rw [hconverted] at h
      cases h
    | ok v =>
      rw [hconverted] at h
      exact ih v h

/-- One item in front of others. -/
theorem readItems_of_madeOf {i : FetchItem} {front : List Value} {v : Value}
    (hmade : MadeOf i front) (hv : i.converted toUtc = .ok v) (rest : List Value) :
    readItems whole toUtc items (front ++ rest) =
      readItems whole toUtc (items.insert i.key v) rest := by
  obtain ⟨n, tail, rfl, hfirst⟩ := FetchItem.first_of_madeOf whole hmade
  rw [List.cons_append, readItems_of_ok (hfirst rest), hv]
  rfl

/-! ## The data of a section among other items -/

variable {s : List Tree} {c : Bytes}

/-- Data that is not in angle brackets is the item of its section, whatever comes after it. -/
theorem readItems_section (hc : isOrigin c = false) (rest : List Value) :
    readItems whole toUtc items (sectionValues s c ++ rest) =
      readItems whole toUtc (items.insert (sectionKey s) (.bytes c)) rest := by
  obtain ⟨i, hmade, hkey, hconverted⟩ := (FetchItem.madeOf_section s c).1 hc
  rw [readItems_of_madeOf hmade (hconverted toUtc), hkey]

theorem readItems_section_alone (hc : isOrigin c = false) :
    readItems whole toUtc items (sectionValues s c) =
      .ok (items.insert (sectionKey s) (.bytes c)) := by
  rw [← List.append_nil (sectionValues s c), readItems_section hc, readItems]

/-- Data in angle brackets renames the item, and takes the next value away. -/
theorem readItems_section_origin (hc : isOrigin c = true) (v : Value) (rest : List Value) :
    readItems whole toUtc items (sectionValues s c ++ v :: rest) =
      readItems whole toUtc (items.insert (sectionKey s ++ c.text) v) rest := by
  obtain ⟨i, hmade, hkey, hconverted⟩ := (FetchItem.madeOf_section s c).2 hc v
  show readItems whole toUtc items (sectionValues s c ++ ([v] ++ rest)) = _
  rw [← List.append_assoc, readItems_of_madeOf hmade (hconverted toUtc), hkey]

/-- With no value behind it, it leaves the item without one. -/
theorem readItems_section_end (hc : isOrigin c = true) :
    readItems whole toUtc items (sectionValues s c) =
      .error (.parse 0 (.noItemValue (sectionKey s ++ c.text)) (Tree.render whole)) := by
  apply readItems_of_error
  show FetchItem.first whole (.bytes (Bytes.ofString "BODY"))
    (.group .square (Value.ofTrees s) :: [.bytes c]) = _
  rw [FetchItem.first_of_part (FetchItem.partText_ofTrees s),
    FetchItem.takeOrigin_cons_of_isOrigin hc]
  rfl

theorem treeAll?_sectionValues (s : List Tree) (c : Bytes) :
    Value.treeAll? (sectionValues s c) =
      some [.bytes (Bytes.ofString "BODY"), .group .square s, .bytes c] := by
  show Value.treeAll?
    (Value.ofTrees [.bytes (Bytes.ofString "BODY"), .group .square s, .bytes c]) = _
  exact Value.treeAll?_ofTrees _

theorem read_section_plain (seq : UInt32) (options : Options) (hc : isOrigin c = false) :
    read seq (sectionValues s c) options =
      .ok ⟨seq, Table.ofList [(sectionKey s, .bytes c)]⟩ := by
  simp only [read, treeAll?_sectionValues, readItems_section_alone hc]
  rfl

theorem read_section_origin (seq : UInt32) (options : Options) (hc : isOrigin c = true) :
    read seq (sectionValues s c) options =
      .error (.parse 0 (.noItemValue (sectionKey s ++ c.text))
        (Tree.render [.bytes (Bytes.ofString "BODY"), .group .square s, .bytes c])) := by
  simp only [read, treeAll?_sectionValues, readItems_section_end hc]
  rfl

/-- **What becomes of the data of a section.**  Alone in its list it is read, as the one item of its
    section and byte by byte, exactly if it is not in angle brackets; otherwise the item has no
    value.  Behind any items and in front of any values, it leaves those alone, or it renames its
    item and takes the next value away. -/
theorem read_section (seq : UInt32) (s : List Tree) (c : Bytes) (options : Options) :
    ((∃ r, read seq (sectionValues s c) options = .ok r ∧ r.seq = seq ∧
        r.items = Table.ofList [(sectionKey s, .bytes c)] ∧ r.bytes? (sectionKey s) = some c) ↔
      isOrigin c = false) ∧
    (isOrigin c = true → read seq (sectionValues s c) options =
      .error (.parse 0 (.noItemValue (sectionKey s ++ c.text))
        (Tree.render [.bytes (Bytes.ofString "BODY"), .group .square s, .bytes c]))) ∧
    ∀ whole toUtc before items, readItems whole toUtc Table.empty before = .ok items → ∀ after,
      (isOrigin c = false →
        readItems whole toUtc Table.empty (before ++ (sectionValues s c ++ after)) =
          readItems whole toUtc (items.insert (sectionKey s) (.bytes c)) after) ∧
      (isOrigin c = true → ∀ v,
        readItems whole toUtc Table.empty (before ++ (sectionValues s c ++ v :: after)) =
          readItems whole toUtc (items.insert (sectionKey s ++ c.text) v) after) := by
  refine ⟨⟨?_, ?_⟩, read_section_origin seq options, ?_⟩
  · rintro ⟨r, hread, -⟩
    cases hc : isOrigin c with
    | false => rfl
    | true =>
      rw [read_section_origin seq options hc] at hread
      cases hread
  · intro hc
    refine ⟨_, read_section_plain seq options hc, rfl, rfl, ?_⟩
    show (Table.get? (Table.insert _ _ _) (Text.upper (sectionKey s))).bind Value.bytes? = some c
    rw [FetchItem.upper_sectionKey, Table.get?_insert, if_pos rfl]
    rfl
  · intro whole toUtc before items hbefore after
    constructor
    · intro hc
      rw [readItems_append hbefore, readItems_section hc]
    · intro hc v
      rw [readItems_append hbefore, readItems_section_origin hc]

/-- Plain data alone, and between a UID and flags; and data in angle brackets before flags. -/
theorem read_section_mixed :
    (∃ r, read 7 (sectionValues [.bytes (Bytes.ofString "text")] (Bytes.ofString "hello")) default
        = .ok r ∧
      r.seq = 7 ∧ r.items = Table.ofList [("BODY[TEXT]", .bytes (Bytes.ofString "hello"))] ∧
      r.bytes? "BODY[TEXT]" = some (Bytes.ofString "hello")) ∧
    readItems [] true Table.empty ([.bytes (Bytes.ofString "UID"), .int 5] ++
        (sectionValues [.bytes (Bytes.ofString "text")] (Bytes.ofString "hello") ++
          [.bytes (Bytes.ofString "FLAGS"), .nil])) =
      readItems [] true ((Table.ofList [("UID", .int 5)]).insert "BODY[TEXT]"
        (.bytes (Bytes.ofString "hello"))) [.bytes (Bytes.ofString "FLAGS"), .nil] ∧
    readItems [] true Table.empty ([.bytes (Bytes.ofString "UID"), .int 5] ++
        (sectionValues [.bytes (Bytes.ofString "text")] (Bytes.ofString "<p>") ++
          .bytes (Bytes.ofString "FLAGS") :: [.nil])) =
      readItems [] true ((Table.ofList [("UID", .int 5)]).insert "BODY[TEXT]<p>"
        (.bytes (Bytes.ofString "FLAGS"))) [.nil] := by
  have hkey : sectionKey [.bytes (Bytes.ofString "text")] = "BODY[TEXT]" := by decide +kernel
  have hplain := read_section 7 [.bytes (Bytes.ofString "text")] (Bytes.ofString "hello") default
  have hangle := read_section 7 [.bytes (Bytes.ofString "text")] (Bytes.ofString "<p>") default
  rw [hkey] at hplain hangle
  have hbefore : readItems [] true Table.empty [.bytes (Bytes.ofString "UID"), .int 5] =
      .ok (Table.ofList [("UID", .int 5)]) := by
    have hmade : MadeOf ⟨"UID", none, none, .int 5⟩ [.bytes (Bytes.ofString "UID"), .int 5] :=
      .plain (Bytes.ofString "UID") (by intro items hitems; cases hitems)
    have hvalue : FetchItem.converted true ⟨"UID", none, none, .int 5⟩ = .ok (.int 5) := rfl
    show readItems [] true Table.empty ([.bytes (Bytes.ofString "UID"), .int 5] ++ []) = _
    rw [readItems_of_madeOf hmade hvalue, readItems]
    rfl
  refine ⟨hplain.1.2 (by decide), ?_, ?_⟩
  · exact (hplain.2.2 [] true _ _ hbefore _).1 (by decide)
  · exact (hangle.2.2 [] true _ _ hbefore _).2 (by decide) _

/-- A short page in a literal: it is not read, and neither is the item. -/
theorem read_section_page :
    ¬ ∃ r, read 1 (sectionValues [.bytes (Bytes.ofString "TEXT")] (Bytes.ofString "<html>")) default
        = .ok r ∧
      r.items = Table.ofList [("BODY[TEXT]", .bytes (Bytes.ofString "<html>"))] := by
  rintro ⟨r, hread, -⟩
  have hpage : isOrigin (Bytes.ofString "<html>") = true := by decide
  rw [read_section_origin 1 default hpage] at hread
  cases hread

end FetchRecord

end ImapWire
