/-
  Fetch records by position.

  The text of a whole list of items is written before any item is read, for the messages that may
  come, and the text of a section is written for its key.  Neither shows an envelope date: the items
  of a list are what has been read into trees, and what is understood of an item goes into the record
  and not back into the list.

  The loop over the items ends since an item uses up at least its name; that does not depend on
  whether the text of a section stops it (`length_readFirst_le`).

  So the messages of a response are read without a stop (`readMessages_gives`).
-/
import ImapWire.Proofs.Fetch.Dates
import ImapWire.Proofs.Guarded.Value

namespace ImapWire

namespace Guarded

variable {v : Value} {vs : List Value}

/-! ## One item -/

/-- Flags or labels: a list of byte strings, or `NIL` for none. -/
def readFlags (v : Value) : Checked Value :=
  match v with
  | .group .round items => .flags <$> items.mapM (string "flag")
  | .nil => pure (.flags [])
  | other => wrong "flag list" other

/-- The UID of a message. -/
def readUid (v : Value) : Checked Value :=
  match v with
  | .int n => (fun _ => .int n) <$> number32 "UID" (.int n)
  | other => wrong "UID" other

/-- The date of arrival. -/
def readInternalDate (toUtc : Bool) (v : Value) : Guarded Value :=
  match v with
  | .bytes text => do
    let stamp ← readDate text toUtc
    .ok ((stamp.map Value.stamp).getD .nil)
  | _ => .ok .nil

/-- The value of an item without a section. -/
def convert (toUtc : Bool) (name : String) (v : Value) : Checked Value :=
  if name = "UID" then readUid v
  else if name = "INTERNALDATE" then readInternalDate toUtc v
  else if name = "ENVELOPE" then .envelope <$> readEnvelope toUtc v
  else if name = "BODY" ∨ name = "BODYSTRUCTURE" then .body <$> readBody toUtc v
  else if name = "FLAGS" ∨ name = "X-GM-LABELS" then readFlags v
  else pure v

/-- The value that is kept of an item. -/
def converted (toUtc : Bool) (i : FetchItem) : Checked Value :=
  match i.part with
  | none => convert toUtc i.name i.value
  | some _ => pure i.value

/-- The text of a section in capitals, if there is one. -/
def partText? (items : Option (List Value)) : Checked (Option String) :=
  match items with
  | none => pure none
  | some items => (fun text => some (Text.upper text)) <$> textOf items

/-- An item, where its value is in front of `behind`. -/
def itemOf (context : String) (name : String) (part : Option String)
    (origin : Option Bytes) (behind : List Value) : Checked (FetchItem × List Value) :=
  match behind with
  | [] => throw ⟨.parse 0 (.noItemValue (FetchItem.keyText name part origin)) context, nofun⟩
  | value :: behind => pure (⟨name, part, origin, value⟩, behind)

/-- The first item of a list, and the values behind it; `context` is the text of the whole list. -/
def readFirst (context : String) (name : Value) (rest : List Value) :
    Checked (FetchItem × List Value) :=
  match name with
  | .bytes name => do
    let (items, rest) := FetchItem.takePart rest
    let part ← partText? items
    let (origin, rest) := if part.isSome then FetchItem.takeOrigin rest else (none, rest)
    itemOf context (keyOf name) part origin rest
  | other => throw ⟨.parse 0 (.itemName other.kind) context, nofun⟩

theorem readFlags_gives (h : v.dates = []) : Gives (readFlags v) (FetchItem.readFlags v) := by
  match v with
  | .nil => exact gives_pure _
  | .group .round items =>
    exact (strings_gives "flag" (show Value.datesAll items = [] from h)).map Value.flags
  | .group .square _ | .int _ | .bytes _ | .flags _ | .stamp _ | .envelope _ | .address _
  | .body _ => exact wrong_gives _ h

theorem readUid_gives (h : v.dates = []) : Gives (readUid v) (FetchItem.readUid v) := by
  cases v with
  | int n => exact (number32_gives _ h).map fun _ => Value.int n
  | _ => exact wrong_gives _ h

theorem readInternalDate_eq (toUtc : Bool) (v : Value) :
    readInternalDate toUtc v = .ok (FetchItem.readInternalDate toUtc v) := by
  cases v with
  | bytes text =>
    show (readDate text toUtc >>= _) = _
    rw [readDate_eq]
    rfl
  | _ => rfl

theorem convert_gives (toUtc : Bool) (name : String) (h : v.dates = []) :
    Gives (convert toUtc name v) (FetchItem.convert toUtc name v) := by
  unfold convert FetchItem.convert
  by_cases huid : name = "UID"
  · rw [if_pos huid, if_pos huid]
    exact readUid_gives h
  rw [if_neg huid, if_neg huid]
  by_cases hdate : name = "INTERNALDATE"
  · rw [if_pos hdate, if_pos hdate, readInternalDate_eq]
    exact gives_pure _
  rw [if_neg hdate, if_neg hdate]
  by_cases henvelope : name = "ENVELOPE"
  · rw [if_pos henvelope, if_pos henvelope]
    exact (readEnvelope_gives toUtc h).map Value.envelope
  rw [if_neg henvelope, if_neg henvelope]
  by_cases hbody : name = "BODY" ∨ name = "BODYSTRUCTURE"
  · rw [if_pos hbody, if_pos hbody]
    exact (readBody_gives toUtc v h).map Value.body
  rw [if_neg hbody, if_neg hbody]
  by_cases hflags : name = "FLAGS" ∨ name = "X-GM-LABELS"
  · rw [if_pos hflags, if_pos hflags]
    exact readFlags_gives h
  rw [if_neg hflags, if_neg hflags]
  exact gives_pure v

theorem converted_gives (toUtc : Bool) {i : FetchItem} (h : i.value.dates = []) :
    Gives (converted toUtc i) (i.converted toUtc) := by
  unfold converted FetchItem.converted
  cases i.part with
  | none => exact convert_gives toUtc i.name h
  | some part => exact gives_pure i.value

/-- The text of a section shows no envelope date. -/
theorem partText?_gives {items : List Value} (h : Value.datesAll items = []) :
    Gives (partText? (some items)) ((FetchItem.partText items).map some) := by
  obtain ⟨ts, hts, htext⟩ := textOf_eq h
  have hpart : FetchItem.partText items = .ok (Text.upper (Tree.render ts)) := by
    unfold FetchItem.partText Value.render?
    rw [hts]
    rfl
  unfold partText?
  dsimp only
  rw [htext, hpart]
  exact gives_pure _

theorem itemOf_gives (whole : List Tree) (name : String) (part : Option String)
    (origin : Option Bytes) (behind : List Value) :
    Gives (itemOf (Tree.render whole) name part origin behind) (match behind with
      | [] => .error (.parse 0 (.noItemValue (FetchItem.keyText name part origin))
          (Tree.render whole))
      | value :: behind => .ok (⟨name, part, origin, value⟩, behind)) := by
  cases behind with
  | nil => exact gives_throw _
  | cons value behind => exact gives_pure _

/-- **An item** is taken off a list. -/
theorem readFirst_gives (whole : List Tree) (name : Value) (h : Value.datesAll vs = []) :
    Gives (readFirst (Tree.render whole) name vs) (FetchItem.first whole name vs) := by
  cases name with
  | bytes name =>
    have hpart : ∀ items ∈ (FetchItem.takePart vs).1, Value.datesAll items = [] := by
      intro items hitems
      unfold FetchItem.takePart at hitems
      split at hitems
      · next items' _ =>
        obtain rfl : items' = items := Option.some.inj hitems
        have hgroup : (Value.group .square items').dates = [] := dates_of_mem h List.mem_cons_self
        exact hgroup
      · cases hitems
    unfold readFirst FetchItem.first
    dsimp only
    generalize FetchItem.takePart vs = taken at hpart ⊢
    obtain ⟨items, behind⟩ := taken
    cases items with
    | none => exact (gives_pure none).bind fun part => itemOf_gives whole _ part _ _
    | some items =>
      exact (partText?_gives (hpart items rfl)).bind fun part => itemOf_gives whole _ part _ _
  | _ => exact gives_throw _

/-- What a reader gives came through its first step. -/
theorem exists_of_run_bind {α β : Type} {c : Checked α} {f : α → Checked β} {b : β}
    (h : (c >>= f).run = .ok (.ok b)) : ∃ a, (f a).run = .ok (.ok b) := by
  have hcont : (c.run >>= ExceptT.bindCont f) = .ok (.ok b) := h
  cases hc : c.run with
  | error trap =>
    rw [hc] at hcont
    cases hcont
  | ok s =>
    rw [hc] at hcont
    cases s with
    | error e => cases hcont
    | ok a => exact ⟨a, hcont⟩

theorem length_of_itemOf {context name : String} {part : Option String} {origin : Option Bytes}
    {rest : List Value} {i : FetchItem}
    (h : (itemOf context name part origin vs).run = .ok (.ok (i, rest))) :
    rest.length ≤ vs.length := by
  cases vs with
  | nil => cases h
  | cons value behind =>
    cases h
    exact Nat.le_succ _

/-- An item uses up at least its name and its value. -/
theorem length_readFirst_le {context : String} {name : Value} {rest : List Value} {i : FetchItem}
    (h : (readFirst context name vs).run = .ok (.ok (i, rest))) : rest.length ≤ vs.length := by
  cases name with
  | bytes name =>
    obtain ⟨part, hitem⟩ := exists_of_run_bind h
    have hpart := FetchItem.length_takePart_le vs
    have horigin := FetchItem.length_takeOrigin_le (FetchItem.takePart vs).2
    cases part with
    | none => exact Nat.le_trans (length_of_itemOf hitem) hpart
    | some text => exact Nat.le_trans (length_of_itemOf hitem) (Nat.le_trans horigin hpart)
  | _ => cases h

/-! ## Messages -/

/-- Reads the items of a list into a table; `context` is the text of the whole list. -/
def readItems (context : String) (toUtc : Bool) (items : Table String Value) :
    List Value → Checked (Table String Value)
  | [] => pure items
  | name :: rest =>
    match _h : (readFirst context name rest).run with
    | .error trap => stop trap
    | .ok (.error e) => throw e
    | .ok (.ok (item, behind)) => do
      let value ← converted toUtc item
      readItems context toUtc (items.insert item.key value) behind
termination_by vs => vs.length
decreasing_by
  have := length_readFirst_le _h
  simp only [List.length_cons]
  omega

/-- Reads the items of a message. -/
def readRecord (seq : UInt32) (vs : List Value) (options : Options) : Checked FetchRecord := do
  let context ← textOf vs
  (fun items => ⟨seq, items⟩) <$> readItems context options.toUtc Table.empty vs

/-- Reads the messages of a sequence of values. -/
def readMessages (options : Options) (rs : Table UInt32 FetchRecord) (vs : List Value) :
    Checked (Table UInt32 FetchRecord) :=
  match _hstar : FetchRecord.dropStar vs with
  | [] => pure rs
  | seq :: rest => do
    let seq ← number32 "message id" seq
    match _hname : FetchRecord.dropName rest with
    | .group .round items :: behind => do
      let r ← readRecord seq items options
      readMessages options (FetchRecord.collect options rs r) behind
    | other :: _ => wrong "FETCH item list" other
    | [] => throw ⟨.parse 0 .endOfFetch (toString seq.toNat), nofun⟩
termination_by vs.length
decreasing_by
  have h1 := FetchRecord.length_dropStar_le vs
  have h2 := FetchRecord.length_dropName_le rest
  rw [_hstar] at h1
  rw [_hname] at h2
  simp only [List.length_cons] at h1 h2
  omega

/-- The item in front is one step of the loop. -/
theorem readItems_cons (context : String) (toUtc : Bool) (items : Table String Value)
    (name : Value) (rest : List Value) :
    readItems context toUtc items (name :: rest) =
      readFirst context name rest >>= fun taken => converted toUtc taken.1 >>= fun value =>
        readItems context toUtc (items.insert taken.1.key value) taken.2 := by
  have hrun : ∀ f : FetchItem × List Value → Checked (Table String Value),
      readFirst context name rest >>= f
        = ExceptT.mk ((readFirst context name rest).run >>= ExceptT.bindCont f) := fun f => rfl
  rw [readItems, hrun]
  split
  · next trap hfirst =>
    rw [hfirst]
    rfl
  · next e hfirst =>
    rw [hfirst]
    rfl
  · next item behind hfirst =>
    rw [hfirst]
    rfl

/-- What is taken off a list has as few envelope dates as the list. -/
theorem dates_of_first {whole : List Tree} {name : Value} {rest : List Value} {i : FetchItem}
    (h : FetchItem.first whole name vs = .ok (i, rest)) (hvs : Value.datesAll (name :: vs) = []) :
    i.value.dates = [] ∧ Value.datesAll rest = [] := by
  obtain ⟨front, hmade, hsplit⟩ := FetchItem.first_eq_ok_iff.1 h
  rw [hsplit] at hvs
  constructor
  · exact dates_of_mem hvs (List.mem_append_left rest (FetchRecord.value_mem_of_madeOf hmade))
  · exact Value.datesAll_of_subset (List.subset_append_right front rest) hvs

/-- **The items of a list** are read, whatever they are. -/
theorem readItems_gives (whole : List Tree) (toUtc : Bool) (items : Table String Value)
    (vs : List Value) (h : Value.datesAll vs = []) :
    Gives (readItems (Tree.render whole) toUtc items vs)
      (FetchRecord.readItems whole toUtc items vs) := by
  fun_induction FetchRecord.readItems whole toUtc items vs with
  | case1 items =>
    rw [readItems]
    exact gives_pure items
  | case2 items name rest e hfirst =>
    have hrest := Value.datesAll_of_subset (List.subset_cons_self name rest) h
    have hgives := readFirst_gives whole name hrest
    rw [hfirst] at hgives
    rw [readItems_cons]
    exact hgives.bind_error _
  | case3 items name rest i behind hfirst ih =>
    have hrest := Value.datesAll_of_subset (List.subset_cons_self name rest) h
    have hgives := readFirst_gives whole name hrest
    rw [hfirst] at hgives
    obtain ⟨hvalue, hbehind⟩ := dates_of_first hfirst h
    rw [readItems_cons]
    exact hgives.bind_ok ((converted_gives toUtc hvalue).bind fun value => ih value hbehind)

theorem readRecord_gives (seq : UInt32) (options : Options) (h : Value.datesAll vs = []) :
    Gives (readRecord seq vs options) (FetchRecord.read seq vs options) := by
  obtain ⟨ts, hts, htext⟩ := textOf_eq h
  unfold readRecord FetchRecord.read
  rw [htext, hts, pure_bind]
  exact (readItems_gives ts options.toUtc Table.empty vs h).map (FetchRecord.mk seq)

theorem subset_dropStar (vs : List Value) : FetchRecord.dropStar vs ⊆ vs := by
  unfold FetchRecord.dropStar
  split
  · split
    · exact List.subset_cons_self _ _
    · exact List.Subset.refl _
  · exact List.Subset.refl _

theorem subset_dropName (vs : List Value) : FetchRecord.dropName vs ⊆ vs := by
  unfold FetchRecord.dropName
  split
  · split
    · exact List.subset_cons_self _ _
    · exact List.Subset.refl _
  · exact List.Subset.refl _

/-- **The messages of a response** are read. -/
theorem readMessages_gives (options : Options) (rs : Table UInt32 FetchRecord) (vs : List Value)
    (h : Value.datesAll vs = []) :
    Gives (readMessages options rs vs) (FetchRecord.readMessages options rs vs) := by
  fun_induction FetchRecord.readMessages options rs vs with
  | case1 rs vs hstar =>
    rw [readMessages]
    split
    · exact gives_pure rs
    · next heq =>
      rw [hstar] at heq
      cases heq
  | case2 rs vs number rest hstar ih =>
    rw [readMessages]
    split
    · next heq =>
      rw [hstar] at heq
      cases heq
    · next number' rest' heq =>
      rw [hstar] at heq
      cases heq
      have htail : Value.datesAll (number :: rest) = [] :=
        Value.datesAll_of_subset (hstar ▸ subset_dropStar vs) h
      have hrest : Value.datesAll rest = [] :=
        Value.datesAll_of_subset (List.subset_cons_self number rest) htail
      refine (number32_gives _ (dates_of_mem htail List.mem_cons_self)).bind fun seq => ?_
      have hnamed : Value.datesAll (FetchRecord.dropName rest) = [] :=
        Value.datesAll_of_subset (subset_dropName rest) hrest
      generalize FetchRecord.dropName rest = named at ih hnamed ⊢
      cases named with
      | nil => exact gives_throw _
      | cons list behind =>
        have hlist : list.dates = [] := dates_of_mem hnamed List.mem_cons_self
        have hbehind : Value.datesAll behind = [] :=
          Value.datesAll_of_subset (List.subset_cons_self list behind) hnamed
        cases list with
        | group k items =>
          cases k with
          | round =>
            exact (readRecord_gives seq options hlist).bind fun r => ih items behind rfl r hbehind
          | square => exact wrong_gives _ hlist
        | _ => exact wrong_gives _ hlist

end Guarded

end ImapWire
