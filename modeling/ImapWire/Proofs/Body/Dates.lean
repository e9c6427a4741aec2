/-
  Where the dates of read records come from.

  An envelope has a date if its first field is a text that can be read as one.  A body structure has
  the dates of its attached messages, however deep: `Body.DateText v text` says that `text` stands
  where such a date is read.  Nothing else in a list is a date: out of values without envelope dates
  come structures all of whose dates were read from these texts, and every such text that can be
  read is one of the dates (`Body.read_dates`).
-/
import ImapWire.Proofs.Body.Rules
import ImapWire.Proofs.Value.Form

namespace ImapWire

/-! ## Values without dates -/

namespace Value

theorem datesAll_eq_nil_iff (vs : List Value) : datesAll vs = [] ↔ ∀ v ∈ vs, v.dates = [] := by
  induction vs with
  | nil => simp [datesAll]
  | cons v vs ih => simp [datesAll, ih]

/-- Values taken out of values without dates have none. -/
theorem datesAll_of_subset {vs ws : List Value} (hsub : vs ⊆ ws) (h : datesAll ws = []) :
    datesAll vs = [] := by
  rw [datesAll_eq_nil_iff] at h ⊢
  intro v hv
  exact h v (hsub hv)

mutual
/-- Where nothing is understood there are no envelopes. -/
theorem dates_ofTree (t : Tree) : (ofTree t).dates = [] := by
  cases t with
  | int n => rfl
  | bytes bs => rfl
  | nil => rfl
  | group b items => exact datesAll_ofTrees items

theorem datesAll_ofTrees (ts : List Tree) : datesAll (ofTrees ts) = [] := by
  cases ts with
  | nil => rfl
  | cons t ts =>
    show (ofTree t).dates ++ datesAll (ofTrees ts) = []
    rw [dates_ofTree, datesAll_ofTrees, List.append_nil]
end

theorem sizeOf_lt_group {b : Bracket} (items : List Value) : sizeOf items < sizeOf (group b items) := by
  rw [group.sizeOf_spec]
  omega

theorem sizeOf_lt_group_of_mem {b : Bracket} {items : List Value} {v : Value} (h : v ∈ items) :
    sizeOf v < sizeOf (group b items) :=
  Nat.lt_trans (List.sizeOf_lt_of_mem h) (sizeOf_lt_group items)

end Value

/-! ## Envelopes -/

namespace Envelope

/-- The text in the date field of an envelope. -/
inductive DateText : Value → Bytes → Prop
  | intro (text : Bytes) (rest : List Value) : DateText (.group .round (.bytes text :: rest)) text

/-- The date of an envelope is what its date text is read as. -/
theorem mem_date_iff {toUtc : Bool} {v : Value} {e : Envelope} {s : Stamp}
    (h : read toUtc v = .ok e) :
    s ∈ e.date.toList ↔ ∃ text, DateText v text ∧ Stamp.read? text toUtc = some s := by
  obtain ⟨date, rest, rfl, hdate⟩ := date_of_read h
  rw [Option.mem_toList, hdate]
  constructor
  · intro hs
    cases date with
    | bytes text => exact ⟨text, .intro text rest, hs⟩
    | _ => cases hs
  · rintro ⟨text, ⟨⟩, hs⟩
    exact hs

end Envelope

/-! ## Body structures -/

namespace Body

/-- A text that is read as the date of an attached message. -/
inductive DateText : Value → Bytes → Prop
  | part {items : List Value} {v : Value} {text : Bytes} (hv : v ∈ items.takeWhile Value.isList)
      (h : DateText v text) : DateText (.group .round items) text
  | envelope {items rest : List Value} {head : PartHead} {envelope body : Value} {text : Bytes}
      (hattaches : Attaches items head envelope body rest) (h : Envelope.DateText envelope text) :
      DateText (.group .round items) text
  | attached {items rest : List Value} {head : PartHead} {envelope body : Value} {text : Bytes}
      (hattaches : Attaches items head envelope body rest) (h : DateText body text) :
      DateText (.group .round items) text

theorem Attaches.head?_isList {items rest : List Value} {head : PartHead} {envelope body : Value}
    (h : Attaches items head envelope body rest) :
    (items.head?.map Value.isList).getD false = false := by
  obtain ⟨hhead, -, -, -⟩ := h
  exact isList_of_readHead hhead

theorem Attaches.unique {items rest rest' : List Value} {head head' : PartHead}
    {envelope envelope' body body' : Value} (h : Attaches items head envelope body rest)
    (h' : Attaches items head' envelope' body' rest') : envelope = envelope' ∧ body = body' := by
  cases h
  cases h'
  exact ⟨rfl, rfl⟩

theorem Attaches.subset {items rest : List Value} {head : PartHead} {envelope body : Value}
    (h : Attaches items head envelope body rest) : body ∈ items ∧ rest ⊆ items := by
  cases h
  refine ⟨by simp, ?_⟩
  intro v hv
  simp [hv]

/-- A list that starts with no list has no parts. -/
theorem takeWhile_isList_eq_nil {items : List Value}
    (h : (items.head?.map Value.isList).getD false = false) :
    items.takeWhile Value.isList = [] := by
  cases items with
  | nil => rfl
  | cons v vs =>
    have hv : v.isList = false := h
    rw [List.takeWhile_cons_of_neg (by rw [hv]; exact Bool.false_ne_true)]

theorem dateText_multipart {items : List Value} {text : Bytes}
    (hfirst : (items.head?.map Value.isList).getD false = true) :
    DateText (.group .round items) text ↔
      ∃ v ∈ items.takeWhile Value.isList, DateText v text := by
  constructor
  · intro h
    cases h with
    | part hv h => exact ⟨_, hv, h⟩
    | envelope hattaches h =>
      rw [hattaches.head?_isList] at hfirst
      cases hfirst
    | attached hattaches h =>
      rw [hattaches.head?_isList] at hfirst
      cases hfirst
  · rintro ⟨v, hv, h⟩
    exact .part hv h

theorem dateText_message {items rest : List Value} {head : PartHead} {envelope body : Value}
    {text : Bytes} (hattaches : Attaches items head envelope body rest) :
    DateText (.group .round items) text ↔
      Envelope.DateText envelope text ∨ DateText body text := by
  constructor
  · intro h
    cases h with
    | part hv h =>
      rw [takeWhile_isList_eq_nil hattaches.head?_isList] at hv
      cases hv
    | envelope hattaches' h =>
      rw [(hattaches.unique hattaches').1]
      exact .inl h
    | attached hattaches' h =>
      rw [(hattaches.unique hattaches').2]
      exact .inr h
  · rintro (h | h)
    · exact .envelope hattaches h
    · exact .attached hattaches h

/-- A single part without an attached message has no dates. -/
theorem not_dateText_part {mediaType subtype params id description encoding size : Value}
    {rest : List Value} {head : PartHead} {text : Bytes}
    (hhead : readHead mediaType subtype params id description encoding size = .ok head)
    (hnone : ∀ envelope body more, rest = envelope :: body :: more →
      (head.isMessage && envelope.isList && body.isList) = false) :
    ¬ DateText (.group .round
      (mediaType :: subtype :: params :: id :: description :: encoding :: size :: rest)) text := by
  have hnot : ∀ {head' envelope body more},
      ¬ Attaches (mediaType :: subtype :: params :: id :: description :: encoding :: size :: rest)
        head' envelope body more := by
    rintro head' envelope body more ⟨hhead', hmessage, henvelope, hbody⟩
    rw [hhead] at hhead'
    cases hhead'
    have hfalse := hnone envelope body more rfl
    rw [hmessage, henvelope, hbody] at hfalse
    cases hfalse
  have hfirst : mediaType.isList = false := isList_of_readHead hhead
  intro h
  cases h with
  | part hv h =>
    rw [List.takeWhile_cons_of_neg (by rw [hfirst]; exact Bool.false_ne_true)] at hv
    cases hv
  | envelope hattaches h => exact hnot hattaches
  | attached hattaches h => exact hnot hattaches

/-! ### Structures with extension data that has no dates -/

theorem dates_multipart {parts : List Body} {subtype : Bytes} {extension : List Value}
    (h : Value.datesAll extension = []) :
    (multipart parts subtype extension).dates = datesAll parts := by
  rw [dates, h, List.append_nil]

theorem dates_single {head : PartHead} {attached : Attached} {lines : Option UInt64}
    {extension : List Value} (h : Value.datesAll extension = []) :
    (single head attached lines extension).dates = attached.dates := by
  rw [dates, h, List.append_nil]

theorem isSome_value?_multipart (parts : List Body) (subtype : Bytes) (extension : List Value) :
    (multipart parts subtype extension).value?.isSome = (valueAll? parts).isSome := by
  cases h : valueAll? parts <;> simp [value?, h]

theorem isSome_value?_single (head : PartHead) (attached : Attached) (lines : Option UInt64)
    (extension : List Value) :
    (single head attached lines extension).value?.isSome = attached.values?.isSome := by
  cases h : attached.values? <;> simp [value?, h]

theorem isSome_values?_message (envelope : Envelope) (body : Body) :
    (Attached.message envelope body).values?.isSome
      = (envelope.tree?.isSome && body.value?.isSome) := by
  cases he : envelope.tree? <;> cases hb : body.value? <;> simp [Attached.values?, he, hb]

/-! ### All structures that are read -/

mutual
/-- **The dates of a structure are what its date texts are read as**, and it has a list of fields if
    they all can be written. -/
theorem read_dates {toUtc : Bool} (v : Value) {b : Body} (hv : v.dates = [])
    (h : read toUtc v = .ok b) :
    (∀ s, s ∈ b.dates ↔ ∃ text, DateText v text ∧ Stamp.read? text toUtc = some s) ∧
      b.value?.isSome = b.dates.all Stamp.isWritable := by
  obtain ⟨items, hlist, hmade⟩ := read_eq_ok_iff.1 h
  rw [hlist] at hv ⊢
  have hitems : Value.datesAll items = [] := hv
  cases hmade with
  | @multipart _ extension last parts subtype hfirst hcut hparts hsubtype =>
    obtain ⟨hdates, hsome⟩ := readParts_dates items hitems hparts
    have hmore : Value.datesAll extension = [] := by
      refine Value.datesAll_of_subset ?_ hitems
      intro v hv
      exact (List.dropWhile_sublist _).subset (hcut ▸ List.mem_cons_of_mem last hv)
    rw [dates_multipart hmore, isSome_value?_multipart]
    refine ⟨?_, hsome⟩
    intro s
    rw [hdates]
    constructor
    · rintro ⟨v, hv, text, htext, hs⟩
      exact ⟨text, (dateText_multipart hfirst).2 ⟨v, hv, htext⟩, hs⟩
    · rintro ⟨text, htext, hs⟩
      obtain ⟨v, hv, htext⟩ := (dateText_multipart hfirst).1 htext
      exact ⟨v, hv, text, htext, hs⟩
  | @message _ rest head envelopeValue bodyValue envelope body _ hattaches henvelope hbody htail =>
    obtain ⟨hmem, hsub⟩ := hattaches.subset
    have hbodyDates : bodyValue.dates = [] := (Value.datesAll_eq_nil_iff items).1 hitems _ hmem
    obtain ⟨hdates, hsome⟩ := read_dates bodyValue hbodyDates hbody
    obtain ⟨lines, extension, rfl, hsuffix⟩ := single_of_readTail htail
    have hmore : Value.datesAll extension = [] :=
      Value.datesAll_of_subset (fun v hv => hsub (hsuffix.subset hv)) hitems
    rw [dates_single hmore, isSome_value?_single, isSome_values?_message, Attached.dates]
    constructor
    · -- the date of the envelope, or one of the structure behind it
      intro s
      rw [List.mem_append, Envelope.mem_date_iff henvelope, hdates]
      simp only [dateText_message hattaches, or_and_right, exists_or]
    · rw [List.all_append, ← hsome, ← Envelope.isSome_tree?]
  | part hhead hnone htail =>
    obtain ⟨lines, extension, rfl, hsuffix⟩ := single_of_readTail htail
    have hmore : Value.datesAll extension = [] := by
      refine Value.datesAll_of_subset ?_ hitems
      intro v hv
      simp [hsuffix.subset hv]
    rw [dates_single hmore, isSome_value?_single]
    refine ⟨?_, rfl⟩
    intro s
    constructor
    · nofun
    · rintro ⟨text, htext, -⟩
      exact absurd htext (not_dateText_part hhead hnone)
termination_by sizeOf v
decreasing_by
  · exact hlist ▸ Value.sizeOf_lt_group items
  · exact hlist ▸ Value.sizeOf_lt_group_of_mem hmem

theorem readParts_dates {toUtc : Bool} (vs : List Value) {bs : List Body}
    (hvs : Value.datesAll vs = []) (h : readParts toUtc vs = .ok bs) :
    (∀ s, s ∈ datesAll bs ↔ ∃ v ∈ vs.takeWhile Value.isList, ∃ text,
        DateText v text ∧ Stamp.read? text toUtc = some s) ∧
      (valueAll? bs).isSome = (datesAll bs).all Stamp.isWritable := by
  cases vs with
  | nil =>
    cases h
    simp [datesAll, valueAll?]
  | cons v vs =>
    rw [readParts] at h
    split at h
    · next hlist =>
      obtain ⟨part, hpart, h⟩ := Result.bind_eq_ok.1 h
      obtain ⟨parts, hparts, h⟩ := Result.bind_eq_ok.1 h
      cases h
      have hboth : v.dates ++ Value.datesAll vs = [] := hvs
      obtain ⟨hv, hvs'⟩ := List.append_eq_nil_iff.1 hboth
      obtain ⟨hdates, hsome⟩ := read_dates v hv hpart
      obtain ⟨hdatesAll, hsomeAll⟩ := readParts_dates vs hvs' hparts
      constructor
      · intro s
        rw [datesAll, List.mem_append, hdates, hdatesAll, List.takeWhile_cons_of_pos hlist]
        simp only [List.mem_cons, or_and_right, exists_or, exists_eq_left]
      · rw [datesAll, List.all_append, ← hsome, ← hsomeAll]
        cases hp : part.value? <;> cases hps : valueAll? parts <;> simp [valueAll?, hp, hps]
    · next hlist =>
      cases h
      rw [List.takeWhile_cons_of_neg hlist]
      simp [datesAll, valueAll?]
termination_by sizeOf vs
end

end Body

end ImapWire
