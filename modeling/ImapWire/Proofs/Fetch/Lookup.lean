/-
  Which items can be looked up.

  An item is looked up by the capitals of the name that is asked for, so it is found under every
  spelling of its key if the key is in capitals, and under none if it is not.  A key is put together
  from three parts: the name and the section are raised, **the origin is not**.

    1. **The items of a record** (`ItemsOf`, `Built`): a record that was read has those of its list,
       a merged one those of both; its keys are the keys of its items (`isSome_of_built`), and
       whatever is read from a response is built in this way (`built_of_parseAll`).
    2. **The keys** (`FetchItem.upper_key_iff`): a key is in capitals exactly if no small letter is
       in the origin.
    3. **Looking up** (`get?_of_built`): what becomes of each item under all spellings of its key.
-/
import ImapWire.Proofs.Fetch.Messages
import ImapWire.Proofs.Text.Capitals

namespace ImapWire

/-! ## Keys -/

namespace FetchItem

/-- No small letter is in the origin of an item, if it has one. -/
def HasRaisedOrigin (i : FetchItem) : Prop := ∀ o ∈ i.origin, ∀ b ∈ o, Bytes.isSmall b = false

instance (i : FetchItem) : Decidable i.HasRaisedOrigin :=
  inferInstanceAs (Decidable (∀ o ∈ i.origin, ∀ b ∈ o, Bytes.isSmall b = false))

theorem upper_of_partText {items : List Value} {text : String} (h : partText items = .ok text) :
    Text.upper text = text := by
  unfold partText at h
  split at h
  · cases h
    exact Text.upper_upper _
  · cases h

/-- **A key is in capitals exactly if no small letter is in the origin**: the name and the section
    are always raised. -/
theorem upper_key_iff {i : FetchItem} {front : List Value} (h : MadeOf i front) :
    Text.upper i.key = i.key ↔ i.HasRaisedOrigin := by
  have hopen : Text.upper "[" = "[" := by decide +kernel
  have hclose : Text.upper "]" = "]" := by decide +kernel
  have hempty : Text.upper "" = "" := by decide +kernel
  cases h with
  | plain name hv => simp [key, keyText, HasRaisedOrigin, Bytes.upper_keyOf]
  | part name htext hv =>
    simp [key, keyText, HasRaisedOrigin, Text.upper_append, Bytes.upper_keyOf, hopen, hclose,
      upper_of_partText htext]
  | @origin name items text o v htext ho =>
    have hfront : Text.upper (keyOf name ++ "[" ++ text ++ "]") = keyOf name ++ "[" ++ text ++ "]" := by
      simp only [Text.upper_append, Bytes.upper_keyOf, hopen, hclose, upper_of_partText htext]
    show Text.upper (keyOf name ++ "[" ++ text ++ "]" ++ o.text)
      = keyOf name ++ "[" ++ text ++ "]" ++ o.text ↔ _
    rw [Text.upper_append_eq_self_iff, Bytes.upper_text_eq_iff]
    simp [hfront, HasRaisedOrigin]

end FetchItem

namespace FetchRecord

open FetchItem (MadeOf)

/-! ## The items of a record -/

/-- The items that some values are, one after the other. -/
inductive ItemsOf : List FetchItem → List Value → Prop
  | nil : ItemsOf [] []
  | cons {i : FetchItem} {is : List FetchItem} {front vs : List Value} (hmade : MadeOf i front)
      (hlater : ItemsOf is vs) : ItemsOf (i :: is) (front ++ vs)

/-- Records built from read ones by taking later ones in, with all items that were read. -/
inductive Built : List FetchItem → FetchRecord → Prop
  | read {seq : UInt32} {vs : List Value} {options : Options} {r : FetchRecord}
      {is : List FetchItem} (hitems : ItemsOf is vs) (hread : FetchRecord.read seq vs options = .ok r) :
      Built is r
  | merge {is js : List FetchItem} {r later : FetchRecord} (h : Built is r)
      (hlater : Built js later) : Built (is ++ js) (r.merge later)

variable {whole : List Tree} {toUtc : Bool} {items items' : Table String Value}
  {is : List FetchItem} {vs : List Value} {r : FetchRecord}

/-- What is read is made of items. -/
theorem exists_itemsOf (h : readItems whole toUtc items vs = .ok items') : ∃ is, ItemsOf is vs := by
  fun_induction readItems whole toUtc items vs with
  | case1 items => exact ⟨[], .nil⟩
  | case2 items n rest e hfirst => cases h
  | case3 items n rest i behind hfirst ih =>
    obtain ⟨front, hmade, hfront⟩ := FetchItem.first_eq_ok_iff.1 hfirst
    obtain ⟨v, -, hrest⟩ := Result.bind_eq_ok.1 h
    obtain ⟨is, his⟩ := ih v hrest
    exact ⟨i :: is, hfront ▸ .cons hmade his⟩

/-- **The keys of a table** that items were read into: those that were there, and theirs. -/
theorem isSome_of_readItems (his : ItemsOf is vs)
    (h : readItems whole toUtc items vs = .ok items') (k : String) :
    (items'.get? k).isSome = true ↔ (items.get? k).isSome = true ∨ ∃ i ∈ is, i.key = k := by
  induction his generalizing items with
  | nil =>
    rw [readItems] at h
    cases h
    simp
  | @cons i is front vs hmade _ ih =>
    obtain ⟨n, tail, rfl, hfirst⟩ := FetchItem.first_of_madeOf whole hmade
    rw [List.cons_append, readItems_of_ok (hfirst vs)] at h
    obtain ⟨v, -, hrest⟩ := Result.bind_eq_ok.1 h
    rw [ih hrest, Table.get?_insert, List.exists_mem_cons_iff]
    by_cases hk : k = i.key
    · simp [hk]
    · simp [hk, Ne.symm hk]

/-- **The keys of a record are those of its items**, merged or not. -/
theorem isSome_of_built (h : Built is r) (k : String) :
    (r.items.get? k).isSome = true ↔ ∃ i ∈ is, i.key = k := by
  induction h with
  | read hitems hread =>
    obtain ⟨whole, items, -, hstored, rfl⟩ := read_eq_ok_iff.1 hread
    rw [isSome_of_readItems hitems hstored]
    simp [Table.get?, Table.empty, Table.find?]
  | @merge is js r later _ _ ih ihlater =>
    show (((r.items.merge later.items)).get? k).isSome = true ↔ _
    rw [Table.get?_merge, Option.isSome_or, Bool.or_eq_true, ih, ihlater]
    simp only [List.mem_append, or_and_right, exists_or]
    exact or_comm

/-- Every item of a record is made of values. -/
theorem madeOf_of_built (h : Built is r) : ∀ i ∈ is, ∃ front, MadeOf i front := by
  have hlist : ∀ {is : List FetchItem} {vs : List Value}, ItemsOf is vs →
      ∀ i ∈ is, ∃ front, MadeOf i front := by
    intro is vs his
    induction his with
    | nil => nofun
    | cons hmade _ ih => exact List.forall_mem_cons.2 ⟨⟨_, hmade⟩, ih⟩
  induction h with
  | read hitems _ => exact hlist hitems
  | merge _ _ ih ihlater => exact List.forall_mem_append.2 ⟨ih, ihlater⟩

/-- A record that was read is built from its items. -/
theorem built_of_read {seq : UInt32} {options : Options} (h : read seq vs options = .ok r) :
    ∃ is, ItemsOf is vs ∧ Built is r := by
  obtain ⟨whole, items, -, hitems, rfl⟩ := read_eq_ok_iff.1 h
  obtain ⟨is, his⟩ := exists_itemsOf hitems
  exact ⟨is, his, .read his h⟩

/-- Records merged in order are built, if each of them is. -/
theorem built_of_mergeAll {rs : List FetchRecord} (hrs : ∀ r ∈ rs, ∃ is, Built is r)
    (h : mergeAll rs = some r) : ∃ is, Built is r := by
  have hfold : ∀ (rs : List FetchRecord) (r₀ : FetchRecord), (∃ is, Built is r₀) →
      (∀ r ∈ rs, ∃ is, Built is r) → ∃ is, Built is (rs.foldl merge r₀) := by
    intro rs
    induction rs with
    | nil => exact fun r₀ h₀ _ => h₀
    | cons r₁ rs ih =>
      intro r₀ ⟨is, h₀⟩ hlater
      obtain ⟨⟨js, h₁⟩, hlater⟩ := List.forall_mem_cons.1 hlater
      exact ih (r₀.merge r₁) ⟨is ++ js, .merge h₀ h₁⟩ hlater
  cases rs with
  | nil => cases h
  | cons r₀ rs =>
    cases h
    obtain ⟨h₀, hlater⟩ := List.forall_mem_cons.1 hrs
    exact hfold rs r₀ h₀ hlater

/-- **Every record of a response is built** from records that were read. -/
theorem built_of_parseAll {chunks : List Chunk} {options : Options}
    {table : Table UInt32 FetchRecord} (h : parseAll chunks options = .ok table) {k : UInt32}
    (hr : table.get? k = some r) : ∃ is, Built is r := by
  obtain ⟨trees, rs, -, hsent, rfl⟩ := parseAll_eq_ok_iff.1 h
  rw [get?_foldl_collect] at hr
  refine built_of_mergeAll ?_ hr
  intro r' hr'
  have hmem : r' ∈ ofKey options k rs := hr'
  have hread : ∀ r' ∈ rs, ∃ is, Built is r' := by
    refine hsent.forall_read ?_
    intro seq items r' _ hread
    obtain ⟨is, -, hbuilt⟩ := built_of_read hread
    exact ⟨is, hbuilt⟩
  exact hread r' (mem_ofKey.1 hmem).1

/-! ## Looking up -/

/-- All spellings of a name are looked up alike. -/
theorem get?_of_sameName (r : FetchRecord) {n k : String} (h : Text.sameName n k = true) :
    r.get? n = r.items.get? (Text.upper k) := by
  rw [get?, Text.sameName_iff.1 h]

/-- **Which items can be looked up.**  Whatever is read, from a list or from a response, and merged
    is built from items, and its keys are theirs.  All keys are in capitals exactly if no origin
    holds a small letter; more precisely, each key is exactly if the origin of its item holds none.
    An item whose key is in capitals is found under every spelling of it, and no other such key is
    spelled like it.  Any other item is found under no spelling of its key: what is found there is
    the item of another key, the capitals of this one, if there is one. -/
theorem get?_of_built (options : Options) :
    (∀ seq vs r, read seq vs options = .ok r → ∃ is, ItemsOf is vs ∧ Built is r) ∧
    (∀ chunks table k r, parseAll chunks options = .ok table → table.get? k = some r →
      ∃ is, Built is r) ∧
    ∀ is r, Built is r →
      (∀ k, (r.items.get? k).isSome = true ↔ ∃ i ∈ is, i.key = k) ∧
      ((∀ k v, r.items.get? k = some v → Text.upper k = k) ↔ ∀ i ∈ is, i.HasRaisedOrigin) ∧
      (∀ i ∈ is, i.HasRaisedOrigin → ∀ n, Text.sameName n i.key = true →
        (r.get? n).isSome = true ∧ r.get? n = r.items.get? i.key ∧
          ∀ j ∈ is, j.HasRaisedOrigin → Text.sameName n j.key = true → j.key = i.key) ∧
      (∀ i ∈ is, ¬ i.HasRaisedOrigin → ∀ n, Text.sameName n i.key = true →
        Text.upper i.key ≠ i.key ∧ r.get? n = r.items.get? (Text.upper i.key) ∧
          ((r.get? n).isSome = true ↔
            ∃ j ∈ is, j.HasRaisedOrigin ∧ j.key = Text.upper i.key)) := by
  refine ⟨fun _ _ _ => built_of_read, fun _ _ _ _ h hr => built_of_parseAll h hr, ?_⟩
  intro is r h
  have hkeys := isSome_of_built h
  have hupper : ∀ i ∈ is, (Text.upper i.key = i.key ↔ i.HasRaisedOrigin) := by
    intro i hi
    obtain ⟨front, hmade⟩ := madeOf_of_built h i hi
    exact FetchItem.upper_key_iff hmade
  refine ⟨hkeys, ⟨?_, ?_⟩, ?_, ?_⟩
  · intro hall i hi
    obtain ⟨v, hv⟩ := Option.isSome_iff_exists.1 ((hkeys i.key).2 ⟨i, hi, rfl⟩)
    exact (hupper i hi).1 (hall i.key v hv)
  · intro hall k v hv
    obtain ⟨i, hi, rfl⟩ := (hkeys k).1 (by rw [hv]; rfl)
    exact (hupper i hi).2 (hall i hi)
  · intro i hi hraised n hn
    have hkey := (hupper i hi).2 hraised
    have hget : r.get? n = r.items.get? i.key := by rw [get?_of_sameName r hn, hkey]
    refine ⟨?_, hget, ?_⟩
    · rw [hget, hkeys]
      exact ⟨i, hi, rfl⟩
    · intro j hj hjraised hjn
      rw [← (hupper j hj).2 hjraised, ← hkey, ← Text.sameName_iff.1 hjn, Text.sameName_iff.1 hn]
  · intro i hi hsmall n hn
    have hget := get?_of_sameName r hn
    refine ⟨fun hkey => hsmall ((hupper i hi).1 hkey), hget, ?_⟩
    rw [hget, hkeys]
    constructor
    · rintro ⟨j, hj, hjkey⟩
      -- a key that is the capitals of something is in capitals
      exact ⟨j, hj, (hupper j hj).1 (by rw [hjkey, Text.upper_upper]), hjkey⟩
    · rintro ⟨j, hj, -, hjkey⟩
      exact ⟨j, hj, hjkey⟩

theorem get?_ofList_one (k k' : String) (v : Value) :
    (Table.ofList [(k, v)]).get? k' = if k' = k then some v else none :=
  Table.get?_insert Table.empty k k' v

/-- A part of a message from an origin on: it is stored under the origin as it is written. -/
theorem built_of_origin {o : Bytes} (ho : FetchItem.isOrigin o = true) (seq : UInt32) (c : Bytes) :
    ∃ r, read seq (FetchItem.sectionValues [] o ++ [.bytes c]) default = .ok r ∧
      Built [⟨"BODY", some "", some o, .bytes c⟩] r ∧
      r.items = Table.ofList [("BODY[]" ++ o.text, .bytes c)] := by
  have htext : FetchItem.partText [] = .ok "" := by rfl
  have hkey : FetchItem.sectionKey [] = "BODY[]" := by decide +kernel
  have hmade : MadeOf ⟨"BODY", some "", some o, .bytes c⟩
      (FetchItem.sectionValues [] o ++ [.bytes c]) :=
    .origin (Bytes.ofString "BODY") (.bytes c) htext ho
  have hwhole : Value.treeAll? (FetchItem.sectionValues [] o ++ [.bytes c]) =
      some [.bytes (Bytes.ofString "BODY"), .group .square [], .bytes o, .bytes c] :=
    Value.treeAll?_ofTrees
      [.bytes (Bytes.ofString "BODY"), .group .square [], .bytes o, .bytes c]
  have hread : read seq (FetchItem.sectionValues [] o ++ [.bytes c]) default =
      .ok ⟨seq, Table.ofList [("BODY[]" ++ o.text, .bytes c)]⟩ := by
    refine read_eq_ok_iff.2 ⟨_, _, hwhole, ?_, rfl⟩
    rw [readItems_section_origin ho, readItems, hkey]
    rfl
  refine ⟨_, hread, .read ?_ hread, rfl⟩
  rw [← List.append_nil (_ ++ _)]
  exact .cons hmade .nil

/-- A part from `<0>` on is found, whatever else was taken in, and one from `<a>` on is not. -/
theorem get?_of_built_parts :
    ∃ r later,
      read 7 (FetchItem.sectionValues [] (Bytes.ofString "<0>") ++ [.bytes [0x78]]) default = .ok r ∧
      read 7 (FetchItem.sectionValues [] (Bytes.ofString "<a>") ++ [.bytes [0x79]]) default
        = .ok later ∧
      (∀ n, Text.sameName n "BODY[]<0>" = true →
        (r.merge later).get? n = some (.bytes [0x78])) ∧
      ∀ n, Text.sameName n "BODY[]<a>" = true → (r.merge later).get? n = none := by
  obtain ⟨r, hr, hbuilt, hitems⟩ :=
    built_of_origin (o := Bytes.ofString "<0>") (by decide) 7 [0x78]
  obtain ⟨later, hlater, hbuilt', hitems'⟩ :=
    built_of_origin (o := Bytes.ofString "<a>") (by decide) 7 [0x79]
  obtain ⟨-, -, hfound, hlost⟩ := (get?_of_built default).2.2 _ _ (.merge hbuilt hbuilt')
  refine ⟨r, later, hr, hlater, ?_, ?_⟩
  · intro n hn
    have hraised : FetchItem.HasRaisedOrigin
        ⟨"BODY", some "", some (Bytes.ofString "<0>"), .bytes [0x78]⟩ := by decide +kernel
    obtain ⟨-, hget, -⟩ := hfound _ List.mem_cons_self hraised n hn
    rw [hget, merge, Table.get?_merge, hitems, hitems', get?_ofList_one, get?_ofList_one,
      if_neg (by decide +kernel), if_pos (by decide +kernel)]
    rfl
  · intro n hn
    have hsmall : ¬ FetchItem.HasRaisedOrigin
        ⟨"BODY", some "", some (Bytes.ofString "<a>"), .bytes [0x79]⟩ := by decide +kernel
    obtain ⟨-, -, hiff⟩ := hlost _ (List.mem_cons_of_mem _ List.mem_cons_self) hsmall n hn
    rw [← Option.not_isSome_iff_eq_none, hiff]
    decide +kernel

/-- **A part that is stored and cannot be looked up**: its key is not in capitals, and no spelling
    finds it. -/
theorem get?_lost :
    ¬ ∀ seq vs options r, read seq vs options = .ok r →
      ∀ k v, r.items.get? k = some v → Text.upper k = k ∧ r.get? k = some v := by
  intro hall
  obtain ⟨r, hr, -, hitems⟩ := built_of_origin (o := Bytes.ofString "<a>") (by decide) 0 [0x78]
  obtain ⟨hkey, -⟩ := hall _ _ _ r hr "BODY[]<a>" (.bytes [0x78]) (by
    rw [hitems, get?_ofList_one, if_pos (by decide +kernel)])
  exact absurd hkey (by decide +kernel)

end FetchRecord
end ImapWire
