/-
  A flat list of items is cut where its groups meet.

  A server sends the items of a message as groups: a name, perhaps a section of the message, perhaps
  the place in it where the data starts, and a value.  The list is flat, so the reader has to find
  out on its own where each group ends.

  1. **Groups** (`ItemGroup`).  A group that can be told from its neighbours (`Proper`) is made of
     the values of one item, so reading a flattened sequence is putting in one group after the other
     (`FetchRecord.readItems_flatMap`): **regrouping undoes flattening**, whatever the values hold.

  2. **What is there at the end.**  A group changes the value of its own key and of no other.  By
     induction on the groups, the keys are those of the groups (`isSome_of_putAll`), and a key has
     the value of the last group that has it (`get?_of_putAll`).

  3. **A list that is one value short** ends in a group without a value, and is refused
     (`FetchRecord.readItems_dropLast`).
-/
import ImapWire.Proofs.Fetch.Stored

namespace ImapWire

open FetchItem (MadeOf isOrigin)

/-! ## Groups -/

/-- What a server sends of one item. -/
structure ItemGroup where
  name : Bytes
  /-- The section, and the place in it where the data starts if that is given. -/
  part : Option (List Tree × Option Bytes)
  value : Tree

namespace ItemGroup

/-- The trees between the name and the value. -/
def partTrees : Option (List Tree × Option Bytes) → List Tree
  | none => []
  | some (items, origin) => .group .square items :: (origin.map Tree.bytes).toList

/-- A group as trees. -/
def trees (g : ItemGroup) : List Tree := .bytes g.name :: (partTrees g.part ++ [g.value])

/-- A group as values. -/
def values (g : ItemGroup) : List Value := Value.ofTrees g.trees

/-- The key of a group: the name in capitals; of a section its text in capitals, in brackets; and
    the place in it. -/
def key (g : ItemGroup) : String :=
  Text.upper g.name.text ++
    match g.part with
    | none => ""
    | some (items, origin) =>
      "[" ++ Text.upper (Tree.render items) ++ "]" ++ (origin.map Bytes.text).getD ""

/-- A group that can be told from its neighbours: a place in a section is in angle brackets, and a
    value is not what might stand in its place, a section behind a name or a byte string in angle
    brackets behind a section. -/
def Proper (g : ItemGroup) : Prop :=
  match g.part with
  | none => ∀ items, g.value ≠ .group .square items
  | some (_, none) => ∀ bs, g.value = .bytes bs → isOrigin bs = false
  | some (_, some origin) => isOrigin origin = true

/-- The names of the items whose values are checked.  (A date that cannot be read is none, so the
    date of arrival is not among them.) -/
def checkedNames : List String :=
  ["UID", "ENVELOPE", "BODY", "BODYSTRUCTURE", "FLAGS", "X-GM-LABELS"]

/-- What is kept of a group: its value, converted if there is no section. -/
def kept (toUtc : Bool) (g : ItemGroup) : Result Value :=
  match g.part with
  | none => FetchItem.convert toUtc g.key (.ofTree g.value)
  | some _ => .ok (.ofTree g.value)

/-! ### A group is one item -/

/-- The item that a group is. -/
def item (g : ItemGroup) : FetchItem where
  name := Text.upper g.name.text
  part := g.part.map fun part => Text.upper (Tree.render part.1)
  origin := g.part.bind Prod.snd
  value := .ofTree g.value

theorem key_item (g : ItemGroup) : g.item.key = g.key := by
  obtain ⟨name, part, value⟩ := g
  cases part with
  | none => exact (String.append_empty).symm
  | some part =>
    simp only [FetchItem.key, FetchItem.keyText, item, key, Option.map_some, Option.bind_some,
      String.append_assoc]

theorem converted_item (toUtc : Bool) (g : ItemGroup) :
    g.item.converted toUtc = g.kept toUtc := by
  have hkey := key_item g
  obtain ⟨name, part, value⟩ := g
  cases part with
  | none =>
    show FetchItem.convert toUtc (Text.upper name.text) (.ofTree value) = _
    rw [kept, ← hkey]
    rfl
  | some part => rfl

/-- A tree is a value of its own shape. -/
theorem ofTree_ne_section {t : Tree} (h : ∀ items, t ≠ .group .square items) (items : List Value) :
    Value.ofTree t ≠ .group .square items := by
  cases t with
  | group b ts =>
    rintro ⟨⟩
    exact h ts rfl
  | _ => nofun

theorem ofTree_eq_bytes {t : Tree} {bs : Bytes} (h : Value.ofTree t = .bytes bs) :
    t = .bytes bs := by
  cases t with
  | bytes bs' =>
    cases h
    rfl
  | _ => cases h

/-- **A proper group is made of the values of its item.** -/
theorem madeOf_values {g : ItemGroup} (h : g.Proper) : MadeOf g.item g.values := by
  obtain ⟨name, part, value⟩ := g
  cases part with
  | none => exact .plain name (ofTree_ne_section h)
  | some part =>
    obtain ⟨items, origin⟩ := part
    have htext := FetchItem.partText_ofTrees items
    cases origin with
    | none => exact .part name htext fun bs hbs => h bs (ofTree_eq_bytes hbs)
    | some origin => exact .origin name (.ofTree value) htext h

/-- Without its value a group is a name and a section that no item has. -/
theorem first_dropLast {g : ItemGroup} (h : g.Proper) (whole : List Tree) :
    ∃ n vs, g.values.dropLast = n :: vs ∧ FetchItem.first whole n vs =
      .error (.parse 0 (.noItemValue g.key) (Tree.render whole)) := by
  rw [← key_item]
  obtain ⟨name, part, value⟩ := g
  cases part with
  | none => exact ⟨.bytes name, [], rfl, rfl⟩
  | some part =>
    obtain ⟨items, origin⟩ := part
    have htext := FetchItem.partText_ofTrees items
    cases origin with
    | none =>
      refine ⟨.bytes name, [.group .square (Value.ofTrees items)], rfl, ?_⟩
      rw [FetchItem.first_of_part htext]
      rfl
    | some origin =>
      refine ⟨.bytes name, [.group .square (Value.ofTrees items), .bytes origin], rfl, ?_⟩
      rw [FetchItem.first_of_part htext, FetchItem.takeOrigin_cons_of_isOrigin h]
      rfl

/-! ## Putting groups in -/

variable {toUtc : Bool} {t t' : Table String Value} {gs : List ItemGroup}

/-- Puts what is kept of a group under its key. -/
def put (toUtc : Bool) (t : Table String Value) (g : ItemGroup) : Result (Table String Value) :=
  (g.kept toUtc).map fun v => t.insert g.key v

/-- Puts groups in, one after the other. -/
def putAll (toUtc : Bool) (t : Table String Value) (gs : List ItemGroup) :
    Result (Table String Value) :=
  gs.foldlM (put toUtc) t

theorem putAll_cons_eq_ok {g : ItemGroup} :
    putAll toUtc t (g :: gs) = .ok t' ↔
      ∃ v, g.kept toUtc = .ok v ∧ putAll toUtc (t.insert g.key v) gs = .ok t' := by
  unfold putAll
  rw [List.foldlM_cons, Result.bind_eq_ok]
  constructor
  · rintro ⟨t₁, hput, hrest⟩
    obtain ⟨v, hv, rfl⟩ := Result.map_eq_ok.1 hput
    exact ⟨v, hv, hrest⟩
  · rintro ⟨v, hv, hrest⟩
    exact ⟨_, Result.map_eq_ok.2 ⟨v, hv, rfl⟩, hrest⟩

/-- Groups can be put in exactly if something is kept of each. -/
theorem exists_putAll_iff :
    (∃ t', putAll toUtc t gs = .ok t') ↔ ∀ g ∈ gs, ∃ v, g.kept toUtc = .ok v := by
  induction gs generalizing t with
  | nil => exact ⟨fun _ => nofun, fun _ => ⟨t, rfl⟩⟩
  | cons g gs ih =>
    constructor
    · rintro ⟨t', h⟩
      obtain ⟨v, hv, hrest⟩ := putAll_cons_eq_ok.1 h
      exact List.forall_mem_cons.2 ⟨⟨v, hv⟩, ih.1 ⟨t', hrest⟩⟩
    · intro h
      obtain ⟨⟨v, hv⟩, hlater⟩ := List.forall_mem_cons.1 h
      obtain ⟨t', hrest⟩ := ih.2 hlater
      exact ⟨t', putAll_cons_eq_ok.2 ⟨v, hv, hrest⟩⟩

/-- The value of a key that no group has stays. -/
theorem get?_of_putAll_ne (h : putAll toUtc t gs = .ok t') {k : String}
    (hk : ∀ g ∈ gs, g.key ≠ k) : t'.get? k = t.get? k := by
  induction gs generalizing t with
  | nil =>
    cases h
    rfl
  | cons g gs ih =>
    obtain ⟨hg, hlater⟩ := List.forall_mem_cons.1 hk
    obtain ⟨v, -, hrest⟩ := putAll_cons_eq_ok.1 h
    rw [ih hrest hlater, Table.get?_insert, if_neg (Ne.symm hg)]

/-- **The keys** are those that were there, and those of the groups. -/
theorem isSome_of_putAll (h : putAll toUtc t gs = .ok t') (k : String) :
    (t'.get? k).isSome = true ↔ (t.get? k).isSome = true ∨ ∃ g ∈ gs, g.key = k := by
  induction gs generalizing t with
  | nil =>
    cases h
    simp
  | cons g gs ih =>
    obtain ⟨v, -, hrest⟩ := putAll_cons_eq_ok.1 h
    rw [ih hrest, Table.get?_insert]
    by_cases hk : k = g.key
    · simp [hk]
    · have hne : g.key ≠ k := Ne.symm hk
      simp [hk, hne]

/-- **A key has the value of the last group** that has it. -/
theorem get?_of_putAll {before after : List ItemGroup} {g : ItemGroup}
    (h : putAll toUtc t (before ++ g :: after) = .ok t')
    (hafter : ∀ later ∈ after, later.key ≠ g.key) :
    ∃ v, g.kept toUtc = .ok v ∧ t'.get? g.key = some v := by
  unfold putAll at h
  rw [List.foldlM_append] at h
  obtain ⟨t₁, -, hrest⟩ := Result.bind_eq_ok.1 h
  obtain ⟨v, hv, hlater⟩ := putAll_cons_eq_ok.1 hrest
  refine ⟨v, hv, ?_⟩
  rw [get?_of_putAll_ne hlater hafter, Table.get?_insert, if_pos rfl]

/-- A value that is not checked is always kept. -/
theorem exists_kept_of_unchecked {g : ItemGroup} (h : g.part = none → g.key ∉ checkedNames) :
    ∃ v, g.kept toUtc = .ok v := by
  unfold kept
  split
  · next hpart =>
    have hname := h hpart
    simp only [checkedNames, List.mem_cons, List.not_mem_nil, or_false, not_or] at hname
    obtain ⟨huid, henvelope, hbody, hstructure, hflags, hlabels⟩ := hname
    unfold FetchItem.convert
    simp only [huid, henvelope, hbody, hstructure, hflags, hlabels, or_self, if_false]
    split
    · exact ⟨_, rfl⟩
    · exact ⟨_, rfl⟩
  · exact ⟨_, rfl⟩

/-- Only the values of checked names can be refused. -/
theorem exists_kept_iff {g : ItemGroup} :
    (∃ v, g.kept toUtc = .ok v) ↔ (g.part = none → g.key ∈ checkedNames →
      ∃ v, FetchItem.convert toUtc g.key (.ofTree g.value) = .ok v) := by
  have hplain : g.part = none →
      g.kept toUtc = FetchItem.convert toUtc g.key (.ofTree g.value) := by
    intro hpart
    rw [kept, hpart]
  constructor
  · rintro ⟨v, hv⟩ hpart -
    exact ⟨v, hplain hpart ▸ hv⟩
  · intro h
    by_cases hchecked : g.part = none ∧ g.key ∈ checkedNames
    · obtain ⟨hpart, hname⟩ := hchecked
      rw [hplain hpart]
      exact h hpart hname
    · exact exists_kept_of_unchecked fun hpart hname => hchecked ⟨hpart, hname⟩

end ItemGroup

/-! ## Reading flattened groups -/

namespace FetchRecord

variable {whole : List Tree} {toUtc : Bool} {t : Table String Value} {gs : List ItemGroup}

/-- **Regrouping undoes flattening.**  The values of groups are read by putting the groups in, and
    reading goes on behind them. -/
theorem readItems_flatMap (hgs : ∀ g ∈ gs, g.Proper) (rest : List Value) :
    readItems whole toUtc t (gs.flatMap ItemGroup.values ++ rest) =
      ItemGroup.putAll toUtc t gs >>= fun t' => readItems whole toUtc t' rest := by
  induction gs generalizing t with
  | nil => rfl
  | cons g gs ih =>
    obtain ⟨hg, hlater⟩ := List.forall_mem_cons.1 hgs
    obtain ⟨n, tail, hvalues, hfirst⟩ :=
      FetchItem.first_of_madeOf whole (ItemGroup.madeOf_values hg)
    rw [List.flatMap_cons, List.append_assoc, hvalues, List.cons_append,
      readItems_of_ok (hfirst _), ItemGroup.converted_item, ItemGroup.key_item]
    cases hkept : g.kept toUtc with
    | error e =>
      unfold ItemGroup.putAll
      rw [List.foldlM_cons, ItemGroup.put, hkept]
      rfl
    | ok v =>
      unfold ItemGroup.putAll
      rw [List.foldlM_cons, ItemGroup.put, hkept]
      exact ih hlater

theorem readItems_values (hgs : ∀ g ∈ gs, g.Proper) :
    readItems whole toUtc t (gs.flatMap ItemGroup.values) = ItemGroup.putAll toUtc t gs := by
  rw [← List.append_nil (gs.flatMap ItemGroup.values), readItems_flatMap hgs]
  cases ItemGroup.putAll toUtc t gs with
  | error e => rfl
  | ok t' =>
    show readItems whole toUtc t' [] = _
    rw [readItems]

/-- **One value short**, the list is refused. -/
theorem readItems_dropLast (hgs : ∀ g ∈ gs, g.Proper) (hne : gs ≠ []) :
    ∃ e, readItems whole toUtc t (gs.flatMap ItemGroup.values).dropLast = .error e := by
  obtain ⟨before, last, rfl⟩ : ∃ before last, gs = before ++ [last] :=
    ⟨gs.dropLast, gs.getLast hne, (List.dropLast_concat_getLast hne).symm⟩
  obtain ⟨hbefore, hlast⟩ := List.forall_mem_append.1 hgs
  obtain ⟨n, vs, hshort, hfirst⟩ :=
    ItemGroup.first_dropLast (hlast last List.mem_cons_self) whole
  have hvalues : last.values ≠ [] := by
    intro hnil
    rw [hnil] at hshort
    cases hshort
  rw [List.flatMap_append, List.flatMap_singleton, List.dropLast_append_of_ne_nil hvalues,
    readItems_flatMap hbefore]
  cases ItemGroup.putAll toUtc t before with
  | error e => exact ⟨e, rfl⟩
  | ok t' =>
    have hrefused : ∃ e, readItems whole toUtc t' (n :: vs) = .error e :=
      ⟨_, readItems_of_error hfirst⟩
    rwa [← hshort] at hrefused

/-- The values of groups are trees. -/
theorem flatMap_values (gs : List ItemGroup) :
    gs.flatMap ItemGroup.values = Value.ofTrees (gs.flatMap ItemGroup.trees) := by
  rw [Value.ofTrees_eq_map, List.map_flatMap]
  congr 1
  funext g
  exact Value.ofTrees_eq_map g.trees

theorem dropLast_ofTrees (ts : List Tree) :
    (Value.ofTrees ts).dropLast = Value.ofTrees ts.dropLast := by
  rw [Value.ofTrees_eq_map, Value.ofTrees_eq_map, List.map_dropLast]

/-- **Flattened groups are read back.**  A flat list of proper groups is read exactly if the values
    of all checked names without a section can be converted.  Then its keys are those of the groups,
    and each key has the value of the last group of that key, converted if that group has no
    section.  Without its last value the list of at least one group is never read. -/
theorem read_flattened (seq : UInt32) (options : Options) (gs : List ItemGroup)
    (hgs : ∀ g ∈ gs, g.Proper) :
    ((∃ r, read seq (Value.ofTrees (gs.flatMap ItemGroup.trees)) options = .ok r) ↔
      ∀ g ∈ gs, g.part = none → g.key ∈ ItemGroup.checkedNames →
        ∃ v, FetchItem.convert options.toUtc g.key (.ofTree g.value) = .ok v) ∧
    (∀ r, read seq (Value.ofTrees (gs.flatMap ItemGroup.trees)) options = .ok r →
      r.seq = seq ∧ (∀ k, (r.items.get? k).isSome = true ↔ ∃ g ∈ gs, g.key = k) ∧
      ∀ before g after, gs = before ++ g :: after → (∀ later ∈ after, later.key ≠ g.key) →
        ∃ v, g.kept options.toUtc = .ok v ∧ r.items.get? g.key = some v) ∧
    (gs ≠ [] →
      ∃ e, read seq (Value.ofTrees (gs.flatMap ItemGroup.trees).dropLast) options = .error e) := by
  have hread : read seq (Value.ofTrees (gs.flatMap ItemGroup.trees)) options =
      (ItemGroup.putAll options.toUtc Table.empty gs).map fun items => ⟨seq, items⟩ := by
    unfold read
    rw [Value.treeAll?_ofTrees, ← flatMap_values]
    simp only [readItems_values hgs]
  refine ⟨?_, ?_, ?_⟩
  · have hput : (∃ r, read seq (Value.ofTrees (gs.flatMap ItemGroup.trees)) options = .ok r) ↔
        ∃ t, ItemGroup.putAll options.toUtc Table.empty gs = .ok t := by
      rw [hread]
      constructor
      · rintro ⟨r, hr⟩
        obtain ⟨t, ht, -⟩ := Result.map_eq_ok.1 hr
        exact ⟨t, ht⟩
      · rintro ⟨t, ht⟩
        exact ⟨_, Result.map_eq_ok.2 ⟨t, ht, rfl⟩⟩
    rw [hput, ItemGroup.exists_putAll_iff]
    exact forall₂_congr fun g _ => ItemGroup.exists_kept_iff
  · intro r hr
    rw [hread] at hr
    obtain ⟨t, ht, rfl⟩ := Result.map_eq_ok.1 hr
    refine ⟨rfl, ?_, ?_⟩
    · intro k
      have hempty : (Table.empty : Table String Value).get? k = none := rfl
      have hkeys := ItemGroup.isSome_of_putAll ht k
      simpa [hempty] using hkeys
    · rintro before g after rfl hafter
      exact ItemGroup.get?_of_putAll ht hafter
  · intro hne
    obtain ⟨e, he⟩ : ∃ e, readItems (gs.flatMap ItemGroup.trees).dropLast options.toUtc Table.empty
        (gs.flatMap ItemGroup.values).dropLast = .error e := readItems_dropLast hgs hne
    refine ⟨e, ?_⟩
    unfold read
    rw [Value.treeAll?_ofTrees, ← dropLast_ofTrees, ← flatMap_values]
    simp only [he]
    rfl

/-- Two UIDs, and data in angle brackets behind a place in a section. -/
theorem read_flattened_angles :
    (∃ r, read 1 (Value.ofTrees
        [.bytes (Bytes.ofString "uid"), .int 5, .bytes (Bytes.ofString "BODY"),
          .group .square [.bytes (Bytes.ofString "Text")], .bytes (Bytes.ofString "<0>"),
          .bytes (Bytes.ofString "<p>"), .bytes (Bytes.ofString "UID"), .int 6]) default = .ok r ∧
      r.items.get? "BODY[TEXT]<0>" = some (.bytes (Bytes.ofString "<p>")) ∧
      r.items.get? "UID" = some (.int 6) ∧ ¬ (r.items.get? "BODY[TEXT]").isSome = true) ∧
    ∃ e, read 1 (Value.ofTrees
        [.bytes (Bytes.ofString "uid"), .int 5, .bytes (Bytes.ofString "BODY"),
          .group .square [.bytes (Bytes.ofString "Text")], .bytes (Bytes.ofString "<0>"),
          .bytes (Bytes.ofString "<p>"), .bytes (Bytes.ofString "UID")]) default = .error e := by
  have hproper : ∀ g ∈ [ItemGroup.mk (Bytes.ofString "uid") none (.int 5),
      ⟨Bytes.ofString "BODY", some ([.bytes (Bytes.ofString "Text")], some (Bytes.ofString "<0>")),
        .bytes (Bytes.ofString "<p>")⟩,
      ⟨Bytes.ofString "UID", none, .int 6⟩], g.Proper := by
    simp only [List.forall_mem_cons]
    exact ⟨nofun, (by decide : isOrigin _ = true), nofun, nofun⟩
  obtain ⟨hsuccess, hitems, hshort⟩ := read_flattened 1 default _ hproper
  have hnames : (ItemGroup.mk (Bytes.ofString "uid") none (.int 5)).key = "UID" ∧
      (ItemGroup.mk (Bytes.ofString "UID") none (.int 6)).key = "UID" := by decide +kernel
  obtain ⟨r, hr⟩ := hsuccess.2 (by
    simp only [List.forall_mem_cons, hnames]
    exact ⟨fun _ _ => ⟨_, rfl⟩, nofun, fun _ _ => ⟨_, rfl⟩, nofun⟩)
  obtain ⟨-, hkeys, hlast⟩ := hitems r hr
  obtain ⟨data, hdata, hgetData⟩ := hlast [_] _ [_] rfl (by
    simp only [List.forall_mem_singleton]
    decide +kernel)
  obtain ⟨uid, huid, hgetUid⟩ := hlast [_, _] _ [] rfl nofun
  cases hdata
  cases huid
  refine ⟨⟨r, hr, ?_, ?_, ?_⟩, hshort nofun⟩
  · exact (congrArg r.items.get? (by decide +kernel)).trans hgetData
  · exact (congrArg r.items.get? (by decide +kernel)).trans hgetUid
  · rw [hkeys]
    simp only [List.mem_cons, List.not_mem_nil, or_false, exists_eq_or_imp, exists_eq_left]
    decide +kernel

end FetchRecord

end ImapWire
