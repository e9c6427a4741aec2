/-
  What reading a response makes of its values, without the loop.

  Program: `FetchRecord.parseAll`, a loop that takes one message after the other off a sequence of
  values, looks ahead for two words that may be missing, and merges what it reads into a table.
  Spec: the values are groups, one after the other, and the table is read off the records of the
  groups, each entry on its own (`parseAll_groups`).

  1. **Groups** (`FetchGroup`).  A group is a number and a list of items, perhaps with a star in
     front and the name between them; a further star may stand at the very end.  What the loop takes
     off is such a sequence (`sent_iff`), since neither word can be taken for what follows it: a
     star is no number, and the name is no list.

  2. **Entries** (`Merged`).  The keys are those of the records.  An entry has the sequence number
     of the first record of its key, and each item of the last record of the key that has it.  This
     is what merging in order comes to (`items_of_mergeAll`, by induction on the records), and it
     leaves no choice (`Merged.unique`).

  An entry is therefore known by its key in the way the table promises (`Merged.known_by_key`): the
  UID of an entry is that of its last record with one, and all of these have the key for their UID.
-/
import ImapWire.Proofs.Fetch.Messages
import Mathlib

namespace ImapWire

/-! ## Groups of values -/

/-- The values of one message. -/
structure FetchGroup where
  /-- A star stands in front. -/
  star : Bool
  number : Value
  /-- The name of the data, if it stands behind the number. -/
  name : Option Bytes
  items : List Value

namespace FetchGroup

/-- A star, where there is one. -/
def starIf (star : Bool) : List Value := if star then [.bytes [Bytes.star]] else []

/-- A name, where there is one. -/
def nameIf (name : Option Bytes) : List Value := (name.map Value.bytes).toList

/-- A group as values. -/
def values (g : FetchGroup) : List Value :=
  starIf g.star ++ (g.number :: (nameIf g.name ++ [.group .round g.items]))

/-- The name of a group is the right one, in any case; its number is a number of 32 bits, and with
    this number its items are read as the record. -/
structure Reads (options : Options) (g : FetchGroup) (r : FetchRecord) : Prop where
  name : ∀ bs ∈ g.name, Bytes.sameName bs (Bytes.ofString "FETCH") = true
  record : ∃ seq, g.number.number32 "message id" = .ok seq ∧
    FetchRecord.read seq g.items options = .ok r

end FetchGroup

namespace FetchRecord

open FetchGroup (starIf nameIf)

variable {options : Options} {vs ws : List Value} {rs : List FetchRecord}

/-- In front of what is left there was a star, or nothing. -/
theorem starIf_of_dropStar (h : dropStar vs = ws) : ∃ star, vs = starIf star ++ ws := by
  unfold dropStar at h
  split at h
  · next bs rest =>
    split at h
    · next hbs =>
      subst hbs h
      exact ⟨true, rfl⟩
    · exact ⟨false, h⟩
  · exact ⟨false, h⟩

/-- A star that is there is left out, unless another one follows it. -/
theorem dropStar_starIf (star : Bool) (h : ∀ v ∈ ws.head?, v ≠ .bytes [Bytes.star]) :
    dropStar (starIf star ++ ws) = ws := by
  cases star with
  | true =>
    show (if [Bytes.star] = [Bytes.star] then ws else .bytes [Bytes.star] :: ws) = ws
    exact if_pos rfl
  | false =>
    show dropStar ws = ws
    unfold dropStar
    split
    · next bs rest =>
      have hbs : bs ≠ [Bytes.star] := by
        rintro rfl
        exact h _ rfl rfl
      exact if_neg hbs
    · rfl

/-- In front of what is left there was the name, or nothing. -/
theorem nameIf_of_dropName (h : dropName vs = ws) :
    ∃ name, (∀ bs ∈ name, Bytes.sameName bs (Bytes.ofString "FETCH") = true) ∧
      vs = nameIf name ++ ws := by
  unfold dropName at h
  split at h
  · next bs rest =>
    split at h
    · next hbs =>
      subst h
      refine ⟨some bs, ?_, rfl⟩
      rintro bs' ⟨⟩
      exact hbs
    · exact ⟨none, nofun, h⟩
  · exact ⟨none, nofun, h⟩

theorem dropName_nameIf {name : Option Bytes}
    (hname : ∀ bs ∈ name, Bytes.sameName bs (Bytes.ofString "FETCH") = true) (items : List Value) :
    dropName (nameIf name ++ .group .round items :: ws) = .group .round items :: ws := by
  cases name with
  | none => rfl
  | some bs => exact if_pos (hname bs rfl)

/-- A star is no number. -/
theorem ne_star_of_number32 {v : Value} {seq : UInt32} {role : String}
    (h : v.number32 role = .ok seq) : v ≠ .bytes [Bytes.star] := by
  rintro rfl
  cases h

/-- **What the loop takes off** is groups, one after the other, and perhaps a star at the end. -/
theorem sent_iff :
    Sent options vs rs ↔
      ∃ groups last, vs = groups.flatMap FetchGroup.values ++ starIf last ∧
        List.Forall₂ (FetchGroup.Reads options) groups rs := by
  constructor
  · intro h
    induction h with
    | done hstar =>
      obtain ⟨last, hvs⟩ := starIf_of_dropStar hstar
      exact ⟨[], last, by simpa using hvs, .nil⟩
    | @record vs rest items behind number seq r rs hstar hseq hname hread _ ih =>
      obtain ⟨groups, last, rfl, hgroups⟩ := ih
      obtain ⟨star, rfl⟩ := starIf_of_dropStar hstar
      obtain ⟨name, hsame, rfl⟩ := nameIf_of_dropName hname
      refine ⟨⟨star, number, name, items⟩ :: groups, last, ?_,
        .cons ⟨hsame, seq, hseq, hread⟩ hgroups⟩
      simp [FetchGroup.values]
  · rintro ⟨groups, last, rfl, hgroups⟩
    induction hgroups with
    | nil =>
      have hnone : ∀ v ∈ ([] : List Value).head?, v ≠ .bytes [Bytes.star] := nofun
      have hend := dropStar_starIf last hnone
      exact .done (by simpa using hend)
    | @cons g r groups rs hone _ ih =>
      obtain ⟨seq, hseq, hread⟩ := hone.record
      have hnumber : ∀ v ∈ (g.number :: (nameIf g.name ++ (.group .round g.items
          :: (groups.flatMap FetchGroup.values ++ starIf last)))).head?,
          v ≠ .bytes [Bytes.star] := by
        rintro v ⟨⟩
        exact ne_star_of_number32 hseq
      have hvs : (g :: groups).flatMap FetchGroup.values ++ starIf last
          = starIf g.star ++ (g.number :: (nameIf g.name ++ (.group .round g.items
            :: (groups.flatMap FetchGroup.values ++ starIf last)))) := by
        simp [FetchGroup.values]
      rw [hvs]
      exact .record (dropStar_starIf g.star hnumber) hseq (dropName_nameIf hone.name g.items) hread
        ih

/-! ## Merging in order -/

/-- A merged record has the sequence number of the first one. -/
theorem seq_of_mergeAll {d : FetchRecord} (h : mergeAll rs = some d) :
    rs.head?.map seq = some d.seq := by
  have hfold : ∀ (rs : List FetchRecord) (r₀ : FetchRecord), (rs.foldl merge r₀).seq = r₀.seq := by
    intro rs
    induction rs with
    | nil => exact fun _ => rfl
    | cons r rs ih => exact fun r₀ => ih (r₀.merge r)
  cases rs with
  | nil => cases h
  | cons r rs =>
    cases h
    exact congrArg some (hfold rs r).symm

/-- **A merged record has each item** of the last record that has it. -/
theorem items_of_mergeAll {d : FetchRecord} (h : mergeAll rs = some d) (name : String) :
    d.items.get? name = rs.reverse.findSome? fun r => r.items.get? name := by
  -- the record that the others are merged into comes after them, counted from the last one
  have hfold : ∀ (rs : List FetchRecord) (r₀ : FetchRecord),
      (rs.foldl merge r₀).items.get? name
        = (rs.reverse.findSome? fun r => r.items.get? name).or (r₀.items.get? name) := by
    intro rs
    induction rs with
    | nil => exact fun _ => rfl
    | cons r rs ih =>
      intro r₀
      have hone : (r₀.merge r).items.get? name = (r.items.get? name).or (r₀.items.get? name) :=
        Table.get?_merge r₀.items r.items name
      have hlast : [r].findSome? (fun r => r.items.get? name) = r.items.get? name := by
        simp
      rw [List.foldl_cons, ih, hone, List.reverse_cons, List.findSome?_append, hlast,
        Option.or_assoc]
  cases rs with
  | nil => cases h
  | cons r rs =>
    cases h
    rw [hfold, List.reverse_cons, List.findSome?_append]
    simp

/-- The table of some records: its keys are theirs, an entry has the sequence number of the first
    record of its key, and each item of the last record of the key that has it. -/
structure Merged (options : Options) (rs : List FetchRecord) (table : Table UInt32 FetchRecord) :
    Prop where
  keys : ∀ k, (table.get? k).isSome = true ↔ ∃ r ∈ rs, r.key options = k
  seq : ∀ k d, table.get? k = some d → (ofKey options k rs).head?.map seq = some d.seq
  items : ∀ k d, table.get? k = some d → ∀ name,
    d.items.get? name = (ofKey options k rs).reverse.findSome? fun r => r.items.get? name

namespace Merged

/-- **Taking the records in** one after the other gives their table. -/
theorem foldl_collect (options : Options) (rs : List FetchRecord) :
    Merged options rs (rs.foldl (collect options) Table.empty) := by
  have hentry : ∀ k, (rs.foldl (collect options) Table.empty).get? k
      = mergeAll (ofKey options k rs) := fun k => get?_foldl_collect Table.empty rs k
  refine ⟨?_, ?_, ?_⟩
  · intro k
    rw [hentry]
    constructor
    · intro hsome
      cases hof : ofKey options k rs with
      | nil =>
        rw [hof] at hsome
        cases hsome
      | cons r later =>
        have hmem : r ∈ ofKey options k rs := by
          rw [hof]
          exact List.mem_cons_self
        exact ⟨r, mem_ofKey.1 hmem⟩
    · rintro ⟨r, hr⟩
      obtain ⟨first, later, hof⟩ := List.exists_cons_of_ne_nil (List.ne_nil_of_mem (mem_ofKey.2 hr))
      rw [hof]
      rfl
  · intro k d hd
    rw [hentry] at hd
    exact seq_of_mergeAll hd
  · intro k d hd
    rw [hentry] at hd
    exact items_of_mergeAll hd

/-- There is one such table. -/
theorem unique {t t' : Table UInt32 FetchRecord} (h : Merged options rs t)
    (h' : Merged options rs t') : t = t' := by
  apply Table.ext
  intro k
  have hkeys : (t.get? k).isSome = true ↔ (t'.get? k).isSome = true :=
    (h.keys k).trans (h'.keys k).symm
  cases hd : t.get? k with
  | none =>
    cases hd' : t'.get? k with
    | none => rfl
    | some d' => simp [hd, hd'] at hkeys
  | some d =>
    cases hd' : t'.get? k with
    | none => simp [hd, hd'] at hkeys
    | some d' =>
      have hseq : d.seq = d'.seq :=
        Option.some.inj ((h.seq k d hd).symm.trans (h'.seq k d' hd'))
      have hitems : d.items = d'.items :=
        Table.ext fun name => (h.items k d hd name).trans (h'.items k d' hd' name).symm
      obtain ⟨seq, items⟩ := d
      obtain ⟨seq', items'⟩ := d'
      cases hseq
      cases hitems
      rfl

/-- **An entry is known by its key**: in a table by sequence numbers that is its number, in a table
    by UIDs its UID, or its number if it has none. -/
theorem known_by_key {t : Table UInt32 FetchRecord} (h : Merged options rs t)
    (huid : ∀ r ∈ rs, r.uid? = none ↔ r.items.get? "UID" = none) {k : UInt32} {d : FetchRecord}
    (hd : t.get? k = some d) :
    if options.keyByUid then d.uid? = some k ∨ d.uid? = none ∧ d.seq = k else d.seq = k := by
  obtain ⟨r, hfirst, hseq⟩ := Option.map_eq_some_iff.1 (h.seq k d hd)
  obtain ⟨hr, hkey⟩ := mem_ofKey.1 (List.mem_of_head? hfirst)
  have hitem := h.items k d hd "UID"
  split
  · next hby =>
    cases hget : d.items.get? "UID" with
    | none =>
      -- no record of the key has a UID, so the key is a sequence number
      rw [hget] at hitem
      have hnone : r.items.get? "UID" = none :=
        List.findSome?_eq_none_iff.1 hitem.symm r (List.mem_reverse.2 (List.mem_of_head? hfirst))
      rw [key, if_pos hby, (huid r hr).2 hnone] at hkey
      refine Or.inr ⟨?_, hseq.symm.trans hkey⟩
      rw [uid?_eq, hget]
      rfl
    | some v =>
      -- the last record with a UID has the same one, and that is its key
      rw [hget] at hitem
      obtain ⟨r', hr', hv⟩ := List.exists_of_findSome?_eq_some hitem.symm
      obtain ⟨hmem, hkey'⟩ := mem_ofKey.1 (List.mem_reverse.1 hr')
      have hsame : d.uid? = r'.uid? := by rw [uid?_eq, uid?_eq, hget, hv]
      cases hu : r'.uid? with
      | none =>
        rw [(huid r' hmem).1 hu] at hv
        cases hv
      | some u =>
        rw [key, if_pos hby, hu] at hkey'
        refine Or.inl ?_
        rw [hsame, hu]
        exact congrArg some hkey'
  · next hby =>
    rw [key, if_neg hby] at hkey
    exact hseq.symm.trans hkey

end Merged

/-! ## Reading a response -/

/-- **Reading a response** succeeds exactly if its trees are groups that can be read, one after the
    other, and perhaps a star.  Then it gives the table of their records and no other, in which
    every entry is known by its key. -/
theorem parseAll_groups (chunks : List Chunk) (options : Options) :
    ((∃ table, parseAll chunks options = .ok table) ↔
      ∃ trees groups last rs, Tree.parse chunks = .ok trees ∧
        Value.ofTrees trees = groups.flatMap FetchGroup.values ++ starIf last ∧
          List.Forall₂ (FetchGroup.Reads options) groups rs) ∧
    (∀ trees groups last rs, Tree.parse chunks = .ok trees →
      Value.ofTrees trees = groups.flatMap FetchGroup.values ++ starIf last →
      List.Forall₂ (FetchGroup.Reads options) groups rs →
      ∀ table, parseAll chunks options = .ok table ↔ Merged options rs table) ∧
    (∀ table, parseAll chunks options = .ok table → ∀ k d, table.get? k = some d →
      if options.keyByUid then d.uid? = some k ∨ d.uid? = none ∧ d.seq = k else d.seq = k) := by
  refine ⟨⟨?_, ?_⟩, ?_, ?_⟩
  · rintro ⟨table, h⟩
    obtain ⟨trees, rs, htrees, hsent, -⟩ := parseAll_eq_ok_iff.1 h
    obtain ⟨groups, last, hvalues, hgroups⟩ := sent_iff.1 hsent
    exact ⟨trees, groups, last, rs, htrees, hvalues, hgroups⟩
  · rintro ⟨trees, groups, last, rs, htrees, hvalues, hgroups⟩
    have hsent : Sent options (Value.ofTrees trees) rs := sent_iff.2 ⟨groups, last, hvalues, hgroups⟩
    exact ⟨_, parseAll_eq_ok_iff.2 ⟨trees, rs, htrees, hsent, rfl⟩⟩
  · intro trees groups last rs htrees hvalues hgroups table
    have hsent : Sent options (Value.ofTrees trees) rs := sent_iff.2 ⟨groups, last, hvalues, hgroups⟩
    have hread : parseAll chunks options = .ok (rs.foldl (collect options) Table.empty) :=
      parseAll_eq_ok_iff.2 ⟨trees, rs, htrees, hsent, rfl⟩
    constructor
    · intro h
      rw [hread] at h
      cases h
      exact Merged.foldl_collect options rs
    · intro h
      rw [hread, (Merged.foldl_collect options rs).unique h]
  · intro table h k d hd
    obtain ⟨trees, rs, htrees, hsent, rfl⟩ := parseAll_eq_ok_iff.1 h
    exact (Merged.foldl_collect options rs).known_by_key hsent.uid?_eq_none_iff hd

/-- Two groups of one message and a star behind them: the later value of an item wins, and the other
    items stay. -/
theorem parseAll_groups_twice :
    ∃ table d, parseAll [.plain (Bytes.ofString "* 5 FETCH (X 1 Y 2) 5 (X 3) *")] default
        = .ok table ∧
      table.get? 5 = some d ∧ d.seq = 5 ∧ d.items.get? "X" = some (.int 3) ∧
      d.items.get? "Y" = some (.int 2) := by
  have hparse : Tree.parse [.plain (Bytes.ofString "* 5 FETCH (X 1 Y 2) 5 (X 3) *")]
      = .ok [.bytes [Bytes.star], .int 5, .bytes (Bytes.ofString "FETCH"),
        .group .round [.bytes (Bytes.ofString "X"), .int 1, .bytes (Bytes.ofString "Y"), .int 2],
        .int 5, .group .round [.bytes (Bytes.ofString "X"), .int 3], .bytes [Bytes.star]] := by
    decide +kernel
  have hfirst : FetchGroup.Reads default ⟨true, .int 5, some (Bytes.ofString "FETCH"),
      [.bytes (Bytes.ofString "X"), .int 1, .bytes (Bytes.ofString "Y"), .int 2]⟩
      ⟨5, Table.ofList [("X", .int 1), ("Y", .int 2)]⟩ :=
    ⟨by rintro bs ⟨⟩; rfl, 5, rfl, by cbv⟩
  have hsecond : FetchGroup.Reads default ⟨false, .int 5, none,
      [.bytes (Bytes.ofString "X"), .int 3]⟩ ⟨5, Table.ofList [("X", .int 3)]⟩ :=
    ⟨by rintro bs ⟨⟩, 5, rfl, by cbv⟩
  obtain ⟨hsuccess, htable, -⟩ := parseAll_groups
    [.plain (Bytes.ofString "* 5 FETCH (X 1 Y 2) 5 (X 3) *")] default
  have hgroups := List.Forall₂.cons hfirst (.cons hsecond .nil)
  obtain ⟨table, hread⟩ := hsuccess.2 ⟨_, _, true, _, hparse, rfl, hgroups⟩
  have hmerged := (htable _ _ true _ hparse rfl hgroups table).1 hread
  obtain ⟨d, hd⟩ := Option.isSome_iff_exists.1
    ((hmerged.keys 5).2 ⟨_, List.mem_cons_self, by decide +kernel⟩)
  have hseq : some 5 = some d.seq := (by decide +kernel : _ = _).trans (hmerged.seq 5 d hd)
  have hx := hmerged.items 5 d hd "X"
  have hy := hmerged.items 5 d hd "Y"
  exact ⟨table, d, hread, hd, (Option.some.inj hseq).symm, hx.trans (by cbv), hy.trans (by cbv)⟩

end FetchRecord

end ImapWire
