/-
  What the items of a read record have in common.

  A record is read item by item, each put in under its key.  What holds of every single item, of its
  key and of the value that is kept, therefore holds of all that is stored at the end
  (`readItems_forall`); the items are the ones that the list is made of, wherever they stand in it.

  The first use is the UID.  Only an item named `UID` without a section has the key `UID`, and it is
  kept only if it is a number of 32 bits, so a record has a UID exactly if one was sent
  (`uid?_eq_none_iff`).
-/
import ImapWire.Proofs.Fetch.Items

namespace ImapWire

/-! ## Keys of sections -/

namespace FetchItem

/-- The key of a section holds a bracket, so it is no name without one. -/
theorem keyText_part_ne {key : String} (hkey : '[' ∉ key.toList) (name part : String)
    (origin : Option Bytes) : keyText name (some part) origin ≠ key := by
  rintro rfl
  apply hkey
  simp [keyText]

/-- The item that is kept under a key without a bracket has no section. -/
theorem part_eq_none {i : FetchItem} {key : String} (hkey : '[' ∉ key.toList)
    (h : i.key = key) : i.part = none ∧ i.name = key := by
  obtain ⟨name, part, origin, value⟩ := i
  cases part with
  | none => exact ⟨rfl, h⟩
  | some part => exact absurd h (keyText_part_ne hkey name part origin)

end FetchItem

namespace FetchRecord

open FetchItem (MadeOf)

/-! ## All items of a list -/

variable {whole : List Tree} {toUtc : Bool} {items items' : Table String Value}

/-- **A whole list.**  What holds of every item of a list, under its key, and of what was there
    before, holds of all that is there at the end. -/
theorem readItems_forall {P : String → Value → Prop} {vs : List Value}
    (hitem : ∀ i front v, MadeOf i front → front <:+: vs → i.converted toUtc = .ok v → P i.key v)
    (hbefore : ∀ k v, items.get? k = some v → P k v)
    (h : readItems whole toUtc items vs = .ok items') :
    ∀ k v, items'.get? k = some v → P k v := by
  fun_induction readItems whole toUtc items vs with
  | case1 items =>
    cases h
    exact hbefore
  | case2 items n rest e hfirst => cases h
  | case3 items n rest i behind hfirst ih =>
    obtain ⟨front, hmade, hfront⟩ := FetchItem.first_eq_ok_iff.1 hfirst
    obtain ⟨v, hconverted, h⟩ := Result.bind_eq_ok.1 h
    have hfirstItem : P i.key v := hitem i front v hmade ⟨[], behind, hfront.symm⟩ hconverted
    refine ih v ?_ ?_ h
    · -- the items behind are items of the whole list
      intro i' front' v' hmade' hinside
      refine hitem i' front' v' hmade' (hinside.trans ?_)
      exact ⟨front, [], by rw [List.append_nil, hfront]⟩
    · intro k v' hget
      rw [Table.get?_insert] at hget
      split at hget
      · next hk =>
        cases hget
        rw [hk]
        exact hfirstItem
      · exact hbefore k v' hget

/-- A record is its number and all its items. -/
theorem read_eq_ok_iff {seq : UInt32} {vs : List Value} {options : Options} {r : FetchRecord} :
    read seq vs options = .ok r ↔
      ∃ whole items, Value.treeAll? vs = some whole ∧
        readItems whole options.toUtc Table.empty vs = .ok items ∧ r = ⟨seq, items⟩ := by
  constructor
  · intro h
    unfold read at h
    split at h
    · cases h
    · next whole hwhole =>
      obtain ⟨items, hitems, rfl⟩ := Result.map_eq_ok.1 h
      exact ⟨whole, items, hwhole, hitems, rfl⟩
  · rintro ⟨whole, items, hwhole, hitems, rfl⟩
    unfold read
    rw [hwhole]
    exact Result.map_eq_ok.2 ⟨items, hitems, rfl⟩

theorem seq_of_read {seq : UInt32} {vs : List Value} {options : Options} {r : FetchRecord}
    (h : read seq vs options = .ok r) : r.seq = seq := by
  obtain ⟨whole, items, -, -, rfl⟩ := read_eq_ok_iff.1 h
  rfl

/-- What holds of every item of its list holds of all that a record stores. -/
theorem read_forall {P : String → Value → Prop} {seq : UInt32} {vs : List Value}
    {options : Options} {r : FetchRecord}
    (hitem : ∀ i front v, MadeOf i front → front <:+: vs → i.converted options.toUtc = .ok v →
      P i.key v)
    (h : read seq vs options = .ok r) : ∀ k v, r.items.get? k = some v → P k v := by
  obtain ⟨whole, items, -, hitems, rfl⟩ := read_eq_ok_iff.1 h
  have hempty : ∀ k v, (Table.empty : Table String Value).get? k = some v → P k v := nofun
  exact readItems_forall hitem hempty hitems

/-! ## The UID -/

/-- A UID that is kept is a number of 32 bits. -/
theorem isSome_toUInt32?_of_readUid {v w : Value} (h : FetchItem.readUid v = .ok w) :
    ∃ n, w = .int n ∧ (toUInt32? n).isSome = true := by
  cases v with
  | int n =>
    unfold FetchItem.readUid Value.number32 Value.natBelow? at h
    by_cases hn : 0 ≤ n.toInt ∧ n.toInt < UInt32.size
    · simp only [if_pos hn] at h
      cases h
      exact ⟨n, rfl, by rw [toUInt32?, if_pos hn]; rfl⟩
    · simp only [if_neg hn] at h
      cases h
  | _ => cases h

/-- The UID is that of the item `UID`. -/
theorem uid?_eq (r : FetchRecord) :
    r.uid? = ((r.items.get? "UID").bind Value.int?).bind toUInt32? := by
  have hname : Text.upper "UID" = "UID" := by decide +kernel
  rw [uid?, get?, hname]

/-- **A record has a UID exactly if one was sent.** -/
theorem uid?_eq_none_iff {seq : UInt32} {vs : List Value} {options : Options} {r : FetchRecord}
    (h : read seq vs options = .ok r) : r.uid? = none ↔ r.items.get? "UID" = none := by
  have hbracket : '[' ∉ "UID".toList := by decide
  have hstored : ∀ k v, r.items.get? k = some v → k = "UID" →
      ∃ n, v = .int n ∧ (toUInt32? n).isSome = true := by
    refine read_forall ?_ h
    intro i front v hmade hfront hconverted hkey
    obtain ⟨hpart, hi⟩ := FetchItem.part_eq_none hbracket hkey
    refine isSome_toUInt32?_of_readUid (v := i.value) ?_
    rw [← hconverted, FetchItem.converted, hpart, hi]
    rfl
  rw [uid?_eq]
  cases hget : r.items.get? "UID" with
  | none => exact ⟨fun _ => rfl, fun _ => rfl⟩
  | some v =>
    obtain ⟨n, rfl, hsome⟩ := hstored "UID" v hget rfl
    constructor
    · intro hnone
      have hn : toUInt32? n = none := hnone
      rw [hn] at hsome
      cases hsome
    · nofun

end FetchRecord

end ImapWire
