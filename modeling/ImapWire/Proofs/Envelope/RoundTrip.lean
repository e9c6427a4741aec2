/-
  An envelope is read back from its fields.

  The ten fields are of three kinds, and each kind keeps apart what it must: a byte string is `NIL`
  or a string, so no string and the empty string differ; an address list is `NIL` or a list of
  lists of four such fields, none of which is skipped, since an address without any field is still
  a list; a date is `NIL` or a text that is read as the same stamp (`Stamp.read?_messageDate`).

  So a list of the fields is read as the envelope that it was made from.  Three lists deep it also
  goes over the lines of a response, whatever its strings look like (`Envelope.read_written`).
-/
import ImapWire.Envelope.Read
import ImapWire.Proofs.Stamp.Written
import ImapWire.Proofs.Value.Field

namespace ImapWire

/-! ## Addresses -/

namespace Address

theorem read_tree (a : Address) : read (Value.ofTree a.tree) = .ok a := by
  obtain ⟨name, route, mailbox, host⟩ := a
  simp only [tree, Value.ofTree, Value.ofTrees, read, Value.nstring_ofOption]
  rfl

/-- An address list is read back, in its order and with all its group markers. -/
theorem readList_listTree (as : List Address) :
    readList (Value.ofTree (listTree as)) = .ok as := by
  cases as with
  | nil => rfl
  | cons a as =>
    have hnone : ∀ v ∈ ((a :: as).map tree).map Value.ofTree, (!v.isNil) = true := by
      rw [List.map_map]
      intro v hv
      obtain ⟨a', -, rfl⟩ := List.mem_map.1 hv
      rfl
    show readList (.group .round (Value.ofTrees ((a :: as).map tree))) = .ok (a :: as)
    rw [Value.ofTrees_eq_map]
    show (List.filter _ _).mapM read = _
    rw [List.filter_eq_self.2 hnone, List.map_map]
    exact Result.mapM_map_ok fun a _ => read_tree a

/-- An address list is two lists deep. -/
theorem depth_listTree_le (as : List Address) : (listTree as).depth ≤ 2 := by
  have hall : Tree.depthAll (as.map tree) ≤ 1 := by
    rw [Tree.depthAll_le_iff, List.forall_mem_map]
    intro a ha
    simp only [tree, Tree.depth, Tree.depthAll, Tree.depth_ofOption]
    omega
  unfold listTree
  split
  · exact Nat.zero_le 2
  · exact Nat.add_le_add_right hall 1

end Address

/-! ## Envelopes -/

/-- A date that an envelope keeps: it can be written, with a year of at most four digits, and
    nothing of it is lost then. -/
structure Stamp.IsHeaderDate (s : Stamp) : Prop where
  whole : s.IsWhole
  year_nonneg : 0 ≤ s.year
  year_le : s.year ≤ 9999

/-- Such a date is written as a text that is read as the same date. -/
theorem Stamp.IsHeaderDate.written {s : Stamp} (h : s.IsHeaderDate) :
    ∃ bs, s.messageDate? = some bs ∧ read? bs false = some s := by
  have hwritable : s.isWritable = true := by
    rw [isWritable, Bool.and_eq_true, decide_eq_true_eq, decide_eq_true_eq]
    exact ⟨h.year_nonneg, h.year_le⟩
  obtain ⟨bs, hbs⟩ := Option.isSome_iff_exists.1 ((isSome_messageDate? s).trans hwritable)
  exact ⟨bs, hbs, read?_messageDate h.whole hbs⟩

namespace Envelope

/-- The date field is read back. -/
theorem readDate_dateTree {date : Option Stamp} (h : ∀ s ∈ date, s.IsHeaderDate) :
    ∃ t, dateTree? date = some t ∧ readDate false (Value.ofTree t) = date ∧ t.depth = 0 := by
  cases date with
  | none => exact ⟨.nil, rfl, rfl, rfl⟩
  | some s =>
    obtain ⟨bs, hbs, hread⟩ := (h s rfl).written
    refine ⟨.bytes bs, ?_, hread, rfl⟩
    rw [dateTree?, hbs]
    rfl

/-- The fields of an envelope are read as the envelope. -/
theorem read_tree {e : Envelope} (h : ∀ s ∈ e.date, s.IsHeaderDate) :
    ∃ t, e.tree? = some t ∧ read false (Value.ofTree t) = .ok e ∧ t.depth ≤ 3 := by
  obtain ⟨date, hdate, hread, hflat⟩ := readDate_dateTree h
  obtain ⟨_, subject, author, sender, replyTo, recipients, cc, bcc, inReplyTo, messageId⟩ := e
  dsimp only at hdate hread
  refine ⟨_, congrArg (Option.map _) hdate, ?_, ?_⟩
  · simp only [Value.ofTree, Value.ofTrees, read, Value.nstring_ofOption,
      Address.readList_listTree, hread]
    rfl
  · have hdepth := Address.depth_listTree_le
    have hauthor := hdepth author
    have hsender := hdepth sender
    have hreply := hdepth replyTo
    have hrecipients := hdepth recipients
    have hcc := hdepth cc
    have hbcc := hdepth bcc
    simp only [Tree.depth, Tree.depthAll, hflat, Tree.depth_ofOption]
    omega

/-- **An envelope survives its shape and its lines.**  An envelope whose date, if it has one, can be
    written without loss has a shape; the shape is read as the envelope; and the lines that the
    envelope is sent on are read as that shape.  (`FitsAll`: no string has 2⁶⁴ bytes.) -/
theorem read_written (e : Envelope) (hdate : ∀ s ∈ e.date, s.IsHeaderDate) :
    ∃ t cs, e.tree? = some t ∧ read false (Value.ofTree t) = .ok e ∧
      Value.chunks? [.envelope e] = some cs ∧
      (Tree.FitsAll [t] → Tree.parse cs = .ok [t]) := by
  obtain ⟨t, ht, hread, hdepth⟩ := read_tree hdate
  have hform : Value.FormAll [.envelope e] [t] := .cons (.envelope ht) .nil
  refine ⟨t, Tree.chunks [t], ht, hread, Value.chunks?_of_formAll hform, fun hfits => ?_⟩
  have hshallow : Tree.depthAll [t] ≤ maxDepth :=
    Nat.max_le.2 ⟨Nat.le_trans hdepth (by decide), Nat.zero_le _⟩
  exact Tree.parse_chunks hshallow hfits

/-- A date in a leap second, a subject that looks like `NIL`, the markers around an empty group, and
    a message id that looks like the start of a literal. -/
theorem read_written_markers : ∃ e t cs,
    e = ⟨some ⟨1483228799, secondNanos, -19800⟩, some Tree.nilWord,
      [⟨none, some [], some (Bytes.ofString "g"), none⟩, ⟨none, none, none, none⟩], [], [], [], [],
      [], some [], some (Bytes.ofString "{3}\r")⟩ ∧
    t = .group .round
      [.bytes (Bytes.ofString "Sat, 31 Dec 2016 18:29:60 -0530"), .bytes Tree.nilWord,
        .group .round [.group .round [.nil, .bytes [], .bytes (Bytes.ofString "g"), .nil],
          .group .round [.nil, .nil, .nil, .nil]],
        .nil, .nil, .nil, .nil, .nil, .bytes [], .bytes (Bytes.ofString "{3}\r")] ∧
    read false (Value.ofTree t) = .ok e ∧ Value.chunks? [.envelope e] = some cs ∧
      Tree.parse cs = .ok [t] := by
  have hdate : Stamp.IsHeaderDate ⟨1483228799, secondNanos, -19800⟩ :=
    ⟨⟨by decide, by decide, Or.inr ⟨rfl, by decide⟩⟩, by decide, by decide⟩
  obtain ⟨e, he⟩ : ∃ e : Envelope, e = ⟨some ⟨1483228799, secondNanos, -19800⟩, some Tree.nilWord,
      [⟨none, some [], some (Bytes.ofString "g"), none⟩, ⟨none, none, none, none⟩], [], [], [], [],
      [], some [], some (Bytes.ofString "{3}\r")⟩ := ⟨_, rfl⟩
  obtain ⟨t, cs, ht, hread, hcs, hparse⟩ := read_written e (by
    rw [he]
    rintro _ ⟨⟩
    exact hdate)
  have hfits : ∀ t ∈ e.tree?, Tree.FitsAll [t] := by
    rw [he]
    decide +kernel
  refine ⟨e, t, cs, he, Option.some.inj (ht.symm.trans ?_), hread, hcs, hparse (hfits t ht)⟩
  rw [he]
  decide +kernel

end Envelope

end ImapWire
