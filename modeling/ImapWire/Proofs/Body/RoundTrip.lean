/-
  A body structure is read back from its fields.

  On the wire a structure is a list whose fields are told apart by their kind alone.  So a structure
  can come back only if nothing in it looks like a field that it does not have: no extension data
  may begin with what would be taken for a count of lines, or for an attached message.
  `Body.WellFormed` says so by rules, one for each shape of a structure.

    1. What is read behind the head of a single part is a count of lines, where there is one, and
       the rest (`Body.readTail_eq_ok_iff`).
    2. The fields in front of it are read back one by one (`Body.readHead_trees`).
    3. Well-formed structures are read back, by induction on the rules
       (`Body.WellFormed.read_value`); and every structure that was read is well formed, by
       induction on the structure (`Body.wellFormed_of_read`).
-/
import ImapWire.Proofs.Body.Rules
import ImapWire.Proofs.Envelope.RoundTrip

namespace ImapWire

/-- A date of an envelope that was read is whole. -/
theorem Envelope.isWhole_of_read {toUtc : Bool} {v : Value} {e : Envelope}
    (h : Envelope.read toUtc v = .ok e) : ∀ s ∈ e.date, s.IsWhole := by
  obtain ⟨date, more, -, hdate⟩ := Envelope.date_of_read h
  intro s hs
  rw [hdate] at hs
  cases date with
  | bytes text => exact Stamp.isWhole_of_read? hs
  | _ => cases hs

namespace Body

/-! ## Well-formed structures -/

/-- What may stand at the end of a single part.  If such a part is `counted`, it may have a count of
    lines that fits in 63 bits; without one its extension data begins with no integer. -/
structure TailFits (counted : Bool) (lines : Option UInt64) (extension : List Value) : Prop where
  count : ∀ n ∈ lines, counted = true ∧ n.toNat < Decimal.signedSize
  noCount : counted = true → lines = none → ∀ n more, extension ≠ .int n :: more

/-- Nothing in the structure is taken for a field that it does not have: a multipart structure has
    parts; a message is attached only to a part of that type, and if it is not, the extension data
    does not begin with two lists; text and attached messages may have a count of lines.  All dates
    of envelopes, at whatever depth, are such that `date` holds of them. -/
inductive WellFormed (date : Stamp → Prop) : Body → Prop
  | multipart {parts : List Body} {subtype : Bytes} {extension : List Value} (hne : parts ≠ [])
      (hparts : ∀ part ∈ parts, WellFormed date part) :
      WellFormed date (.multipart parts subtype extension)
  | message {head : PartHead} {envelope : Envelope} {body : Body} {lines : Option UInt64}
      {extension : List Value} (hmessage : head.isMessage = true)
      (hdate : ∀ s ∈ envelope.date, date s) (hbody : WellFormed date body)
      (htail : TailFits true lines extension) :
      WellFormed date (.single head (.message envelope body) lines extension)
  | part {head : PartHead} {lines : Option UInt64} {extension : List Value}
      (hlists : head.isMessage = true → ∀ v w more, extension = v :: w :: more →
        (v.isList && w.isList) = false)
      (htail : TailFits head.isText lines extension) :
      WellFormed date (.single head .none lines extension)

/-! ## The end of a single part -/

/-- May have a count of lines. -/
def isCounted (head : PartHead) : Attached → Bool
  | .none => head.isText
  | .message .. => true

/-- The integers that are counts of lines are those that are not negative. -/
theorem number64_int_eq_ok {role : String} {i : Int64} {n : UInt64} :
    (Value.int i).number64 role = .ok n ↔
      n.toNat < Decimal.signedSize ∧ i = Int64.ofInt n.toNat := by
  have hhigh : i.toInt < 2 ^ 63 := i.toInt_lt
  unfold Decimal.signedSize
  by_cases hpos : 0 ≤ i.toInt
  · have hbelow : (Value.int i).natBelow? UInt64.size = some i.toInt.toNat :=
      if_pos ⟨hpos, by unfold UInt64.size; omega⟩
    rw [Value.number64, hbelow]
    constructor
    · intro h
      obtain rfl := Except.ok.inj h
      have hnumber : (UInt64.ofNat i.toInt.toNat).toNat = i.toInt.toNat :=
        UInt64.toNat_ofNat_of_lt (by unfold UInt64.size; omega)
      rw [hnumber, Int.toNat_of_nonneg hpos, Int64.ofInt_toInt]
      exact ⟨by omega, rfl⟩
    · rintro ⟨hsmall, rfl⟩
      rw [Int64.toInt_ofInt_of_le (by omega) (by omega), Int.toNat_natCast]
      exact congrArg Except.ok UInt64.ofNat_toNat
  · have hnone : (Value.int i).natBelow? UInt64.size = none := if_neg fun h => hpos h.1
    rw [Value.number64, hnone]
    constructor
    · intro h
      cases h
    · rintro ⟨hsmall, rfl⟩
      rw [Int64.toInt_ofInt_of_le (by omega) (by omega)] at hpos
      omega

/-- An integer behind the head is the count of lines, if the part may have one. -/
theorem readTail_int (head : PartHead) (attached : Attached) (i : Int64) (more : List Value) :
    readTail head attached (.int i :: more) =
      if isCounted head attached = true then do
        let lines ← (Value.int i).number64 "body lines"
        .ok (.single head attached (some lines) more)
      else .ok (.single head attached none (.int i :: more)) := by
  cases attached with
  | none => cases htext : head.isText <;> simp [readTail, isCounted, htext]
  | message envelope body => simp [readTail, isCounted]

/-- Without one, everything behind the head is extension data. -/
theorem readTail_other {rest : List Value} (h : ∀ i more, rest ≠ .int i :: more) (head : PartHead)
    (attached : Attached) :
    readTail head attached rest = .ok (.single head attached none rest) := by
  unfold readTail
  extract_lets
  split
  · next i more => exact absurd rfl (h i more)
  · rfl

/-- **The end of a single part** is a count of lines, where the part has one, and the extension
    data. -/
theorem readTail_eq_ok_iff {head : PartHead} {attached : Attached} {rest : List Value} {b : Body} :
    readTail head attached rest = .ok b ↔ ∃ lines extension,
      b = .single head attached lines extension ∧
        TailFits (isCounted head attached) lines extension ∧
        rest = Value.ofTrees (linesTrees lines) ++ extension := by
  have hinteger : ∀ n : UInt64, n.toNat < Decimal.signedSize →
      Value.ofTree (.ofUInt64 n) = .int (Int64.ofInt n.toNat) := by
    intro n hsmall
    rw [Tree.ofUInt64, if_pos hsmall]
    rfl
  constructor
  · intro h
    by_cases hint : ∃ i more, rest = .int i :: more
    · obtain ⟨i, more, rfl⟩ := hint
      rw [readTail_int] at h
      split at h
      · next hyes =>
        obtain ⟨n, hn, hb⟩ := Result.bind_eq_ok.1 h
        obtain ⟨hsmall, rfl⟩ := number64_int_eq_ok.1 hn
        obtain rfl := Except.ok.inj hb
        refine ⟨some n, more, rfl, ⟨?_, nofun⟩, ?_⟩
        · intro m hm
          obtain rfl := Option.some.inj hm
          exact ⟨hyes, hsmall⟩
        · rw [← hinteger n hsmall]
          rfl
      · next hno =>
        cases h
        exact ⟨none, _, rfl, ⟨nofun, fun hyes => absurd hyes hno⟩, rfl⟩
    · have hother : ∀ i more, rest ≠ .int i :: more := fun i more h => hint ⟨i, more, h⟩
      rw [readTail_other hother] at h
      cases h
      exact ⟨none, rest, rfl, ⟨nofun, fun _ _ => hother⟩, rfl⟩
  · rintro ⟨lines, extension, rfl, htail, rfl⟩
    cases lines with
    | some n =>
      obtain ⟨hyes, hsmall⟩ := htail.count n rfl
      show readTail head attached (Value.ofTree (.ofUInt64 n) :: extension) = _
      rw [hinteger n hsmall, readTail_int, if_pos hyes, number64_int_eq_ok.2 ⟨hsmall, rfl⟩]
      rfl
    | none =>
      show readTail head attached extension = _
      by_cases hint : ∃ i more, extension = .int i :: more
      · obtain ⟨i, more, rfl⟩ := hint
        rw [readTail_int, if_neg fun hyes => htail.noCount hyes rfl i more rfl]
      · exact readTail_other (fun i more h => hint ⟨i, more, h⟩) head attached

/-! ## The head of a single part -/

/-- The parameters of a type are read back. -/
theorem readParams_paramsTree (params : List (Bytes × Bytes)) :
    readParams (Value.ofTree (PartHead.paramsTree params)) = .ok params := by
  cases params with
  | nil => rfl
  | cons p params =>
    have heven : (Value.ofTrees ((p :: params).flatMap fun q =>
        [.bytes q.1, .bytes q.2])).length % 2 = 0 := by
      rw [Value.length_ofTrees, Value.length_flatMap_two, Nat.mul_mod_right]
    refine (if_pos heven).trans ?_
    rw [Value.pairUp_flatMap]
    exact Result.mapM_map_ok fun q _ => rfl

/-- The size of a part is read back. -/
theorem readSize_tree (size : Option UInt64) :
    readSize (Value.ofTree ((size.map Tree.ofUInt64).getD .nil)) = .ok size := by
  cases size with
  | none => rfl
  | some n =>
    have hread := Value.number64_ofUInt64 "body size" n
    show readSize (Value.ofTree (.ofUInt64 n)) = .ok (some n)
    unfold Tree.ofUInt64 at hread ⊢
    by_cases hsmall : n.toNat < Decimal.signedSize
    · rw [if_pos hsmall] at hread ⊢
      exact Result.map_eq_ok.2 ⟨n, hread, rfl⟩
    · rw [if_neg hsmall] at hread ⊢
      exact Result.map_eq_ok.2 ⟨n, hread, rfl⟩

/-- The seven fields are read back. -/
theorem readHead_trees (head : PartHead) :
    ∃ mediaType subtype params id description encoding size,
      Value.ofTrees head.trees = [mediaType, subtype, params, id, description, encoding, size] ∧
        readHead mediaType subtype params id description encoding size = .ok head := by
  obtain ⟨mediaType, subtype, params, id, description, encoding, size⟩ := head
  refine ⟨_, _, _, _, _, _, _, rfl, ?_⟩
  simp only [readHead, readParams_paramsTree, Value.nstring_ofOption, readSize_tree]
  rfl

/-! ## Well-formed structures are read back -/

/-- An attached message is no text. -/
theorem isText_of_isMessage {head : PartHead} (h : head.isMessage = true) :
    head.isText = false := by
  have hmessage : Bytes.lower head.mediaType = Bytes.lower (Bytes.ofString "MESSAGE") :=
    Bytes.sameName_iff.1 (Bool.and_eq_true_iff.1 h).1
  refine Bool.eq_false_iff.2 fun htext => ?_
  have hboth := hmessage.symm.trans (Bytes.sameName_iff.1 htext)
  exact absurd hboth (by decide)

/-- Only text has a count of lines, if no message is attached. -/
theorem TailFits.none_of_isMessage {head : PartHead} {lines : Option UInt64}
    {extension : List Value} (h : TailFits head.isText lines extension)
    (hmessage : head.isMessage = true) : lines = none := by
  cases lines with
  | none => rfl
  | some n =>
    have htext := (h.count n rfl).1
    rw [isText_of_isMessage hmessage] at htext
    cases htext

/-- Parts with a subtype behind them are read back, if each part is. -/
theorem readParts_values {parts : List Body}
    (h : ∀ part ∈ parts, ∃ v, part.value? = some v ∧ read false v = .ok part ∧ v.isList = true) :
    ∃ vs, valueAll? parts = some vs ∧ vs.length = parts.length ∧ (∀ v ∈ vs, v.isList = true) ∧
      ∀ last more, Value.isList last = false →
        readParts false (vs ++ last :: more) = .ok parts := by
  induction parts with
  | nil =>
    refine ⟨[], rfl, rfl, nofun, fun last more hlast => ?_⟩
    rw [List.nil_append, readParts, hlast]
    rfl
  | cons part parts ih =>
    obtain ⟨⟨v, hv, hread, hlist⟩, hparts⟩ := List.forall_mem_cons.1 h
    obtain ⟨vs, hvs, hlength, hlists, hreads⟩ := ih hparts
    refine ⟨v :: vs, ?_, congrArg (· + 1) hlength, List.forall_mem_cons.2 ⟨hlist, hlists⟩,
      fun last more hlast => ?_⟩
    · rw [valueAll?, hv, hvs]
      rfl
    · rw [List.cons_append, readParts, if_pos hlist, hread, hreads last more hlast]
      rfl

/-- **A well-formed structure is read back** from the list that it is. -/
theorem WellFormed.read_value {b : Body} (h : b.WellFormed Stamp.IsHeaderDate) :
    ∃ v, b.value? = some v ∧ read false v = .ok b ∧ v.isList = true := by
  induction h with
  | @multipart parts subtype extension hne hparts ih =>
    obtain ⟨vs, hvs, hlength, hlists, hreads⟩ := readParts_values ih
    refine ⟨.group .round (vs ++ .bytes subtype :: extension), by rw [value?, hvs]; rfl, ?_, rfl⟩
    have hfirst :
        ((vs ++ .bytes subtype :: extension).head?.map Value.isList).getD false = true := by
      cases vs with
      | nil => exact absurd (List.length_eq_zero_iff.1 hlength.symm) hne
      | cons v vs => exact hlists v List.mem_cons_self
    have hcut : (vs ++ .bytes subtype :: extension).dropWhile Value.isList
        = .bytes subtype :: extension := by
      rw [List.dropWhile_append_of_pos hlists]
      rfl
    exact read_of_madeOf (.multipart hfirst hcut (hreads _ _ rfl) rfl)
  | @message head envelope body lines extension hmessage hdate hbody htail ih =>
    obtain ⟨mediaType, subtype, params, id, description, encoding, size, htrees, hhead⟩ :=
      readHead_trees head
    obtain ⟨t, ht, hread, -⟩ := Envelope.read_tree hdate
    obtain ⟨v, hv, hbodyRead, hlist⟩ := ih
    have henvelope : (Value.ofTree t).isList = true := by
      obtain ⟨date, more, hshape, -⟩ := Envelope.date_of_read hread
      rw [hshape]
      rfl
    refine ⟨_, by rw [value?, Attached.values?, ht, hv, htrees]; rfl, ?_, rfl⟩
    exact read_of_madeOf (.message (.intro hhead hmessage henvelope hlist) hread hbodyRead
      (readTail_eq_ok_iff.2 ⟨lines, extension, rfl, htail, rfl⟩))
  | @part head lines extension hlists htail =>
    obtain ⟨mediaType, subtype, params, id, description, encoding, size, htrees, hhead⟩ :=
      readHead_trees head
    refine ⟨_, by rw [value?, Attached.values?, htrees]; rfl, ?_, rfl⟩
    refine read_of_madeOf (.part hhead ?_
      (readTail_eq_ok_iff.2 ⟨lines, extension, rfl, htail, rfl⟩))
    intro v w more hrest
    cases hmessage : head.isMessage with
    | false => rfl
    | true =>
      obtain rfl := htail.none_of_isMessage hmessage
      exact hlists hmessage v w more hrest

/-! ## What was read is well formed -/

mutual
/-- **Every structure that was read is well formed**, and its dates are whole. -/
theorem wellFormed_of_read {toUtc : Bool} {v : Value} (b : Body) (h : read toUtc v = .ok b) :
    b.WellFormed Stamp.IsWhole := by
  obtain ⟨items, rfl, hmade⟩ := madeOf_of_read h
  cases b with
  | multipart parts subtype extension =>
    cases hmade with
    | multipart hfirst hcut hparts hsubtype =>
      refine .multipart ?_ (wellFormed_of_readParts parts hparts)
      -- the list in front is a part
      rintro rfl
      cases items with
      | nil => cases hfirst
      | cons v rest =>
        have hlist : v.isList = true := hfirst
        rw [readParts, if_pos hlist] at hparts
        obtain ⟨part, -, hparts⟩ := Result.bind_eq_ok.1 hparts
        obtain ⟨parts, -, hparts⟩ := Result.bind_eq_ok.1 hparts
        cases hparts
    | message hattaches henvelope hbody htail =>
      obtain ⟨lines, extension, hb, -⟩ := readTail_eq_ok_iff.1 htail
      cases hb
    | part hhead hnone htail =>
      obtain ⟨lines, extension, hb, -⟩ := readTail_eq_ok_iff.1 htail
      cases hb
  | single head attached lines extension =>
    cases hmade with
    | message hattaches henvelope hbody htail =>
      obtain ⟨lines', extension', hb, hfits, -⟩ := readTail_eq_ok_iff.1 htail
      cases attached with
      | none => cases hb
      | message envelope body =>
        obtain ⟨rfl, hmade, rfl, rfl⟩ := Body.single.inj hb
        obtain ⟨rfl, rfl⟩ := Attached.message.inj hmade
        obtain ⟨-, hmessage, -, -⟩ := hattaches
        exact .message hmessage (Envelope.isWhole_of_read henvelope)
          (wellFormed_of_read body hbody) hfits
    | part hhead hnone htail =>
      obtain ⟨lines', extension', hb, hfits, hrest⟩ := readTail_eq_ok_iff.1 htail
      cases hb
      refine .part (fun hmessage v w more hextension => ?_) hfits
      obtain rfl := hfits.none_of_isMessage hmessage
      have hlists := hnone v w more (hrest.trans hextension)
      rwa [hmessage, Bool.true_and] at hlists

theorem wellFormed_of_readParts {toUtc : Bool} {items : List Value} (parts : List Body)
    (h : readParts toUtc items = .ok parts) : ∀ part ∈ parts, part.WellFormed Stamp.IsWhole := by
  cases parts with
  | nil => exact nofun
  | cons part parts =>
    cases items with
    | nil => cases h
    | cons v rest =>
      rw [readParts] at h
      split at h
      · obtain ⟨part', hpart, h⟩ := Result.bind_eq_ok.1 h
        obtain ⟨parts', hparts, h⟩ := Result.bind_eq_ok.1 h
        cases h
        exact List.forall_mem_cons.2
          ⟨wellFormed_of_read part hpart, wellFormed_of_readParts parts hparts⟩
      · cases h
end

/-- **Structures and their lists of fields.**  Every well-formed structure whose envelope dates can
    be written without loss is the list that it is read from, however deep it nests.  Conversely
    whatever is read is well formed, but that its dates may have years that cannot be written. -/
theorem read_fields :
    (∀ b : Body, b.WellFormed Stamp.IsHeaderDate →
      ∃ v, b.value? = some v ∧ read false v = .ok b) ∧
    (∀ (toUtc : Bool) (v : Value) (b : Body), read toUtc v = .ok b →
      b.WellFormed Stamp.IsWhole) := by
  constructor
  · intro b hb
    obtain ⟨v, hv, hread, -⟩ := hb.read_value
    exact ⟨v, hv, hread⟩
  · intro toUtc v b hread
    exact wellFormed_of_read b hread

/-- A text without a count of lines, and a message with one that was sent in a leap second and that
    holds a part of a size beyond 63 bits. -/
theorem read_fields_leap : ∃ b v,
    b = .multipart
      [.single ⟨Bytes.ofString "text", [], [], none, some [], none, some 0⟩ .none none
          [.bytes Tree.nilWord, .int 7],
        .single ⟨Bytes.ofString "Message", Bytes.ofString "rfc822", [([], [0x0A])], none, none,
            none, none⟩
          (.message ⟨some ⟨1483228799, secondNanos, 3600⟩, some [], [], [⟨none, none, none, none⟩],
              [], [], [], [], none, none⟩
            (.single ⟨[], [], [], none, none, none, some 18446744073709551615⟩ .none none
              [.int 1, .group .round []]))
          (some 9223372036854775807) [.int 1]]
      (Bytes.ofString "MIXED") [.group .round []] ∧
    b.value? = some v ∧ read false v = .ok b ∧ b.WellFormed Stamp.IsWhole := by
  obtain ⟨hwritten, hread⟩ := read_fields
  have hboth : ∀ b : Body, b.WellFormed Stamp.IsHeaderDate → ∃ v, b = b ∧ b.value? = some v ∧
      read false v = .ok b ∧ b.WellFormed Stamp.IsWhole := by
    intro b hb
    obtain ⟨v, hv, hback⟩ := hwritten b hb
    exact ⟨v, rfl, hv, hback, hread false v b hback⟩
  have hdate : Stamp.IsHeaderDate ⟨1483228799, secondNanos, 3600⟩ :=
    ⟨⟨by decide, by decide, Or.inr ⟨rfl, by decide⟩⟩, by decide, by decide⟩
  refine ⟨_, hboth _ (.multipart (List.cons_ne_nil _ _) ?_)⟩
  refine List.forall_mem_cons.2 ⟨.part ?_ ⟨nofun, ?_⟩, List.forall_mem_cons.2 ⟨?_, nofun⟩⟩
  · intro hmessage
    exact absurd hmessage (by decide)
  · rintro - - n more ⟨⟩
  · refine .message (by decide) ?_ (.part ?_ ⟨nofun, ?_⟩) ⟨?_, nofun⟩
    · rintro _ ⟨⟩
      exact hdate
    · intro hmessage
      exact absurd hmessage (by decide)
    · intro htext
      exact absurd htext (by decide)
    · rintro _ ⟨⟩
      decide

end Body

end ImapWire
