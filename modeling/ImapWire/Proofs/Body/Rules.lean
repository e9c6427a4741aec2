/-
  What body structures are read from.

  `Body.MadeOf toUtc b items` says by rules that the list `items` is read as the structure `b`.
  There are three rules, one for each shape of a list: parts with a subtype behind them; a single
  part with an attached message; a single part without one.  Reading follows these rules
  (`Body.read_eq_ok_iff`), so what is proved about structures that were read has three cases.

  Of an envelope only the date field is looked at here (`Envelope.date_of_read`).
-/
import ImapWire.Body.Read

namespace ImapWire

/-! ## Envelopes -/

/-- The date of an envelope is what its first field says. -/
theorem Envelope.date_of_read {toUtc : Bool} {v : Value} {e : Envelope}
    (h : Envelope.read toUtc v = .ok e) :
    ∃ date rest, v = .group .round (date :: rest) ∧ e.date = readDate toUtc date := by
  unfold Envelope.read at h
  split at h
  · next date _ _ _ _ _ _ _ _ _ =>
    refine ⟨date, _, rfl, ?_⟩
    simp only [Result.bind_eq_ok] at h
    obtain ⟨_, -, _, -, _, -, _, -, _, -, _, -, _, -, _, -, _, -, h⟩ := h
    cases h
    rfl
  · cases h
  · cases h

namespace Body

/-! ## Single parts -/

/-- What has a media type is no list. -/
theorem isList_of_readHead {mediaType subtype params id description encoding size : Value}
    {head : PartHead}
    (h : readHead mediaType subtype params id description encoding size = .ok head) :
    mediaType.isList = false := by
  cases mediaType with
  | group b items => cases b <;> first | rfl | cases h
  | _ => rfl

/-- Behind the head and the attached message come the lines, if any, and the extension data. -/
theorem single_of_readTail {head : PartHead} {attached : Attached} {rest : List Value} {b : Body}
    (h : readTail head attached rest = .ok b) :
    ∃ lines extension, b = .single head attached lines extension ∧ extension <:+ rest := by
  unfold readTail at h
  extract_lets counted at h
  clear_value counted
  split at h
  · next n extension =>
    split at h
    · obtain ⟨lines, -, h⟩ := Result.bind_eq_ok.1 h
      cases h
      exact ⟨some lines, extension, rfl, List.suffix_cons _ _⟩
    · cases h
      exact ⟨none, _, rfl, List.suffix_refl _⟩
  · cases h
    exact ⟨none, rest, rfl, List.suffix_refl _⟩

/-- The list of a single part with an attached message, whose envelope and structure follow the
    head. -/
inductive Attaches : List Value → PartHead → Value → Value → List Value → Prop
  | intro {mediaType subtype params id description encoding size envelope body : Value}
      {rest : List Value} {head : PartHead}
      (hhead : readHead mediaType subtype params id description encoding size = .ok head)
      (hmessage : head.isMessage = true) (henvelope : envelope.isList = true)
      (hbody : body.isList = true) :
      Attaches (mediaType :: subtype :: params :: id :: description :: encoding :: size :: envelope
        :: body :: rest) head envelope body rest

/-! ## Rules -/

/-- The list is read as the structure. -/
inductive MadeOf (toUtc : Bool) : Body → List Value → Prop
  | multipart {items extension : List Value} {last : Value} {parts : List Body} {subtype : Bytes}
      (hfirst : (items.head?.map Value.isList).getD false = true)
      (hcut : items.dropWhile Value.isList = last :: extension)
      (hparts : readParts toUtc items = .ok parts)
      (hsubtype : last.string "multipart subtype" = .ok subtype) :
      MadeOf toUtc (.multipart parts subtype extension) items
  | message {items rest : List Value} {head : PartHead} {envelopeValue bodyValue : Value}
      {envelope : Envelope} {body b : Body}
      (hattaches : Attaches items head envelopeValue bodyValue rest)
      (henvelope : Envelope.read toUtc envelopeValue = .ok envelope)
      (hbody : read toUtc bodyValue = .ok body)
      (htail : readTail head (.message envelope body) rest = .ok b) : MadeOf toUtc b items
  | part {mediaType subtype params id description encoding size : Value} {rest : List Value}
      {head : PartHead} {b : Body}
      (hhead : readHead mediaType subtype params id description encoding size = .ok head)
      (hnone : ∀ envelope body more, rest = envelope :: body :: more →
        (head.isMessage && envelope.isList && body.isList) = false)
      (htail : readTail head .none rest = .ok b) :
      MadeOf toUtc b
        (mediaType :: subtype :: params :: id :: description :: encoding :: size :: rest)

theorem madeOf_of_read {toUtc : Bool} {v : Value} {b : Body} (h : read toUtc v = .ok b) :
    ∃ items, v = .group .round items ∧ MadeOf toUtc b items := by
  unfold read at h
  split at h
  · next items =>
    refine ⟨items, rfl, ?_⟩
    split at h
    · next hfirst =>
      split at h
      · cases h
      · next last extension hcut =>
        obtain ⟨parts, hparts, h⟩ := Result.bind_eq_ok.1 h
        obtain ⟨subtype, hsubtype, h⟩ := Result.bind_eq_ok.1 h
        cases h
        exact .multipart hfirst hcut hparts hsubtype
    · split at h
      · next mediaType subtype params id description encoding size rest hfirst =>
        obtain ⟨head, hhead, h⟩ := Result.bind_eq_ok.1 h
        split at h
        · next envelopeValue bodyValue more =>
          split at h
          · next hattached =>
            simp only [Bool.and_eq_true] at hattached
            obtain ⟨⟨hmessage, henvelopeList⟩, hbodyList⟩ := hattached
            obtain ⟨envelope, henvelope, h⟩ := Result.bind_eq_ok.1 h
            obtain ⟨body, hbody, h⟩ := Result.bind_eq_ok.1 h
            exact .message (.intro hhead hmessage henvelopeList hbodyList) henvelope hbody h
          · next hnot =>
            refine .part hhead ?_ h
            rintro envelope body more ⟨⟩
            exact Bool.eq_false_iff.2 hnot
        · next hshort =>
          refine .part hhead ?_ h
          rintro envelope body more rfl
          exact absurd rfl (hshort envelope body more)
      · cases h
  · cases h

theorem read_of_madeOf {toUtc : Bool} {items : List Value} {b : Body} (h : MadeOf toUtc b items) :
    read toUtc (.group .round items) = .ok b := by
  cases h with
  | multipart hfirst hcut hparts hsubtype =>
    unfold read
    rw [if_pos hfirst]
    simp only [hcut, hparts, hsubtype, bind, Except.bind]
  | message hattaches henvelope hbody htail =>
    obtain ⟨hhead, hmessage, henvelopeList, hbodyList⟩ := hattaches
    have hfirst := isList_of_readHead hhead
    simp [read, hfirst, hhead, bind, Except.bind, hmessage, henvelopeList, hbodyList, henvelope,
      hbody, htail]
  | @part mediaType subtype params id description encoding size rest head _ hhead hnone htail =>
    have hfirst := isList_of_readHead hhead
    rw [read, if_neg (by simp [hfirst])]
    simp only [hhead, bind, Except.bind]
    split
    · next envelope body more =>
      rw [if_neg (by simp [hnone envelope body more rfl])]
      exact htail
    · exact htail

/-- **Body structures are read by the rules.** -/
theorem read_eq_ok_iff {toUtc : Bool} {v : Value} {b : Body} :
    read toUtc v = .ok b ↔ ∃ items, v = .group .round items ∧ MadeOf toUtc b items := by
  constructor
  · exact madeOf_of_read
  · rintro ⟨items, rfl, hmade⟩
    exact read_of_madeOf hmade

end Body

end ImapWire
