/-
  Structures without their dates.

  A date text says nothing but a date.  Two values are alike but for their date texts if they become
  the same value once every date text in them is made empty (`Envelope.blank`, `Body.blank`); two
  records are alike but for their dates if they become the same once every date is taken out
  (`Envelope.undated`, `Body.undated`).

  Two readers agree by `f` if both fail, or both succeed and `f` shows the same of what they give
  (`Result.SameBy`).

  **Where dates are read.**  An envelope is read like the one with an empty date text, on any clock,
  but for its date (`Envelope.read_blank`).  A structure is read like the one with empty date texts
  (`Body.read_blank`), by induction on the value: its parts, or the envelope and the structure of an
  attached message, and all other fields are the same in both.
-/
import ImapWire.Body.Read
import ImapWire.Proofs.Decimal
import ImapWire.Proofs.Result

namespace ImapWire

open Result (SameBy sameBy_ok sameBy_error sameBy_bind sameBy_bind_of_ok)

/-! ## Envelopes -/

/-- A text made empty. -/
def Value.blankText : Value → Value
  | .bytes _ => .bytes []
  | v => v

theorem Value.kind_blankText (v : Value) : v.blankText.kind = v.kind := by
  cases v <;> rfl

/-- Values of one kind are both lists or both none. -/
theorem Value.isList_congr {v w : Value} (h : v.kind = w.kind) : v.isList = w.isList := by
  have hkind : ∀ u : Value, u.isList = decide (u.kind = .group .round) := by
    intro u
    cases u with
    | group bracket items => cases bracket <;> rfl
    | _ => rfl
  rw [hkind, hkind, h]

namespace Envelope

/-- The list of an envelope with its date text made empty. -/
def blank : Value → Value
  | .group .round (date :: fields) => .group .round (date.blankText :: fields)
  | v => v

/-- An envelope without its date. -/
def undated (e : Envelope) : Envelope := { e with date := none }

/-- The first field has no say in anything but the date. -/
theorem read_sameBy_date (toUtc toUtc' : Bool) (date date' : Value) (fields : List Value) :
    SameBy undated (read toUtc (.group .round (date :: fields)))
      (read toUtc' (.group .round (date' :: fields))) := by
  match fields with
  | [subject, author, sender, replyTo, recipients, cc, bcc, inReplyTo, messageId] =>
    refine sameBy_bind _ fun subject => ?_
    refine sameBy_bind _ fun author => ?_
    refine sameBy_bind _ fun sender => ?_
    refine sameBy_bind _ fun replyTo => ?_
    refine sameBy_bind _ fun recipients => ?_
    refine sameBy_bind _ fun cc => ?_
    refine sameBy_bind _ fun bcc => ?_
    refine sameBy_bind _ fun inReplyTo => ?_
    refine sameBy_bind _ fun messageId => ?_
    exact sameBy_ok rfl
  | [] | [_] | [_, _] | [_, _, _] | [_, _, _, _] | [_, _, _, _, _] | [_, _, _, _, _, _]
  | [_, _, _, _, _, _, _] | [_, _, _, _, _, _, _, _] => rfl
  | _ :: _ :: _ :: _ :: _ :: _ :: _ :: _ :: _ :: _ :: _ => rfl

/-- **An envelope** is read like the one with an empty date text. -/
theorem read_blank (toUtc toUtc' : Bool) (v : Value) :
    SameBy undated (read toUtc v) (read toUtc' (blank v)) := by
  match v with
  | .group .round (date :: fields) => exact read_sameBy_date toUtc toUtc' date _ fields
  | .group .round [] | .group .square _ | .int _ | .bytes _ | .nil | .flags _ | .stamp _
  | .envelope _ | .address _ | .body _ => rfl

theorem kind_blank (v : Value) : (blank v).kind = v.kind := by
  cases v with
  | group bracket items => cases bracket <;> cases items <;> rfl
  | _ => rfl

end Envelope

/-! ## Body structures -/

mutual
/-- A value without the dates of its envelopes. -/
def Value.undated : Value → Value
  | .group bracket items => .group bracket (Value.undatedAll items)
  | .envelope e => .envelope e.undated
  | .body b => .body (Body.undated b)
  | .int n => .int n
  | .bytes bs => .bytes bs
  | .nil => .nil
  | .flags fs => .flags fs
  | .stamp s => .stamp s
  | .address a => .address a

def Value.undatedAll : List Value → List Value
  | [] => []
  | v :: vs => Value.undated v :: Value.undatedAll vs

def Body.undated : Body → Body
  | .single head attached lines extension =>
    .single head (Attached.undated attached) lines (Value.undatedAll extension)
  | .multipart parts subtype extension =>
    .multipart (Body.undatedAll parts) subtype (Value.undatedAll extension)

def Body.undatedAll : List Body → List Body
  | [] => []
  | b :: bs => Body.undated b :: Body.undatedAll bs

def Attached.undated : Attached → Attached
  | .none => .none
  | .message envelope body => .message envelope.undated (Body.undated body)
end

namespace Body

/-- Is a word, in any case. -/
def isWord (word : String) : Value → Bool
  | .bytes bs => Bytes.sameName bs (Bytes.ofString word)
  | _ => false

mutual
/-- A structure with the date texts of its attached messages made empty. -/
def blank : Value → Value
  | .group .round items =>
    if (items.head?.map Value.isList).getD false then .group .round (blankParts items)
    else
      match items with
      | mediaType :: subtype :: params :: id :: description :: encoding :: size :: envelope :: body
          :: rest =>
        if isWord "MESSAGE" mediaType && isWord "RFC822" subtype && envelope.isList && body.isList
        then .group .round (mediaType :: subtype :: params :: id :: description :: encoding :: size
          :: Envelope.blank envelope :: blank body :: rest)
        else .group .round items
      | items => .group .round items
  | v => v

/-- The same of the parts in front of the subtype. -/
def blankParts : List Value → List Value
  | [] => []
  | v :: rest => if v.isList then blank v :: blankParts rest else v :: rest
end

/-- A number spells no word that starts with a letter. -/
theorem isWord_of_string {word role : String} {v : Value} {bs : Bytes}
    (hword : ∀ b, (b = Bytes.minus ∨ Bytes.isDigit b = true) →
      (Bytes.lower (Bytes.ofString word)).head? ≠ some (Bytes.lowerByte b))
    (h : v.string role = .ok bs) : Bytes.sameName bs (Bytes.ofString word) = isWord word v := by
  cases v with
  | bytes bs' =>
    cases h
    rfl
  | int n =>
    cases h
    show Bytes.sameName (Decimal.ofInt n.toInt) (Bytes.ofString word) = false
    rw [Bool.eq_false_iff]
    intro hsame
    obtain ⟨b, more, hnumber⟩ := List.exists_cons_of_ne_nil (Decimal.ofInt_ne_nil n.toInt)
    have hfirst := congrArg List.head? (Bytes.sameName_iff.1 hsame)
    refine hword b (Decimal.mem_ofInt (n := n.toInt) ?_) ?_
    · rw [hnumber]
      exact List.mem_cons_self
    · rw [← hfirst, hnumber]
      rfl
  | _ => cases h

/-- Which parts hold a message can be seen in the first two fields. -/
theorem isMessage_of_readHead {mediaType subtype params id description encoding size : Value}
    {head : PartHead}
    (h : readHead mediaType subtype params id description encoding size = .ok head) :
    head.isMessage = (isWord "MESSAGE" mediaType && isWord "RFC822" subtype) := by
  unfold readHead at h
  obtain ⟨mediaType', hmediaType, h⟩ := Result.bind_eq_ok.1 h
  obtain ⟨subtype', hsubtype, h⟩ := Result.bind_eq_ok.1 h
  simp only [Result.bind_eq_ok] at h
  obtain ⟨_, -, _, -, _, -, _, -, _, -, h⟩ := h
  cases h
  have hmessage :
      Bytes.sameName mediaType' (Bytes.ofString "MESSAGE") = isWord "MESSAGE" mediaType :=
    isWord_of_string (Bytes.forall_of_fin (by decide +kernel)) hmediaType
  have hrfc822 : Bytes.sameName subtype' (Bytes.ofString "RFC822") = isWord "RFC822" subtype :=
    isWord_of_string (Bytes.forall_of_fin (by decide +kernel)) hsubtype
  show (Bytes.sameName mediaType' _ && Bytes.sameName subtype' _) = _
  rw [hmessage, hrfc822]

theorem kind_blank (v : Value) : (blank v).kind = v.kind := by
  cases v with
  | group bracket items =>
    cases bracket with
    | square => rfl
    | round =>
      unfold blank
      split
      · rfl
      · split
        · split <;> rfl
        · rfl
  | _ => rfl

theorem isList_blank (v : Value) : (blank v).isList = v.isList := Value.isList_congr (kind_blank v)

/-- Behind the parts nothing is changed, and a list of parts stays one. -/
theorem dropWhile_blankParts (vs : List Value) :
    (blankParts vs).dropWhile Value.isList = vs.dropWhile Value.isList := by
  induction vs with
  | nil => rw [blankParts]
  | cons v vs ih =>
    rw [blankParts]
    split
    · next hlist =>
      rw [List.dropWhile_cons_of_pos (by rw [isList_blank, hlist]),
        List.dropWhile_cons_of_pos hlist, ih]
    · rfl

theorem head?_blankParts (vs : List Value) :
    (blankParts vs).head?.map Value.isList = vs.head?.map Value.isList := by
  cases vs with
  | nil => rw [blankParts]
  | cons v vs =>
    rw [blankParts]
    split
    · exact congrArg some (isList_blank v)
    · rfl

/-- The end of a part takes over what is attached. -/
theorem readTail_sameBy (head : PartHead) {attached attached' : Attached}
    (hsame : attached.undated = attached'.undated) (rest : List Value) :
    SameBy undated (readTail head attached rest) (readTail head attached' rest) := by
  have hsingle : ∀ lines extension,
      (single head attached lines extension).undated
        = (single head attached' lines extension).undated := by
    intro lines extension
    rw [undated, undated, hsame]
  unfold readTail
  extract_lets counted counted'
  -- there is a message in both or in neither, so lines are counted in both or in neither
  have hcounted : counted' = counted := by
    cases attached <;> cases attached' <;> first | rfl | cases hsame
  clear_value counted' counted
  subst hcounted
  match rest with
  | .int n :: extension =>
    cases counted' with
    | true => exact sameBy_bind _ fun lines => sameBy_ok (hsingle (some lines) extension)
    | false => exact sameBy_ok (hsingle none _)
  | [] | .bytes _ :: _ | .nil :: _ | .group _ _ :: _ | .flags _ :: _ | .stamp _ :: _
  | .envelope _ :: _ | .address _ :: _ | .body _ :: _ => exact sameBy_ok (hsingle none _)

/-- A single part is read field by field. -/
theorem read_single (toUtc : Bool)
    {mediaType subtype params id description encoding size : Value} {rest : List Value}
    (hfirst : mediaType.isList = false) :
    read toUtc (.group .round
      (mediaType :: subtype :: params :: id :: description :: encoding :: size :: rest)) =
      readHead mediaType subtype params id description encoding size >>= fun head =>
        match rest with
        | envelope :: body :: tail =>
          if head.isMessage && envelope.isList && body.isList then
            Envelope.read toUtc envelope >>= fun envelope => read toUtc body >>= fun body =>
              readTail head (.message envelope body) tail
          else readTail head .none (envelope :: body :: tail)
        | rest => readTail head .none rest := by
  rw [read]
  exact if_neg (by simp [hfirst])

mutual
/-- **A structure** is read like the one with empty date texts. -/
theorem read_blank (toUtc toUtc' : Bool) (v : Value) :
    SameBy undated (read toUtc v) (read toUtc' (blank v)) := by
  match v with
  | .group .round items =>
    by_cases hfirst : (items.head?.map Value.isList).getD false = true
    · have hblank : blank (.group .round items) = .group .round (blankParts items) := by
        unfold blank
        rw [if_pos hfirst]
      rw [hblank]
      unfold read
      rw [if_pos hfirst, head?_blankParts, if_pos hfirst, dropWhile_blankParts]
      cases items.dropWhile Value.isList with
      | nil => exact sameBy_error _ _ _
      | cons last extension =>
        refine (readParts_blank toUtc toUtc' items).bind fun parts parts' hparts => ?_
        refine sameBy_bind _ fun subtype => sameBy_ok ?_
        rw [undated, undated, hparts]
    · match items with
      | mediaType :: subtype :: params :: id :: description :: encoding :: size :: envelope :: body
          :: rest =>
        have hmediaType : mediaType.isList = false := Bool.eq_false_iff.2 hfirst
        unfold blank
        rw [if_neg hfirst]
        dsimp only
        by_cases hmessage : (isWord "MESSAGE" mediaType && isWord "RFC822" subtype
            && envelope.isList && body.isList) = true
        · -- an attached message: its envelope and its structure have dates
          rw [if_pos hmessage, read_single toUtc hmediaType, read_single toUtc' hmediaType]
          refine sameBy_bind_of_ok fun head hhead => ?_
          rw [← isMessage_of_readHead hhead] at hmessage
          dsimp only
          rw [Value.isList_congr (Envelope.kind_blank envelope), isList_blank, if_pos hmessage,
            if_pos hmessage]
          refine (Envelope.read_blank toUtc toUtc' envelope).bind fun e e' he => ?_
          refine (read_blank toUtc toUtc' body).bind fun b b' hb => ?_
          refine readTail_sameBy head ?_ rest
          rw [Attached.undated, Attached.undated, he, hb]
        · rw [if_neg hmessage, read_single toUtc hmediaType, read_single toUtc' hmediaType]
          refine sameBy_bind_of_ok fun head hhead => ?_
          rw [← isMessage_of_readHead hhead] at hmessage
          dsimp only
          rw [if_neg hmessage, if_neg hmessage]
          exact SameBy.refl _ _
      | [mediaType, subtype, params, id, description, encoding, size]
      | [mediaType, subtype, params, id, description, encoding, size, _] =>
        have hmediaType : mediaType.isList = false := Bool.eq_false_iff.2 hfirst
        unfold blank
        rw [if_neg hfirst, read_single toUtc hmediaType, read_single toUtc' hmediaType]
        exact sameBy_bind _ fun head => SameBy.refl _ _
      | [] | [_] | [_, _] | [_, _, _] | [_, _, _, _] | [_, _, _, _, _] | [_, _, _, _, _, _] =>
        unfold blank
        rw [if_neg hfirst]
        unfold read
        rw [if_neg hfirst, if_neg hfirst]
        exact sameBy_error _ _ _
  | .group .square _ | .int _ | .bytes _ | .nil | .flags _ | .stamp _ | .envelope _ | .address _
  | .body _ =>
    unfold blank read
    exact sameBy_error _ _ _

theorem readParts_blank (toUtc toUtc' : Bool) (vs : List Value) :
    SameBy undatedAll (readParts toUtc vs) (readParts toUtc' (blankParts vs)) := by
  cases vs with
  | nil =>
    unfold blankParts readParts
    rfl
  | cons v vs =>
    rw [readParts, blankParts]
    split
    · next hlist =>
      rw [readParts, if_pos (by rw [isList_blank, hlist])]
      refine (read_blank toUtc toUtc' v).bind fun part part' hpart => ?_
      refine (readParts_blank toUtc toUtc' vs).bind fun parts parts' hparts => sameBy_ok ?_
      rw [undatedAll, undatedAll, hpart, hparts]
    · next hlist =>
      rw [readParts, if_neg hlist]
      rfl
end

end Body

end ImapWire
