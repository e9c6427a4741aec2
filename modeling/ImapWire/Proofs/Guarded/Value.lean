/-
  Records by position.

  The readers of records are written out here with every access that could stop a program: fields by
  their numbers, dates cut out of their texts, and the texts of messages.  A message shows the values
  that are to blame.  Values are written without fail except where an envelope in them has a date,
  and such a date need not have a written form.  So a text that is to show an envelope date stops
  (`textOf`), whether the date could be written or not.

  1. **Readers that can stop** (`Checked`).  Their failures are failures of the input by their type
     (`Failure`): there is none that a value cannot be written.  `Gives c r` says that a checked reader
     `c` does not stop and gives what the running reader `r` gives.

  2. **Fields** (`string_gives` and those after it).  Each reader gives the same as the running one
     for values without envelope dates, and what has been read into trees is such a value.  The fields
     of a value without envelope dates have none either, so the readers go on down.

  3. **Envelopes and structures** (`readEnvelope_gives`, `readBody_gives`).
-/
import ImapWire.Proofs.Body.Dates
import ImapWire.Proofs.Guarded.Date

namespace ImapWire

/-- A failure of the input, not one to write a value. -/
abbrev Failure := { e : Error // e ≠ .unwritable }

namespace Guarded

/-! ## Readers that can stop -/

/-- A reader that can stop, or fail. -/
abbrev Checked (α : Type) := ExceptT Failure (Except Trap) α

variable {α β : Type}

/-- Stops. -/
def stop (trap : Trap) : Checked α := ExceptT.mk (.error trap)

/-- Does not stop, and gives what the running reader gives. -/
def Gives (c : Checked α) (r : Result α) : Prop :=
  ∃ s : Except Failure α, c.run = .ok s ∧ s.mapError Subtype.val = r

theorem gives_pure (a : α) : Gives (pure a) (.ok a) := ⟨.ok a, rfl, rfl⟩

theorem gives_throw (e : Failure) : Gives (throw e : Checked α) (.error e.val) :=
  ⟨.error e, rfl, rfl⟩

theorem Gives.bind_ok {c : Checked α} {a : α} {f : α → Checked β} {r : Result β}
    (h : Gives c (.ok a)) (hf : Gives (f a) r) : Gives (c >>= f) r := by
  obtain ⟨s, hc, hs⟩ := h
  cases s with
  | error e => cases hs
  | ok a' =>
    cases hs
    obtain ⟨t, ht, hsame⟩ := hf
    refine ⟨t, ?_, hsame⟩
    show (c.run >>= ExceptT.bindCont f) = _
    rw [hc]
    exact ht

theorem Gives.bind_error {c : Checked α} {e : Error} (h : Gives c (.error e)) (f : α → Checked β) :
    Gives (c >>= f) (.error e) := by
  obtain ⟨s, hc, hs⟩ := h
  cases s with
  | ok a => cases hs
  | error e' =>
    cases hs
    refine ⟨.error e', ?_, rfl⟩
    show (c.run >>= ExceptT.bindCont f) = _
    rw [hc]
    rfl

/-- **Readers are put together** from readers that do not stop. -/
theorem Gives.bind_of_ok {c : Checked α} {r : Result α} {f : α → Checked β} {g : α → Result β}
    (h : Gives c r) (hf : ∀ a, r = .ok a → Gives (f a) (g a)) : Gives (c >>= f) (r >>= g) := by
  cases r with
  | error e => exact h.bind_error f
  | ok a => exact h.bind_ok (hf a rfl)

theorem Gives.bind {c : Checked α} {r : Result α} {f : α → Checked β} {g : α → Result β}
    (h : Gives c r) (hf : ∀ a, Gives (f a) (g a)) : Gives (c >>= f) (r >>= g) :=
  h.bind_of_ok fun a _ => hf a

theorem Gives.map {c : Checked α} {r : Result α} (h : Gives c r) (f : α → β) :
    Gives (f <$> c) (r.map f) := by
  rw [← bind_pure_comp]
  cases r with
  | error e => exact h.bind_error _
  | ok a => exact h.bind_ok (gives_pure (f a))

/-- No failure of a checked reader is one to write a value. -/
theorem Gives.ne_unwritable {c : Checked α} {r : Result α} (h : Gives c r) :
    r ≠ .error .unwritable := by
  obtain ⟨s, -, rfl⟩ := h
  cases s with
  | error e => exact fun heq => e.property (Except.error.inj heq)
  | ok a => nofun

/-- An access that does not stop, and what comes after it. -/
theorem Gives.access {x : Guarded α} {a : α} (hx : x = .ok a) {f : α → Checked β} {r : Result β}
    (hf : Gives (f a) r) : Gives (liftM x >>= f) r := by
  rw [hx]
  exact hf

theorem Gives.mapM {as : List α} {f : α → Checked β} {g : α → Result β}
    (h : ∀ a ∈ as, Gives (f a) (g a)) : Gives (as.mapM f) (as.mapM g) := by
  induction as with
  | nil => exact gives_pure []
  | cons a as ih =>
    rw [List.mapM_cons, List.mapM_cons]
    refine (h a List.mem_cons_self).bind fun b => ?_
    refine (ih fun a ha => h a (List.mem_cons_of_mem _ ha)).bind fun bs => ?_
    exact gives_pure (b :: bs)

/-! ## Messages -/

/-- The text of values, none of which may show the date of an envelope. -/
def textOf (vs : List Value) : Checked String :=
  match Value.datesAll vs, Value.render? vs with
  | [], some text => pure text
  | _, _ => stop .date

/-- A failure near some values. -/
def near (cause : Cause) (vs : List Value) : Checked α := do
  let context ← textOf vs
  throw ⟨.parse 0 cause context, nofun⟩

/-- A value of the wrong kind for its role. -/
def wrong (role : String) (v : Value) : Checked α := near (.wrongKind role v.kind) [v]

/-- **Values without envelope dates have a text.** -/
theorem textOf_eq {vs : List Value} (h : Value.datesAll vs = []) :
    ∃ ts, Value.treeAll? vs = some ts ∧ textOf vs = pure (Tree.render ts) := by
  have hsome : (Value.treeAll? vs).isSome = true := by
    rw [Value.isSome_treeAll?, h]
    rfl
  obtain ⟨ts, hts⟩ := Option.isSome_iff_exists.1 hsome
  refine ⟨ts, hts, ?_⟩
  unfold textOf Value.render?
  rw [h, hts]
  rfl

theorem near_gives (cause : Cause) {vs : List Value} (h : Value.datesAll vs = []) :
    Gives (near cause vs : Checked α) (.error (.near cause vs)) := by
  obtain ⟨ts, hts, htext⟩ := textOf_eq h
  have hnear : Error.near cause vs = .parse 0 cause (Tree.render ts) := by
    unfold Error.near Value.render?
    rw [hts]
    rfl
  unfold near
  rw [htext, hnear, pure_bind]
  exact gives_throw _

theorem wrong_gives (role : String) {v : Value} (h : v.dates = []) :
    Gives (wrong role v : Checked α) (.error (v.wrong role)) := by
  refine near_gives _ ?_
  rw [Value.datesAll, h]
  rfl

/-! ## Fields -/

/-- A byte string; an integer is its digits. -/
def string (role : String) (v : Value) : Checked Bytes :=
  match v with
  | .bytes bs => pure bs
  | .int n => pure (Decimal.ofInt n.toInt)
  | other => wrong role other

/-- A byte string or `NIL`. -/
def nstring (role : String) (v : Value) : Checked (Option Bytes) :=
  match v with
  | .nil => pure none
  | other => some <$> string role other

/-- A number of 64 bits. -/
def number64 (role : String) (v : Value) : Checked UInt64 :=
  match v.natBelow? UInt64.size with
  | some n => pure (UInt64.ofNat n)
  | none => wrong role v

/-- A number of 32 bits. -/
def number32 (role : String) (v : Value) : Checked UInt32 :=
  match v.natBelow? UInt32.size with
  | some n => pure (UInt32.ofNat n)
  | none => wrong role v

/-- The values two by two. -/
def pairsAt (vs : List Value) : Guarded (List (Value × Value)) :=
  (List.range (vs.length / 2)).mapM fun i => do
    let a ← get vs (2 * i)
    let b ← get vs (2 * i + 1)
    .ok (a, b)

/-- The values three by three. -/
def triplesAt (vs : List Value) : Guarded (List (Value × Value × Value)) :=
  (List.range (vs.length / 3)).mapM fun i => do
    let a ← get vs (3 * i)
    let b ← get vs (3 * i + 1)
    let c ← get vs (3 * i + 2)
    .ok (a, b, c)

/-- Names with their values, one after the other. -/
def pairs (what : String) (vs : List Value) : Checked (List (Value × Value)) :=
  if vs.length % 2 = 0 then pairsAt vs else near (.uneven what) vs

variable {v : Value} {vs : List Value}

theorem string_gives (role : String) (h : v.dates = []) :
    Gives (string role v) (v.string role) := by
  cases v with
  | bytes bs => exact gives_pure bs
  | int n => exact gives_pure _
  | _ => exact wrong_gives role h

theorem nstring_gives (role : String) (h : v.dates = []) :
    Gives (nstring role v) (v.nstring role) := by
  cases v with
  | nil => exact gives_pure none
  | _ => exact (string_gives role h).map some

theorem number64_gives (role : String) (h : v.dates = []) :
    Gives (number64 role v) (v.number64 role) := by
  unfold number64 Value.number64
  cases v.natBelow? UInt64.size with
  | some n => exact gives_pure _
  | none => exact wrong_gives role h

theorem number32_gives (role : String) (h : v.dates = []) :
    Gives (number32 role v) (v.number32 role) := by
  unfold number32 Value.number32
  cases v.natBelow? UInt32.size with
  | some n => exact gives_pure _
  | none => exact wrong_gives role h

theorem dates_of_mem (h : Value.datesAll vs = []) (hv : v ∈ vs) : v.dates = [] :=
  (Value.datesAll_eq_nil_iff vs).1 h v hv

theorem strings_gives (role : String) (h : Value.datesAll vs = []) :
    Gives (vs.mapM (string role)) (Value.strings role vs) :=
  Gives.mapM fun _ hv => string_gives role (dates_of_mem h hv)

/-- Groups are read one after the other. -/
theorem mapM_range_succ (f : Nat → Guarded α) (n : Nat) :
    (List.range (n + 1)).mapM f = f 0 >>= fun a =>
      (List.range n).mapM (fun i => f (i + 1)) >>= fun more => .ok (a :: more) := by
  rw [List.range_succ_eq_map, List.mapM_cons, List.mapM_map]
  rfl

theorem pairsAt_eq (vs : List Value) : pairsAt vs = .ok (Value.pairUp vs) := by
  fun_induction Value.pairUp vs with
  | case1 a b rest ih =>
    have hlength : (a :: b :: rest).length / 2 = rest.length / 2 + 1 := by
      simp only [List.length_cons]
      omega
    have hbehind : ∀ i, get (a :: b :: rest) (2 * (i + 1)) = get rest (2 * i) ∧
        get (a :: b :: rest) (2 * (i + 1) + 1) = get rest (2 * i + 1) := fun i => ⟨rfl, rfl⟩
    unfold pairsAt at ih ⊢
    rw [hlength, mapM_range_succ]
    simp only [hbehind]
    rw [ih]
    rfl
  | case2 vs hshort =>
    have hlength : vs.length / 2 = 0 := by
      match vs with
      | [] | [_] => exact Nat.div_eq_of_lt (by simp)
      | a :: b :: rest => exact absurd rfl (hshort a b rest)
    unfold pairsAt
    rw [hlength]
    rfl

theorem triplesAt_eq (vs : List Value) : triplesAt vs = .ok (Value.tripleUp vs) := by
  fun_induction Value.tripleUp vs with
  | case1 a b c rest ih =>
    have hlength : (a :: b :: c :: rest).length / 3 = rest.length / 3 + 1 := by
      simp only [List.length_cons]
      omega
    have hbehind : ∀ i, get (a :: b :: c :: rest) (3 * (i + 1)) = get rest (3 * i) ∧
        get (a :: b :: c :: rest) (3 * (i + 1) + 1) = get rest (3 * i + 1) ∧
        get (a :: b :: c :: rest) (3 * (i + 1) + 2) = get rest (3 * i + 2) :=
      fun i => ⟨rfl, rfl, rfl⟩
    unfold triplesAt at ih ⊢
    rw [hlength, mapM_range_succ]
    simp only [hbehind]
    rw [ih]
    rfl
  | case2 vs hshort =>
    have hlength : vs.length / 3 = 0 := by
      match vs with
      | [] | [_] | [_, _] => exact Nat.div_eq_of_lt (by simp)
      | a :: b :: c :: rest => exact absurd rfl (hshort a b c rest)
    unfold triplesAt
    rw [hlength]
    rfl

theorem mem_of_mem_pairUp {a b : Value} (h : (a, b) ∈ Value.pairUp vs) : a ∈ vs ∧ b ∈ vs := by
  fun_induction Value.pairUp vs with
  | case1 x y rest ih =>
    rcases List.mem_cons.1 h with h | h
    · cases h
      simp
    · have hmem := ih h
      simp [hmem.1, hmem.2]
  | case2 => cases h

theorem mem_of_mem_tripleUp {a b c : Value} (h : (a, b, c) ∈ Value.tripleUp vs) :
    a ∈ vs ∧ b ∈ vs ∧ c ∈ vs := by
  fun_induction Value.tripleUp vs with
  | case1 x y z rest ih =>
    rcases List.mem_cons.1 h with h | h
    · cases h
      simp
    · have hmem := ih h
      simp [hmem.1, hmem.2.1, hmem.2.2]
  | case2 => cases h

theorem pairs_gives (what : String) (h : Value.datesAll vs = []) :
    Gives (pairs what vs) (Value.pairs what vs) := by
  unfold pairs Value.pairs
  split
  · rw [pairsAt_eq]
    exact gives_pure _
  · exact near_gives _ h

/-- Names and values that are paired are those of the list. -/
theorem mem_of_pairs {what : String} {ps : List (Value × Value)} {a b : Value}
    (h : Value.pairs what vs = .ok ps) (hab : (a, b) ∈ ps) : a ∈ vs ∧ b ∈ vs := by
  unfold Value.pairs at h
  split at h
  · cases h
    exact mem_of_mem_pairUp hab
  · cases h

/-! ## Envelopes -/

/-- An address: a list of four fields. -/
def readAddress (v : Value) : Checked Address :=
  match v with
  | .group .round [name, route, mailbox, host] => do
    let name ← nstring "address name" name
    let route ← nstring "address route" route
    let mailbox ← nstring "address mailbox" mailbox
    let host ← nstring "address host" host
    pure ⟨name, route, mailbox, host⟩
  | other => wrong "address" other

/-- An address list. -/
def readAddresses (v : Value) : Checked (List Address) :=
  match v with
  | .nil => pure []
  | .group .round items => (items.filter fun item => !item.isNil).mapM readAddress
  | other => wrong "address list" other

/-- The date field of an envelope. -/
def readDateField (toUtc : Bool) (v : Value) : Guarded (Option Stamp) :=
  match v with
  | .bytes text => readDate text toUtc
  | _ => .ok none

/-- An envelope. -/
def readEnvelope (toUtc : Bool) (v : Value) : Checked Envelope :=
  match v with
  | .group .round
      [date, subject, author, sender, replyTo, recipients, cc, bcc, inReplyTo, messageId] => do
    let date ← readDateField toUtc date
    let subject ← nstring "envelope subject" subject
    let author ← readAddresses author
    let sender ← readAddresses sender
    let replyTo ← readAddresses replyTo
    let recipients ← readAddresses recipients
    let cc ← readAddresses cc
    let bcc ← readAddresses bcc
    let inReplyTo ← nstring "envelope in-reply-to" inReplyTo
    let messageId ← nstring "envelope message-id" messageId
    pure { date, subject, author, sender, replyTo, recipients, cc, bcc, inReplyTo, messageId }
  | .group .round fields => near (.envelopeFields fields.length) [.group .round fields]
  | other => near (.envelopeKind other.kind) [other]

theorem datesAll_singleton (h : v.dates = []) : Value.datesAll [v] = [] := by
  rw [Value.datesAll, h]
  rfl

theorem readAddress_gives (h : v.dates = []) : Gives (readAddress v) (Address.read v) := by
  unfold readAddress
  split
  · next name route mailbox host =>
    unfold Address.read
    have hfield : ∀ {field}, field ∈ [name, route, mailbox, host] → field.dates = [] :=
      dates_of_mem h
    refine (nstring_gives _ (hfield (by simp))).bind fun name => ?_
    refine (nstring_gives _ (hfield (by simp))).bind fun route => ?_
    refine (nstring_gives _ (hfield (by simp))).bind fun mailbox => ?_
    refine (nstring_gives _ (hfield (by simp))).bind fun host => ?_
    exact gives_pure _
  · next hother =>
    unfold Address.read
    split
    · next name route mailbox host => exact absurd rfl (hother name route mailbox host)
    · exact wrong_gives _ h

theorem readAddresses_gives (h : v.dates = []) :
    Gives (readAddresses v) (Address.readList v) := by
  match v with
  | .nil => exact gives_pure []
  | .group .round items =>
    refine Gives.mapM fun item hitem => readAddress_gives ?_
    exact dates_of_mem h (List.mem_filter.1 hitem).1
  | .group .square _ | .int _ | .bytes _ | .flags _ | .stamp _ | .envelope _ | .address _
  | .body _ => exact wrong_gives _ h

theorem readDateField_eq (toUtc : Bool) (v : Value) :
    readDateField toUtc v = .ok (Envelope.readDate toUtc v) := by
  cases v with
  | bytes text => exact readDate_eq text toUtc
  | _ => rfl

/-- **An envelope** is read without showing any. -/
theorem readEnvelope_gives (toUtc : Bool) (h : v.dates = []) :
    Gives (readEnvelope toUtc v) (Envelope.read toUtc v) := by
  unfold readEnvelope
  split
  · next date subject author sender replyTo recipients cc bcc inReplyTo messageId =>
    unfold Envelope.read
    have hfield : ∀ {field}, field ∈ [date, subject, author, sender, replyTo, recipients, cc, bcc,
        inReplyTo, messageId] → field.dates = [] := dates_of_mem h
    refine Gives.access (readDateField_eq toUtc date) ?_
    refine (nstring_gives _ (hfield (by simp))).bind fun subject => ?_
    refine (readAddresses_gives (hfield (by simp))).bind fun author => ?_
    refine (readAddresses_gives (hfield (by simp))).bind fun sender => ?_
    refine (readAddresses_gives (hfield (by simp))).bind fun replyTo => ?_
    refine (readAddresses_gives (hfield (by simp))).bind fun recipients => ?_
    refine (readAddresses_gives (hfield (by simp))).bind fun cc => ?_
    refine (readAddresses_gives (hfield (by simp))).bind fun bcc => ?_
    refine (nstring_gives _ (hfield (by simp))).bind fun inReplyTo => ?_
    refine (nstring_gives _ (hfield (by simp))).bind fun messageId => ?_
    exact gives_pure _
  · next fields hten =>
    unfold Envelope.read
    split
    · next heq =>
      cases heq
      exact absurd rfl (hten _ _ _ _ _ _ _ _ _ _)
    · next heq =>
      cases heq
      exact near_gives _ (datesAll_singleton h)
    · next hgroup => exact absurd rfl (hgroup fields)
  · next hten hgroup =>
    unfold Envelope.read
    split
    · exact absurd rfl (hten _ _ _ _ _ _ _ _ _ _)
    · exact absurd rfl (hgroup _)
    · exact near_gives _ (datesAll_singleton h)

/-! ## Body structures -/

/-- The parameters of a type: `NIL`, or a list of names and values. -/
def readParams (v : Value) : Checked (List (Bytes × Bytes)) :=
  match v with
  | .nil => pure []
  | .group .round items =>
    if items.length % 2 = 0 then do
      let params ← pairsAt items
      params.mapM fun (name, value) => do
        let name ← string "parameter name" name
        let value ← string "parameter value" value
        pure (name, value)
    else wrong "body parameters" v
  | other => wrong "body parameters" other

/-- The size of a part, if the server gives one. -/
def readSize (v : Value) : Checked (Option UInt64) :=
  match v with
  | .nil => pure none
  | other => some <$> number64 "body size" other

/-- The seven fields of a single part. -/
def readHead (mediaType subtype params id description encoding size : Value) : Checked PartHead := do
  let mediaType ← string "media type" mediaType
  let subtype ← string "media subtype" subtype
  let params ← readParams params
  let id ← nstring "body id" id
  let description ← nstring "body description" description
  let encoding ← nstring "body encoding" encoding
  let size ← readSize size
  pure { mediaType, subtype, params, id, description, encoding, size }

/-- The end of a single part. -/
def readTail (head : PartHead) (attached : Attached) (rest : List Value) : Checked Body :=
  let counted := head.isText || (match attached with
    | .none => false
    | .message .. => true)
  match rest with
  | .int n :: extension =>
    if counted then do
      let lines ← number64 "body lines" (.int n)
      pure (.single head attached (some lines) extension)
    else pure (.single head attached none rest)
  | _ => pure (.single head attached none rest)

/-- The parts of a multipart structure, and what is behind them. -/
def partsAt (items : List Value) : Guarded (List Value × List Value) :=
  splitAt items ((items.findIdx? fun v => !v.isList).getD items.length)

mutual
/-- A body structure. -/
def readBody (toUtc : Bool) : Value → Checked Body
  | .group .round items =>
    if (items.head?.map Value.isList).getD false then do
      let (_, behind) ← partsAt items
      match behind with
      | [] => near .noSubtype items
      | subtype :: extension => do
        let parts ← readParts toUtc items
        let subtype ← string "multipart subtype" subtype
        pure (.multipart parts subtype extension)
    else
      match items with
      | mediaType :: subtype :: params :: id :: description :: encoding :: size :: rest => do
        let head ← readHead mediaType subtype params id description encoding size
        match rest with
        | envelope :: body :: tail =>
          if head.isMessage && envelope.isList && body.isList then do
            let envelope ← readEnvelope toUtc envelope
            let body ← readBody toUtc body
            readTail head (.message envelope body) tail
          else readTail head .none (envelope :: body :: tail)
        | rest => readTail head .none rest
      | items => near (.bodyFields items.length) items
  | other => wrong "body structure" other

/-- The parts in front of the subtype. -/
def readParts (toUtc : Bool) : List Value → Checked (List Body)
  | [] => pure []
  | v :: rest =>
    if v.isList then do
      let part ← readBody toUtc v
      let parts ← readParts toUtc rest
      pure (part :: parts)
    else pure []
end

theorem readParams_gives (h : v.dates = []) : Gives (readParams v) (Body.readParams v) := by
  match v with
  | .nil => exact gives_pure []
  | .group .round items =>
    unfold readParams Body.readParams
    dsimp only
    split
    · refine Gives.access (pairsAt_eq items) ?_
      refine Gives.mapM fun (name, value) hpair => ?_
      obtain ⟨hname, hvalue⟩ := mem_of_mem_pairUp hpair
      refine (string_gives _ (dates_of_mem h hname)).bind fun name => ?_
      refine (string_gives _ (dates_of_mem h hvalue)).bind fun value => ?_
      exact gives_pure (name, value)
    · exact wrong_gives _ h
  | .group .square _ | .int _ | .bytes _ | .flags _ | .stamp _ | .envelope _ | .address _
  | .body _ => exact wrong_gives _ h

theorem readSize_gives (h : v.dates = []) : Gives (readSize v) (Body.readSize v) := by
  cases v with
  | nil => exact gives_pure none
  | _ => exact (number64_gives _ h).map some

theorem readHead_gives {mediaType subtype params id description encoding size : Value}
    (h : ∀ field ∈ [mediaType, subtype, params, id, description, encoding, size],
      field.dates = []) :
    Gives (readHead mediaType subtype params id description encoding size)
      (Body.readHead mediaType subtype params id description encoding size) := by
  refine (string_gives _ (h _ (by simp))).bind fun mediaType => ?_
  refine (string_gives _ (h _ (by simp))).bind fun subtype => ?_
  refine (readParams_gives (h _ (by simp))).bind fun params => ?_
  refine (nstring_gives _ (h _ (by simp))).bind fun id => ?_
  refine (nstring_gives _ (h _ (by simp))).bind fun description => ?_
  refine (nstring_gives _ (h _ (by simp))).bind fun encoding => ?_
  refine (readSize_gives (h _ (by simp))).bind fun size => ?_
  exact gives_pure _

theorem readTail_gives (head : PartHead) (attached : Attached) (rest : List Value) :
    Gives (readTail head attached rest) (Body.readTail head attached rest) := by
  unfold readTail Body.readTail
  extract_lets counted counted'
  have hsame : counted' = counted := rfl
  clear_value counted' counted
  subst hsame
  match rest with
  | .int n :: extension =>
    cases counted' with
    | true =>
      have hlines : (Value.int n).dates = [] := rfl
      exact (number64_gives _ hlines).bind fun lines => gives_pure _
    | false => exact gives_pure _
  | [] | .bytes _ :: _ | .nil :: _ | .group _ _ :: _ | .flags _ :: _ | .stamp _ :: _
  | .envelope _ :: _ | .address _ :: _ | .body _ :: _ => exact gives_pure _

theorem partsAt_eq (items : List Value) :
    partsAt items = .ok (items.takeWhile Value.isList, items.dropWhile Value.isList) := by
  have hsplit := splitAt_append (items.takeWhile Value.isList) (items.dropWhile Value.isList)
  have hfind := findIdx?_eq (fun v : Value => !v.isList) items
  simp only [Bool.not_not] at hfind
  unfold partsAt
  rw [hfind]
  rwa [List.takeWhile_append_dropWhile] at hsplit

mutual
/-- **A structure** is read without showing the envelopes in it. -/
theorem readBody_gives (toUtc : Bool) (v : Value) (h : v.dates = []) :
    Gives (readBody toUtc v) (Body.read toUtc v) := by
  match v with
  | .group .round items =>
    have hitems : Value.datesAll items = [] := h
    unfold readBody Body.read
    dsimp only
    split
    · refine Gives.access (partsAt_eq items) ?_
      dsimp only
      cases hbehind : items.dropWhile Value.isList with
      | nil => exact near_gives _ hitems
      | cons subtype extension =>
        have hsubtype : subtype ∈ items := (List.dropWhile_sublist Value.isList).subset
          (hbehind ▸ List.mem_cons_self)
        refine (readParts_gives toUtc items hitems).bind fun parts => ?_
        refine (string_gives _ (dates_of_mem hitems hsubtype)).bind fun subtype => ?_
        exact gives_pure _
    · match items with
      | mediaType :: subtype :: params :: id :: description :: encoding :: size :: rest =>
        dsimp only
        refine (readHead_gives fun field hfield => dates_of_mem hitems ?_).bind fun head => ?_
        · exact List.mem_append_left rest hfield
        · match rest with
          | envelope :: body :: tail =>
            dsimp only
            split
            · refine (readEnvelope_gives toUtc (dates_of_mem hitems (by simp))).bind fun envelope => ?_
              refine (readBody_gives toUtc body (dates_of_mem hitems (by simp))).bind fun body => ?_
              exact readTail_gives _ _ _
            · exact readTail_gives _ _ _
          | [] | [_] => exact readTail_gives _ _ _
      | [] | [_] | [_, _] | [_, _, _] | [_, _, _, _] | [_, _, _, _, _] | [_, _, _, _, _, _] =>
        exact near_gives _ hitems
  | .group .square _ | .int _ | .bytes _ | .nil | .flags _ | .stamp _ | .envelope _ | .address _
  | .body _ =>
    unfold readBody Body.read
    exact wrong_gives _ h

theorem readParts_gives (toUtc : Bool) (vs : List Value) (h : Value.datesAll vs = []) :
    Gives (readParts toUtc vs) (Body.readParts toUtc vs) := by
  cases vs with
  | nil =>
    rw [readParts, Body.readParts]
    exact gives_pure []
  | cons v vs =>
    rw [readParts, Body.readParts]
    split
    · refine (readBody_gives toUtc v (dates_of_mem h List.mem_cons_self)).bind fun part => ?_
      refine (readParts_gives toUtc vs ?_).bind fun parts => ?_
      · exact Value.datesAll_of_subset (List.subset_cons_self v vs) h
      · exact gives_pure _
    · exact gives_pure []
end

end Guarded

end ImapWire
