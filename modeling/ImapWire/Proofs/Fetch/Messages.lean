/-
  Which records end up in one entry.

  1. **What was sent** (`Sent`): the records of a sequence of values, one rule for a record and one
     for the end.  Reading the values is taking these records in one after the other
     (`readMessages_eq_ok_iff`), and there is one such list (`Sent.unique`).

  2. **What an entry is made of** (`get?_foldl_collect`).  A record changes the entry of its key and
     no other, so an entry is all records of its key merged, in the order in which they came.

  3. **Which records share a key** (`key_eq_iff`).  By sequence number or by UID alone that would
     be the records of one message.  A table by UID has both sorts of key, though: the UID of a
     message that has one, the sequence number of a message that has none.  They are numbers of the
     same sort, so a message without a UID shares the entry of *another* message whose UID is its
     sequence number (`Collide`), and of no third one.

  Together: entries are of one message each exactly if no two records collide
  (`parseAll_oneMessage`).
-/
import ImapWire.Proofs.Fetch.Stored
import Mathlib.Control.Monad.Basic

namespace ImapWire
namespace FetchRecord

open FetchItem (MadeOf)

/-! ## What was sent -/

/-- The records of a sequence of values, in order. -/
inductive Sent (options : Options) : List Value → List FetchRecord → Prop
  | done {vs : List Value} (hstar : dropStar vs = []) : Sent options vs []
  | record {vs rest items behind : List Value} {number : Value} {seq : UInt32} {r : FetchRecord}
      {rs : List FetchRecord} (hstar : dropStar vs = number :: rest)
      (hseq : number.number32 "message id" = .ok seq)
      (hname : dropName rest = .group .round items :: behind)
      (hread : read seq items options = .ok r) (hlater : Sent options behind rs) :
      Sent options vs (r :: rs)

variable {options : Options} {t table : Table UInt32 FetchRecord} {vs : List Value}
  {rs : List FetchRecord}

theorem readMessages_of_done (h : dropStar vs = []) : readMessages options t vs = .ok t := by
  rw [readMessages]
  split
  · rfl
  · next heq =>
    rw [h] at heq
    cases heq

theorem readMessages_of_record {rest items behind : List Value} {number : Value} {seq : UInt32}
    {r : FetchRecord} (hstar : dropStar vs = number :: rest)
    (hseq : number.number32 "message id" = .ok seq)
    (hname : dropName rest = .group .round items :: behind)
    (hread : read seq items options = .ok r) :
    readMessages options t vs = readMessages options (collect options t r) behind := by
  rw [readMessages]
  split
  · next heq =>
    rw [hstar] at heq
    cases heq
  · next number' rest' heq =>
    rw [hstar] at heq
    cases heq
    simp only [hseq, bind, Except.bind]
    split
    · next items' behind' heq =>
      rw [hname] at heq
      cases heq
      rw [hread]
    · next hother heq =>
      rw [hname] at heq
      cases heq
      exact absurd rfl (hother _)
    · next heq =>
      rw [hname] at heq
      cases heq

theorem sent_of_readMessages (h : readMessages options t vs = .ok table) :
    ∃ rs, Sent options vs rs ∧ table = rs.foldl (collect options) t := by
  fun_induction readMessages options t vs with
  | case1 t vs hstar =>
    cases h
    exact ⟨[], .done hstar, rfl⟩
  | case2 t vs number rest hstar ih =>
    obtain ⟨seq, hseq, h⟩ := Result.bind_eq_ok.1 h
    split at h
    · next items behind hname =>
      obtain ⟨r, hread, h⟩ := Result.bind_eq_ok.1 h
      obtain ⟨rs, hsent, htable⟩ := ih items behind hname r h
      exact ⟨r :: rs, .record hstar hseq hname hread hsent, htable⟩
    · cases h
    · cases h

/-- **Reading values is taking their records in**, one after the other. -/
theorem readMessages_eq_ok_iff :
    readMessages options t vs = .ok table ↔
      ∃ rs, Sent options vs rs ∧ table = rs.foldl (collect options) t := by
  constructor
  · exact sent_of_readMessages
  · rintro ⟨rs, hsent, rfl⟩
    induction hsent generalizing t with
    | done hstar => exact readMessages_of_done hstar
    | record hstar hseq hname hread _ ih =>
      rw [readMessages_of_record hstar hseq hname hread]
      exact ih

/-- There is one way to read the records. -/
theorem Sent.unique (h : Sent options vs rs) {rs' : List FetchRecord}
    (h' : Sent options vs rs') : rs = rs' := by
  induction h generalizing rs' with
  | done hstar =>
    cases h' with
    | done => rfl
    | record hstar' =>
      rw [hstar] at hstar'
      cases hstar'
  | record hstar hseq hname hread _ ih =>
    cases h' with
    | done hstar' =>
      rw [hstar] at hstar'
      cases hstar'
    | record hstar' hseq' hname' hread' hlater' =>
      rw [hstar] at hstar'
      cases hstar'
      rw [hseq] at hseq'
      cases hseq'
      rw [hname] at hname'
      cases hname'
      rw [hread] at hread'
      cases hread'
      rw [ih hlater']

/-- The records of a response are those of its trees. -/
theorem parseAll_eq_ok_iff {chunks : List Chunk} :
    parseAll chunks options = .ok table ↔
      ∃ trees rs, Tree.parse chunks = .ok trees ∧ Sent options (Value.ofTrees trees) rs ∧
        table = rs.foldl (collect options) Table.empty := by
  unfold parseAll
  rw [Result.bind_eq_ok]
  constructor
  · rintro ⟨trees, htrees, h⟩
    obtain ⟨rs, hsent, htable⟩ := readMessages_eq_ok_iff.1 h
    exact ⟨trees, rs, htrees, hsent, htable⟩
  · rintro ⟨trees, rs, htrees, hsent, htable⟩
    exact ⟨trees, htrees, readMessages_eq_ok_iff.2 ⟨rs, hsent, htable⟩⟩

/-- A record that was sent has a UID exactly if an item `UID` is among its items. -/
theorem Sent.uid?_eq_none_iff (h : Sent options vs rs) :
    ∀ r ∈ rs, r.uid? = none ↔ r.items.get? "UID" = none := by
  induction h with
  | done hstar => nofun
  | record hstar hseq hname hread _ ih =>
    intro r hr
    rcases List.mem_cons.1 hr with rfl | hr
    · exact FetchRecord.uid?_eq_none_iff hread
    · exact ih r hr

theorem dropStar_suffix (vs : List Value) : dropStar vs <:+ vs := by
  unfold dropStar
  split
  · split
    · exact List.suffix_cons _ _
    · exact List.suffix_refl _
  · exact List.suffix_refl _

theorem dropName_suffix (vs : List Value) : dropName vs <:+ vs := by
  unfold dropName
  split
  · split
    · exact List.suffix_cons _ _
    · exact List.suffix_refl _
  · exact List.suffix_refl _

/-- What holds of every record read from a list among the values holds of all that were sent. -/
theorem Sent.forall_read {P : FetchRecord → Prop} (h : Sent options vs rs)
    (hread : ∀ seq items r, .group .round items ∈ vs → read seq items options = .ok r → P r) :
    ∀ r ∈ rs, P r := by
  induction h with
  | done hstar => nofun
  | @record vs rest items behind number seq r rs hstar hseq hname hr _ ih =>
    have hrest : rest ⊆ vs := by
      intro v hv
      exact (dropStar_suffix vs).subset (hstar ▸ List.mem_cons_of_mem number hv)
    have hbehind : .group .round items :: behind ⊆ rest := hname ▸ (dropName_suffix rest).subset
    intro r' hr'
    rcases List.mem_cons.1 hr' with rfl | hr'
    · exact hread seq items r' (hrest (hbehind List.mem_cons_self)) hr
    · refine ih ?_ r' hr'
      intro seq' items' r'' hmem
      exact hread seq' items' r'' (hrest (hbehind (List.mem_cons_of_mem _ hmem)))

/-! ## What an entry is made of -/

/-- The records of a key, in order. -/
def ofKey (options : Options) (k : UInt32) (rs : List FetchRecord) : List FetchRecord :=
  rs.filter fun r => r.key options = k

/-- Records merged into the first one, in order; nothing if there are none. -/
def mergeAll : List FetchRecord → Option FetchRecord
  | [] => none
  | r :: rs => some (rs.foldl merge r)

theorem mem_ofKey {k : UInt32} {r : FetchRecord} :
    r ∈ ofKey options k rs ↔ r ∈ rs ∧ r.key options = k := by
  simp [ofKey]

/-- One record changes the entry of its key alone. -/
theorem get?_collect (t : Table UInt32 FetchRecord) (r : FetchRecord) (k : UInt32) :
    (collect options t r).get? k =
      if k = r.key options then mergeAll ((t.get? k).toList ++ [r]) else t.get? k := by
  unfold collect
  split
  · next hnone =>
    rw [Table.get?_insert]
    split
    · next hk =>
      rw [hk, hnone]
      rfl
    · rfl
  · next earlier hsome =>
    rw [Table.get?_insert]
    split
    · next hk =>
      rw [hk, hsome]
      rfl
    · rfl

/-- **An entry is all records of its key**, behind what was there before, merged in order. -/
theorem get?_foldl_collect (t : Table UInt32 FetchRecord) (rs : List FetchRecord) (k : UInt32) :
    (rs.foldl (collect options) t).get? k =
      mergeAll ((t.get? k).toList ++ ofKey options k rs) := by
  induction rs generalizing t with
  | nil =>
    show t.get? k = mergeAll ((t.get? k).toList ++ [])
    cases t.get? k <;> rfl
  | cons r rs ih =>
    rw [List.foldl_cons, ih, get?_collect]
    by_cases hk : k = r.key options
    · have hof : ofKey options k (r :: rs) = r :: ofKey options k rs := by simp [ofKey, hk]
      rw [if_pos hk, hof]
      cases t.get? k <;> rfl
    · have hof : ofKey options k (r :: rs) = ofKey options k rs := by
        simp [ofKey, Ne.symm hk]
      rw [if_neg hk, hof]

/-- What a merged record stores comes from one of the records. -/
theorem stored_of_mergeAll {rs : List FetchRecord} {r : FetchRecord} {k : String} {v : Value}
    (hall : mergeAll rs = some r) (hv : r.items.get? k = some v) :
    ∃ r' ∈ rs, r'.items.get? k = some v := by
  have hfold : ∀ (rs : List FetchRecord) (r₀ : FetchRecord),
      (rs.foldl merge r₀).items.get? k = some v → ∃ r' ∈ r₀ :: rs, r'.items.get? k = some v := by
    intro rs
    induction rs with
    | nil =>
      intro r₀ h
      exact ⟨r₀, List.mem_cons_self, h⟩
    | cons r₁ rs ih =>
      intro r₀ h
      obtain ⟨r', hr', hget⟩ := ih (r₀.merge r₁) h
      rcases List.mem_cons.1 hr' with rfl | hr'
      · -- of two merged records the later one wins, if it stores the key
        rw [merge, Table.get?_merge, Option.or_eq_some_iff] at hget
        rcases hget with hget | ⟨-, hget⟩
        · exact ⟨r₁, by simp, hget⟩
        · exact ⟨r₀, by simp, hget⟩
      · exact ⟨r', by simp [hr'], hget⟩
  cases rs with
  | nil => cases hall
  | cons r₀ rs =>
    cases hall
    exact hfold rs r₀ hv

/-! ## Which records share a key -/

/-- Two records of one message: they carry the same UID, or no UID and the same number. -/
def SameMessage (r r' : FetchRecord) : Prop :=
  r.uid? = r'.uid? ∧ (r.uid? = none → r.seq = r'.seq)

/-- The UID of a message is the number of one that carries none. -/
def Collide (r r' : FetchRecord) : Prop := r.uid? = none ∧ r'.uid? = some r.seq

instance (r r' : FetchRecord) : Decidable (Collide r r') :=
  inferInstanceAs (Decidable (r.uid? = none ∧ r'.uid? = some r.seq))

/-- Records that collide are not of one message. -/
theorem Collide.not_sameMessage {r r' : FetchRecord} (h : Collide r r') : ¬ SameMessage r r' := by
  rintro ⟨hsame, -⟩
  rw [h.1, h.2] at hsame
  cases hsame

/-- **Records share a key** if they are of one message, or else collide. -/
theorem key_eq_iff (hkey : options.keyByUid = true) {r r' : FetchRecord} :
    r.key options = r'.key options ↔ SameMessage r r' ∨ Collide r r' ∨ Collide r' r := by
  unfold key SameMessage Collide
  rw [if_pos hkey, if_pos hkey]
  cases hr : r.uid? with
  | none =>
    cases hr' : r'.uid? with
    | none => simp
    | some u' => simp [eq_comm]
  | some u =>
    cases hr' : r'.uid? with
    | none => simp
    | some u' => simp

/-! ## Several messages in one entry -/

/-- **What the entries of a table by UID are made of.**  The records that were sent are determined
    by the response, and they have a UID where one was sent.  An entry is the records of its key,
    merged in order.  Records share an entry if they are of one message or collide, so every entry
    is of one message exactly if no two records that were sent collide. -/
theorem parseAll_oneMessage {chunks : List Chunk} (hkey : options.keyByUid = true)
    (h : parseAll chunks options = .ok table) :
    ∃ trees rs, Tree.parse chunks = .ok trees ∧ Sent options (Value.ofTrees trees) rs ∧
      (∀ rs', Sent options (Value.ofTrees trees) rs' → rs' = rs) ∧
      (∀ r ∈ rs, r.uid? = none ↔ r.items.get? "UID" = none) ∧
      (∀ k, table.get? k = mergeAll (ofKey options k rs)) ∧
      (∀ k, ∀ r ∈ ofKey options k rs, ∀ r' ∈ ofKey options k rs,
        SameMessage r r' ∨ Collide r r' ∨ Collide r' r) ∧
      ((∀ k, ∀ r ∈ ofKey options k rs, ∀ r' ∈ ofKey options k rs, SameMessage r r') ↔
        ∀ r ∈ rs, ∀ r' ∈ rs, ¬ Collide r r') := by
  obtain ⟨trees, rs, htrees, hsent, rfl⟩ := parseAll_eq_ok_iff.1 h
  have hshared : ∀ k, ∀ r ∈ ofKey options k rs, ∀ r' ∈ ofKey options k rs,
      SameMessage r r' ∨ Collide r r' ∨ Collide r' r := by
    intro k r hr r' hr'
    exact (key_eq_iff hkey).1 ((mem_ofKey.1 hr).2.trans (mem_ofKey.1 hr').2.symm)
  refine ⟨trees, rs, htrees, hsent, ?_, hsent.uid?_eq_none_iff, ?_, hshared, ?_, ?_⟩
  · intro rs' hsent'
    exact hsent'.unique hsent
  · intro k
    rw [get?_foldl_collect]
    rfl
  · intro hone r hr r' hr' hcollide
    -- both stand in the entry of the number that is the UID too
    have hshare : r.key options = r'.key options := (key_eq_iff hkey).2 (.inr (.inl hcollide))
    exact hcollide.not_sameMessage
      (hone (r'.key options) r (mem_ofKey.2 ⟨hr, hshare⟩) r' (mem_ofKey.2 ⟨hr', rfl⟩))
  · intro hnone k r hr r' hr'
    rcases hshared k r hr r' hr' with hsame | hcollide | hcollide
    · exact hsame
    · exact absurd hcollide (hnone r (mem_ofKey.1 hr).1 r' (mem_ofKey.1 hr').1)
    · exact absurd hcollide (hnone r' (mem_ofKey.1 hr').1 r (mem_ofKey.1 hr).1)

/-- The flags of message 5, and the size of message 7 with its UID, as a server sends them. -/
def flagsThenSize (uid : Int64) : List Tree :=
  [.bytes (Bytes.ofString "*"), .int 5, .bytes (Bytes.ofString "FETCH"),
    .group .round [.bytes (Bytes.ofString "FLAGS"),
      .group .round [.bytes (Bytes.ofString "\\Seen")]],
    .bytes (Bytes.ofString "*"), .int 7, .bytes (Bytes.ofString "FETCH"),
    .group .round [.bytes (Bytes.ofString "UID"), .int uid,
      .bytes (Bytes.ofString "RFC822.SIZE"), .int 3]]

theorem sent_flagsThenSize {uid : Int64} (huid : FetchItem.readUid (.int uid) = .ok (.int uid)) :
    Sent default (Value.ofTrees (flagsThenSize uid))
      [⟨5, Table.ofList [("FLAGS", .flags [Bytes.ofString "\\Seen"])]⟩,
        ⟨7, Table.ofList [("UID", .int uid), ("RFC822.SIZE", .int 3)]⟩] := by
  have hflags : read 5 [.bytes (Bytes.ofString "FLAGS"),
      .group .round [.bytes (Bytes.ofString "\\Seen")]] default
        = .ok ⟨5, Table.ofList [("FLAGS", .flags [Bytes.ofString "\\Seen"])]⟩ := by
    refine read_eq_ok_iff.2 ⟨_, _, rfl, ?_, rfl⟩
    have hmade : MadeOf ⟨"FLAGS", none, none, .group .round [.bytes (Bytes.ofString "\\Seen")]⟩
        [.bytes (Bytes.ofString "FLAGS"), .group .round [.bytes (Bytes.ofString "\\Seen")]] :=
      .plain (Bytes.ofString "FLAGS") (by rintro items ⟨⟩)
    rw [← List.append_nil [Value.bytes _, _], readItems_of_madeOf hmade rfl, readItems]
    rfl
  have hsize : read 7 [.bytes (Bytes.ofString "UID"), .int uid,
      .bytes (Bytes.ofString "RFC822.SIZE"), .int 3] default
        = .ok ⟨7, Table.ofList [("UID", .int uid), ("RFC822.SIZE", .int 3)]⟩ := by
    refine read_eq_ok_iff.2 ⟨_, _, rfl, ?_, rfl⟩
    have hfirst : MadeOf ⟨"UID", none, none, .int uid⟩
        [.bytes (Bytes.ofString "UID"), .int uid] :=
      .plain (Bytes.ofString "UID") (by rintro items ⟨⟩)
    have hsecond : MadeOf ⟨"RFC822.SIZE", none, none, .int 3⟩
        [.bytes (Bytes.ofString "RFC822.SIZE"), .int 3] :=
      .plain (Bytes.ofString "RFC822.SIZE") (by rintro items ⟨⟩)
    show readItems _ _ _ ([.bytes (Bytes.ofString "UID"), .int uid] ++
      ([.bytes (Bytes.ofString "RFC822.SIZE"), .int 3] ++ [])) = _
    rw [readItems_of_madeOf hfirst huid, readItems_of_madeOf hsecond rfl, readItems]
    rfl
  exact .record rfl rfl rfl hflags (.record rfl rfl rfl hsize (.done rfl))

/-- A UID that is not the other's number: every entry is of one message. -/
theorem parseAll_oneMessage_apart :
    ∃ trees rs, Tree.parse [.plain (Bytes.ofString
        "* 5 FETCH (FLAGS (\\Seen)) * 7 FETCH (UID 9 RFC822.SIZE 3)")] = .ok trees ∧
      Sent default (Value.ofTrees trees) rs ∧ rs.map FetchRecord.seq = [5, 7] ∧
      ∀ k, ∀ r ∈ ofKey default k rs, ∀ r' ∈ ofKey default k rs, SameMessage r r' := by
  have huid : FetchItem.readUid (.int 9) = .ok (.int 9) := rfl
  have hparse : Tree.parse [.plain (Bytes.ofString
      "* 5 FETCH (FLAGS (\\Seen)) * 7 FETCH (UID 9 RFC822.SIZE 3)")] = .ok (flagsThenSize 9) := by
    decide +kernel
  have hsent := sent_flagsThenSize huid
  obtain ⟨trees, rs, htrees, hrs, hunique, -, -, -, hiff⟩ :=
    parseAll_oneMessage rfl (parseAll_eq_ok_iff.2 ⟨_, _, hparse, hsent, rfl⟩)
  rw [hparse] at htrees
  cases htrees
  obtain rfl := hunique _ hsent
  exact ⟨_, _, hparse, hsent, rfl, hiff.2 (by decide +kernel)⟩

/-- The UID of message 7 is the number of message 5: both end up in one entry. -/
theorem parseAll_collision :
    ∃ trees r r' table, Tree.parse [.plain (Bytes.ofString
        "* 5 FETCH (FLAGS (\\Seen)) * 7 FETCH (UID 5 RFC822.SIZE 3)")] = .ok trees ∧
      Sent default (Value.ofTrees trees) [r, r'] ∧
      parseAll [.plain (Bytes.ofString
        "* 5 FETCH (FLAGS (\\Seen)) * 7 FETCH (UID 5 RFC822.SIZE 3)")] default = .ok table ∧
      table.get? 5 = some (r.merge r') ∧ r.seq = 5 ∧ r'.seq = 7 ∧ ¬ SameMessage r r' := by
  have huid : FetchItem.readUid (.int 5) = .ok (.int 5) := rfl
  have hparse : Tree.parse [.plain (Bytes.ofString
      "* 5 FETCH (FLAGS (\\Seen)) * 7 FETCH (UID 5 RFC822.SIZE 3)")] = .ok (flagsThenSize 5) := by
    decide +kernel
  have hsent := sent_flagsThenSize huid
  refine ⟨_, _, _, _, hparse, hsent, parseAll_eq_ok_iff.2 ⟨_, _, hparse, hsent, rfl⟩, ?_, rfl, rfl,
    ?_⟩
  · rw [get?_foldl_collect]
    rfl
  · exact Collide.not_sameMessage (by decide +kernel)

end FetchRecord
end ImapWire
