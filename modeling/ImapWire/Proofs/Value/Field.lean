/-
  Fields of records.

  A record is sent as a sequence of values and read field by field.  The facts about single fields are
  here, and what it takes for a whole record to come back.

  1. **Fields that were written are read back**, whatever they look like.  A byte string may be read
     as an integer on the way, but no more than its spelling is read: an integer gives back the
     atom that it was (`Value.string_ofAtom`).  A number of 64 bits that is too large for an integer is
     sent as its digits (`Value.number64_ofUInt64`).

  2. **Fields that are refused** are refused with a cause and a text (`Error.IsRefusal`).

  3. **Records go over lines** (`Value.reread`): their values are written, the lines are read as trees,
     and the reader of the record takes these.  It gets the values back unless they nest too deep,
     and then reading the lines fails (`Value.reread_of_formAll`, `Value.refuses_of_deep`).
-/
import ImapWire.Proofs.Result
import ImapWire.Proofs.Tree.Grammar
import ImapWire.Proofs.Value.RoundTrip
import ImapWire.Value.Field

namespace ImapWire

/-! ## The shape of fields -/

namespace Tree

theorem depth_ofOption (o : Option Bytes) : (ofOption o).depth = 0 := by
  cases o <;> rfl

theorem depth_ofUInt64 (n : UInt64) : (ofUInt64 n).depth = 0 := by
  unfold ofUInt64
  split <;> rfl

/-- Trees side by side are as deep as the deepest of them. -/
theorem depthAll_le_iff {ts : List Tree} {n : Nat} : depthAll ts ≤ n ↔ ∀ t ∈ ts, t.depth ≤ n := by
  induction ts with
  | nil => exact ⟨fun _ => nofun, fun _ => Nat.zero_le n⟩
  | cons t ts ih =>
    show max t.depth (depthAll ts) ≤ n ↔ _
    rw [Nat.max_le, ih, List.forall_mem_cons]

theorem depthAll_flatMap_le {α : Type} {f : α → List Tree} {as : List α} {n : Nat}
    (h : ∀ a ∈ as, depthAll (f a) ≤ n) : depthAll (as.flatMap f) ≤ n := by
  rw [depthAll_le_iff]
  intro t ht
  obtain ⟨a, ha, ht⟩ := List.mem_flatMap.1 ht
  exact depthAll_le_iff.1 (h a ha) t ht

theorem fitsAll_iff {ts : List Tree} : FitsAll ts ↔ ∀ t ∈ ts, t.Fits := by
  induction ts with
  | nil => exact ⟨fun _ => nofun, fun _ => trivial⟩
  | cons t ts ih =>
    show t.Fits ∧ FitsAll ts ↔ _
    rw [ih, List.forall_mem_cons]

/-- A number of 64 bits has at most twenty digits. -/
theorem fits_ofUInt64 (n : UInt64) : (ofUInt64 n).Fits := by
  unfold ofUInt64
  split
  · exact trivial
  · have hsize : n.toNat < 10 ^ (19 + 1) := Nat.lt_trans n.toNat_lt (by decide)
    exact Nat.lt_of_le_of_lt (Decimal.length_digits_le hsize) (by decide)

end Tree

/-! ## Fields that are read back -/

namespace Value

/-- A byte string or none. -/
theorem nstring_ofOption (role : String) (o : Option Bytes) :
    (ofTree (.ofOption o)).nstring role = .ok o := by
  cases o <;> rfl

/-- **An atom that is not `NIL`** is the byte string that it is spelled as, also where it is read as an
    integer. -/
theorem string_ofAtom (role : String) {bs : Bytes} (h : Bytes.sameName bs Tree.nilWord = false) :
    (ofTree (.ofAtom bs)).string role = .ok bs := by
  unfold Tree.ofAtom
  rw [h]
  cases hint : Decimal.int? bs with
  | none => rfl
  | some n => exact congrArg Except.ok (Decimal.ofInt_of_int? hint)

/-- Byte strings in a row. -/
theorem strings_bytes (role : String) (bs : List Bytes) :
    strings role (ofTrees (bs.map .bytes)) = .ok bs := by
  rw [ofTrees_eq_map, List.map_map]
  exact Result.mapM_map_ok fun _ _ => rfl

/-- A number below a limit, as an integer. -/
theorem natBelow?_ofInt {n limit : Nat} (hsmall : n < Decimal.signedSize) (hlimit : n < limit) :
    natBelow? limit (.int (Int64.ofInt n)) = some n := by
  have hint : (Int64.ofInt n).toInt = n :=
    Int64.toInt_ofInt_of_le (by omega) (by unfold Decimal.signedSize at hsmall; omega)
  simp only [natBelow?, hint, Int.toNat_natCast]
  exact if_pos ⟨by omega, by omega⟩

/-- A number of 32 bits is an integer of 64 bits. -/
theorem number32_ofInt (role : String) (n : UInt32) :
    number32 role (.int (Int64.ofInt n.toNat)) = .ok n := by
  have hsmall : n.toNat < Decimal.signedSize := Nat.lt_trans n.toNat_lt (by decide)
  rw [number32, natBelow?_ofInt hsmall n.toNat_lt]
  exact congrArg Except.ok UInt32.ofNat_toNat

/-- A number of 64 bits is read back, written as an integer or as its digits. -/
theorem number64_ofUInt64 (role : String) (n : UInt64) :
    (ofTree (.ofUInt64 n)).number64 role = .ok n := by
  have hbelow : natBelow? UInt64.size (ofTree (.ofUInt64 n)) = some n.toNat := by
    unfold Tree.ofUInt64
    split
    · next hsmall => exact natBelow?_ofInt hsmall n.toNat_lt
    · have hdigit : (Decimal.digits n.toNat).head? ≠ some Bytes.plus := by
        obtain ⟨d, ds, hds, hd⟩ := Decimal.head_digits n.toNat
        rw [hds]
        rintro ⟨⟩
        exact absurd hd (by decide)
      show Decimal.unsignedBelow? UInt64.size (Decimal.digits n.toNat) = some n.toNat
      rw [Decimal.unsignedBelow?, if_neg hdigit]
      exact Decimal.natBelow?_digits n.toNat_lt
  rw [number64, hbelow]
  exact congrArg Except.ok UInt64.ofNat_toNat

end Value

/-! ## Fields side by side -/

namespace Value

variable {α : Type}

theorem formAll_map {f : α → Value} {g : α → Tree} {as : List α} (h : ∀ a ∈ as, Form (f a) (g a)) :
    FormAll (as.map f) (as.map g) := by
  induction as with
  | nil => exact .nil
  | cons a as ih =>
    obtain ⟨ha, has⟩ := List.forall_mem_cons.1 h
    exact .cons ha (ih has)

theorem ofTrees_append (ts us : List Tree) : ofTrees (ts ++ us) = ofTrees ts ++ ofTrees us := by
  rw [ofTrees_eq_map, ofTrees_eq_map, ofTrees_eq_map, List.map_append]

theorem length_ofTrees (ts : List Tree) : (ofTrees ts).length = ts.length := by
  rw [ofTrees_eq_map, List.length_map]

theorem length_flatMap_two (f g : α → Tree) (as : List α) :
    (as.flatMap fun a => [f a, g a]).length = 2 * as.length := by
  induction as with
  | nil => rfl
  | cons a as ih =>
    rw [List.flatMap_cons, List.length_append, ih]
    exact (Nat.add_comm _ _).trans (Nat.mul_succ 2 as.length).symm

theorem length_flatMap_three (f g h : α → Tree) (as : List α) :
    (as.flatMap fun a => [f a, g a, h a]).length = 3 * as.length := by
  induction as with
  | nil => rfl
  | cons a as ih =>
    rw [List.flatMap_cons, List.length_append, ih]
    exact (Nat.add_comm _ _).trans (Nat.mul_succ 3 as.length).symm

/-- Pairs without the last value have an odd number of them. -/
theorem length_dropLast_flatMap_two (f g : α → Tree) {as : List α} (hne : as ≠ []) :
    (as.flatMap fun a => [f a, g a]).dropLast.length % 2 = 1 := by
  have hpos := List.length_pos_iff.2 hne
  rw [List.length_dropLast, length_flatMap_two]
  omega

/-- Triplets without the last value are no triplets. -/
theorem length_dropLast_flatMap_three (f g h : α → Tree) {as : List α} (hne : as ≠ []) :
    (as.flatMap fun a => [f a, g a, h a]).dropLast.length % 3 ≠ 0 := by
  have hpos := List.length_pos_iff.2 hne
  rw [List.length_dropLast, length_flatMap_three]
  omega

/-- Pairs are told apart again. -/
theorem pairUp_flatMap (f g : α → Tree) (as : List α) :
    pairUp (ofTrees (as.flatMap fun a => [f a, g a])) =
      as.map fun a => (ofTree (f a), ofTree (g a)) := by
  induction as with
  | nil => rfl
  | cons a as ih => exact congrArg _ ih

theorem pairs_flatMap (what : String) (f g : α → Tree) (as : List α) :
    pairs what (ofTrees (as.flatMap fun a => [f a, g a])) =
      .ok (as.map fun a => (ofTree (f a), ofTree (g a))) := by
  have heven : (ofTrees (as.flatMap fun a => [f a, g a])).length % 2 = 0 := by
    rw [length_ofTrees, length_flatMap_two, Nat.mul_mod_right]
  rw [pairs, if_pos heven, pairUp_flatMap]

/-- Triplets are told apart again. -/
theorem tripleUp_flatMap (f g h : α → Tree) (as : List α) :
    tripleUp (ofTrees (as.flatMap fun a => [f a, g a, h a])) =
      as.map fun a => (ofTree (f a), ofTree (g a), ofTree (h a)) := by
  induction as with
  | nil => rfl
  | cons a as ih => exact congrArg _ ih

end Value

/-! ## Fields that are refused -/

/-- Is what a record is refused with: a cause, and the text of what stood there. -/
def Error.IsRefusal (e : Error) : Prop := ∃ cause context, e = .parse 0 cause context

/-- Values that are trees have a text. -/
theorem Error.isRefusal_near (cause : Cause) (ts : List Tree) :
    (Error.near cause (Value.ofTrees ts)).IsRefusal := by
  unfold Error.near Value.render?
  rw [Value.treeAll?_ofTrees]
  exact ⟨cause, _, rfl⟩

namespace Value

variable {t : Tree} {ts : List Tree} {role : String} {e : Error}

theorem exists_tree {v : Value} (h : v ∈ ofTrees ts) : ∃ t, v = ofTree t := by
  rw [ofTrees_eq_map] at h
  obtain ⟨t, -, rfl⟩ := List.mem_map.1 h
  exact ⟨t, rfl⟩

theorem isRefusal_wrong (role : String) (t : Tree) : ((ofTree t).wrong role).IsRefusal :=
  Error.isRefusal_near _ [t]

theorem isRefusal_string (h : (ofTree t).string role = .error e) : e.IsRefusal := by
  cases t with
  | int n => cases h
  | bytes bs => cases h
  | nil =>
    cases h
    exact isRefusal_wrong role .nil
  | group b items =>
    cases h
    exact isRefusal_wrong role (.group b items)

theorem isRefusal_nstring (h : (ofTree t).nstring role = .error e) : e.IsRefusal := by
  cases t with
  | int n => cases h
  | bytes bs => cases h
  | nil => cases h
  | group b items =>
    cases h
    exact isRefusal_wrong role (.group b items)

theorem isRefusal_strings (h : strings role (ofTrees ts) = .error e) : e.IsRefusal := by
  obtain ⟨v, hv, he⟩ := Result.exists_of_mapM_error h
  obtain ⟨t, rfl⟩ := exists_tree hv
  exact isRefusal_string he

/-- Pairs without the last value are no pairs. -/
theorem isRefusal_pairs (what : String) (h : ts.length % 2 = 1) :
    ∃ e, pairs what (ofTrees ts) = .error e ∧ e.IsRefusal := by
  refine ⟨_, ?_, Error.isRefusal_near (.uneven what) ts⟩
  rw [pairs, if_neg (by rw [length_ofTrees, h]; decide)]

end Value

/-! ## Records over lines -/

/-- Is a failure of the tree or of a record. -/
def Error.IsParse (e : Error) : Prop := ∃ position cause context, e = .parse position cause context

theorem Error.IsRefusal.isParse {e : Error} (h : e.IsRefusal) : e.IsParse := by
  obtain ⟨cause, context, rfl⟩ := h
  exact ⟨0, cause, context, rfl⟩

/-- **Trees that nest too deep** can be written, but not read. -/
theorem Tree.parse_chunks_deep {ts : List Tree} (hdeep : maxDepth < depthAll ts)
    (hfits : FitsAll ts) : ∃ e, parse (chunks ts) = .error e ∧ e.IsParse := by
  have hparse : parse (chunks ts) = ofScan ⟨Written.tokensAll (writtenAll ts), none⟩ := by
    show ofScan (Cursor.start (chunks ts)).scan = _
    rw [scan_chunks hfits]
  cases hresult : parse (chunks ts) with
  | error e =>
    rw [hparse] at hresult
    exact ⟨e, rfl, Nest.run_error hresult⟩
  | ok us =>
    -- the tokens that were written are those of no other trees
    rw [hparse] at hresult
    obtain ⟨ws, hws, hdepth, -⟩ := ofScan_eq_ok_iff.1 hresult
    have hsame : ws = writtenAll ts := (Written.tokensAll_injective hws).symm
    rw [hsame, ← Written.depthAll_treeAll, treeAll_writtenAll] at hdepth
    omega

namespace Value

variable {α : Type} {vs : List Value} {ts : List Tree}

/-- What a reader makes of values that were written and came back.  There is nothing if they cannot be
    written. -/
def reread (read : List Value → Result α) (vs : List Value) : Option (Result α) :=
  (chunks? vs).map fun cs => Tree.parse cs >>= fun ts => read (ofTrees ts)

/-- **A reader gets the form of the values**, if it is not too deep. -/
theorem reread_of_formAll (read : List Value → Result α) (hform : FormAll vs ts)
    (hdepth : Tree.depthAll ts ≤ maxDepth) (hfits : Tree.FitsAll ts) :
    reread read vs = some (read (ofTrees ts)) := by
  rw [reread, chunks?_of_formAll hform, Option.map_some, Tree.parse_chunks hdepth hfits]
  rfl

/-- Generic values are their own form. -/
theorem reread_ofTrees (read : List Value → Result α) (hdepth : Tree.depthAll ts ≤ maxDepth)
    (hfits : Tree.FitsAll ts) : reread read (ofTrees ts) = some (read (ofTrees ts)) :=
  reread_of_formAll read (formAll_ofTrees ts) hdepth hfits

/-- The values can be written, but not read again: the tree or the record fails. -/
def Refuses (read : List Value → Result α) (vs : List Value) : Prop :=
  ∃ e, reread read vs = some (.error e) ∧ e.IsParse

/-- **Where the form is too deep**, a reader gets nothing. -/
theorem refuses_of_deep (read : List Value → Result α) (hform : FormAll vs ts)
    (hdeep : maxDepth < Tree.depthAll ts) (hfits : Tree.FitsAll ts) : Refuses read vs := by
  obtain ⟨e, he, hparse⟩ := Tree.parse_chunks_deep hdeep hfits
  refine ⟨e, ?_, hparse⟩
  rw [reread, chunks?_of_formAll hform, Option.map_some, he]
  rfl

/-- **A form that a reader refuses** is refused however deep it is. -/
theorem refuses_of_isRefusal {read : List Value → Result α} (hform : FormAll vs ts)
    (hfits : Tree.FitsAll ts) (hread : ∃ e, read (ofTrees ts) = .error e ∧ e.IsRefusal) :
    Refuses read vs := by
  obtain ⟨e, he, hrefusal⟩ := hread
  rcases Nat.lt_or_ge maxDepth (Tree.depthAll ts) with hdeep | hdepth
  · exact refuses_of_deep read hform hdeep hfits
  · refine ⟨e, ?_, hrefusal.isParse⟩
    rw [reread_of_formAll read hform hdepth hfits, he]

end Value

end ImapWire
