/-
  What a bare word means, and which byte strings may be bare words.

  A word means one of three things: nothing, an integer, or itself.

  1. **Nothing** (`Tree.IsNil`): three letters, each in either case.

  2. **An integer**: the word is the canonical text of an integer of 64 bits (`Decimal.Canonical`).
     Such texts are what integers are printed as, so a word read as an integer can be told from the
     integer again (`Value.lossless?_ofAtom`); other runs of digits mean themselves.

  3. **Itself**: any other word.  A byte string that the writer leaves bare has to be one of these, or
     it would be read as something else (`Piece.isBare_of_ofBytes`).

  Together: words are lossless (`Value.atom_lossless`).
-/
import ImapWire.Proofs.Decimal.Text
import ImapWire.Proofs.Token.Quoted
import ImapWire.Proofs.Tree.Spelling
import ImapWire.Value

namespace ImapWire

/-! ## Nothing -/

namespace Tree

/-- Is `NIL`, each letter a capital or a small one. -/
def IsNil (a : Bytes) : Prop :=
  ∃ n i l, a = [n, i, l] ∧ (n = 0x4E ∨ n = 0x6E) ∧ (i = 0x49 ∨ i = 0x69) ∧ (l = 0x4C ∨ l = 0x6C)

set_option maxRecDepth 4000 in
/-- A letter of `NIL` has two cases. -/
theorem lowerByte_nil : ∀ b : UInt8,
    (Bytes.lowerByte b = 0x6E ↔ b = 0x4E ∨ b = 0x6E) ∧
    (Bytes.lowerByte b = 0x69 ↔ b = 0x49 ∨ b = 0x69) ∧
    (Bytes.lowerByte b = 0x6C ↔ b = 0x4C ∨ b = 0x6C) :=
  Bytes.forall_of_fin (by decide)

theorem sameName_nilWord_iff {a : Bytes} : Bytes.sameName a nilWord = true ↔ IsNil a := by
  have hlower : Bytes.lower nilWord = [0x6E, 0x69, 0x6C] := by decide
  rw [Bytes.sameName_iff, hlower]
  constructor
  · intro h
    obtain ⟨n, a, rfl, hn, h⟩ := List.map_eq_cons_iff.1 h
    obtain ⟨i, a, rfl, hi, h⟩ := List.map_eq_cons_iff.1 h
    obtain ⟨l, a, rfl, hl, h⟩ := List.map_eq_cons_iff.1 h
    obtain rfl := List.map_eq_nil_iff.1 h
    exact ⟨n, i, l, rfl, (lowerByte_nil n).1.1 hn, (lowerByte_nil i).2.1.1 hi,
      (lowerByte_nil l).2.2.1 hl⟩
  · rintro ⟨n, i, l, rfl, hn, hi, hl⟩
    show [Bytes.lowerByte n, Bytes.lowerByte i, Bytes.lowerByte l] = _
    rw [(lowerByte_nil n).1.2 hn, (lowerByte_nil i).2.1.2 hi, (lowerByte_nil l).2.2.2 hl]

/-! ## The three meanings of a word -/

variable {a : Bytes} {n : Int64}

theorem ofAtom_eq_nil_iff : ofAtom a = nil ↔ IsNil a := by
  rw [← sameName_nilWord_iff]
  unfold ofAtom
  split
  · next hnil => exact ⟨fun _ => hnil, fun _ => rfl⟩
  · next hnil =>
    refine ⟨?_, fun h => absurd h hnil⟩
    split <;> (intro h; cases h)

/-- **A word means an integer** if it is the text of that integer. -/
theorem ofAtom_eq_int_iff : ofAtom a = int n ↔ Decimal.Canonical a n.toInt := by
  rw [Decimal.canonical_iff_ofInt]
  constructor
  · intro h
    unfold ofAtom at h
    split at h
    · cases h
    · split at h
      · next m hint =>
        cases h
        exact (Decimal.ofInt_of_int? hint).symm
      · cases h
  · rintro rfl
    exact ofAtom_ofInt n

/-- Any other word means itself. -/
theorem ofAtom_cases (a : Bytes) :
    ofAtom a = nil ∨ (∃ n, ofAtom a = int n) ∨ ofAtom a = bytes a := by
  unfold ofAtom
  split
  · exact Or.inl rfl
  · split
    · next n _ => exact Or.inr (Or.inl ⟨n, rfl⟩)
    · exact Or.inr (Or.inr rfl)

end Tree

namespace Value

variable {t : Tree} {a : Bytes} {n : Int64}

theorem ofTree_eq_nil_iff : ofTree t = .nil ↔ t = .nil := by
  cases t with
  | nil => exact ⟨fun _ => rfl, fun _ => rfl⟩
  | _ => constructor <;> (intro h; cases h)

theorem ofTree_eq_int_iff : ofTree t = .int n ↔ t = .int n := by
  cases t with
  | int m =>
    constructor
    · intro h
      cases h
      rfl
    · intro h
      cases h
      rfl
  | _ => constructor <;> (intro h; cases h)

/-- A word is lost only if it means nothing. -/
theorem lossless?_ofAtom (h : ¬ Tree.IsNil a) : (ofTree (.ofAtom a)).lossless? = some a := by
  rcases Tree.ofAtom_cases a with hnil | ⟨n, hint⟩ | hbytes
  · exact absurd (Tree.ofAtom_eq_nil_iff.1 hnil) h
  · rw [hint, Decimal.canonical_iff_ofInt.1 (Tree.ofAtom_eq_int_iff.1 hint)]
    rfl
  · rw [hbytes]
    rfl

end Value

/-! ## Bare words -/

/-- What is written as it is was left bare: quotes would have made it longer. -/
theorem Piece.isBare_of_ofBytes {bs : Bytes} (h : ofBytes bs = text bs) : isBare bs = true := by
  unfold ofBytes at h
  split at h
  · next hbare => exact hbare
  · split at h
    · cases h
    · have hwrite : Quoted.write bs = bs := Piece.text.inj h
      have hlonger : (Quoted.write bs).length = (Quoted.protect bs).length + 2 := by
        simp [Quoted.write]
      have hle := (Quoted.spelled_protect bs).length_le
      rw [hwrite] at hlonger
      omega

namespace Value

/-- **Words are lossless.** -/
theorem atom_lossless :
    (∀ a, ofTree (.ofAtom a) = .nil ↔ Tree.IsNil a) ∧
    (∀ a (n : Int64), ofTree (.ofAtom a) = .int n ↔ Decimal.Canonical a n.toInt) ∧
    (∀ a b (n : Int64), ofTree (.ofAtom a) = .int n → ofTree (.ofAtom b) = .int n → a = b) ∧
    (∀ a, ¬ Tree.IsNil a → (∀ n : Int64, ¬ Decimal.Canonical a n.toInt) →
      ofTree (.ofAtom a) = .bytes a) ∧
    (∀ a (n : Int64), Decimal.Canonical a n.toInt ↔ a = Bytes.ofString (toString n)) ∧
    (∀ n : Int64, ofTree (.ofAtom (Bytes.ofString (toString n))) = .int n) ∧
    (∀ a, ¬ Tree.IsNil a → (ofTree (.ofAtom a)).lossless? = some a) ∧
    (∀ b, Piece.ofBytes b = .text b → ofTree (.ofAtom b) = .bytes b) := by
  have hint : ∀ a (n : Int64), ofTree (.ofAtom a) = .int n ↔ Decimal.Canonical a n.toInt :=
    fun a n => ofTree_eq_int_iff.trans Tree.ofAtom_eq_int_iff
  have hprint : ∀ a (n : Int64), Decimal.Canonical a n.toInt ↔ a = Bytes.ofString (toString n) := by
    intro a n
    rw [Decimal.canonical_iff_ofInt, Decimal.ofInt_eq_toString]
    exact Iff.rfl
  refine ⟨?nil, hint, ?one, ?other, hprint, ?printed, ?lossless, ?bare⟩
  case nil => exact fun a => ofTree_eq_nil_iff.trans Tree.ofAtom_eq_nil_iff
  case one =>
    intro a b n ha hb
    rw [(hprint a n).1 ((hint a n).1 ha), (hprint b n).1 ((hint b n).1 hb)]
  case other =>
    intro a hnil hno
    rcases Tree.ofAtom_cases a with h | ⟨n, h⟩ | h
    · exact absurd (Tree.ofAtom_eq_nil_iff.1 h) hnil
    · exact absurd (Tree.ofAtom_eq_int_iff.1 h) (hno n)
    · rw [h]
      rfl
  case printed => exact fun n => (hint _ n).2 ((hprint _ n).2 rfl)
  case lossless => exact fun a => lossless?_ofAtom
  case bare =>
    intro b hb
    rw [Tree.ofAtom_of_isBare (Piece.isBare_of_ofBytes hb)]
    rfl

/-- The integers next to both ends of their range, and words that nearly look like integers. -/
theorem atom_lossless_ends :
    ofTree (.ofAtom (Bytes.ofString "9223372036854775807")) = .int 9223372036854775807 ∧
    ofTree (.ofAtom (Bytes.ofString "-9223372036854775808")) = .int (-9223372036854775808) ∧
    ofTree (.ofAtom (Bytes.ofString "9223372036854775808"))
      = .bytes (Bytes.ofString "9223372036854775808") ∧
    (ofTree (.ofAtom (Bytes.ofString "-0"))).lossless? = some (Bytes.ofString "-0") ∧
    ofTree (.ofAtom (Bytes.ofString "007")) = .bytes (Bytes.ofString "007") ∧
    ofTree (.ofAtom (Bytes.ofString "nIl")) = .nil := by
  obtain ⟨hnil, -, -, hother, -, hprinted, hlossless, hbare⟩ := atom_lossless
  have hlarge : ∀ n : Int64,
      ¬ Decimal.Canonical (Bytes.ofString "9223372036854775808") n.toInt := by
    intro n h
    have hvalue : Decimal.signedValue (Bytes.ofString "9223372036854775808")
        = 9223372036854775808 := by decide +kernel
    have hlt : n.toInt < 2 ^ 63 := n.toInt_lt
    have heq := h.eq_signedValue
    omega
  have hnot : ∀ a, Bytes.sameName a Tree.nilWord = false → ¬ Tree.IsNil a := by
    intro a hname h
    rw [Tree.sameName_nilWord_iff.2 h] at hname
    cases hname
  have hmax : toString (9223372036854775807 : Int64) = "9223372036854775807" := by decide +kernel
  have hmin : toString (-9223372036854775808 : Int64) = "-9223372036854775808" := by
    decide +kernel
  refine ⟨hmax ▸ hprinted _, hmin ▸ hprinted _, hother _ (hnot _ (by decide +kernel)) hlarge,
    hlossless _ (hnot _ (by decide +kernel)), hbare _ (by decide +kernel), (hnil _).2 ?_⟩
  exact Tree.sameName_nilWord_iff.1 (by decide +kernel)

end Value

end ImapWire
