/-
  Decimal texts and the numbers they stand for.

  A reader takes a run of digits from the left and a writer makes one from the right.  What both have
  to agree with is said here without either of them.

  1. **Values** (`Decimal.placeValue`).  A run of digits stands for the sum of its digits, each times
     the power of ten of its place; that is what reading it from the left comes to
     (`value_eq_placeValue`).

  2. **Texts** (`Decimal.Canonical`).  An integer has one text by three rules: a zero, digits of which
     the first one is no zero, and the same behind a minus sign.  What has the shape that
     `isCanonical` looks for is such a text of its value (`canonical_of_isCanonical`), and what is
     written is one (`canonical_ofInt`), so these texts are the written ones (`canonical_iff_ofInt`).
     They are also what the integer is printed as (`ofInt_eq_toString`).
-/
import ImapWire.Proofs.Decimal
import Mathlib.Data.List.Induction
import Mathlib.Data.Nat.Digits.Defs

namespace ImapWire
namespace Decimal

open Bytes (isDigit)

/-! ## Values -/

/-- The sum of the digits, each times the power of ten of its place. -/
def placeValue (ds : Bytes) : Nat := Nat.ofDigits 10 (ds.reverse.map fun d => d.toNat - 0x30)

/-- A digit behind others moves them up by one place. -/
theorem placeValue_concat (ds : Bytes) (d : UInt8) :
    placeValue (ds ++ [d]) = placeValue ds * 10 + (d.toNat - 0x30) := by
  unfold placeValue
  rw [List.reverse_concat, List.map_cons, Nat.ofDigits_cons]
  omega

theorem value_eq_placeValue (ds : Bytes) : value ds = placeValue ds := by
  induction ds using List.reverseRecOn with
  | nil => rfl
  | append_singleton ds d ih => rw [value_concat, placeValue_concat, ih]

/-! ## Texts -/

/-- Digits, and the first one is no zero. -/
structure IsPositive (ds : Bytes) : Prop where
  digits : ∀ d ∈ ds, isDigit d = true
  ne_nil : ds ≠ []
  first : ds.head? ≠ some Bytes.zero

/-- The text is the canonical one of the integer. -/
inductive Canonical : Bytes → Int → Prop
  | zero : Canonical [Bytes.zero] 0
  | positive {ds : Bytes} (h : IsPositive ds) : Canonical ds (placeValue ds)
  | negative {ds : Bytes} (h : IsPositive ds) : Canonical (Bytes.minus :: ds) (-placeValue ds)

/-- A plain number is zero or starts with another digit. -/
theorem isPlain_iff {ds : Bytes} : isPlain ds = true ↔ ds = [Bytes.zero] ∨ IsPositive ds := by
  constructor
  · intro h
    obtain ⟨hne, hdigits⟩ := isPlain_spec h
    rw [isPlain, Bool.and_eq_true, Bool.or_eq_true, bne_iff_ne, beq_iff_eq] at h
    exact h.2.elim (fun hfirst => Or.inr ⟨hdigits, hne, hfirst⟩) Or.inl
  · rintro (rfl | h)
    · decide
    · have hall : ds.all isDigit = true := List.all_eq_true.2 h.digits
      simp [isPlain, isNumber, hall, h.ne_nil, h.first]

theorem not_isPositive_zero : ¬ IsPositive [Bytes.zero] := fun h => h.first rfl

/-- A digit is no sign. -/
theorem IsPositive.head?_ne_minus {ds : Bytes} (h : IsPositive ds) :
    ds.head? ≠ some Bytes.minus := by
  intro hminus
  exact absurd (h.digits _ (List.mem_of_head? hminus)) (by decide)

/-- **What looks like an integer** is the text of its value. -/
theorem canonical_of_isCanonical {bs : Bytes} (h : isCanonical bs = true) :
    Canonical bs (signedValue bs) := by
  unfold isCanonical at h
  unfold signedValue
  split at h
  · next hminus =>
    obtain ⟨ds, rfl⟩ := List.head?_eq_some_iff.1 hminus
    obtain ⟨hplain, hzero⟩ := Bool.and_eq_true_iff.1 h
    rw [if_pos hminus, List.tail_cons, value_eq_placeValue]
    exact .negative ((isPlain_iff.1 hplain).resolve_left (bne_iff_ne.1 hzero))
  · next hminus =>
    rw [if_neg hminus, value_eq_placeValue]
    rcases isPlain_iff.1 h with rfl | hpositive
    · exact .zero
    · exact .positive hpositive

theorem Canonical.isCanonical {bs : Bytes} {n : Int} (h : Canonical bs n) :
    isCanonical bs = true := by
  cases h with
  | zero => decide
  | positive h => rw [Decimal.isCanonical, if_neg h.head?_ne_minus, isPlain_iff.2 (Or.inr h)]
  | @negative ds h =>
    have hzero : ds ≠ [Bytes.zero] := by
      rintro rfl
      exact not_isPositive_zero h
    simp [Decimal.isCanonical, isPlain_iff.2 (Or.inr h), hzero]

/-- A text is that of one integer, its value. -/
theorem Canonical.eq_signedValue {bs : Bytes} {n : Int} (h : Canonical bs n) :
    n = signedValue bs := by
  cases h with
  | zero => rfl
  | positive h => rw [signedValue, if_neg h.head?_ne_minus, value_eq_placeValue]
  | @negative ds h =>
    have hminus : (Bytes.minus :: ds).head? = some Bytes.minus := rfl
    rw [signedValue, if_pos hminus, List.tail_cons, value_eq_placeValue]

theorem canonical_ofInt (n : Int) : Canonical (ofInt n) n := by
  have h := canonical_of_isCanonical (isCanonical_ofInt n)
  rwa [signedValue_ofInt] at h

/-- **An integer has one text**, the one that is written for it. -/
theorem canonical_iff_ofInt {bs : Bytes} {n : Int} : Canonical bs n ↔ bs = ofInt n := by
  constructor
  · intro h
    rw [h.eq_signedValue, ofInt_signedValue h.isCanonical]
  · rintro rfl
    exact canonical_ofInt n

/-! ## Printing -/

/-- The byte of a digit is that of its character. -/
theorem encodeChar_digitChar {d : Nat} (h : d < 10) :
    String.utf8EncodeChar d.digitChar = [digit d] := by
  have hall : ∀ e ∈ List.range 10, String.utf8EncodeChar e.digitChar = [digit e] := by decide
  exact hall d (List.mem_range.2 h)

theorem digits_eq_toDigits (n : Nat) : digits n = Bytes.ofChars (Nat.toDigits 10 n) := by
  induction n using Nat.strongRecOn with
  | _ n ih =>
    rw [digits, Nat.toDigits_eq_if (by decide)]
    split
    · next hlt => rw [Bytes.ofChars_cons, encodeChar_digitChar hlt, Bytes.ofChars_nil, List.append_nil]
    · next hge =>
      have hlast : n % 10 < 10 := Nat.mod_lt n (by decide)
      rw [Bytes.ofChars_append, Bytes.ofChars_cons, encodeChar_digitChar hlast, Bytes.ofChars_nil,
        List.append_nil, ih (n / 10) (Nat.div_lt_self (by omega) (by decide))]

/-- **An integer is written as it is printed.** -/
theorem ofInt_eq_toString (n : Int) : ofInt n = Bytes.ofString (toString n) := by
  have hnat : ∀ m : Nat, digits m = Bytes.ofString m.repr := by
    intro m
    rw [digits_eq_toDigits, Bytes.ofString, Nat.toList_repr]
  have hminus : Bytes.ofString "-" = [Bytes.minus] := by decide
  cases n with
  | ofNat m =>
    have hnonneg : ¬ Int.ofNat m < 0 := Int.not_lt.2 (Int.natCast_nonneg m)
    rw [ofInt, if_neg hnonneg]
    exact hnat m
  | negSucc m =>
    have happend :
        Bytes.ofString ("-" ++ (m + 1).repr) = Bytes.minus :: Bytes.ofString (m + 1).repr := by
      rw [Bytes.ofString, String.toList_append, Bytes.ofChars_append]
      exact congrArg (· ++ _) hminus
    rw [ofInt, if_pos (by omega), Int.natAbs_negSucc, hnat]
    exact happend.symm

end Decimal
end ImapWire
