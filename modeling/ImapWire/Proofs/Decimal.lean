/-
  Written integers are canonical and are read back.

  `Decimal.ofInt` writes an integer without a superfluous zero, so its text has the shape that an
  atom must have to be a number (`isCanonical_ofInt`), and the number is the one that was written
  (`signedValue_ofInt`).  With the bounds of 64 bits that makes reading undo writing (`int?_ofInt`).

  A canonical text is the only one of its number, so writing undoes reading, too
  (`ofInt_of_int?`).
-/
import ImapWire.Decimal
import Mathlib.Algebra.Group.Nat.Defs

namespace ImapWire

set_option maxRecDepth 4000 in
/-- A digit delimits nothing, opens no marker and does not start `NIL`. -/
theorem Bytes.isDigit_spec {b : UInt8} (h : Bytes.isDigit b = true) :
    Bytes.isDelimiter b = false ∧ b ≠ Bytes.openBrace ∧ Bytes.lowerByte b ≠ 0x6E := by
  have hall : ∀ b : UInt8, isDigit b = true →
      isDelimiter b = false ∧ b ≠ openBrace ∧ lowerByte b ≠ 0x6E := forall_of_fin (by decide)
  exact hall b h

namespace Decimal

open Bytes (isDigit)

/-- Only the number zero starts with a zero. -/
theorem head?_digits {n : Nat} (h : 0 < n) : (digits n).head? ≠ some Bytes.zero := by
  induction n using Nat.strongRecOn with
  | _ n ih =>
    rw [digits]
    split
    · next hlt =>
      have hall : ∀ d ∈ List.range 10, 0 < d → digit d ≠ Bytes.zero := by decide
      intro hhead
      exact hall n (List.mem_range.2 hlt) h (by simpa using hhead)
    · next hge =>
      rw [List.head?_append, Option.or_of_isSome (by simp [digits_ne_nil])]
      exact ih (n / 10) (Nat.div_lt_self h (by omega)) (by omega)

/-- A written number starts with a digit. -/
theorem head_digits (n : Nat) : ∃ d ds, digits n = d :: ds ∧ isDigit d = true := by
  obtain ⟨d, ds, hds⟩ := List.exists_cons_of_ne_nil (digits_ne_nil n)
  have hall := all_isDigit_digits n
  rw [hds, List.all_cons, Bool.and_eq_true] at hall
  exact ⟨d, ds, hds, hall.1⟩

/-- A number below a power of ten has no more digits than the power says. -/
theorem length_digits_le {n k : Nat} (h : n < 10 ^ (k + 1)) : (digits n).length ≤ k + 1 := by
  induction k generalizing n with
  | zero =>
    rw [digits, if_pos (by simpa using h)]
    exact Nat.le_refl 1
  | succ k ih =>
    rw [digits]
    split
    · exact Nat.le_add_left 1 _
    · rw [List.length_append]
      have hshort : n / 10 < 10 ^ (k + 1) := by
        rw [Nat.pow_succ] at h
        omega
      exact Nat.add_le_add_right (ih hshort) 1

theorem isPlain_digits (n : Nat) : isPlain (digits n) = true := by
  unfold isPlain
  rw [isNumber_digits, Bool.true_and, Bool.or_eq_true]
  rcases Nat.eq_zero_or_pos n with rfl | hpos
  · refine Or.inr ?_
    rw [digits]
    rfl
  · refine Or.inl ?_
    simpa using head?_digits hpos

/-- No number starts with a minus sign. -/
theorem head?_digits_ne_minus (n : Nat) : (digits n).head? ≠ some Bytes.minus := by
  obtain ⟨d, ds, hds, hd⟩ := head_digits n
  rw [hds]
  intro h
  cases h
  exact absurd hd (by decide)

theorem isCanonical_ofInt (n : Int) : isCanonical (ofInt n) = true := by
  unfold ofInt
  split
  · next hneg =>
    have hpos : 0 < n.natAbs := by omega
    have hzero : digits n.natAbs ≠ [Bytes.zero] := by
      intro h
      exact head?_digits hpos (by rw [h]; rfl)
    simp [isCanonical, isPlain_digits, hzero]
  · simp [isCanonical, head?_digits_ne_minus, isPlain_digits]

theorem signedValue_ofInt (n : Int) : signedValue (ofInt n) = n := by
  unfold ofInt
  split
  · next hneg =>
    simp only [signedValue, List.head?_cons, if_true, List.tail_cons, value_digits]
    omega
  · next hnonneg =>
    simp only [signedValue, if_neg (head?_digits_ne_minus _), value_digits]
    omega

/-- **Reading undoes writing** for the integers of 64 bits. -/
theorem int?_ofInt (n : Int64) : int? (ofInt n.toInt) = some n := by
  have hlow : -2 ^ 63 ≤ n.toInt := n.le_toInt
  have hhigh : n.toInt < 2 ^ 63 := n.toInt_lt
  rw [int?_eq, isCanonical_ofInt, signedValue_ofInt, if_pos ⟨rfl, hlow, hhigh⟩, Int64.ofInt_toInt]

/-- A written integer holds digits, and perhaps a minus sign. -/
theorem mem_ofInt {n : Int} {b : UInt8} (h : b ∈ ofInt n) : b = Bytes.minus ∨ isDigit b = true := by
  have hall : ∀ d ∈ digits n.natAbs, isDigit d = true :=
    List.all_eq_true.1 (all_isDigit_digits n.natAbs)
  unfold ofInt at h
  split at h
  · rcases List.mem_cons.1 h with h | h
    · exact Or.inl h
    · exact Or.inr (hall b h)
  · exact Or.inr (hall b h)

theorem ofInt_ne_nil (n : Int) : ofInt n ≠ [] := by
  unfold ofInt
  split
  · exact List.cons_ne_nil _ _
  · exact digits_ne_nil _

/-! ## One text for each number -/

/-- A plain number holds digits, at least one. -/
theorem isPlain_spec {bs : Bytes} (h : isPlain bs = true) :
    bs ≠ [] ∧ ∀ b ∈ bs, isDigit b = true := by
  have hnumber : isNumber bs = true := (Bool.and_eq_true_iff.1 h).1
  obtain ⟨hne, hall⟩ := Bool.and_eq_true_iff.1 hnumber
  exact ⟨by simpa using hne, List.all_eq_true.1 hall⟩

set_option maxRecDepth 4000 in
theorem digit_toNat : ∀ d : UInt8, isDigit d = true →
    d.toNat - 0x30 < 10 ∧ digit (d.toNat - 0x30) = d :=
  Bytes.forall_of_fin (by decide)

/-- A plain number without its last digit is plain, and not zero. -/
theorem isPlain_of_concat {ds : Bytes} {d : UInt8} (hne : ds ≠ []) (h : isPlain (ds ++ [d]) = true) :
    isPlain ds = true ∧ ds ≠ [Bytes.zero] := by
  have hlong : ds ++ [d] ≠ [Bytes.zero] := by
    intro hone
    exact hne (by simpa using congrArg List.length hone)
  have hhead : ds.head? ≠ some Bytes.zero := by
    rw [isPlain, Bool.and_eq_true, Bool.or_eq_true, bne_iff_ne, beq_iff_eq, List.head?_append,
      Option.or_of_isSome (by simpa using hne)] at h
    exact h.2.resolve_right hlong
  have hall : ds.all isDigit = true :=
    List.all_eq_true.2 fun b hb => (isPlain_spec h).2 b (List.mem_append_left _ hb)
  refine ⟨?_, fun hzero => hhead (by rw [hzero]; rfl)⟩
  simp [isPlain, isNumber, hne, hall, hhead]

/-- **A plain number is the text of its value.** -/
theorem digits_value {ds : Bytes} (h : isPlain ds = true) : digits (value ds) = ds := by
  -- by induction from the last digit on
  suffices hback : ∀ rs : Bytes, isPlain rs.reverse = true →
      digits (value rs.reverse) = rs.reverse by
    rw [← List.reverse_reverse ds] at h ⊢
    exact hback ds.reverse h
  intro rs
  induction rs with
  | nil => nofun
  | cons d rs ih =>
    rw [List.reverse_cons]
    intro hplain
    obtain ⟨hlt, hdigit⟩ := digit_toNat d ((isPlain_spec hplain).2 d (by simp))
    rw [value_concat]
    by_cases hne : rs.reverse = []
    · have hsmall : value [] * 10 + (d.toNat - 0x30) = d.toNat - 0x30 := by simp [value]
      rw [hne, hsmall, digits, if_pos hlt, hdigit]
      rfl
    · obtain ⟨hfront, hzero⟩ := isPlain_of_concat hne hplain
      have hdigits := ih hfront
      have hpos : value rs.reverse ≠ 0 := by
        intro hvalue
        rw [hvalue, digits] at hdigits
        exact hzero hdigits.symm
      rw [digits, if_neg (by omega), show (value rs.reverse * 10 + (d.toNat - 0x30)) / 10
          = value rs.reverse by omega, show (value rs.reverse * 10 + (d.toNat - 0x30)) % 10
          = d.toNat - 0x30 by omega, hdigits, hdigit]

/-- A canonical text is the text of its number. -/
theorem ofInt_signedValue {bs : Bytes} (h : isCanonical bs = true) : ofInt (signedValue bs) = bs := by
  unfold isCanonical at h
  unfold signedValue
  split at h
  · next hminus =>
    obtain ⟨ds, rfl⟩ := List.head?_eq_some_iff.1 hminus
    rw [if_pos hminus, List.tail_cons]
    obtain ⟨hplain, hzero⟩ := Bool.and_eq_true_iff.1 h
    have hdigits := digits_value hplain
    have hpos : value ds ≠ 0 := by
      intro hvalue
      rw [List.tail_cons, hvalue, digits] at hdigits
      exact bne_iff_ne.1 hzero hdigits.symm
    rw [ofInt, if_pos (by omega), Int.natAbs_neg, Int.natAbs_natCast]
    exact congrArg _ hdigits
  · next hminus =>
    rw [if_neg hminus, ofInt, if_neg (by omega), Int.natAbs_natCast]
    exact digits_value h

/-- **Writing undoes reading**: only the canonical text of an integer is read as it. -/
theorem ofInt_of_int? {bs : Bytes} {n : Int64} (h : int? bs = some n) : ofInt n.toInt = bs := by
  rw [int?_eq] at h
  split at h
  · next hrange =>
    obtain ⟨hcanonical, hlow, hhigh⟩ := hrange
    have hvalue : n.toInt = signedValue bs := by
      rw [← Option.some.inj h]
      exact Int64.toInt_ofInt_of_le hlow hhigh
    rw [hvalue]
    exact ofInt_signedValue hcanonical
  · cases h

end Decimal

end ImapWire
