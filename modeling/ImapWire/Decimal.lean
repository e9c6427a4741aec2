/-
  Decimal numbers on the wire.

  A number is a run of digits.  `digits` writes one, `value` reads one, and `digits` is the only
  written form without a superfluous zero in front.  Three readers share them:

    * `natBelow?` takes any non-empty run of digits (the length of a literal);
    * `unsignedBelow?` takes the same with at most one plus sign in front (a number field sent as a
      string);
    * `int?` takes a *canonical* integer, one that is exactly what `ofInt` writes for it, so that an
      atom read as a number is never respelt when it is written again.

  A run of digits may be as long as the server likes, but no number on the wire has more than 64
  bits.  So a reader is told a limit and stops as soon as the number has reached it (`below?`); that
  it then finds the numbers below the limit, and only them, is `below?_eq`.
-/
import ImapWire.Bytes

namespace ImapWire.Decimal

open Bytes (isDigit)

/-! ## Writing -/

/-- The digit of a number below ten. -/
def digit (d : Nat) : UInt8 := UInt8.ofNat (0x30 + d)

/-- The digits of a number, without a superfluous zero. -/
def digits (n : Nat) : Bytes :=
  if n < 10 then [digit n] else digits (n / 10) ++ [digit (n % 10)]
termination_by n
decreasing_by exact Nat.div_lt_self (by omega) (by omega)

/-- An integer: its digits, after a minus sign if it is negative. -/
def ofInt (n : Int) : Bytes :=
  if n < 0 then Bytes.minus :: digits n.natAbs else digits n.natAbs

/-! ## Reading -/

/-- The number a run of digits stands for. -/
def value (ds : Bytes) : Nat := ds.foldl (fun n d => n * 10 + (d.toNat - 0x30)) 0

/-- The number that digits stand for behind a number read before them, if it stays below a limit. -/
def below? (digitOf : α → Nat) (limit n : Nat) : List α → Option Nat
  | [] => if n < limit then some n else none
  | d :: ds => if n < limit then below? digitOf limit (n * 10 + digitOf d) ds else none

/-- The number a run of digits stands for, if it is below a limit. -/
def valueBelow? (limit : Nat) (ds : Bytes) : Option Nat := below? (fun d => d.toNat - 0x30) limit 0 ds

/-- A non-empty run of digits. -/
def isNumber (bs : Bytes) : Bool := !bs.isEmpty && bs.all isDigit

/-- The number written by a non-empty run of digits. -/
def nat? (bs : Bytes) : Option Nat := if isNumber bs then some (value bs) else none

/-- The number written by a non-empty run of digits, if it is below a limit. -/
def natBelow? (limit : Nat) (bs : Bytes) : Option Nat :=
  if isNumber bs then valueBelow? limit bs else none

/-- The number below a limit of a run of digits with at most one plus sign in front. -/
def unsignedBelow? (limit : Nat) (bs : Bytes) : Option Nat :=
  natBelow? limit (if bs.head? = some Bytes.plus then bs.tail else bs)

/-- A run of digits that starts with a zero only if it is the number zero. -/
def isPlain (ds : Bytes) : Bool :=
  isNumber ds && (ds.head? != some Bytes.zero || ds == [Bytes.zero])

/-- The shape of a canonical integer: a plain number, or a minus sign and a plain number other than
    zero. -/
def isCanonical (bs : Bytes) : Bool :=
  if bs.head? = some Bytes.minus then isPlain bs.tail && bs.tail != [Bytes.zero] else isPlain bs

/-- The first number that is no 64-bit integer any more. -/
abbrev signedSize : Nat := 9223372036854775808

/-- The integer a canonical text stands for. -/
def signedValue (bs : Bytes) : Int :=
  if bs.head? = some Bytes.minus then - (value bs.tail : Int) else value bs

/-- The 64-bit integer that a text is canonical for. -/
def int? (bs : Bytes) : Option Int64 :=
  if isCanonical bs then
    if bs.head? = some Bytes.minus then
      (valueBelow? (signedSize + 1) bs.tail).map fun n => Int64.ofInt (-n)
    else (valueBelow? signedSize bs).map fun n => Int64.ofInt n
  else none

/-! ## Small facts -/

theorem digits_ne_nil (n : Nat) : digits n ≠ [] := by
  rw [digits]; split <;> simp

theorem isDigit_digit {d : Nat} (h : d < 10) : isDigit (digit d) = true := by
  have hall : ∀ e ∈ List.range 10, isDigit (digit e) = true := by decide
  exact hall d (List.mem_range.2 h)

theorem toNat_digit {d : Nat} (h : d < 10) : (digit d).toNat = 0x30 + d := by
  have hall : ∀ e ∈ List.range 10, (digit e).toNat = 0x30 + e := by decide
  exact hall d (List.mem_range.2 h)

/-- Every byte of a written number is a digit. -/
theorem all_isDigit_digits (n : Nat) : (digits n).all isDigit = true := by
  induction n using Nat.strongRecOn with
  | _ n ih =>
    rw [digits]
    split
    · next h => simp [isDigit_digit h]
    · next h =>
      simp [ih (n / 10) (Nat.div_lt_self (by omega) (by omega)),
        isDigit_digit (Nat.mod_lt n (by omega : 10 > 0))]

theorem value_concat (ds : Bytes) (d : UInt8) :
    value (ds ++ [d]) = value ds * 10 + (d.toNat - 0x30) := by
  simp [value]

/-- Reading what was written. -/
theorem value_digits (n : Nat) : value (digits n) = n := by
  induction n using Nat.strongRecOn with
  | _ n ih =>
    rw [digits]
    split
    · next h => simp [value, toNat_digit h]
    · next h =>
      rw [value_concat, ih (n / 10) (Nat.div_lt_self (by omega) (by omega)),
        toNat_digit (Nat.mod_lt n (by omega : 10 > 0))]
      omega

theorem isNumber_digits (n : Nat) : isNumber (digits n) = true := by
  simp [isNumber, all_isDigit_digits, digits_ne_nil]

theorem nat?_digits (n : Nat) : nat? (digits n) = some n := by
  simp [nat?, isNumber_digits, value_digits]

/-! ## Stopping at a limit loses nothing below it -/

theorem le_foldl_digits (digitOf : α → Nat) (n : Nat) (ds : List α) :
    n ≤ ds.foldl (fun n d => n * 10 + digitOf d) n := by
  induction ds generalizing n with
  | nil => exact Nat.le_refl n
  | cons d ds ih => exact Nat.le_trans (by omega) (ih (n * 10 + digitOf d))

theorem below?_eq (digitOf : α → Nat) (limit n : Nat) (ds : List α) :
    below? digitOf limit n ds =
      if ds.foldl (fun n d => n * 10 + digitOf d) n < limit then
        some (ds.foldl (fun n d => n * 10 + digitOf d) n)
      else none := by
  induction ds generalizing n with
  | nil => rfl
  | cons d ds ih =>
    have hle := le_foldl_digits digitOf n (d :: ds)
    rw [below?, ih]
    by_cases h : n < limit
    · rw [if_pos h]; rfl
    · rw [if_neg h, if_neg (by omega)]

theorem valueBelow?_eq (limit : Nat) (ds : Bytes) :
    valueBelow? limit ds = if value ds < limit then some (value ds) else none :=
  below?_eq _ limit 0 ds

theorem natBelow?_eq_some {limit n : Nat} {bs : Bytes} :
    natBelow? limit bs = some n ↔ nat? bs = some n ∧ n < limit := by
  rw [natBelow?, nat?, valueBelow?_eq]
  grind

theorem natBelow?_digits {limit n : Nat} (h : n < limit) : natBelow? limit (digits n) = some n :=
  natBelow?_eq_some.2 ⟨nat?_digits n, h⟩

/-- The 64-bit integers are the canonical texts of a value in their range. -/
theorem int?_eq (bs : Bytes) :
    int? bs =
      if isCanonical bs ∧ -signedSize ≤ signedValue bs ∧ signedValue bs < signedSize then
        some (Int64.ofInt (signedValue bs))
      else none := by
  rw [int?, valueBelow?_eq, valueBelow?_eq, signedValue]
  by_cases hc : isCanonical bs = true <;> by_cases hm : bs.head? = some Bytes.minus <;>
    simp only [hc, hm, if_true, if_false, true_and, false_and, Bool.false_eq_true] <;>
    split <;> split <;> grind

end ImapWire.Decimal
