/-
  The number that a value stands for.

  1. **What a value says** (`Value.Says`): an integer that is not negative says itself, and a
     non-empty string of digits says the number that they are written for.  Nothing else says a
     number.

  2. **What a value is taken for** (`Value.TakenFor`).  Fields of records are read by a general reader
     of integers, which lets a plus sign stand in front of the digits of a string.  So a value is
     taken for what it says, and a string with a plus sign for what the rest of it says; the two
     differ in nothing else (`takenFor_iff_plain`, `takenFor_plus_iff`).

  3. **Numbers of 64 and of 32 bits** are what the value is taken for, without wrapping
     (`number64_eq_ok_iff`, `number32_eq_ok_iff`), and all other values are refused.

  A bare word is taken for the same as its bytes in quotes, although it may be read as an integer
  (`takenFor_ofAtom_iff`): a canonical text says its integer, and a negative integer has a minus
  sign in its text.
-/
import ImapWire.Proofs.Value.Atom
import ImapWire.Value.Field

namespace ImapWire

open Bytes (isDigit)

namespace Decimal

/-- A number is read from digits, at least one. -/
theorem nat?_eq_some_iff {ds : Bytes} {n : Nat} :
    nat? ds = some n ↔ (ds ≠ [] ∧ ∀ d ∈ ds, isDigit d = true) ∧ placeValue ds = n := by
  have hnumber : isNumber ds = true ↔ ds ≠ [] ∧ ∀ d ∈ ds, isDigit d = true := by
    simp [isNumber]
  unfold nat?
  rw [value_eq_placeValue, ← hnumber]
  split
  · next h => simp [h]
  · next h => simp [h]

end Decimal

namespace Value

variable {v : Value} {role : String} {limit n : Nat} {ds a : Bytes}

/-! ## What a value says -/

/-- The value says the number: an integer that is not negative, or digits, at least one. -/
inductive Says : Value → Nat → Prop
  | int {i : Int64} {n : Nat} (h : i.toInt = n) : Says (.int i) n
  | digits {ds : Bytes} (hne : ds ≠ []) (hdigits : ∀ d ∈ ds, isDigit d = true) :
      Says (.bytes ds) (Decimal.placeValue ds)

theorem says_int_iff {i : Int64} : (Value.int i).Says n ↔ i.toInt = n :=
  ⟨fun h => by cases h; assumption, .int⟩

theorem says_bytes_iff : (Value.bytes ds).Says n ↔ Decimal.nat? ds = some n := by
  rw [Decimal.nat?_eq_some_iff]
  constructor
  · intro h
    cases h with
    | digits hne hdigits => exact ⟨⟨hne, hdigits⟩, rfl⟩
  · rintro ⟨⟨hne, hdigits⟩, rfl⟩
    exact .digits hne hdigits

/-- What starts with anything but a digit says nothing. -/
theorem not_says_cons {b : UInt8} (hb : isDigit b = false) :
    ¬ (Value.bytes (b :: ds)).Says n := by
  intro h
  cases h with
  | digits hne hdigits =>
    have hdigit := hdigits b List.mem_cons_self
    rw [hb] at hdigit
    cases hdigit

/-! ## What a value is taken for -/

/-- The value is taken for the number: it says it, or it is a string that says it behind a plus
    sign. -/
inductive TakenFor : Value → Nat → Prop
  | plain {v : Value} {n : Nat} (h : v.Says n) : TakenFor v n
  | plus {ds : Bytes} {n : Nat} (h : (Value.bytes ds).Says n) :
      TakenFor (.bytes (Bytes.plus :: ds)) n

/-- Without a plus sign a value is taken for what it says. -/
theorem takenFor_iff_plain (h : ∀ ds, v ≠ .bytes (Bytes.plus :: ds)) : v.TakenFor n ↔ v.Says n := by
  constructor
  · intro htaken
    cases htaken with
    | plain hplain => exact hplain
    | @plus ds n hplain => exact absurd rfl (h ds)
  · exact .plain

/-- A plus sign is passed over. -/
theorem takenFor_plus_iff :
    (Value.bytes (Bytes.plus :: ds)).TakenFor n ↔ (Value.bytes ds).Says n := by
  constructor
  · intro htaken
    cases htaken with
    | plain hplain => exact absurd hplain (not_says_cons (by decide))
    | plus hplain => exact hplain
  · exact .plus

theorem takenFor_int_iff {i : Int64} : (Value.int i).TakenFor n ↔ i.toInt = n :=
  (takenFor_iff_plain (by nofun)).trans says_int_iff

/-- A string is taken for what the digits behind a plus sign say, if there is one. -/
theorem takenFor_bytes_iff :
    (Value.bytes ds).TakenFor n ↔
      Decimal.nat? (if ds.head? = some Bytes.plus then ds.tail else ds) = some n := by
  split
  · next hplus =>
    obtain ⟨ds, rfl⟩ := List.head?_eq_some_iff.1 hplus
    exact takenFor_plus_iff.trans says_bytes_iff
  · next hplus =>
    have hnot : ∀ more, Value.bytes ds ≠ .bytes (Bytes.plus :: more) := by
      rintro more ⟨⟩
      exact hplus rfl
    exact (takenFor_iff_plain hnot).trans says_bytes_iff

/-- **Reading a number below a limit** is taking the value for it. -/
theorem natBelow?_eq_some_iff : v.natBelow? limit = some n ↔ v.TakenFor n ∧ n < limit := by
  cases v with
  | int i =>
    rw [takenFor_int_iff]
    show (if 0 ≤ i.toInt ∧ i.toInt < limit then some i.toInt.toNat else none) = some n ↔ _
    split
    · rw [Option.some.injEq]
      omega
    · constructor
      · nofun
      · omega
  | bytes ds =>
    rw [takenFor_bytes_iff]
    exact Decimal.natBelow?_eq_some
  | _ =>
    refine ⟨nofun, ?_⟩
    rintro ⟨⟨⟨⟩⟩, -⟩

/-! ## Bare words -/

/-- `NIL` says nothing. -/
theorem not_takenFor_of_isNil (h : Tree.IsNil a) : ¬ (Value.bytes a).TakenFor n := by
  obtain ⟨b, i, l, rfl, hb, -⟩ := h
  have hletter : isDigit b = false ∧ b ≠ Bytes.plus := by
    rcases hb with rfl | rfl <;> decide
  rw [takenFor_iff_plain]
  · exact not_says_cons hletter.1
  · rintro ds ⟨⟩
    exact hletter.2 rfl

/-- **The text of an integer** is taken for the integer, if that is not negative. -/
theorem takenFor_iff_of_canonical {m : Int} (h : Decimal.Canonical a m) :
    (Value.bytes a).TakenFor n ↔ m = n := by
  have hdigits : ∀ ds, Decimal.IsPositive ds →
      ((Value.bytes ds).TakenFor n ↔ (Decimal.placeValue ds : Int) = n) := by
    intro ds hds
    have hplus : ∀ more, Value.bytes ds ≠ .bytes (Bytes.plus :: more) := by
      rintro more ⟨⟩
      exact absurd (hds.digits _ List.mem_cons_self) (by decide)
    rw [takenFor_iff_plain hplus, says_bytes_iff, Decimal.nat?_eq_some_iff, Int.natCast_inj]
    exact and_iff_right ⟨hds.ne_nil, hds.digits⟩
  cases h with
  | zero =>
    rw [takenFor_iff_plain (by nofun), says_bytes_iff, Decimal.nat?_eq_some_iff]
    have hvalue : Decimal.placeValue [Bytes.zero] = 0 := by decide
    have hdigit : [Bytes.zero] ≠ [] ∧ ∀ d ∈ [Bytes.zero], isDigit d = true :=
      ⟨List.cons_ne_nil _ _, List.forall_mem_singleton.2 rfl⟩
    rw [hvalue, and_iff_right hdigit]
    omega
  | positive hds => exact hdigits _ hds
  | @negative ds hds =>
    -- there is a minus sign in front, and what is behind it is not zero
    have hpos : Decimal.placeValue ds ≠ 0 := by
      intro hzero
      have hnegative : Decimal.Canonical (Bytes.minus :: ds) (-Decimal.placeValue ds) := .negative hds
      rw [hzero] at hnegative
      have htext : Bytes.minus :: ds = [Bytes.zero] :=
        (Decimal.canonical_iff_ofInt.1 hnegative).trans (Decimal.canonical_iff_ofInt.1 .zero).symm
      cases htext
    constructor
    · intro htaken
      rw [takenFor_iff_plain (by nofun)] at htaken
      exact absurd htaken (not_says_cons (by decide))
    · omega

/-- **A bare word** is taken for what its bytes are taken for in quotes. -/
theorem takenFor_ofAtom_iff :
    (ofTree (.ofAtom a)).TakenFor n ↔ (Value.bytes a).TakenFor n := by
  rcases Tree.ofAtom_cases a with hnil | ⟨i, hint⟩ | hbytes
  · rw [hnil]
    refine ⟨?_, fun h => absurd h (not_takenFor_of_isNil (Tree.ofAtom_eq_nil_iff.1 hnil))⟩
    rintro ⟨⟨⟩⟩
  · rw [hint, takenFor_iff_of_canonical (Tree.ofAtom_eq_int_iff.1 hint)]
    exact takenFor_int_iff
  · rw [hbytes]
    exact Iff.rfl

/-! ## Numbers of 64 and of 32 bits -/

/-- **A number of a width** is the number that the value is taken for, if it is of that width;
    otherwise the value is refused. -/
theorem ofWidth_spec {α : Type} {size : Nat} {toNat : α → Nat} (ofNat : Nat → α) {e : Error}
    {x : Result α}
    (hx : x = match v.natBelow? size with
      | some n => .ok (ofNat n)
      | none => .error e)
    (hto : ∀ n < size, toNat (ofNat n) = n) (hof : ∀ a, ofNat (toNat a) = a)
    (hsize : ∀ a, toNat a < size) :
    (∀ a, x = .ok a ↔ v.TakenFor (toNat a)) ∧ ((∀ a, ¬ v.TakenFor (toNat a)) → x = .error e) := by
  subst hx
  cases hbelow : v.natBelow? size with
  | some n =>
    obtain ⟨htaken, hlt⟩ := natBelow?_eq_some_iff.1 hbelow
    have hn : toNat (ofNat n) = n := hto n hlt
    constructor
    · intro a
      constructor
      · intro h
        cases h
        rwa [hn]
      · intro h
        have ha := natBelow?_eq_some_iff.2 ⟨h, hsize a⟩
        rw [hbelow, Option.some.injEq] at ha
        show (Except.ok (ofNat n) : Result α) = _
        rw [ha, hof]
    · intro hnone
      exact absurd htaken (hn ▸ hnone (ofNat n))
  | none =>
    have hnone : ∀ a, ¬ v.TakenFor (toNat a) := by
      intro a h
      have ha := natBelow?_eq_some_iff.2 ⟨h, hsize a⟩
      rw [hbelow] at ha
      cases ha
    exact ⟨fun a => ⟨nofun, fun h => absurd h (hnone a)⟩, fun _ => rfl⟩

theorem number64_spec (role : String) (v : Value) :
    (∀ n : UInt64, v.number64 role = .ok n ↔ v.TakenFor n.toNat) ∧
      ((∀ n : UInt64, ¬ v.TakenFor n.toNat) → v.number64 role = .error (v.wrong role)) :=
  ofWidth_spec UInt64.ofNat rfl (fun _ hn => UInt64.toNat_ofNat_of_lt hn)
    (fun _ => UInt64.ofNat_toNat) UInt64.toNat_lt

theorem number32_spec (role : String) (v : Value) :
    (∀ n : UInt32, v.number32 role = .ok n ↔ v.TakenFor n.toNat) ∧
      ((∀ n : UInt32, ¬ v.TakenFor n.toNat) → v.number32 role = .error (v.wrong role)) :=
  ofWidth_spec UInt32.ofNat rfl (fun _ hn => UInt32.toNat_ofNat_of_lt hn)
    (fun _ => UInt32.ofNat_toNat) UInt32.toNat_lt

theorem number64_eq_ok_iff {n : UInt64} : v.number64 role = .ok n ↔ v.TakenFor n.toNat :=
  (number64_spec role v).1 n

theorem number32_eq_ok_iff {n : UInt32} : v.number32 role = .ok n ↔ v.TakenFor n.toNat :=
  (number32_spec role v).1 n

end Value

end ImapWire
