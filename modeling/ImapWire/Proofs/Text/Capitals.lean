/-
  Texts in capitals.

  A name is looked up by its capitals.  Two names are the same up to the case of their letters
  exactly if they have the same capitals (`Text.sameName_iff`), and a text is its own capitals
  exactly if no small letter of ASCII is in it (`Text.upper_eq_self_iff`).

  Of a text that was read from bytes, that can be told from the bytes (`Bytes.upper_text_eq_iff`).
  The characters of ASCII in it are the bytes below `0x80`, whatever else is among the bytes
  (`Utf8.mem_decode_iff`): no such byte goes on with a begun sequence, and no sequence comes to a
  character of ASCII.  Both are carried through the bytes by one invariant (`Utf8.Pending.IsLong`).
-/
import ImapWire.Proofs.Text.Ascii
import ImapWire.Text.Case
import Mathlib

namespace ImapWire

namespace Text

/-- Names are the same exactly if their capitals are. -/
theorem sameName_iff {a b : String} : sameName a b = true ↔ upper a = upper b := by
  rw [sameName, beq_iff_eq]
  constructor
  · intro h
    have hraised := congrArg upper h
    simpa [upper, lower, Function.comp_def] using hraised
  · intro h
    have hlowered := congrArg lower h
    simpa [upper, lower, Function.comp_def] using hlowered

/-- A text is in capitals exactly if no small letter is in it. -/
theorem upper_eq_self_iff {s : String} : upper s = s ↔ ∀ c ∈ s.toList, c.isLower = false := by
  have hchar : ∀ c : Char, c.toUpper = c ↔ c.isLower = false := by
    intro c
    constructor
    · intro h
      rw [← h, Char.isLower_toUpper_eq_false]
    · intro h
      exact Char.toUpper_eq_of_not_isLower (by simp [h])
  simp only [← hchar]
  rw [← String.toList_inj, toList_upper]
  conv_lhs => rw [← List.map_id s.toList, List.map_map]
  exact List.map_inj_left

/-- Two texts put together are in capitals exactly if both are. -/
theorem upper_append_eq_self_iff {a b : String} :
    upper (a ++ b) = a ++ b ↔ upper a = a ∧ upper b = b := by
  simp only [upper_eq_self_iff, String.toList_append, List.forall_mem_append]

end Text

namespace Utf8

open Text (IsAscii)

/-- A begun sequence that takes no byte of ASCII and comes to no character of ASCII. -/
def Pending.IsLong (p : Pending) : Prop := 0x80 ≤ p.low ∧ 0x80 ≤ p.least

/-- The first byte of a sequence gives the character of ASCII that it is, if it is one. -/
theorem mem_first_iff {c : Char} (hc : IsAscii c) (b : UInt8) :
    c ∈ (first b).1 ↔ b < 0x80 ∧ Char.ofNat b.toNat = c := by
  by_cases hb : b < 0x80
  · simp [first, hb, eq_comm]
  · have hne : c ≠ replacement := fun h => not_isAscii_replacement (h ▸ hc)
    rcases first_of_high (UInt8.not_lt.1 hb) with hreplaced | ⟨p, hp, -⟩
    · simp [hreplaced, hne, hb]
    · simp [hp, hb]

/-- Whatever a byte begins is long. -/
theorem isLong_of_first {b : UInt8} {p : Pending} (h : (first b).2 = some p) : p.IsLong := by
  have hall : ∀ b : UInt8,
      (first b).2.all (fun p => decide (0x80 ≤ p.low) && decide (0x80 ≤ p.least)) = true :=
    Bytes.forall_of_fin (by decide +kernel)
  have hp := hall b
  rw [h] at hp
  simpa [Pending.IsLong] using hp

/-- **One byte** gives the character of ASCII that it is, if it is one, and leaves nothing begun but
    what is long. -/
theorem mem_step_iff {state : Option Pending} (h : ∀ p ∈ state, p.IsLong) (b : UInt8) :
    (∀ c, IsAscii c → (c ∈ (step state b).1 ↔ b < 0x80 ∧ Char.ofNat b.toNat = c)) ∧
      ∀ p ∈ (step state b).2, p.IsLong := by
  cases state with
  | none => exact ⟨fun c hc => mem_first_iff hc b, fun p hp => isLong_of_first hp⟩
  | some p =>
    obtain ⟨hlow, hleast⟩ := h p rfl
    by_cases hrange : p.low ≤ b ∧ b ≤ p.high
    · -- the byte goes on with the sequence, so it is none of ASCII
      have hhigh : ¬ b < 0x80 := UInt8.not_lt.2 (UInt8.le_trans hlow hrange.1)
      have hmore := Nat.le_trans hleast (Pending.least_le hrange.1)
      by_cases hlast : p.more = 1
      · have hstep : step (some p) b = ([Char.ofNat (p.bits * 0x40 + (b.toNat - 0x80))], none) := by
          simp [step, hrange, hlast]
        rw [hlast, Nat.sub_self, Nat.pow_zero, Nat.mul_one] at hmore
        rw [hstep]
        refine ⟨fun c hc => ?_, by rintro q ⟨⟩⟩
        have hne : c ≠ Char.ofNat (p.bits * 0x40 + (b.toNat - 0x80)) := by
          intro heq
          rw [heq] at hc
          exact not_isAscii_ofNat hmore hc
        simp [hne, hhigh]
      · have hstep : step (some p) b =
            ([], some ⟨p.bits * 0x40 + (b.toNat - 0x80), p.more - 1, 0x80, 0xBF⟩) := by
          simp [step, hrange, hlast]
        rw [hstep]
        refine ⟨fun c hc => by simp [hhigh], ?_⟩
        intro q hq
        rw [← Option.some.inj hq]
        exact ⟨UInt8.le_refl _, Pending.least_of_more hmore⟩
    · have hstep : step (some p) b = (replacement :: (first b).1, (first b).2) := by
        simp only [step, if_neg hrange]
      rw [hstep]
      refine ⟨fun c hc => ?_, fun q hq => isLong_of_first hq⟩
      have hne : c ≠ replacement := fun heq => not_isAscii_replacement (heq ▸ hc)
      rw [List.mem_cons, mem_first_iff hc]
      simp [hne]

theorem mem_decodeFrom_iff {c : Char} (hc : IsAscii c) {state : Option Pending}
    (h : ∀ p ∈ state, p.IsLong) (bs : Bytes) :
    c ∈ decodeFrom state bs ↔ ∃ b ∈ bs, b < 0x80 ∧ Char.ofNat b.toNat = c := by
  induction bs generalizing state with
  | nil =>
    have hne : c ≠ replacement := fun heq => not_isAscii_replacement (heq ▸ hc)
    cases state <;> simp [decodeFrom, hne]
  | cons b bs ih =>
    obtain ⟨hgiven, hbegun⟩ := mem_step_iff h b
    rw [decodeFrom_cons, List.mem_append, hgiven c hc, ih hbegun, List.exists_mem_cons_iff]

/-- **The characters of ASCII in a text are the bytes below `0x80`** that it was read from. -/
theorem mem_decode_iff {c : Char} (hc : IsAscii c) {bs : Bytes} :
    c ∈ decode bs ↔ ∃ b ∈ bs, b < 0x80 ∧ Char.ofNat b.toNat = c :=
  mem_decodeFrom_iff hc (by intro p hp; cases hp) bs

end Utf8

namespace Bytes

/-- Is a small letter of ASCII. -/
def isSmall (b : UInt8) : Bool := 0x61 ≤ b && b ≤ 0x7A

theorem isLower_ofNat : ∀ b : UInt8, b < 0x80 → (Char.ofNat b.toNat).isLower = isSmall b :=
  forall_of_fin (by decide +kernel)

/-- **A text is in capitals exactly if no small letter is among its bytes.** -/
theorem upper_text_eq_iff {bs : Bytes} :
    Text.upper bs.text = bs.text ↔ ∀ b ∈ bs, isSmall b = false := by
  rw [Text.upper_eq_self_iff, toList_text]
  constructor
  · intro h b hb
    have hbelow : isSmall b = true → b < 0x80 ∧ Text.IsAscii (Char.ofNat b.toNat) := by
      have hall : ∀ b : UInt8, isSmall b = true → b < 0x80 ∧ Text.IsAscii (Char.ofNat b.toNat) :=
        forall_of_fin (by decide +kernel)
      exact hall b
    refine Bool.eq_false_iff.2 fun hsmall => ?_
    obtain ⟨hlt, hascii⟩ := hbelow hsmall
    have hlower := h _ ((Utf8.mem_decode_iff hascii).2 ⟨b, hb, hlt, rfl⟩)
    rw [isLower_ofNat b hlt, hsmall] at hlower
    cases hlower
  · intro h c hc
    refine Bool.eq_false_iff.2 fun hsmall => ?_
    have hascii : Text.IsAscii c := by
      rw [Char.isLower, Bool.and_eq_true, decide_eq_true_eq, decide_eq_true_eq] at hsmall
      have hleast : 0x61 ≤ c.toNat := UInt32.le_iff_toNat_le.1 hsmall.1
      have hmost : c.toNat ≤ 0x7A := UInt32.le_iff_toNat_le.1 hsmall.2
      exact ⟨by omega, by omega⟩
    obtain ⟨b, hb, hlt, rfl⟩ := (Utf8.mem_decode_iff hascii).1 hc
    rw [isLower_ofNat b hlt, h b hb] at hsmall
    cases hsmall

theorem upper_keyOf (bs : Bytes) : Text.upper (keyOf bs) = keyOf bs := Text.upper_upper bs.text

end Bytes
end ImapWire
