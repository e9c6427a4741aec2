/-
  Names in ASCII.

  A name is compared in two ways.  A word of a response line is known by its text in capitals
  (`keyOf`); a value is compared byte by byte, up to the case of its letters (`Bytes.sameName`).
  For a name in ASCII that is the same: whatever has its key has its name (`sameName_of_keyOf`).

  The crux is that text does not say which bytes it was read from, since everything that is no
  character becomes the same replacement.  But the replacement is not in ASCII, and neither is
  anything that a byte above `0x7F` begins: the bits that are still to come can only add to those
  gathered so far, and these stand for `0x80` at least (`Pending.least`).  So a text in ASCII was
  read from its own characters, byte by byte (`lt_of_decode_ascii`, `decode_ascii`).
-/
import ImapWire.Mailbox.Read
import Mathlib.Algebra.Group.Nat.Defs

namespace ImapWire

/-- Is a character of ASCII other than NUL, which also stands for a number that is no character. -/
def Text.IsAscii (c : Char) : Prop := 0 < c.toNat ∧ c.toNat < 0x80

instance (c : Char) : Decidable (Text.IsAscii c) :=
  inferInstanceAs (Decidable (0 < c.toNat ∧ c.toNat < 0x80))

namespace Utf8

open Text (IsAscii)

/-! ## Sequences that have begun -/

/-- The least number that a begun sequence can come to. -/
def Pending.least (p : Pending) : Nat :=
  (p.bits * 0x40 + (p.low.toNat - 0x80)) * 0x40 ^ (p.more - 1)

theorem not_isAscii_replacement : ¬ IsAscii replacement := by decide

theorem not_isAscii_ofNat {n : Nat} (h : 0x80 ≤ n) : ¬ IsAscii (Char.ofNat n) := by
  rintro ⟨hpos, hlt⟩
  unfold Char.ofNat at hpos hlt
  by_cases hvalid : n.isValidChar
  · rw [dif_pos hvalid] at hlt
    have hval : (Char.ofNatAux n hvalid).toNat = n := rfl
    omega
  · rw [dif_neg hvalid] at hpos
    exact absurd hpos (by decide)

/-- A further byte does not lessen what a sequence comes to. -/
theorem Pending.least_le {p : Pending} {b : UInt8} (h : p.low ≤ b) :
    p.least ≤ (p.bits * 0x40 + (b.toNat - 0x80)) * 0x40 ^ (p.more - 1) := by
  have hlow : p.low.toNat ≤ b.toNat := UInt8.le_iff_toNat_le.1 h
  exact Nat.mul_le_mul_right _ (by omega)

/-- A sequence that goes on comes to no less than what it has come to. -/
theorem Pending.least_of_more {bits more : Nat} (h : 0x80 ≤ bits * 0x40 ^ more) :
    0x80 ≤ (Pending.mk bits more 0x80 0xBF).least := by
  have hpower : 0x40 ^ more ≤ 0x40 * 0x40 ^ (more - 1) := by
    rw [← Nat.pow_succ']
    exact Nat.pow_le_pow_right (by decide) (by omega)
  calc 0x80 ≤ bits * 0x40 ^ more := h
    _ ≤ bits * (0x40 * 0x40 ^ (more - 1)) := Nat.mul_le_mul_left _ hpower
    _ = (bits * 0x40 + (0x80 - 0x80)) * 0x40 ^ (more - 1) := by
      rw [Nat.sub_self, Nat.add_zero, Nat.mul_assoc]

/-- **A begun sequence never ends in ASCII alone**, whatever follows it. -/
theorem decodeFrom_begun {p : Pending} (h : 0x80 ≤ p.least) (bs : Bytes) :
    ∃ c ∈ decodeFrom (some p) bs, ¬ IsAscii c := by
  induction bs generalizing p with
  | nil => exact ⟨replacement, List.mem_singleton.2 rfl, not_isAscii_replacement⟩
  | cons b bs ih =>
    rw [decodeFrom_cons]
    unfold step
    by_cases hrange : p.low ≤ b ∧ b ≤ p.high
    · have hleast := Nat.le_trans h (Pending.least_le hrange.1)
      by_cases hlast : p.more = 1
      · -- the sequence is complete, with a character above ASCII or none at all
        simp only [hrange, and_self, if_true, hlast]
        refine ⟨_, List.mem_append_left _ (List.mem_singleton.2 rfl), not_isAscii_ofNat ?_⟩
        simpa [hlast] using hleast
      · simp only [hrange, and_self, if_true, hlast, if_false, List.nil_append]
        exact ih (Pending.least_of_more hleast)
    · simp only [hrange, if_false]
      exact ⟨replacement, List.mem_append_left _ List.mem_cons_self, not_isAscii_replacement⟩

/-- A byte above ASCII gives a replacement, or begins a sequence that comes to no less than it. -/
theorem first_of_high {b : UInt8} (h : 0x80 ≤ b) :
    (first b).1 = [replacement] ∨ ∃ p, first b = ([], some p) ∧ 0x80 ≤ p.least := by
  have hall : ∀ b : UInt8, 0x80 ≤ b → (first b).1 = [replacement] ∨
      (first b).1 = [] ∧ (first b).2.any (fun p => 0x80 ≤ p.least) = true :=
    Bytes.forall_of_fin (by decide +kernel)
  rcases hall b h with hreplaced | ⟨hnone, hbegun⟩
  · exact Or.inl hreplaced
  · cases hp : (first b).2 with
    | none =>
      rw [hp] at hbegun
      cases hbegun
    | some p =>
      rw [hp] at hbegun
      exact Or.inr ⟨p, Prod.ext hnone hp, of_decide_eq_true hbegun⟩

/-! ## Texts in ASCII -/

/-- **A text in ASCII was read from bytes in ASCII.** -/
theorem lt_of_decode_ascii {bs : Bytes} (h : ∀ c ∈ decode bs, IsAscii c) : ∀ b ∈ bs, b < 0x80 := by
  induction bs with
  | nil => nofun
  | cons b bs ih =>
    by_cases hb : b < 0x80
    · rw [decode_cons_ascii hb] at h
      exact List.forall_mem_cons.2 ⟨hb, ih fun c hc => h c (List.mem_cons_of_mem _ hc)⟩
    · exfalso
      have hstep : decode (b :: bs) = (first b).1 ++ decodeFrom (first b).2 bs :=
        decodeFrom_cons none b bs
      rw [hstep] at h
      rcases first_of_high (UInt8.not_lt.1 hb) with hreplaced | ⟨p, hp, hleast⟩
      · refine not_isAscii_replacement (h _ (List.mem_append_left _ ?_))
        rw [hreplaced]
        exact List.mem_singleton.2 rfl
      · obtain ⟨c, hc, hnot⟩ := decodeFrom_begun hleast bs
        refine hnot (h c (List.mem_append_right _ ?_))
        rw [hp]
        exact hc

/-- Bytes in ASCII are read as their characters. -/
theorem decode_ascii {bs : Bytes} (h : ∀ b ∈ bs, b < 0x80) :
    decode bs = bs.map (fun b => Char.ofNat b.toNat) := by
  induction bs with
  | nil => rfl
  | cons b bs ih =>
    obtain ⟨hb, hbs⟩ := List.forall_mem_cons.1 h
    rw [decode_cons_ascii hb, ih hbs]
    rfl

end Utf8

/-! ## Names in ASCII -/

/-- Raising a letter keeps a character in ASCII, and outside it. -/
theorem Text.isAscii_toUpper {c : Char} : IsAscii c.toUpper ↔ IsAscii c := by
  by_cases h : 'a'.val ≤ c.val ∧ c.val ≤ 'z'.val
  · have hlow : 0x61 ≤ c.toNat := UInt32.le_iff_toNat_le.1 h.1
    have hhigh : c.toNat ≤ 0x7A := UInt32.le_iff_toNat_le.1 h.2
    have hraised : c.toUpper.toNat = (c.val + ('A'.val - 'a'.val)).toNat := by
      show (dite _ _ _ : Char).toNat = _
      rw [dif_pos h]
      rfl
    have hval : (c.val + ('A'.val - 'a'.val)).toNat = c.toNat - 0x20 := by
      rw [UInt32.toNat_add]
      show (c.toNat + 4294967264) % 4294967296 = c.toNat - 0x20
      omega
    unfold IsAscii
    rw [hraised, hval]
    omega
  · have hsame : c.toUpper = c := dif_neg h
    rw [hsame]

namespace Bytes

theorem lowerByte_toUpper {b : UInt8} (h : b < 0x80) :
    lowerByte (UInt8.ofNat (Char.ofNat b.toNat).toUpper.toNat) = lowerByte b := by
  have hall : ∀ b : UInt8, b < 0x80 →
      lowerByte (UInt8.ofNat (Char.ofNat b.toNat).toUpper.toNat) = lowerByte b :=
    forall_of_fin (by decide +kernel)
  exact hall b h

theorem toList_keyOf (bs : Bytes) : (keyOf bs).toList = (Utf8.decode bs).map Char.toUpper := by
  rw [keyOf, Text.toList_upper, toList_text]

/-- The small letters of a name in ASCII can be told from its key. -/
theorem lower_eq_of_ascii {bs : Bytes} (h : ∀ b ∈ bs, b < 0x80) :
    lower bs = (keyOf bs).toList.map fun c => lowerByte (UInt8.ofNat c.toNat) := by
  rw [toList_keyOf, Utf8.decode_ascii h, List.map_map, List.map_map]
  exact List.map_congr_left fun b hb => (lowerByte_toUpper (h b hb)).symm

/-- **What has the key of a name in ASCII has the name.** -/
theorem sameName_of_keyOf {name word : Bytes} (hname : ∀ b ∈ name, 0 < b ∧ b < 0x80)
    (h : keyOf word = keyOf name) : sameName word name = true := by
  have hbelow : ∀ b ∈ name, b < 0x80 := fun b hb => (hname b hb).2
  have hcharacter : ∀ b : UInt8, 0 < b ∧ b < 0x80 → Text.IsAscii (Char.ofNat b.toNat) :=
    forall_of_fin (by decide +kernel)
  have hchars : (Utf8.decode word).map Char.toUpper = (Utf8.decode name).map Char.toUpper := by
    rw [← toList_keyOf, ← toList_keyOf, h]
  have hascii : ∀ c ∈ Utf8.decode word, Text.IsAscii c := by
    intro c hc
    have hraised : c.toUpper ∈ (Utf8.decode name).map Char.toUpper := by
      rw [← hchars]
      exact List.mem_map_of_mem hc
    obtain ⟨d, hd, hsame⟩ := List.mem_map.1 hraised
    rw [Utf8.decode_ascii hbelow] at hd
    obtain ⟨b, hb, rfl⟩ := List.mem_map.1 hd
    rw [← Text.isAscii_toUpper, ← hsame, Text.isAscii_toUpper]
    exact hcharacter b (hname b hb)
  have hword : ∀ b ∈ word, b < 0x80 := Utf8.lt_of_decode_ascii hascii
  rw [sameName_iff, lower_eq_of_ascii hword, lower_eq_of_ascii hbelow, h]

/-- **A word with a name** holds the letters of the name in some case, and no other bytes. -/
theorem forall_of_sameName {name word : Bytes} {P : UInt8 → Prop}
    (h : sameName word name = true) (hP : ∀ b, lowerByte b ∈ lower name → P b) :
    ∀ b ∈ word, P b := by
  intro b hb
  apply hP
  rw [← sameName_iff.1 h]
  exact List.mem_map_of_mem hb

theorem ne_nil_of_sameName {name word : Bytes} (h : sameName word name = true)
    (hname : name ≠ []) : word ≠ [] := by
  rintro rfl
  exact hname (List.map_eq_nil_iff.1 (sameName_iff.1 h).symm)

end Bytes
end ImapWire
