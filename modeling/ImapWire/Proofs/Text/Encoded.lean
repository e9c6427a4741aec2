/-
  Text that was encoded is read back.

  A text is written as the UTF-8 form of its characters, one after the other, and reading gives the
  characters again (`Utf8.decode_ofChars`).  It is enough to look at one character in front of any
  bytes (`decode_encodeChar`): its first byte says how many bytes there are and in which range the
  second one must lie, and all of them together give back its number.  The ranges fit every
  character: what they keep out are overlong forms, surrogates and numbers past the last character,
  and no character has such a number (`Char.number_range`).

  A character is one byte in ASCII, and otherwise bytes above it alone
  (`Bytes.ascii_of_mem_encodeChar`).  So a byte of ASCII that is found in an encoded text stands for
  its character.
-/
import ImapWire.Text.Utf8

namespace ImapWire

/-- No character has the number of a surrogate, or one past the last character. -/
theorem Char.number_range (c : Char) :
    c.toNat < 0xD800 ∨ (0xDFFF < c.toNat ∧ c.toNat < 0x110000) := c.valid

namespace Utf8

/-! ## One byte -/

/-- A first byte with one more to come. -/
theorem first_two {n : Nat} (hlow : 0xC2 ≤ n) (hhigh : n < 0xE0) :
    first (UInt8.ofNat n) = ([], some ⟨n - 0xC0, 1, 0x80, 0xBF⟩) := by
  have hall : ∀ n : Fin 256, 0xC2 ≤ n.val → n.val < 0xE0 →
      first (UInt8.ofNat n) = ([], some ⟨n - 0xC0, 1, 0x80, 0xBF⟩) := by decide +kernel
  exact hall ⟨n, by omega⟩ hlow hhigh

/-- A first byte with two more to come. -/
theorem first_three {n : Nat} (hlow : 0xE0 ≤ n) (hhigh : n < 0xF0) :
    first (UInt8.ofNat n) = ([], some ⟨n - 0xE0, 2, if n = 0xE0 then 0xA0 else 0x80,
      if n = 0xED then 0x9F else 0xBF⟩) := by
  have hall : ∀ n : Fin 256, 0xE0 ≤ n.val → n.val < 0xF0 →
      first (UInt8.ofNat n) = ([], some ⟨n - 0xE0, 2, if n.val = 0xE0 then 0xA0 else 0x80,
        if n.val = 0xED then 0x9F else 0xBF⟩) := by decide +kernel
  exact hall ⟨n, by omega⟩ hlow hhigh

/-- A first byte with three more to come. -/
theorem first_four {n : Nat} (hlow : 0xF0 ≤ n) (hhigh : n < 0xF5) :
    first (UInt8.ofNat n) = ([], some ⟨n - 0xF0, 3, if n = 0xF0 then 0x90 else 0x80,
      if n = 0xF4 then 0x8F else 0xBF⟩) := by
  have hall : ∀ n : Fin 256, 0xF0 ≤ n.val → n.val < 0xF5 →
      first (UInt8.ofNat n) = ([], some ⟨n - 0xF0, 3, if n.val = 0xF0 then 0x90 else 0x80,
        if n.val = 0xF4 then 0x8F else 0xBF⟩) := by decide +kernel
  exact hall ⟨n, by omega⟩ hlow hhigh

variable {p : Pending} {n : Nat}

/-- A byte in the range of a begun sequence gives six more bits. -/
theorem step_begun (hn : n < 0x40) (hlow : p.low.toNat ≤ n + 0x80) (hhigh : n + 0x80 ≤ p.high.toNat) :
    step (some p) (UInt8.ofNat (n + 0x80)) =
      if p.more = 1 then ([Char.ofNat (p.bits * 0x40 + n)], none)
      else ([], some ⟨p.bits * 0x40 + n, p.more - 1, 0x80, 0xBF⟩) := by
  have hvalue : (UInt8.ofNat (n + 0x80)).toNat = n + 0x80 :=
    UInt8.toNat_ofNat_of_lt (by show n + 0x80 < 256; omega)
  have hrange : p.low ≤ UInt8.ofNat (n + 0x80) ∧ UInt8.ofNat (n + 0x80) ≤ p.high := by
    rw [UInt8.le_iff_toNat_le, UInt8.le_iff_toNat_le, hvalue]
    exact ⟨hlow, hhigh⟩
  unfold step
  simp only [hrange, and_self, if_true, hvalue, Nat.add_sub_cancel]

/-- One more byte of a sequence that is not complete with it. -/
theorem decodeFrom_more {bits more : Nat} {low high : UInt8} (hn : n < 0x40)
    (hlow : low.toNat ≤ n + 0x80) (hhigh : n + 0x80 ≤ high.toNat) (rest : Bytes) :
    decodeFrom (some ⟨bits, more + 2, low, high⟩) (UInt8.ofNat (n + 0x80) :: rest) =
      decodeFrom (some ⟨bits * 0x40 + n, more + 1, 0x80, 0xBF⟩) rest := by
  have hmore : ¬ more + 2 = 1 := by omega
  rw [decodeFrom_cons, step_begun hn hlow hhigh, if_neg hmore]
  rfl

/-- The last byte of a sequence. -/
theorem decodeFrom_last {bits : Nat} (hn : n < 0x40) (rest : Bytes) :
    decodeFrom (some ⟨bits, 1, 0x80, 0xBF⟩) (UInt8.ofNat (n + 0x80) :: rest) =
      Char.ofNat (bits * 0x40 + n) :: decode rest := by
  have hlow : (0x80 : UInt8).toNat ≤ n + 0x80 := Nat.le_add_left _ _
  have hhigh : n + 0x80 ≤ (0xBF : UInt8).toNat := by show n + 0x80 ≤ 191; omega
  rw [decodeFrom_cons, step_begun hn hlow hhigh]
  rfl

/-! ## One character -/

/-- Two bytes: six bits of the number in the second one. -/
theorem decode_two {v : Nat} (hlow : 0x80 ≤ v) (hhigh : v < 0x800) (rest : Bytes) :
    decode (UInt8.ofNat (v / 64 % 32 + 192) :: UInt8.ofNat (v % 64 + 128) :: rest)
      = Char.ofNat v :: decode rest := by
  have hbits : (v / 64 % 32 + 192 - 0xC0) * 0x40 + v % 64 = v := by omega
  show decodeFrom none _ = _
  rw [decodeFrom_cons]
  show (first _).1 ++ decodeFrom (first _).2 _ = _
  rw [first_two (by omega) (by omega), List.nil_append, decodeFrom_last (by omega), hbits]

/-- Three bytes, of a number that is not that of a surrogate. -/
theorem decode_three {v : Nat} (hlow : 0x800 ≤ v) (hhigh : v < 0x10000)
    (hsurrogate : v < 0xD800 ∨ 0xDFFF < v) (rest : Bytes) :
    decode (UInt8.ofNat (v / 4096 % 16 + 224) :: UInt8.ofNat (v / 64 % 64 + 128)
      :: UInt8.ofNat (v % 64 + 128) :: rest) = Char.ofNat v :: decode rest := by
  have hbits : ((v / 4096 % 16 + 224 - 0xE0) * 0x40 + v / 64 % 64) * 0x40 + v % 64 = v := by
    omega
  show decodeFrom none _ = _
  rw [decodeFrom_cons]
  show (first _).1 ++ decodeFrom (first _).2 _ = _
  rw [first_three (by omega) (by omega), List.nil_append, decodeFrom_more (by omega),
    decodeFrom_last (by omega), hbits]
  · -- no overlong form
    show (if _ then (0xA0 : UInt8) else 0x80).toNat ≤ _
    split
    · show 160 ≤ _
      omega
    · show 128 ≤ _
      omega
  · -- no surrogate
    show _ ≤ (if _ then (0x9F : UInt8) else 0xBF).toNat
    split
    · show _ ≤ 159
      omega
    · show _ ≤ 191
      omega

/-- Four bytes, up to the last character. -/
theorem decode_four {v : Nat} (hlow : 0x10000 ≤ v) (hhigh : v < 0x110000) (rest : Bytes) :
    decode (UInt8.ofNat (v / 262144 % 8 + 240) :: UInt8.ofNat (v / 4096 % 64 + 128)
      :: UInt8.ofNat (v / 64 % 64 + 128) :: UInt8.ofNat (v % 64 + 128) :: rest)
      = Char.ofNat v :: decode rest := by
  have hbits : (((v / 262144 % 8 + 240 - 0xF0) * 0x40 + v / 4096 % 64) * 0x40 + v / 64 % 64)
      * 0x40 + v % 64 = v := by omega
  show decodeFrom none _ = _
  rw [decodeFrom_cons]
  show (first _).1 ++ decodeFrom (first _).2 _ = _
  rw [first_four (by omega) (by omega), List.nil_append, decodeFrom_more (by omega),
    decodeFrom_more (by omega), decodeFrom_last (by omega), hbits]
  · show 128 ≤ _
    omega
  · show _ ≤ 191
    omega
  · -- no overlong form
    show (if _ then (0x90 : UInt8) else 0x80).toNat ≤ _
    split
    · show 144 ≤ _
      omega
    · show 128 ≤ _
      omega
  · -- nothing past the last character
    show _ ≤ (if _ then (0x8F : UInt8) else 0xBF).toNat
    split
    · show _ ≤ 143
      omega
    · show _ ≤ 191
      omega

/-- **A character in front of any bytes.** -/
theorem decode_encodeChar (c : Char) (rest : Bytes) :
    decode (String.utf8EncodeChar c ++ rest) = c :: decode rest := by
  have hnumber : Char.ofNat c.toNat = c := Char.ofNat_toNat c
  have hrange := Char.number_range c
  have hval : c.val.toNat = c.toNat := rfl
  unfold String.utf8EncodeChar
  rw [hval]
  generalize c.toNat = v at *
  dsimp only
  rw [← hnumber]
  split
  · next hone =>
    have hvalue : (UInt8.ofNat v).toNat = v := UInt8.toNat_ofNat_of_lt (by show v < 256; omega)
    have hascii : UInt8.ofNat v < 0x80 := by
      rw [UInt8.lt_iff_toNat_lt, hvalue]
      show v < 128
      omega
    rw [List.singleton_append, decode_cons_ascii hascii, hvalue]
  · split
    · exact decode_two (by omega) (by omega) rest
    · split
      · exact decode_three (by omega) (by omega) (by omega) rest
      · exact decode_four (by omega) (by omega) rest

/-! ## Whole texts -/

/-- **Encoded characters are read back.** -/
theorem decode_ofChars (cs : List Char) : decode (Bytes.ofChars cs) = cs := by
  induction cs with
  | nil => rfl
  | cons c cs ih => rw [Bytes.ofChars_cons, decode_encodeChar, ih]

end Utf8

namespace Bytes

/-- **An encoded text is read back.** -/
theorem text_ofString (s : String) : (ofString s).text = s := by
  apply String.toList_inj.1
  rw [toList_text]
  exact Utf8.decode_ofChars s.toList

/-- A byte of ASCII in the form of a character is that character. -/
theorem ascii_of_mem_encodeChar {c : Char} {b : UInt8} (hb : b < 0x80)
    (h : b ∈ String.utf8EncodeChar c) : String.utf8EncodeChar c = [b] ∧ c = Char.ofNat b.toNat := by
  have hlt : b.toNat < 128 := UInt8.lt_iff_toNat_lt.1 hb
  have hnumber : Char.ofNat c.toNat = c := Char.ofNat_toNat c
  have hrange := Char.number_range c
  have hval : c.val.toNat = c.toNat := rfl
  -- the bytes of a longer form are `0x80` or more
  have hhigh : ∀ n, 0x80 ≤ n → n < 0x100 → b ≠ UInt8.ofNat n := by
    rintro n hleast hmost rfl
    have hvalue : (UInt8.ofNat n).toNat = n := UInt8.toNat_ofNat_of_lt hmost
    omega
  unfold String.utf8EncodeChar at h ⊢
  rw [hval] at h ⊢
  dsimp only at h ⊢
  split at h
  · next hone =>
    obtain rfl := List.mem_singleton.1 h
    have hvalue : (UInt8.ofNat c.toNat).toNat = c.toNat :=
      UInt8.toNat_ofNat_of_lt (by show c.toNat < 256; omega)
    rw [if_pos hone, hvalue, hnumber]
    exact ⟨rfl, rfl⟩
  · exfalso
    split at h
    · rcases List.mem_cons.1 h with h | h
      · exact hhigh _ (by omega) (by omega) h
      · exact hhigh _ (by omega) (by omega) (List.mem_singleton.1 h)
    · split at h
      · rcases List.mem_cons.1 h with h | h
        · exact hhigh _ (by omega) (by omega) h
        · rcases List.mem_cons.1 h with h | h
          · exact hhigh _ (by omega) (by omega) h
          · exact hhigh _ (by omega) (by omega) (List.mem_singleton.1 h)
      · rcases List.mem_cons.1 h with h | h
        · exact hhigh _ (by omega) (by omega) h
        · rcases List.mem_cons.1 h with h | h
          · exact hhigh _ (by omega) (by omega) h
          · rcases List.mem_cons.1 h with h | h
            · exact hhigh _ (by omega) (by omega) h
            · exact hhigh _ (by omega) (by omega) (List.mem_singleton.1 h)

theorem encodeChar_ne_nil (c : Char) : String.utf8EncodeChar c ≠ [] := by
  intro hnil
  have hlength : 0 = c.utf8Size := by
    rw [← String.length_utf8EncodeChar, hnil]
    rfl
  exact absurd c.utf8Size_pos (by omega)

/-- A character of ASCII is its own byte. -/
theorem encodeChar_of_ascii {c : Char} (h : c.toNat < 0x80) :
    String.utf8EncodeChar c = [UInt8.ofNat c.toNat] := by
  have hval : c.val.toNat = c.toNat := rfl
  unfold String.utf8EncodeChar
  rw [hval]
  exact if_pos (by omega)

theorem toNat_ofByte {b : UInt8} (hb : b < 0x80) : (Char.ofNat b.toNat).toNat = b.toNat := by
  have hlt : b.toNat < 128 := UInt8.lt_iff_toNat_lt.1 hb
  have hvalid : b.toNat.isValidChar := Or.inl (by omega)
  rw [Char.ofNat, dif_pos hvalid]
  rfl

/-- A byte of ASCII in an encoded text is one of its characters. -/
theorem mem_ofChars_iff {cs : List Char} {b : UInt8} (hb : b < 0x80) :
    b ∈ ofChars cs ↔ Char.ofNat b.toNat ∈ cs := by
  constructor
  · intro h
    obtain ⟨c, hc, hbc⟩ := List.mem_flatMap.1 h
    obtain ⟨-, rfl⟩ := ascii_of_mem_encodeChar hb hbc
    exact hc
  · intro h
    have hlt : b.toNat < 128 := UInt8.lt_iff_toNat_lt.1 hb
    refine List.mem_flatMap.2 ⟨_, h, ?_⟩
    rw [encodeChar_of_ascii (by rw [toNat_ofByte hb]; exact hlt), toNat_ofByte hb,
      UInt8.ofNat_toNat]
    exact List.mem_singleton.2 rfl

/-- A byte of ASCII in front of an encoded text is its first character. -/
theorem head?_of_head?_ofChars {cs : List Char} {b : UInt8} (hb : b < 0x80)
    (h : (ofChars cs).head? = some b) : cs.head? = some (Char.ofNat b.toNat) := by
  cases cs with
  | nil => cases h
  | cons c cs =>
    obtain ⟨d, ds, hfirst⟩ := List.exists_cons_of_ne_nil (encodeChar_ne_nil c)
    have hd : d ∈ String.utf8EncodeChar c := by
      rw [hfirst]
      exact List.mem_cons_self
    rw [ofChars_cons, hfirst] at h
    obtain rfl : d = b := Option.some.inj h
    obtain ⟨-, rfl⟩ := ascii_of_mem_encodeChar hb hd
    rfl

theorem head?_ofString_ne {s : String} {b : UInt8} (hb : b < 0x80)
    (h : s.toList.head? ≠ some (Char.ofNat b.toNat)) : (ofString s).head? ≠ some b :=
  fun hhead => h (head?_of_head?_ofChars hb hhead)

theorem ofString_injective {s t : String} (h : ofString s = ofString t) : s = t := by
  rw [← text_ofString s, h, text_ofString t]

/-- **A class of ASCII** is the same for bytes and for characters. -/
theorem all_ofChars {p : UInt8 → Bool} {q : Char → Bool} (hp : ∀ b, p b = true → b < 0x80)
    (hq : ∀ c, q c = true ↔ c.toNat < 0x80 ∧ p (UInt8.ofNat c.toNat) = true) (cs : List Char) :
    (ofChars cs).all p = cs.all q := by
  have hchar : ∀ c, (String.utf8EncodeChar c).all p = q c := by
    intro c
    by_cases hascii : c.toNat < 0x80
    · rw [encodeChar_of_ascii hascii, Bool.eq_iff_iff, hq]
      simp [hascii]
    · have hnot : q c = false := by
        rw [← Bool.not_eq_true, hq]
        exact fun h => hascii h.1
      -- the bytes of such a character are above ASCII
      have hhigh : ∀ b ∈ String.utf8EncodeChar c, p b = false := by
        intro b hb
        rw [← Bool.not_eq_true]
        intro hpb
        obtain ⟨hone, rfl⟩ := ascii_of_mem_encodeChar (hp b hpb) hb
        have hlt : b.toNat < 128 := UInt8.lt_iff_toNat_lt.1 (hp b hpb)
        refine hascii ?_
        rw [toNat_ofByte (hp b hpb)]
        exact hlt
      obtain ⟨b, bs, hbytes⟩ := List.exists_cons_of_ne_nil (encodeChar_ne_nil c)
      have hb : p b = false := hhigh b (by rw [hbytes]; exact List.mem_cons_self)
      rw [hnot, hbytes, List.all_cons, hb]
      rfl
  induction cs with
  | nil => rfl
  | cons c cs ih => rw [ofChars_cons, List.all_append, hchar, ih, List.all_cons]

end Bytes

end ImapWire
