/-
  What stands between quotes.

  A server need not write a string as plainly as `Quoted.write` does: a backslash that takes away no
  meaning stands for itself and need not be protected.  `Quoted.Spelled text bs` says by rules which
  bytes a text between quotes means, and reading follows these rules: the texts that are read up to
  a quote are those that mean something, and what they mean is what is read (`read_eq_some_iff`).
-/
import ImapWire.Token.Quoted

namespace ImapWire.Quoted

/-- What a text between quotes means. -/
inductive Spelled : Bytes → Bytes → Prop
  | nil : Spelled [] []
  /-- A backslash takes away the meaning of the byte behind it. -/
  | escaped {c : UInt8} {text bs : Bytes} (hc : isSpecial c = true) (h : Spelled text bs) :
      Spelled (Bytes.backslash :: c :: text) (c :: bs)
  /-- Before a byte without one it stands for itself. -/
  | backslash {c : UInt8} {text bs : Bytes} (hc : isSpecial c = false) (h : Spelled (c :: text) bs) :
      Spelled (Bytes.backslash :: c :: text) (Bytes.backslash :: bs)
  | byte {b : UInt8} {text bs : Bytes} (hb : isSpecial b = false) (h : Spelled text bs) :
      Spelled (b :: text) (b :: bs)

/-! ## One step of a reader -/

theorem read_quote (rest : Bytes) : read (Bytes.quote :: rest) = some ⟨[], 1, rest⟩ := by
  cases rest <;> simp [read]

/-- A backslash that takes away the meaning of the byte behind it. -/
theorem read_escape {c : UInt8} (hc : isSpecial c = true) (rest : Bytes) :
    read (Bytes.backslash :: c :: rest) = (read rest).map (Reading.push c 2) := by
  have hne : Bytes.backslash ≠ Bytes.quote := by decide
  simp [read, hne, hc]

/-- Any other byte stands for itself. -/
theorem read_byte {b : UInt8} (hquote : b ≠ Bytes.quote) {rest : Bytes}
    (hplain : b = Bytes.backslash → ∀ c ∈ rest.head?, isSpecial c = false) :
    read (b :: rest) = (read rest).map (Reading.push b 1) := by
  cases rest with
  | nil => simp [read, hquote]
  | cons c rest =>
    have hnot : ¬ (b = Bytes.backslash ∧ isSpecial c = true) := by
      rintro ⟨hb, hc⟩
      rw [hplain hb c rfl] at hc
      cases hc
    rw [read, if_neg hquote, if_neg hnot]

/-! ## Whole strings -/

/-- **A text with a meaning** is read as it, up to the quote behind it. -/
theorem Spelled.read_eq {text bs : Bytes} (h : Spelled text bs) (rest : Bytes) :
    read (text ++ Bytes.quote :: rest) = some ⟨bs, text.length + 1, rest⟩ := by
  induction h with
  | nil => exact read_quote rest
  | escaped hc h ih =>
    show read (Bytes.backslash :: _ :: (_ ++ _)) = _
    rw [read_escape hc, ih]
    rfl
  | @backslash c text bs hc h ih =>
    have hplain : Bytes.backslash = Bytes.backslash →
        ∀ d ∈ (c :: text ++ Bytes.quote :: rest).head?, isSpecial d = false := by
      rintro - d ⟨⟩
      exact hc
    show read (Bytes.backslash :: (c :: text ++ Bytes.quote :: rest)) = _
    rw [read_byte (by decide) hplain, ih]
    rfl
  | @byte b text bs hb h ih =>
    obtain ⟨hquote, hbackslash⟩ : b ≠ Bytes.quote ∧ b ≠ Bytes.backslash := by
      simpa [isSpecial] using hb
    rw [List.cons_append, read_byte hquote fun hb => absurd hb hbackslash, ih]
    rfl

/-- **Exactly the texts with a meaning** are read. -/
theorem read_eq_some_iff {input : Bytes} {r : Reading} :
    read input = some r ↔
      ∃ text, input = text ++ Bytes.quote :: r.rest ∧ Spelled text r.bytes ∧
        r.size = text.length + 1 := by
  constructor
  · intro h
    fun_induction read input generalizing r with
    | case1 => cases h
    | case2 =>
      cases h
      exact ⟨[], rfl, .nil, rfl⟩
    | case3 => cases h
    | case4 c rest =>
      cases h
      exact ⟨[], rfl, .nil, rfl⟩
    | case5 b c rest hb hescaped ih =>
      obtain ⟨r', hr', rfl⟩ := Option.map_eq_some_iff.1 h
      obtain ⟨text, rfl, htext, hsize⟩ := ih hr'
      obtain ⟨rfl, hc⟩ := hescaped
      exact ⟨_, rfl, .escaped hc htext, congrArg (· + 2) hsize⟩
    | case6 b c rest hb hescaped ih =>
      obtain ⟨r', hr', rfl⟩ := Option.map_eq_some_iff.1 h
      obtain ⟨text, htail, htext, hsize⟩ := ih hr'
      refine ⟨b :: text, congrArg (b :: ·) htail, ?_, congrArg (· + 1) hsize⟩
      by_cases hbackslash : b = Bytes.backslash
      · subst hbackslash
        have hc : isSpecial c = false := Bool.eq_false_iff.2 fun hc => hescaped ⟨rfl, hc⟩
        cases text with
        | nil =>
          -- a quote behind the backslash would have closed nothing
          obtain rfl : c = Bytes.quote := (List.cons.inj htail).1
          cases hc
        | cons d text =>
          obtain rfl : c = d := (List.cons.inj htail).1
          exact .backslash hc htext
      · exact .byte (by simp [isSpecial, hb, hbackslash]) htext
  · rintro ⟨text, rfl, htext, hsize⟩
    rw [htext.read_eq, ← hsize]

/-- What is behind a quoted string is behind the bytes used. -/
theorem rest_eq_drop {bs : Bytes} {r : Reading} (h : read bs = some r) : r.rest = bs.drop r.size := by
  obtain ⟨text, rfl, -, hsize⟩ := read_eq_some_iff.1 h
  rw [hsize, ← List.drop_drop, List.drop_left]
  rfl

theorem Spelled.length_le {text bs : Bytes} (h : Spelled text bs) : bs.length ≤ text.length := by
  induction h with
  | nil => exact Nat.le_refl 0
  | escaped hc h ih => exact Nat.succ_le_succ (Nat.le_succ_of_le ih)
  | backslash hc h ih => exact Nat.succ_le_succ ih
  | byte hb h ih => exact Nat.succ_le_succ ih

/-- What a quoted string holds is no longer than its spelling. -/
theorem length_bytes_le {bs : Bytes} {r : Reading} (h : read bs = some r) :
    r.bytes.length ≤ r.size := by
  obtain ⟨text, -, htext, hsize⟩ := read_eq_some_iff.1 h
  have hle := htext.length_le
  omega

/-- A protected string means what it was. -/
theorem spelled_protect (bs : Bytes) : Spelled (protect bs) bs := by
  induction bs with
  | nil => exact .nil
  | cons b bs ih =>
    unfold protect
    split
    · next hb => exact .escaped hb ih
    · next hb => exact .byte (Bool.eq_false_iff.2 hb) ih

end ImapWire.Quoted
