/-
  The words of a response line, as a scan sees them.

  The start of a response line is cut at spaces before any token is read.  A scan cuts elsewhere,
  too: at brackets, quotes and other blanks.  But a word that holds none of these is one atom to it,
  since a space follows the word or nothing does (`Yields.word`).

  Which words are such atoms, and what an atom means to a reader of trees, is known of the two sorts
  that stand in front of the data of a message:

    * a number (`ServerData.number?`) is an integer, and as a number of 32 bits it is the same one
      (`ofAtom_of_number?`, `number32_of_number?`);
    * a word known by the name `FETCH` is a byte string with that name, in some case
      (`ofAtom_of_fetch`).
-/
import ImapWire.Proofs.Text.Ascii
import ImapWire.Proofs.Tree.Spelling
import ImapWire.Response.Read

namespace ImapWire

open Bytes (isBlank isDelimiter)

/-! ## Places of a line -/

namespace Place

/-- Is a byte of the line, with the bytes ahead of it. -/
def On (line : Bytes) (p : Place) : Prop := p.rest = line.drop p.pos

theorem on_ofLine (line : Bytes) (pos : Nat) : (ofLine line pos).On line := rfl

theorem On.skip {line : Bytes} {p : Place} (h : p.On line) (skipped : UInt8 → Bool) :
    (p.skip skipped).On line := by
  show p.rest.dropWhile skipped = line.drop (p.pos + (p.rest.takeWhile skipped).length)
  rw [← List.drop_drop, ← h]
  have hdrop : (p.rest.takeWhile skipped ++ p.rest.dropWhile skipped).drop
      (p.rest.takeWhile skipped).length = p.rest.dropWhile skipped := List.drop_left
  rw [List.takeWhile_append_dropWhile] at hdrop
  exact hdrop.symm

theorem On.word {line : Bytes} {p : Place} (h : p.On line) : p.word.2.On line :=
  (h.skip _).skip _

/-- In front of the bytes ahead there are spaces, and then the word and what is behind it. -/
theorem rest_eq (p : Place) :
    p.rest = p.rest.takeWhile (· == Bytes.space) ++ (p.word.1 ++ p.word.2.rest) := by
  show p.rest = _ ++ (p.skipSpaces.rest.takeWhile (· != Bytes.space)
    ++ p.skipSpaces.rest.dropWhile (· != Bytes.space))
  rw [List.takeWhile_append_dropWhile]
  exact List.takeWhile_append_dropWhile.symm

/-- A word ends at a space, or at the end of the line. -/
theorem cut_word (p : Place) : Cut p.word.2.rest := by
  intro b hb
  have hspace := List.head?_dropWhile_not (· != Bytes.space) p.skipSpaces.rest
  have hhead : (p.skipSpaces.rest.dropWhile (· != Bytes.space)).head? = some b := hb
  rw [hhead] at hspace
  obtain rfl : b = Bytes.space := by simpa using hspace
  rfl

end Place

namespace Yields

variable {rest : Bytes} {chunk : Chunk} {later : List Chunk} {toks : List Token}

theorem blanks {bs : Bytes} (hbs : ∀ b ∈ bs, isBlank b = true)
    (h : Yields rest (chunk :: later) toks) : Yields (bs ++ rest) (chunk :: later) toks := by
  induction bs with
  | nil => exact h
  | cons b bs ih =>
    obtain ⟨hb, hall⟩ := List.forall_mem_cons.1 hbs
    exact blank hb (ih hall)

/-- **A word that is a run** is the next atom. -/
theorem word {p : Place} (hrun : IsRun p.word.1) (h : Yields p.word.2.rest (chunk :: later) toks) :
    Yields p.rest (chunk :: later) (.atom p.word.1 :: toks) := by
  have hspaces : ∀ b ∈ p.rest.takeWhile (· == Bytes.space), isBlank b = true := by
    intro b hb
    have hspace := List.all_eq_true.1 List.all_takeWhile b hb
    obtain rfl : b = Bytes.space := by simpa using hspace
    rfl
  rw [p.rest_eq]
  exact blanks hspaces (atom hrun.ne_nil hrun.not_delimiter hrun.not_marker p.cut_word h)

end Yields

/-! ## Words that are numbers -/

namespace Decimal

/-- It is the canonical text of its value, as long as that has 64 bits. -/
theorem int?_of_isPlain {bs : Bytes} (h : isPlain bs = true) (hsize : value bs < signedSize) :
    int? bs = some (Int64.ofInt (value bs)) := by
  have hminus : bs.head? ≠ some Bytes.minus := by
    intro hhead
    have hdigit := (isPlain_spec h).2 _ (List.mem_of_head? hhead)
    exact absurd hdigit (by decide)
  have hcanonical : isCanonical bs = true := by
    unfold isCanonical
    rw [if_neg hminus, h]
  have hvalue : signedValue bs = (value bs : Int) := if_neg hminus
  rw [int?_eq, hvalue, if_pos ⟨hcanonical, by omega, by omega⟩]

end Decimal

theorem IsRun.of_isPlain {bs : Bytes} (h : Decimal.isPlain bs = true) : IsRun bs := by
  obtain ⟨hne, hall⟩ := Decimal.isPlain_spec h
  exact ⟨hne, fun b hb => (Bytes.isDigit_spec (hall b hb)).1,
    Marker.inner?_eq_none fun b hb => (Bytes.isDigit_spec (hall b hb)).2.1⟩

namespace ServerData

variable {word : Bytes} {n : UInt32}

theorem number?_spec (h : number? word = some n) :
    Decimal.isPlain word = true ∧ Decimal.value word < UInt32.size ∧
      n = UInt32.ofNat (Decimal.value word) := by
  obtain ⟨m, hm, hn⟩ := Option.map_eq_some_iff.1 h
  split at hm
  · next hplain =>
    obtain ⟨hvalue, hlt⟩ := Decimal.natBelow?_eq_some.1 hm
    unfold Decimal.nat? at hvalue
    split at hvalue
    · cases hvalue
      exact ⟨hplain, hlt, hn.symm⟩
    · cases hvalue
  · cases hm

/-- A word that holds anything but digits is no number. -/
theorem number?_eq_none {b : UInt8} (hb : b ∈ word) (hdigit : Bytes.isDigit b = false) :
    number? word = none := by
  cases hnumber : number? word with
  | none => rfl
  | some n =>
    obtain ⟨hplain, -, -⟩ := number?_spec hnumber
    have hall := (Decimal.isPlain_spec hplain).2 b hb
    rw [hdigit] at hall
    cases hall

/-- **A number word** means an integer. -/
theorem ofAtom_of_number? (h : number? word = some n) :
    Tree.ofAtom word = .int (Int64.ofInt (Decimal.value word)) := by
  obtain ⟨hplain, hlt, -⟩ := number?_spec h
  obtain ⟨hne, hall⟩ := Decimal.isPlain_spec hplain
  have hname : Bytes.sameName word Tree.nilWord = false := by
    -- the first byte is a digit, and no `n`
    obtain ⟨b, bs, rfl⟩ := List.exists_cons_of_ne_nil hne
    rw [← Bool.not_eq_true, Bytes.sameName_iff]
    intro hlower
    exact (Bytes.isDigit_spec (hall b List.mem_cons_self)).2.2 (List.cons.inj hlower).1
  have hsize : Decimal.value word < Decimal.signedSize :=
    Nat.lt_trans hlt (by decide)
  unfold Tree.ofAtom
  rw [hname, Decimal.int?_of_isPlain hplain hsize]
  rfl

/-- That integer is the number. -/
theorem number32_of_number? (h : number? word = some n) (role : String) :
    (Value.int (Int64.ofInt (Decimal.value word))).number32 role = .ok n := by
  obtain ⟨-, hlt, hn⟩ := number?_spec h
  have hvalue : (Int64.ofInt (Decimal.value word)).toInt = (Decimal.value word : Int) := by
    apply Int64.toInt_ofInt_of_le
    · have hzero : (0 : Int) ≤ Decimal.value word := Int.natCast_nonneg _
      exact Int.le_trans (by decide) hzero
    · have hbound : (Decimal.value word : Int) < UInt32.size := Int.ofNat_lt.2 hlt
      exact Int.lt_trans hbound (by decide)
  have hbelow : (Value.int (Int64.ofInt (Decimal.value word))).natBelow? UInt32.size
      = some (Decimal.value word) := by
    simp only [Value.natBelow?]
    rw [hvalue, if_pos ⟨Int.natCast_nonneg _, Int.ofNat_lt.2 hlt⟩, Int.toNat_natCast]
  unfold Value.number32
  rw [hbelow, hn]

end ServerData

/-! ## The name of fetch data -/

namespace FetchRecord

/-- The name of the data of a message. -/
def fetchWord : Bytes := Bytes.ofString "FETCH"

theorem sameName_of_keyOf_fetch {word : Bytes} (h : keyOf word = "FETCH") :
    Bytes.sameName word fetchWord = true := by
  have hall : fetchWord.all (fun b => 0 < b ∧ b < 0x80) = true := by decide
  have hascii : ∀ b ∈ fetchWord, 0 < b ∧ b < 0x80 := fun b hb =>
    of_decide_eq_true (List.all_eq_true.1 hall b hb)
  have hkey : keyOf fetchWord = "FETCH" := by decide +kernel
  exact Bytes.sameName_of_keyOf hascii (h.trans hkey.symm)

/-- The name is made of letters, in any case. -/
theorem letter_of_fetch {word : Bytes} (h : Bytes.sameName word fetchWord = true) :
    word ≠ [] ∧ ∀ b ∈ word, isDelimiter b = false ∧ b ≠ Bytes.openBrace ∧ b ≠ Bytes.minus ∧
      Bytes.isDigit b = false :=
  ⟨Bytes.ne_nil_of_sameName h (by decide),
    Bytes.forall_of_sameName h (Bytes.forall_of_fin (by decide +kernel))⟩

theorem isRun_fetch {word : Bytes} (h : Bytes.sameName word fetchWord = true) : IsRun word := by
  obtain ⟨hne, hall⟩ := letter_of_fetch h
  exact ⟨hne, fun b hb => (hall b hb).1, Marker.inner?_eq_none fun b hb => (hall b hb).2.1⟩

/-- **The name** means itself, as it is written. -/
theorem ofAtom_of_fetch {word : Bytes} (h : Bytes.sameName word fetchWord = true) :
    Tree.ofAtom word = .bytes word := by
  have hname : Bytes.sameName word Tree.nilWord = false := by
    rw [← Bool.not_eq_true, Bytes.sameName_iff, Bytes.sameName_iff.1 h]
    decide
  obtain ⟨hne, hall⟩ := letter_of_fetch h
  have hcanonical : Decimal.isCanonical word = false := by
    obtain ⟨b, bs, rfl⟩ := List.exists_cons_of_ne_nil hne
    obtain ⟨-, -, hminus, hdigit⟩ := hall b List.mem_cons_self
    simp [Decimal.isCanonical, Decimal.isPlain, Decimal.isNumber, hminus, hdigit]
  unfold Tree.ofAtom Decimal.int?
  rw [hname, hcanonical]
  rfl

end FetchRecord

end ImapWire
