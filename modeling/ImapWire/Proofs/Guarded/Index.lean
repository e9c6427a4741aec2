/-
  Access by position.

  The readers of this library take lists apart, so nothing in them can be out of range.  A program
  that keeps its input in one piece reads it by position instead: by an index, a range of indices, a
  counter.  Each such access can fail, and the failure is no answer: it stops the program (`Trap`).

  The modules below this one write the readers out like that, position by position, and prove that
  they never fail and that they read the same.  This module has the accesses themselves (`Guarded`),
  and for each the condition under which it succeeds:

    * an element, a range, a part of a sequence;
    * a part of a text by its bytes, which must not cut through a character;
    * a counter that goes down, and a number that must fit in 32 bits.

  A position is mostly found by a search (`seek`), and what stands before it is a run of bytes that
  are not searched for (`seek_eq`, `between_run`).
-/
import ImapWire.Bytes

namespace ImapWire

/-- Why an access stops the program. -/
inductive Trap
  /-- An index that is not in the sequence. -/
  | index
  /-- A range that ends before its start, or past the end. -/
  | range
  /-- A part of a text that starts or ends inside a character. -/
  | boundary
  /-- A counter that goes below zero. -/
  | underflow
  /-- A number that does not fit in 32 bits. -/
  | overflow
  /-- The date of an envelope in a text that is written for a message. -/
  | date
  deriving DecidableEq, Repr

/-- What a program gives that can stop. -/
abbrev Guarded (α : Type) := Except Trap α

namespace Guarded

variable {α β : Type}

theorem ok_bind (x : α) (f : α → Guarded β) : (Except.ok x >>= f) = f x := rfl

/-! ## Sequences -/

/-- The element at an index. -/
def get (xs : List α) (i : Nat) : Guarded α :=
  match xs[i]? with
  | some x => .ok x
  | none => .error .index

/-- The elements from one index up to another. -/
def between (xs : List α) (i j : Nat) : Guarded (List α) :=
  if i ≤ j ∧ j ≤ xs.length then .ok ((xs.take j).drop i) else .error .range

/-- The elements from an index on. -/
def behind (xs : List α) (i : Nat) : Guarded (List α) := between xs i xs.length

/-- The elements up to an index. -/
def upTo (xs : List α) (i : Nat) : Guarded (List α) := between xs 0 i

/-- The elements up to an index, and those from it on. -/
def splitAt (xs : List α) (i : Nat) : Guarded (List α × List α) := do
  let front ← upTo xs i
  let back ← behind xs i
  .ok (front, back)

/-- Without the element at an index. -/
def remove (xs : List α) (i : Nat) : Guarded (List α) :=
  if i < xs.length then .ok (xs.eraseIdx i) else .error .index

/-- With two elements in each other's place. -/
def swap (xs : List α) (i j : Nat) : Guarded (List α) := do
  let a ← get xs i
  let b ← get xs j
  .ok ((xs.set i b).set j a)

theorem get_eq {xs : List α} {i : Nat} {x : α} (h : xs[i]? = some x) : get xs i = .ok x := by
  unfold get
  rw [h]

theorem between_eq {xs : List α} {i j : Nat} (hij : i ≤ j) (hj : j ≤ xs.length) :
    between xs i j = .ok ((xs.take j).drop i) := if_pos ⟨hij, hj⟩

theorem behind_eq {xs : List α} {i : Nat} (hi : i ≤ xs.length) : behind xs i = .ok (xs.drop i) := by
  rw [behind, between_eq hi (Nat.le_refl _), List.take_length]

theorem upTo_eq {xs : List α} {i : Nat} (hi : i ≤ xs.length) : upTo xs i = .ok (xs.take i) := by
  rw [upTo, between_eq (Nat.zero_le i) hi, List.drop_zero]

/-- A range that starts behind `front` and holds `inner`. -/
theorem between_append (front inner back : List α) :
    between (front ++ (inner ++ back)) front.length (front.length + inner.length) = .ok inner := by
  rw [between_eq (by omega) (by simp), List.take_length_add_append, List.drop_left,
    List.take_left]

theorem splitAt_append (front back : List α) :
    splitAt (front ++ back) front.length = .ok (front, back) := by
  have hle : front.length ≤ (front ++ back).length := by simp
  unfold splitAt
  rw [upTo_eq hle, behind_eq hle, List.take_left, List.drop_left]
  rfl

/-! ## Searches -/

/-- The position of the first byte of a class, where `ahead` are the bytes from `pos` on; the end of
    the line if there is none. -/
def seek (wanted : UInt8 → Bool) (line : Bytes) (pos : Nat) (ahead : Bytes) : Nat :=
  ((ahead.findIdx? wanted).map (pos + ·)).getD line.length

/-- The position of the last byte of a class. -/
def lastIdx? (wanted : UInt8 → Bool) (bs : Bytes) : Option Nat :=
  (bs.reverse.findIdx? wanted).map fun i => bs.length - (i + 1)

theorem findIdx?_eq (p : α → Bool) (xs : List α) :
    (xs.findIdx? p).getD xs.length = (xs.takeWhile fun x => !p x).length := by
  induction xs with
  | nil => rfl
  | cons x xs ih =>
    rw [List.findIdx?_cons, List.takeWhile_cons]
    cases hx : p x with
    | true => rfl
    | false =>
      cases hfind : xs.findIdx? p with
      | none =>
        rw [hfind] at ih
        simpa using ih
      | some i =>
        rw [hfind] at ih
        simpa using ih

/-- **A search** ends behind the bytes that are not searched for. -/
theorem seek_eq (wanted : UInt8 → Bool) {line : Bytes} {pos : Nat} (hpos : pos ≤ line.length) :
    seek wanted line pos (line.drop pos)
      = pos + ((line.drop pos).takeWhile fun b => !wanted b).length := by
  have hlength : (line.drop pos).length = line.length - pos := List.length_drop
  have hfind := findIdx?_eq wanted (line.drop pos)
  unfold seek
  cases hidx : (line.drop pos).findIdx? wanted with
  | none =>
    rw [hidx, Option.getD_none] at hfind
    show line.length = _
    omega
  | some i =>
    rw [hidx, Option.getD_some] at hfind
    show pos + i = _
    rw [hfind]

/-- **A run of bytes** from a position on. -/
theorem between_run (p : UInt8 → Bool) {line : Bytes} {pos : Nat} (hpos : pos ≤ line.length) :
    between line pos (pos + ((line.drop pos).takeWhile p).length)
      = .ok ((line.drop pos).takeWhile p) := by
  have hfront : (line.take pos).length = pos := List.length_take_of_le hpos
  have hsplit : line = line.take pos
      ++ ((line.drop pos).takeWhile p ++ (line.drop pos).dropWhile p) := by
    rw [List.takeWhile_append_dropWhile, List.take_append_drop]
  have hread := between_append (line.take pos) ((line.drop pos).takeWhile p)
    ((line.drop pos).dropWhile p)
  rwa [← hsplit, hfront] at hread

/-- Where the last byte of a class stands. -/
theorem lastIdx?_append (wanted : UInt8 → Bool) {b : UInt8} (hb : wanted b = true)
    (front : Bytes) {back : Bytes} (hback : ∀ c ∈ back, wanted c = false) :
    lastIdx? wanted (front ++ b :: back) = some front.length := by
  have hskip : (back.reverse ++ (b :: front.reverse)).findIdx? wanted = some back.length := by
    rw [List.findIdx?_append, List.findIdx?_eq_none_iff.2 (by simpa using hback)]
    simp [List.findIdx?_cons, hb]
  have hreverse : (front ++ b :: back).reverse = back.reverse ++ (b :: front.reverse) := by simp
  unfold lastIdx?
  rw [hreverse, hskip]
  simp only [Option.map_some, List.length_append, List.length_cons, Option.some.injEq]
  omega

theorem lastIdx?_eq_none {wanted : UInt8 → Bool} {bs : Bytes} (h : ∀ b ∈ bs, wanted b = false) :
    lastIdx? wanted bs = none := by
  unfold lastIdx?
  rw [List.findIdx?_eq_none_iff.2 (by simpa using h)]
  rfl

/-- There is a last byte of a class, or none. -/
theorem exists_last (wanted : UInt8 → Bool) (bs : Bytes) :
    (∀ b ∈ bs, wanted b = false) ∨
      ∃ front b back, bs = front ++ b :: back ∧ wanted b = true ∧
        ∀ c ∈ back, wanted c = false := by
  induction bs with
  | nil => exact Or.inl nofun
  | cons b bs ih =>
    rcases ih with hnone | ⟨front, d, back, rfl, hd, hback⟩
    · cases hb : wanted b with
      | false => exact Or.inl (List.forall_mem_cons.2 ⟨hb, hnone⟩)
      | true => exact Or.inr ⟨[], b, bs, rfl, hb, hnone⟩
    · exact Or.inr ⟨b :: front, d, back, rfl, hd, hback⟩

/-! ## Counters and numbers -/

/-- One less. -/
def pred : Nat → Guarded Nat
  | 0 => .error .underflow
  | n + 1 => .ok n

/-- A number of 32 bits. -/
def int32 (n : Int) : Guarded Int :=
  if -2147483648 ≤ n ∧ n < 2147483648 then .ok n else .error .overflow

theorem int32_eq {n : Int} (hlow : -2147483648 ≤ n) (hhigh : n < 2147483648) : int32 n = .ok n :=
  if_pos ⟨hlow, hhigh⟩

/-! ## Texts -/

/-- A text up to a byte. -/
def textUpTo : List Char → Nat → Guarded (List Char)
  | _, 0 => .ok []
  | [], _ + 1 => .error .range
  | c :: cs, n + 1 =>
    if c.utf8Size ≤ n + 1 then (textUpTo cs (n + 1 - c.utf8Size)).map (c :: ·)
    else .error .boundary

/-- A text from a byte on. -/
def textBehind : List Char → Nat → Guarded (List Char)
  | cs, 0 => .ok cs
  | [], _ + 1 => .error .range
  | c :: cs, n + 1 =>
    if c.utf8Size ≤ n + 1 then textBehind cs (n + 1 - c.utf8Size) else .error .boundary

/-- How many bytes a text has. -/
def textSize : List Char → Nat
  | [] => 0
  | c :: cs => c.utf8Size + textSize cs

/-- The byte at which a character stands first. -/
def findChar? (c : Char) : List Char → Option Nat
  | [] => none
  | d :: ds => if d = c then some 0 else (findChar? c ds).map (d.utf8Size + ·)

theorem textUpTo_cons (c : Char) (cs : List Char) (n : Nat) :
    textUpTo (c :: cs) (c.utf8Size + n) = (textUpTo cs n).map (c :: ·) := by
  have hpos := c.utf8Size_pos
  obtain ⟨m, hm⟩ : ∃ m, c.utf8Size + n = m + 1 := ⟨c.utf8Size + n - 1, by omega⟩
  rw [hm, textUpTo, if_pos (by omega), ← hm, Nat.add_sub_cancel_left]

theorem textBehind_cons (c : Char) (cs : List Char) (n : Nat) :
    textBehind (c :: cs) (c.utf8Size + n) = textBehind cs n := by
  have hpos := c.utf8Size_pos
  obtain ⟨m, hm⟩ : ∃ m, c.utf8Size + n = m + 1 := ⟨c.utf8Size + n - 1, by omega⟩
  rw [hm, textBehind, if_pos (by omega), ← hm, Nat.add_sub_cancel_left]

/-- **Whole characters** may be cut off in front. -/
theorem textUpTo_append (front back : List Char) :
    textUpTo (front ++ back) (textSize front) = .ok front := by
  induction front with
  | nil => cases back <;> rfl
  | cons c cs ih =>
    show textUpTo (c :: (cs ++ back)) (c.utf8Size + textSize cs) = _
    rw [textUpTo_cons, ih]
    rfl

theorem textBehind_append (front back : List Char) :
    textBehind (front ++ back) (textSize front) = .ok back := by
  induction front with
  | nil => cases back <;> rfl
  | cons c cs ih =>
    show textBehind (c :: (cs ++ back)) (c.utf8Size + textSize cs) = _
    rw [textBehind_cons, ih]

/-- A character is found where it stands. -/
theorem findChar?_eq (c : Char) (cs : List Char) :
    findChar? c cs = if c ∈ cs then some (textSize (cs.takeWhile (· != c))) else none := by
  induction cs with
  | nil => rfl
  | cons d ds ih =>
    unfold findChar?
    by_cases hd : d = c
    · subst hd
      simp [textSize]
    · rw [if_neg hd, ih]
      have hne : c ≠ d := fun h => hd h.symm
      by_cases hmem : c ∈ ds
      · simp [hmem, hd, textSize]
      · simp [hmem, hne]

end Guarded

end ImapWire
