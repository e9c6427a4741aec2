/-
  The parts of a line.

  A line is made of parts that stand one behind the other: blanks, brackets, quoted strings, and runs
  of other bytes.  `Divides line parts` says that these are the parts of a line.  A quoted string goes
  from a quote to the next one that no backslash has taken the meaning from (`Quoted.Spelled`), and a
  run goes as far as it can: a delimiter stands behind it, or nothing (`Cut`).

  1. **A line has one division** (`Divides.unique`).  The first byte says what sort of part it starts
     (`Lead`), and where the part ends is a matter of its sort (`Part.cancel`).

  2. Where the parts stand is a matter of what is in front of them (`Part.placed`).  Each of them is
     found where it is said to stand (`Divides.of_mem_placed`), and every byte of the line is in
     exactly one part (`Divides.existsUnique_placed`).

  3. **A token that is read is a part of its line** (`Cursor.Reads.part`), unless it is a literal.
-/
import Mathlib.Logic.ExistsUnique
import ImapWire.Proofs.Token.Reads

namespace ImapWire

open Bytes (isBlank isDelimiter)

/-- A part of a line. -/
inductive Part
  | blank (b : UInt8)
  | opening (bracket : Bracket)
  | closing (bracket : Bracket)
  /-- What stands between two quotes, and what it means. -/
  | quoted (text bytes : Bytes)
  | run (bytes : Bytes)
  deriving DecidableEq, Repr

namespace Part

/-- The bytes of a part on its line. -/
def spelling : Part → Bytes
  | blank b => [b]
  | opening k => [k.opens]
  | closing k => [k.closes]
  | quoted text _ => Bytes.quote :: (text ++ [Bytes.quote])
  | run bs => bs

/-- The token that a part is; a blank is none. -/
def token? : Part → Option Token
  | blank _ => none
  | opening k => some (.opening k)
  | closing k => some (.closing k)
  | quoted _ bs => some (.quoted bs)
  | run bs => some (.atom bs)

/-- A part may stand in front of these bytes. -/
def Fits (after : Bytes) : Part → Prop
  | blank b => isBlank b = true
  | opening _ | closing _ => True
  | quoted text bs => Quoted.Spelled text bs
  | run bs => bs ≠ [] ∧ (∀ b ∈ bs, isDelimiter b = false) ∧ Cut after

end Part

/-- A line is made of these parts. -/
inductive Divides : Bytes → List Part → Prop
  | nil : Divides [] []
  | cons {p : Part} {after : Bytes} {parts : List Part} (hp : p.Fits after)
      (h : Divides after parts) : Divides (p.spelling ++ after) (p :: parts)

/-! ## A line has one division -/

/-- What a byte starts. -/
inductive Lead
  | blank
  | opening
  | closing
  | quote
  | run
  deriving DecidableEq

def Lead.of (b : UInt8) : Lead :=
  if isBlank b then .blank
  else if (Bracket.opened? b).isSome then .opening
  else if (Bracket.closed? b).isSome then .closing
  else if b = Bytes.quote then .quote
  else .run

/-- A byte of a run starts nothing else. -/
theorem Lead.of_run {b : UInt8} (hb : isDelimiter b = false) : Lead.of b = .run := by
  obtain ⟨hopened, hclosed, hquote⟩ := Cursor.no_bracket_of_run hb
  simp [of, Yields.isBlank_of_not_delimiter hb, hopened, hclosed, hquote]

namespace Part

variable {p q : Part} {after after' : Bytes}

def lead : Part → Lead
  | blank _ => .blank
  | opening _ => .opening
  | closing _ => .closing
  | quoted _ _ => .quote
  | run _ => .run

/-- The first byte of a part says of what sort it is. -/
theorem Fits.lead_eq (h : p.Fits after) (rest : Bytes) :
    (p.spelling ++ rest).head?.map Lead.of = some p.lead := by
  cases p with
  | blank b =>
    have hb : isBlank b = true := h
    simp [spelling, lead, Lead.of, hb]
  | opening k => cases k <;> rfl
  | closing k => cases k <;> rfl
  | quoted text bs => rfl
  | run bs =>
    obtain ⟨hne, hrun, -⟩ := h
    obtain ⟨b, bs, rfl⟩ := List.exists_cons_of_ne_nil hne
    exact congrArg some (Lead.of_run (hrun b List.mem_cons_self))

/-- **A part ends where its bytes say so.**  If two parts start the same bytes they are the same part,
    with the same bytes behind it. -/
theorem cancel (hp : p.Fits after) (hq : q.Fits after')
    (h : p.spelling ++ after = q.spelling ++ after') : p = q ∧ after = after' := by
  have hlead : p.lead = q.lead := by
    have hfirst := hp.lead_eq after
    rw [h, hq.lead_eq after'] at hfirst
    exact (Option.some.inj hfirst).symm
  cases p with
  | blank b =>
    cases q <;> cases hlead
    obtain ⟨rfl, hafter⟩ := List.cons.inj h
    exact ⟨rfl, hafter⟩
  | opening k =>
    cases q <;> cases hlead
    rename_i k'
    obtain ⟨hbyte, hafter⟩ := List.cons.inj h
    have hk : Bracket.opened? k.opens = some k' := Bracket.opened?_eq_some.2 hbyte
    rw [Bracket.opened?_eq_some.2 rfl] at hk
    cases hk
    exact ⟨rfl, hafter⟩
  | closing k =>
    cases q <;> cases hlead
    rename_i k'
    obtain ⟨hbyte, hafter⟩ := List.cons.inj h
    have hk : Bracket.closed? k.closes = some k' := Bracket.closed?_eq_some.2 hbyte
    rw [Bracket.closed?_eq_some.2 rfl] at hk
    cases hk
    exact ⟨rfl, hafter⟩
  | quoted text bs =>
    cases q <;> cases hlead
    rename_i text' bs'
    -- both are read up to their closing quote
    have hread : text ++ Bytes.quote :: after = text' ++ Bytes.quote :: after' := by
      simpa [spelling] using h
    have hsame := Quoted.Spelled.read_eq hp after
    rw [hread, Quoted.Spelled.read_eq hq after'] at hsame
    obtain ⟨rfl, -, rfl⟩ := Quoted.Reading.mk.inj (Option.some.inj hsame)
    have htext : text = text' := List.append_cancel_right hread
    exact ⟨by rw [htext], rfl⟩
  | run bs =>
    cases q <;> cases hlead
    rename_i bs'
    obtain ⟨-, hrun, hcut⟩ := hp
    obtain ⟨-, hrun', hcut'⟩ := hq
    have hline : bs ++ after = bs' ++ after' := h
    have hbs : bs = bs' := by
      rw [← Yields.takeWhile_run hrun hcut, hline, Yields.takeWhile_run hrun' hcut']
    have hafter : after = after' := by
      rw [← Yields.dropWhile_run hrun hcut, hline, Yields.dropWhile_run hrun' hcut']
    exact ⟨by rw [hbs], hafter⟩

theorem Fits.spelling_ne_nil (h : p.Fits after) : p.spelling ≠ [] := by
  cases p with
  | run bs => exact h.1
  | blank b => exact List.cons_ne_nil _ _
  | opening k => exact List.cons_ne_nil _ _
  | closing k => exact List.cons_ne_nil _ _
  | quoted text bs => exact List.cons_ne_nil _ _

theorem Fits.length_pos (h : p.Fits after) : 0 < p.spelling.length :=
  List.length_pos_iff.2 h.spelling_ne_nil

end Part

/-- **A line has one division.** -/
theorem Divides.unique {line : Bytes} {parts parts' : List Part} (h : Divides line parts)
    (h' : Divides line parts') : parts = parts' := by
  induction h generalizing parts' with
  | nil =>
    generalize hline : ([] : Bytes) = line at h'
    cases h' with
    | nil => rfl
    | cons hp h =>
      exact absurd (List.append_eq_nil_iff.1 hline.symm).1 hp.spelling_ne_nil
  | @cons p after parts hp h ih =>
    generalize hline : p.spelling ++ after = line at h'
    cases h' with
    | nil => exact absurd (List.append_eq_nil_iff.1 hline).1 hp.spelling_ne_nil
    | @cons q after' parts' hq h' =>
      obtain ⟨rfl, rfl⟩ := Part.cancel hp hq hline
      rw [ih h']

/-! ## Where the parts stand -/

/-- The parts with the places where they start, from `start` on. -/
def Part.placed (start : Nat) : List Part → List (Nat × Part)
  | [] => []
  | p :: parts => (start, p) :: placed (start + p.spelling.length) parts

/-- The place `i` is in a part. -/
def Part.Holds (i : Nat) (q : Nat × Part) : Prop := q.1 ≤ i ∧ i < q.1 + q.2.spelling.length

theorem Part.le_of_mem_placed {start : Nat} {parts : List Part} {q : Nat × Part}
    (h : q ∈ Part.placed start parts) : start ≤ q.1 := by
  induction parts generalizing start with
  | nil => cases h
  | cons p parts ih =>
    rcases List.mem_cons.1 h with rfl | h
    · exact Nat.le_refl start
    · exact Nat.le_trans (Nat.le_add_right _ _) (ih h)

/-- **A part stands where it is said to stand.** -/
theorem Divides.of_mem_placed {line : Bytes} {parts : List Part} (h : Divides line parts)
    {start : Nat} {q : Nat × Part} (hq : q ∈ Part.placed start parts) :
    ∃ front behind, line = front ++ (q.2.spelling ++ behind) ∧ q.1 = start + front.length ∧
      q.2.Fits behind := by
  induction h generalizing start with
  | nil => cases hq
  | @cons p after parts hp h ih =>
    rcases List.mem_cons.1 hq with rfl | hq
    · exact ⟨[], after, rfl, rfl, hp⟩
    · obtain ⟨front, behind, rfl, hplace, hfits⟩ := ih hq
      refine ⟨p.spelling ++ front, behind, (List.append_assoc ..).symm, ?_, hfits⟩
      rw [hplace, List.length_append, Nat.add_assoc]

/-- **Every byte is in exactly one part.** -/
theorem Divides.existsUnique_placed {line : Bytes} {parts : List Part} (h : Divides line parts)
    {start i : Nat} (hstart : start ≤ i) (hend : i < start + line.length) :
    ∃! q, q ∈ Part.placed start parts ∧ Part.Holds i q := by
  induction h generalizing start with
  | nil => exact absurd hend (by simpa using hstart)
  | @cons p after parts hp h ih =>
    rw [List.length_append] at hend
    by_cases hfirst : i < start + p.spelling.length
    · -- the parts behind the first one start behind `i`
      refine ⟨(start, p), ⟨List.mem_cons_self, hstart, hfirst⟩, ?_⟩
      rintro q ⟨hq, hle, -⟩
      rcases List.mem_cons.1 hq with rfl | hq
      · rfl
      · have hlater := Part.le_of_mem_placed hq
        omega
    · obtain ⟨q, ⟨hq, hholds⟩, hunique⟩ := ih (Nat.not_lt.1 hfirst) (by omega)
      refine ⟨q, ⟨List.mem_cons_of_mem _ hq, hholds⟩, ?_⟩
      rintro q' ⟨hq', hholds'⟩
      rcases List.mem_cons.1 hq' with rfl | hq'
      · exact absurd hholds'.2 hfirst
      · exact hunique q' ⟨hq', hholds'⟩

/-- A byte that is no blank is in a part that is a token. -/
theorem Divides.token_of_holds {bytes : Bytes} {parts : List Part} (h : Divides bytes parts)
    {i : Nat} {b : UInt8} (hi : bytes[i]? = some b) (hb : isBlank b = false) {q : Nat × Part}
    (hq : q ∈ Part.placed 0 parts) (hholds : Part.Holds i q) : q.2.token?.isSome = true := by
  obtain ⟨front, behind, rfl, hplace, hfits⟩ := h.of_mem_placed hq
  obtain ⟨start, p⟩ := q
  cases p with
  | blank c =>
    have hc : isBlank c = true := hfits
    obtain ⟨hle, hlt⟩ := hholds
    have hat : i = front.length := by
      simp only [Part.spelling, List.length_singleton] at hlt hplace hle
      omega
    subst hat
    have hsame : c = b := by simpa [Part.spelling] using hi
    rw [← hsame, hc] at hb
    cases hb
  | opening k => rfl
  | closing k => rfl
  | quoted text bs => rfl
  | run bs => rfl

/-! ## Tokens that are parts -/

/-- **A token that is read is a part of its line**, unless it is a literal. -/
theorem Cursor.Reads.part {chunk : Chunk} {ahead behind : Bytes} {t : Token}
    (h : Reads chunk ahead (.ok t) (some behind)) :
    ∃ p : Part, p.Fits behind ∧ ahead = p.spelling ++ behind ∧ p.token? = some t := by
  cases h with
  | opening k => exact ⟨.opening k, trivial, rfl, rfl⟩
  | closing k => exact ⟨.closing k, trivial, rfl, rfl⟩
  | @quoted rest r hread =>
    obtain ⟨text, htext, hspelled, -⟩ := Quoted.read_eq_some_iff.1 hread
    refine ⟨.quoted text r.bytes, hspelled, ?_, rfl⟩
    rw [htext]
    simp [Part.spelling]
  | @atom run after hne hrun hcut hmarker =>
    exact ⟨.run run, ⟨hne, hrun, hcut⟩, rfl, rfl⟩

end ImapWire
