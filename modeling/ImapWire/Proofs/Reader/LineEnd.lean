/-
  The first line end.

  A line ends with the first CR LF, so what stands before it holds none: it is *unbroken*.  A lone
  CR or LF may stand anywhere in it, also at either end.  This file says that a byte string with a
  line end has one first line and one rest (`splitLine_eq_some_iff`), and one without has none
  (`splitLine_eq_none_iff`).

  The delicate case is a line end of which one half came with one read and the other with the next:
  two unbroken pieces make an unbroken whole unless the first one ends in a CR and the second one
  starts with an LF (`unbroken_append_iff`).
-/
import ImapWire.Reader

namespace ImapWire

/-- Holds no line end. -/
def Bytes.Unbroken (bs : Bytes) : Prop := ¬ lineEnd <:+: bs

namespace Bytes

theorem unbroken_nil : Unbroken [] := by
  intro h
  exact absurd (List.infix_nil.1 h) (List.cons_ne_nil cr [lf])

theorem unbroken_singleton (b : UInt8) : Unbroken [b] := by
  intro h
  have hlen := h.length_le
  simp [lineEnd] at hlen

theorem unbroken_cons_cons {b c : UInt8} {rest : Bytes} :
    Unbroken (b :: c :: rest) ↔ ¬ (b = cr ∧ c = lf) ∧ Unbroken (c :: rest) := by
  have hhead : lineEnd <+: b :: c :: rest ↔ b = cr ∧ c = lf := by
    simp only [lineEnd, List.cons_prefix_cons, List.nil_prefix, and_true]
    constructor
    · rintro ⟨hb, hc⟩
      exact ⟨hb.symm, hc.symm⟩
    · rintro ⟨hb, hc⟩
      exact ⟨hb.symm, hc.symm⟩
  unfold Unbroken
  rw [List.infix_cons_iff, hhead, not_or]

/-- **Two pieces.**  Between unbroken pieces a line end can only lie across the place where they
    meet. -/
theorem unbroken_append_iff {a b : Bytes} :
    Unbroken (a ++ b) ↔
      Unbroken a ∧ Unbroken b ∧ ¬ (a.getLast? = some cr ∧ b.head? = some lf) := by
  induction a with
  | nil =>
    constructor
    · intro h
      exact ⟨unbroken_nil, h, fun hmeet => by cases hmeet.1⟩
    · rintro ⟨-, h, -⟩
      exact h
  | cons x a ih =>
    cases a with
    | nil =>
      cases b with
      | nil =>
        constructor
        · intro h
          exact ⟨h, unbroken_nil, fun hmeet => by cases hmeet.2⟩
        · rintro ⟨h, -, -⟩
          exact h
      | cons y b =>
        show Unbroken (x :: y :: b) ↔ _
        rw [unbroken_cons_cons]
        simp [unbroken_singleton, and_comm]
    | cons y a =>
      show Unbroken (x :: y :: (a ++ b)) ↔ _
      have ih' : Unbroken (y :: (a ++ b)) ↔ Unbroken (y :: a) ∧ Unbroken b ∧
          ¬ ((y :: a).getLast? = some cr ∧ b.head? = some lf) := ih
      rw [unbroken_cons_cons, ih', unbroken_cons_cons, List.getLast?_cons_cons]
      constructor
      · rintro ⟨hxy, hya, hb, hmeet⟩
        exact ⟨⟨hxy, hya⟩, hb, hmeet⟩
      · rintro ⟨⟨hxy, hya⟩, hb, hmeet⟩
        exact ⟨hxy, hya, hb, hmeet⟩

theorem Unbroken.left {a b : Bytes} (h : Unbroken (a ++ b)) : Unbroken a :=
  (unbroken_append_iff.1 h).1

theorem Unbroken.right {a b : Bytes} (h : Unbroken (a ++ b)) : Unbroken b :=
  (unbroken_append_iff.1 h).2.1

theorem Unbroken.initial {a b : Bytes} (h : Unbroken b) (hab : a <+: b) : Unbroken a := by
  obtain ⟨c, rfl⟩ := hab
  exact h.left

/-- The CR of the line end breaks nothing yet. -/
theorem Unbroken.append_cr {bs : Bytes} (h : Unbroken bs) : Unbroken (bs ++ [cr]) := by
  refine unbroken_append_iff.2 ⟨h, unbroken_singleton cr, ?_⟩
  rintro ⟨-, hhead⟩
  cases hhead

theorem not_unbroken_lineEnd (a b : Bytes) : ¬ Unbroken (a ++ lineEnd ++ b) :=
  fun h => h (List.infix_append a lineEnd b)

end Bytes

namespace Reader

open Bytes (Unbroken unbroken_append_iff unbroken_cons_cons)

/-! ## Splitting at the first line end -/

theorem splitLine_eq_none_iff {bs : Bytes} : splitLine bs = none ↔ Unbroken bs := by
  fun_induction splitLine bs with
  | case1 b c rest hend =>
    constructor
    · intro h
      cases h
    · intro h
      exact absurd hend (unbroken_cons_cons.1 h).1
  | case2 b c rest hend ih =>
    rw [Option.map_eq_none_iff, ih, unbroken_cons_cons]
    exact ⟨fun h => ⟨hend, h⟩, fun h => h.2⟩
  | case3 bs hshort =>
    refine ⟨fun _ => ?_, fun _ => rfl⟩
    cases bs with
    | nil => exact Bytes.unbroken_nil
    | cons b bs =>
      cases bs with
      | nil => exact Bytes.unbroken_singleton b
      | cons c rest => exact absurd rfl (hshort b c rest)

instance (bs : Bytes) : Decidable (Unbroken bs) := decidable_of_iff _ splitLine_eq_none_iff

/-- What stands before the first line end is unbroken. -/
theorem unbroken_of_splitLine {bs before behind : Bytes}
    (h : splitLine bs = some (before, behind)) : Unbroken before := by
  fun_induction splitLine bs generalizing before behind with
  | case1 b c rest hend => cases h; exact Bytes.unbroken_nil
  | case2 b c rest hend ih =>
    obtain ⟨⟨before', behind'⟩, hs, heq⟩ := Option.map_eq_some_iff.1 h
    cases heq
    have hrest := splitLine_eq_some hs
    cases before' with
    | nil => exact Bytes.unbroken_singleton b
    | cons d before' =>
      have hd : c = d := by
        simp only [List.cons_append] at hrest
        exact (List.cons.inj hrest).1
      rw [hd] at hend
      exact unbroken_cons_cons.2 ⟨hend, ih hs⟩
  | case3 => cases h

/-- **A string with a line end splits in one way** into an unbroken line, a line end and a rest. -/
theorem splitLine_eq_some_iff {bs before behind : Bytes} :
    splitLine bs = some (before, behind) ↔
      bs = before ++ lineEnd ++ behind ∧ Unbroken before := by
  constructor
  · intro h
    exact ⟨splitLine_eq_some h, unbroken_of_splitLine h⟩
  · rintro ⟨rfl, hbefore⟩
    induction before with
    | nil => rfl
    | cons b before ih =>
      have htail : Unbroken before := Bytes.Unbroken.right (a := [b]) hbefore
      cases before with
      | nil =>
        have hne : ¬ (b = Bytes.cr ∧ Bytes.cr = Bytes.lf) := by
          rintro ⟨-, hcr⟩
          exact absurd hcr (by decide)
        show splitLine (b :: Bytes.cr :: Bytes.lf :: behind) = _
        rw [splitLine, if_neg hne]
        rfl
      | cons c before =>
        have hne := (unbroken_cons_cons.1 hbefore).1
        have hsplit : splitLine (c :: (before ++ lineEnd ++ behind))
            = some (c :: before, behind) := ih htail
        show splitLine (b :: c :: (before ++ lineEnd ++ behind)) = _
        rw [splitLine, if_neg hne, hsplit]
        rfl

/-- The first line and what stands behind it are determined by the bytes. -/
theorem line_unique {a b rest rest' : Bytes} (ha : Unbroken a) (hb : Unbroken b)
    (h : a ++ lineEnd ++ rest = b ++ lineEnd ++ rest') : a = b ∧ rest = rest' := by
  have hsplit : splitLine (a ++ lineEnd ++ rest) = some (a, rest) :=
    splitLine_eq_some_iff.2 ⟨rfl, ha⟩
  have hsplit' : splitLine (a ++ lineEnd ++ rest) = some (b, rest') :=
    splitLine_eq_some_iff.2 ⟨h, hb⟩
  rw [hsplit] at hsplit'
  cases hsplit'
  exact ⟨rfl, rfl⟩

end Reader

end ImapWire
