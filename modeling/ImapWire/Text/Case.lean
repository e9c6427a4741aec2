/-
  The case of names in texts.

  Item names and response names are compared without regard to the case of the letters A to Z; any
  other character, accented letters included, keeps its case and counts as it is.
-/

namespace ImapWire.Text

/-- A text with the letters a to z raised. -/
def upper (s : String) : String := String.ofList (s.toList.map Char.toUpper)

/-- A text with the letters A to Z lowered. -/
def lower (s : String) : String := String.ofList (s.toList.map Char.toLower)

/-- The same name: equal up to the case of the letters A to Z. -/
def sameName (a b : String) : Bool := lower a == lower b

theorem toList_upper (s : String) : (upper s).toList = s.toList.map Char.toUpper := by simp [upper]

/-- A raised letter is no small letter, so raising it again changes nothing. -/
theorem toUpper_toUpper (c : Char) : c.toUpper.toUpper = c.toUpper := by
  have hsame : ∀ d : Char, ¬ ('a'.val ≤ d.val ∧ d.val ≤ 'z'.val) → d.toUpper = d :=
    fun d hd => dif_neg hd
  by_cases h : 'a'.val ≤ c.val ∧ c.val ≤ 'z'.val
  · have hval : c.toUpper.val = c.val + ('A'.val - 'a'.val) := by
      show (dite _ _ _ : Char).val = _
      rw [dif_pos h]
    refine hsame _ ?_
    rw [hval]
    grind
  · rw [hsame c h, hsame c h]

theorem upper_upper (s : String) : upper (upper s) = upper s := by
  apply String.toList_inj.1
  rw [toList_upper, toList_upper, List.map_map]
  exact List.map_congr_left fun c _ => toUpper_toUpper c

theorem upper_append (a b : String) : upper (a ++ b) = upper a ++ upper b := by
  apply String.toList_inj.1
  simp [upper]

end ImapWire.Text
