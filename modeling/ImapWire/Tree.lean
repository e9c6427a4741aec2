/-
  The bracket tree of a response.

  Whatever a response is about, its words form a tree: integers, byte strings and `NIL` at the
  leaves, lists in round brackets and sections in square brackets above them.  A `Tree` does not say
  how a byte string was spelt (bare, in quotes or as a literal): the three spellings mean the same.

  `ofAtom` gives the meaning of a bare word.
-/
import ImapWire.Bracket
import ImapWire.Decimal

namespace ImapWire

inductive Tree
  | int (n : Int64)
  | bytes (bs : Bytes)
  | nil
  | group (bracket : Bracket) (items : List Tree)
  deriving Repr

namespace Tree

/-! ## Equality -/

mutual
/-- Equality of trees can be decided. -/
def decEq : (a b : Tree) → Decidable (a = b)
  | int m, int n =>
    if h : m = n then isTrue (by rw [h]) else isFalse (by simpa using h)
  | bytes a, bytes b =>
    if h : a = b then isTrue (by rw [h]) else isFalse (by simpa using h)
  | nil, nil => isTrue rfl
  | group p as, group q bs =>
    if hp : p = q then
      match decEqAll as bs with
      | isTrue h => isTrue (by rw [hp, h])
      | isFalse h => isFalse (by simp [h])
    else isFalse (by simp [hp])
  | int _, bytes _ | int _, nil | int _, group _ _
  | bytes _, int _ | bytes _, nil | bytes _, group _ _
  | nil, int _ | nil, bytes _ | nil, group _ _
  | group _ _, int _ | group _ _, bytes _ | group _ _, nil => isFalse nofun

/-- Equality of lists of trees can be decided. -/
def decEqAll : (as bs : List Tree) → Decidable (as = bs)
  | [], [] => isTrue rfl
  | [], _ :: _ => isFalse nofun
  | _ :: _, [] => isFalse nofun
  | a :: as, b :: bs =>
    match decEq a b, decEqAll as bs with
    | isTrue h, isTrue hs => isTrue (by rw [h, hs])
    | isFalse h, _ => isFalse (by simp [h])
    | _, isFalse hs => isFalse (by simp [hs])
end

instance : DecidableEq Tree := decEq

/-! ## Atoms -/

/-- The atom that stands for nothing, in any case. -/
def nilWord : Bytes := Bytes.ofString "NIL"

/-- The meaning of a bare word: nothing, an integer, or the word itself. -/
def ofAtom (atom : Bytes) : Tree :=
  if Bytes.sameName atom nilWord then nil
  else match Decimal.int? atom with
    | some n => int n
    | none => bytes atom

/-! ## Depth -/

mutual
/-- How deep groups nest in a tree. -/
def depth : Tree → Nat
  | int _ | bytes _ | nil => 0
  | group _ items => depthAll items + 1

/-- How deep groups nest in a sequence of trees. -/
def depthAll : List Tree → Nat
  | [] => 0
  | t :: ts => max (depth t) (depthAll ts)
end

end Tree
end ImapWire
