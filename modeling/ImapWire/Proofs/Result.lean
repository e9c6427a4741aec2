/-
  Results of several steps, and of two readers.

  1. **Several steps.**  What it takes for two steps in a row to fail, and for one step on every
     element of a list to succeed (`mapM_eq_ok_iff`) or to fail.  Two steps in a row succeed if both
     do (`Result.bind_eq_ok`).

  2. **Reading twice** (`Result.SameBy`).  Two readers agree by `f` if both fail, or both succeed and
     `f` shows the same of what they give.  Readers put together from such readers agree again, if what
     comes second does not look at more than `f` shows (`SameBy.bind`).
-/
import ImapWire.Error
import Mathlib.Data.List.Forall2

namespace ImapWire

namespace Result

/-! ## Several steps -/

section Steps

variable {α β γ : Type} {f : α → Result β} {as : List α} {bs : List β} {e : Error}

/-- Two steps fail if the first one does, or the second one does with what it gave. -/
theorem bind_eq_error {x : Result α} :
    (x >>= f) = .error e ↔ x = .error e ∨ ∃ a, x = .ok a ∧ f a = .error e := by
  cases x with
  | error e' =>
    constructor
    · intro h
      cases h
      exact Or.inl rfl
    · rintro (h | ⟨a, ha, -⟩)
      · cases h
        rfl
      · cases ha
  | ok a =>
    constructor
    · intro h
      exact Or.inr ⟨a, rfl, h⟩
    · rintro (h | ⟨a', ha, h⟩)
      · cases h
      · cases ha
        exact h

/-- **One step on every element** gives one result for each, in order. -/
theorem mapM_eq_ok_iff : as.mapM f = .ok bs ↔ List.Forall₂ (fun a b => f a = .ok b) as bs := by
  constructor
  · intro h
    induction as generalizing bs with
    | nil =>
      cases h
      exact .nil
    | cons a as ih =>
      rw [List.mapM_cons] at h
      obtain ⟨b, hb, h⟩ := bind_eq_ok.1 h
      obtain ⟨bs', hbs, h⟩ := bind_eq_ok.1 h
      cases h
      exact .cons hb (ih hbs)
  · intro h
    induction h with
    | nil => rfl
    | cons hb _ ih =>
      rw [List.mapM_cons, hb, ih]
      rfl

theorem length_of_mapM (h : as.mapM f = .ok bs) : bs.length = as.length :=
  (mapM_eq_ok_iff.1 h).length_eq.symm

/-- What succeeds for a list succeeds for each element. -/
theorem exists_of_mapM (h : as.mapM f = .ok bs) : ∀ a ∈ as, ∃ b, f a = .ok b := by
  have hall := mapM_eq_ok_iff.1 h
  clear h
  induction hall with
  | nil => nofun
  | cons hb _ ih => exact List.forall_mem_cons.2 ⟨⟨_, hb⟩, ih⟩

/-- What fails for a list fails for one of its elements. -/
theorem exists_of_mapM_error (h : as.mapM f = .error e) : ∃ a ∈ as, f a = .error e := by
  induction as with
  | nil => cases h
  | cons a as ih =>
    rw [List.mapM_cons] at h
    rcases bind_eq_error.1 h with ha | ⟨b, -, h⟩
    · exact ⟨a, List.mem_cons_self, ha⟩
    · rcases bind_eq_error.1 h with hrest | ⟨bs, -, h⟩
      · obtain ⟨a', ha', he⟩ := ih hrest
        exact ⟨a', List.mem_cons_of_mem a ha', he⟩
      · cases h

/-- One result for each element, whatever the elements were made from. -/
theorem mapM_map {f : α → β} {g : β → Result γ} {e : α → γ} (h : ∀ a ∈ as, g (f a) = .ok (e a)) :
    (as.map f).mapM g = .ok (as.map e) := by
  rw [mapM_eq_ok_iff, List.forall₂_map_left_iff, List.forall₂_map_right_iff]
  exact List.forall₂_same.2 h

/-- Reading what was written, element by element. -/
theorem mapM_map_ok {f : α → β} {g : β → Result α} (h : ∀ a ∈ as, g (f a) = .ok a) :
    (as.map f).mapM g = .ok as := by
  rw [mapM_map h, List.map_id']

end Steps

/-! ## Reading twice -/

section Twice

variable {α β γ δ : Type}

/-- Both fail, or both succeed and `f` shows the same. -/
def SameBy (f : α → β) (x y : Result α) : Prop := x.toOption.map f = y.toOption.map f

theorem SameBy.refl (f : α → β) (x : Result α) : SameBy f x x := rfl

theorem sameBy_ok {f : α → β} {a b : α} (h : f a = f b) : SameBy f (.ok a) (.ok b) :=
  congrArg some h

theorem sameBy_error (f : α → β) (d e : Error) : SameBy f (.error d) (.error e) := rfl

theorem SameBy.trans {f : α → β} {x y z : Result α} (h : SameBy f x y) (h' : SameBy f y z) :
    SameBy f x z := Eq.trans h h'

theorem SameBy.symm {f : α → β} {x y : Result α} (h : SameBy f x y) : SameBy f y x := Eq.symm h

/-- **The second step** sees of the first one what `f` shows. -/
theorem SameBy.bind {f : α → γ} {g : β → δ} {x y : Result α} {k l : α → Result β}
    (h : SameBy f x y) (hk : ∀ a b, f a = f b → SameBy g (k a) (l b)) :
    SameBy g (x >>= k) (y >>= l) := by
  cases x with
  | error d =>
    cases y with
    | error e => rfl
    | ok b => cases h
  | ok a =>
    cases y with
    | error e => cases h
    | ok b => exact hk a b (Option.some.inj h)

/-- The first step is the same. -/
theorem sameBy_bind_of_ok {g : β → δ} {x : Result α} {k l : α → Result β}
    (hk : ∀ a, x = .ok a → SameBy g (k a) (l a)) : SameBy g (x >>= k) (x >>= l) := by
  cases x with
  | error e => rfl
  | ok a => exact hk a rfl

theorem sameBy_bind {g : β → δ} (x : Result α) {k l : α → Result β}
    (hk : ∀ a, SameBy g (k a) (l a)) : SameBy g (x >>= k) (x >>= l) :=
  sameBy_bind_of_ok fun a _ => hk a

theorem SameBy.map {f : α → γ} {g : β → δ} {x y : Result α} {k : α → β} (h : SameBy f x y)
    (hk : ∀ a b, f a = f b → g (k a) = g (k b)) : SameBy g (x.map k) (y.map k) :=
  h.bind fun a b hab => sameBy_ok (hk a b hab)

/-- What both give, if one of them gives something. -/
theorem SameBy.exists_ok {f : α → β} {x y : Result α} (h : SameBy f x y) {a : α} (hx : x = .ok a) :
    ∃ b, y = .ok b ∧ f a = f b := by
  subst hx
  cases y with
  | error e => cases h
  | ok b => exact ⟨b, rfl, Option.some.inj h⟩

/-- Where all is shown, both fail or both succeed with the same. -/
theorem sameBy_iff {x y : Result α} : SameBy id x y ↔ ∀ a, x = .ok a ↔ y = .ok a := by
  constructor
  · intro h a
    constructor
    · intro hx
      obtain ⟨b, hb, rfl⟩ := h.exists_ok hx
      exact hb
    · intro hy
      obtain ⟨b, hb, rfl⟩ := h.symm.exists_ok hy
      exact hb
  · intro h
    cases x with
    | ok a =>
      rw [(h a).1 rfl]
      exact SameBy.refl id _
    | error d =>
      cases y with
      | error e => exact sameBy_error id d e
      | ok b => cases (h b).2 rfl

end Twice

end Result

end ImapWire
