/-
  Tables.

  A table gives a value to each of its keys.  Its entries stand in ascending order of their keys,
  each key once, so that two tables are equal exactly if they give the same values (`ext`), whatever
  the order in which the values were put in.

  Main facts: putting a value in changes the value of that key alone (`get?_insert`); merging a
  table into another one lets the merged one win (`get?_merge`).
-/

namespace ImapWire

/-- Keys with values, in ascending order of the keys. -/
structure Table (κ ν : Type) [Ord κ] where
  entries : List (κ × ν)
  ascending : entries.Pairwise fun a b => compare a.1 b.1 = .lt

namespace Table

variable {κ ν : Type} [Ord κ]

/-- No keys. -/
def empty : Table κ ν := ⟨[], .nil⟩

instance : Inhabited (Table κ ν) := ⟨empty⟩

/-- The value of a key among entries. -/
def find? (k : κ) : List (κ × ν) → Option ν
  | [] => none
  | (k', v) :: rest => if compare k k' = .eq then some v else find? k rest

/-- The value of a key. -/
def get? (t : Table κ ν) (k : κ) : Option ν := find? k t.entries

/-- Puts a value at its place among ascending entries, over the one of the same key. -/
def put (k : κ) (v : ν) : List (κ × ν) → List (κ × ν)
  | [] => [(k, v)]
  | (k', v') :: rest =>
    match compare k k' with
    | .lt => (k, v) :: (k', v') :: rest
    | .eq => (k, v) :: rest
    | .gt => (k', v') :: put k v rest

/-! ## The order is kept -/

theorem key_mem_put {k : κ} {v : ν} {es : List (κ × ν)} {e : κ × ν} (h : e ∈ put k v es) :
    e.1 = k ∨ e ∈ es := by
  induction es with
  | nil => simp_all [put]
  | cons e' rest ih =>
    obtain ⟨k', v'⟩ := e'
    simp only [put] at h
    split at h <;> grind

variable [Std.TransOrd κ] [Std.LawfulEqOrd κ]

theorem pairwise_put (k : κ) (v : ν) {es : List (κ × ν)}
    (h : es.Pairwise fun a b => compare a.1 b.1 = .lt) :
    (put k v es).Pairwise fun a b => compare a.1 b.1 = .lt := by
  induction es with
  | nil => simp [put]
  | cons e rest ih =>
    obtain ⟨k', v'⟩ := e
    obtain ⟨hhead, htail⟩ := List.pairwise_cons.1 h
    simp only [put]
    split
    · next hlt =>
      refine List.pairwise_cons.2 ⟨fun e he => ?_, h⟩
      rcases List.mem_cons.1 he with rfl | he
      · exact hlt
      · exact Std.TransCmp.lt_trans hlt (hhead e he)
    · next heq =>
      have hk : k = k' := Std.LawfulEqCmp.eq_of_compare heq
      exact List.pairwise_cons.2 ⟨fun e he => hk ▸ hhead e he, htail⟩
    · next hgt =>
      refine List.pairwise_cons.2 ⟨fun e he => ?_, ih htail⟩
      rcases key_mem_put he with hk | he
      · rw [hk]; exact Std.OrientedCmp.lt_of_gt hgt
      · exact hhead e he

/-- Gives a key its value. -/
def insert (t : Table κ ν) (k : κ) (v : ν) : Table κ ν :=
  ⟨put k v t.entries, pairwise_put k v t.ascending⟩

/-- Puts all values of a second table in, over those of the same keys. -/
def merge (t u : Table κ ν) : Table κ ν := u.entries.foldl (fun t e => t.insert e.1 e.2) t

/-- The table of a sequence of entries, a later one over an earlier one of the same key. -/
def ofList (es : List (κ × ν)) : Table κ ν := es.foldl (fun t e => t.insert e.1 e.2) empty

/-! ## What a key has -/

omit [Std.TransOrd κ] in
theorem find?_put (k k' : κ) (v : ν) (es : List (κ × ν)) :
    find? k' (put k v es) = if compare k' k = .eq then some v else find? k' es := by
  induction es with
  | nil => simp [put, find?]
  | cons e rest ih =>
    obtain ⟨l, w⟩ := e
    simp only [put]
    split
    · simp [find?]
    · next heq =>
      have hk : k = l := Std.LawfulEqCmp.eq_of_compare heq
      subst hk
      simp only [find?]
      split <;> simp_all
    · next hgt =>
      simp only [find?, ih]
      by_cases h : compare k' l = .eq
      · have hl : k' = l := Std.LawfulEqCmp.eq_of_compare h
        subst hl
        have hne : compare k' k ≠ .eq := by
          intro hk
          have := Std.LawfulEqCmp.eq_of_compare hk
          subst this
          simp at hgt
        simp [hne]
      · simp [h]

/-- Putting a value in changes the value of that key alone. -/
theorem get?_insert [DecidableEq κ] (t : Table κ ν) (k k' : κ) (v : ν) :
    (t.insert k v).get? k' = if k' = k then some v else t.get? k' := by
  simp [insert, get?, find?_put, Std.LawfulEqCmp.compare_eq_iff_eq]

omit [Std.TransOrd κ] [Std.LawfulEqOrd κ] in
/-- A key below all keys of some entries has no value there. -/
theorem find?_eq_none {k : κ} {es : List (κ × ν)} (h : ∀ e ∈ es, compare k e.1 = .lt) :
    find? k es = none := by
  induction es with
  | nil => rfl
  | cons e rest ih =>
    have he := h e (by simp)
    simp [find?, he, ih fun e' he' => h e' (by simp [he'])]

/-- Ascending entries that give every key the same value are the same. -/
theorem entries_ext {es fs : List (κ × ν)}
    (hes : es.Pairwise fun a b => compare a.1 b.1 = .lt)
    (hfs : fs.Pairwise fun a b => compare a.1 b.1 = .lt)
    (h : ∀ k, find? k es = find? k fs) : es = fs := by
  induction es generalizing fs with
  | nil =>
    cases fs with
    | nil => rfl
    | cons f fs => simpa [find?] using h f.1
  | cons e es ih =>
    cases fs with
    | nil => simpa [find?] using h e.1
    | cons f fs =>
      obtain ⟨k, v⟩ := e
      obtain ⟨l, w⟩ := f
      obtain ⟨hk, hes'⟩ := List.pairwise_cons.1 hes
      obtain ⟨hl, hfs'⟩ := List.pairwise_cons.1 hfs
      have hat := h k
      rw [find?, if_pos Std.ReflCmp.compare_self] at hat
      cases hc : compare k l with
      | lt =>
        rw [find?, if_neg (by simp [hc]),
          find?_eq_none fun f hf => Std.TransCmp.lt_trans hc (hl f hf)] at hat
        cases hat
      | gt =>
        have hc' : compare l k = .lt := Std.OrientedCmp.lt_of_gt hc
        have hat' := h l
        rw [find?, if_neg (by simp [hc']),
          find?_eq_none fun e he => Std.TransCmp.lt_trans hc' (hk e he), find?,
          if_pos Std.ReflCmp.compare_self] at hat'
        cases hat'
      | eq =>
        have hkl : k = l := Std.LawfulEqCmp.eq_of_compare hc
        subst hkl
        rw [find?, if_pos Std.ReflCmp.compare_self] at hat
        cases hat
        suffices htail : ∀ k', find? k' es = find? k' fs by rw [ih hes' hfs' htail]
        intro k'
        by_cases hk' : compare k' k = .eq
        · have hkk : k' = k := Std.LawfulEqCmp.eq_of_compare hk'
          subst hkk
          rw [find?_eq_none hk, find?_eq_none hl]
        · simpa [find?, hk'] using h k'

/-- Tables that give every key the same value are the same. -/
theorem ext {t u : Table κ ν} (h : ∀ k, t.get? k = u.get? k) : t = u := by
  obtain ⟨es, hes⟩ := t
  obtain ⟨fs, hfs⟩ := u
  obtain rfl : es = fs := entries_ext hes hfs h
  rfl

/-- The merged table wins. -/
theorem get?_merge [DecidableEq κ] (t u : Table κ ν) (k : κ) :
    (t.merge u).get? k = (u.get? k).or (t.get? k) := by
  obtain ⟨es, hes⟩ := u
  simp only [merge, get?]
  induction es generalizing t with
  | nil => simp [find?]
  | cons e es ih =>
    obtain ⟨l, w⟩ := e
    obtain ⟨hl, hes⟩ := List.pairwise_cons.1 hes
    rw [List.foldl_cons, ih (t.insert l w) hes]
    have hput : find? k (t.insert l w).entries = if k = l then some w else find? k t.entries :=
      get?_insert t l k w
    rw [hput]
    by_cases hk : k = l
    · subst hk
      rw [find?_eq_none hl]
      simp [find?]
    · have hne : compare k l ≠ .eq := fun hc => hk (Std.LawfulEqCmp.eq_of_compare hc)
      simp [find?, hk, hne]

end Table
end ImapWire
