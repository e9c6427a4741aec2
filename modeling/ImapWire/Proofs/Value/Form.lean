/-
  The generic form of a value.

  A value that is partly understood is written as the generic value that it came from, or could have
  come from: flags are a list of byte strings, a stamp is its text, an envelope and an address are
  the lists of their fields, and a body structure is the list of its fields, some of which may again
  be understood values, which are written the same way.  `Form v t` says that the tree `t` is this
  form of `v`, by one rule for each kind of value.  The rule for body structures goes through the
  list of fields that a structure is (`Body.value?`), so it is no recursion on the value.

  The function that writes a value, `Value.tree?`, goes straight down instead.  The two agree
  (`form_iff`), so a value has at most one form; and it has one exactly if all its envelope dates,
  at whatever depth, can be written (`exists_formAll_iff`), which is a matter of their years alone.
-/
import ImapWire.Value

namespace ImapWire

/-! ## The form, by rules -/

mutual
/-- The tree is the generic form of the value. -/
inductive Value.Form : Value → Tree → Prop
  | int (n : Int64) : Form (.int n) (.int n)
  | bytes (bs : Bytes) : Form (.bytes bs) (.bytes bs)
  | nil : Form .nil .nil
  | group {vs : List Value} {ts : List Tree} (b : Bracket) (h : FormAll vs ts) :
      Form (.group b vs) (.group b ts)
  | flags (fs : List Bytes) : Form (.flags fs) (.group .round (fs.map .bytes))
  | stamp (s : Stamp) : Form (.stamp s) (.bytes s.internalDate)
  | envelope {e : Envelope} {t : Tree} (h : e.tree? = some t) : Form (.envelope e) t
  | address (a : Address) : Form (.address a) a.tree
  | body {b : Body} {v : Value} {t : Tree} (hv : b.value? = some v) (h : Form v t) :
      Form (.body b) t

/-- The trees are the generic forms of the values, one by one. -/
inductive Value.FormAll : List Value → List Tree → Prop
  | nil : FormAll [] []
  | cons {v : Value} {t : Tree} {vs : List Value} {ts : List Tree} (h : Form v t)
      (hs : FormAll vs ts) : FormAll (v :: vs) (t :: ts)
end

namespace Value

theorem FormAll.append {vs ws : List Value} {ts us : List Tree} (h : FormAll vs ts)
    (hw : FormAll ws us) : FormAll (vs ++ ws) (ts ++ us) := by
  induction vs generalizing ts with
  | nil => cases h; exact hw
  | cons v vs ih =>
    cases h with
    | cons h hs => exact .cons h (ih hs)

/-! ## Trees are their own form -/

mutual
theorem form_ofTree (t : Tree) : Form (ofTree t) t := by
  cases t with
  | int n => exact .int n
  | bytes bs => exact .bytes bs
  | nil => exact .nil
  | group b items => exact .group b (formAll_ofTrees items)

theorem formAll_ofTrees (ts : List Tree) : FormAll (ofTrees ts) ts := by
  cases ts with
  | nil => exact .nil
  | cons t ts => exact .cons (form_ofTree t) (formAll_ofTrees ts)
end

mutual
theorem tree?_ofTree (t : Tree) : tree? (ofTree t) = some t := by
  cases t with
  | int n => rfl
  | bytes bs => rfl
  | nil => rfl
  | group b items => simp [ofTree, tree?, treeAll?_ofTrees items]

theorem treeAll?_ofTrees (ts : List Tree) : treeAll? (ofTrees ts) = some ts := by
  cases ts with
  | nil => rfl
  | cons t ts => simp [ofTrees, treeAll?, tree?_ofTree t, treeAll?_ofTrees ts]
end

theorem treeAll?_append (vs ws : List Value) :
    treeAll? (vs ++ ws) = (treeAll? vs).bind fun ts => (treeAll? ws).map (ts ++ ·) := by
  induction vs with
  | nil => simp [treeAll?]
  | cons v vs ih =>
    cases hv : tree? v <;> cases hvs : treeAll? vs <;> cases hws : treeAll? ws <;>
      simp [treeAll?, ih, hv, hvs, hws]

end Value

/-! ## Writing follows the rules -/

mutual
/-- A body structure is written as the list of its fields. -/
theorem Body.tree?_eq_of_value? (b : Body) {v : Value} (h : b.value? = some v) :
    b.tree? = v.tree? := by
  cases b with
  | single head attached lines extension =>
    simp only [Body.value?, Option.bind_eq_bind, Option.bind_eq_some_iff, Option.some.injEq] at h
    obtain ⟨message, hmessage, rfl⟩ := h
    have hattached := Attached.trees?_eq_of_values? attached hmessage
    cases hm : attached.trees? <;> cases hx : Value.treeAll? extension <;>
      simp [Body.tree?, Value.tree?, Value.treeAll?_append, Value.treeAll?_ofTrees, ← hattached,
        hm, hx]
  | multipart parts subtype extension =>
    simp only [Body.value?, Option.bind_eq_bind, Option.bind_eq_some_iff, Option.some.injEq] at h
    obtain ⟨vs, hvs, rfl⟩ := h
    have hparts := Body.treeAll?_eq_of_valueAll? parts hvs
    cases hp : Body.treeAll? parts <;> cases hx : Value.treeAll? extension <;>
      simp [Body.tree?, Value.tree?, Value.treeAll?, Value.treeAll?_append, ← hparts, hp, hx]

theorem Body.treeAll?_eq_of_valueAll? (bs : List Body) {vs : List Value}
    (h : Body.valueAll? bs = some vs) : Body.treeAll? bs = Value.treeAll? vs := by
  cases bs with
  | nil => cases h; rfl
  | cons b bs =>
    simp only [Body.valueAll?, Option.bind_eq_bind, Option.bind_eq_some_iff,
      Option.some.injEq] at h
    obtain ⟨v, hv, vs', hvs, rfl⟩ := h
    simp only [Body.treeAll?, Value.treeAll?, Body.tree?_eq_of_value? b hv,
      Body.treeAll?_eq_of_valueAll? bs hvs]

theorem Attached.trees?_eq_of_values? (a : Attached) {vs : List Value}
    (h : a.values? = some vs) : a.trees? = Value.treeAll? vs := by
  cases a with
  | none => cases h; rfl
  | message envelope body =>
    simp only [Attached.values?, Option.bind_eq_bind, Option.bind_eq_some_iff,
      Option.some.injEq] at h
    obtain ⟨e, he, v, hv, rfl⟩ := h
    have hbody := Body.tree?_eq_of_value? body hv
    cases ht : v.tree? <;>
      simp [Attached.trees?, Value.treeAll?, he, Value.tree?_ofTree, hbody, ht]
end

namespace Value

mutual
/-- A form is what is written. -/
theorem tree?_of_form {v : Value} {t : Tree} : Form v t → v.tree? = some t
  | .int n => rfl
  | .bytes bs => rfl
  | .nil => rfl
  | .group b h => by rw [tree?, treeAll?_of_formAll h]; rfl
  | .flags fs => rfl
  | .stamp s => rfl
  | .envelope h => h
  | .address a => rfl
  | .body hv h => by
    show Body.tree? _ = _
    rw [Body.tree?_eq_of_value? _ hv]
    exact tree?_of_form h

theorem treeAll?_of_formAll {vs : List Value} {ts : List Tree} :
    FormAll vs ts → treeAll? vs = some ts
  | .nil => rfl
  | .cons h hs => by
    rw [treeAll?, tree?_of_form h, treeAll?_of_formAll hs]
    rfl
end

end Value

/-! ## What is written is a form -/

mutual
theorem Value.form_of_tree? (v : Value) {t : Tree} (h : v.tree? = some t) : Value.Form v t := by
  cases v with
  | int n => cases h; exact .int n
  | bytes bs => cases h; exact .bytes bs
  | nil => cases h; exact .nil
  | group b items =>
    obtain ⟨ts, hts, rfl⟩ := Option.map_eq_some_iff.1 h
    exact .group b (Value.formAll_of_treeAll? items hts)
  | flags fs => cases h; exact .flags fs
  | stamp s => cases h; exact .stamp s
  | envelope e => exact .envelope h
  | address a => cases h; exact .address a
  | body b =>
    obtain ⟨v, hv, hform⟩ := Body.form_of_tree? b h
    exact .body hv hform

theorem Value.formAll_of_treeAll? (vs : List Value) {ts : List Tree}
    (h : Value.treeAll? vs = some ts) : Value.FormAll vs ts := by
  cases vs with
  | nil => cases h; exact .nil
  | cons v vs =>
    simp only [Value.treeAll?, Option.bind_eq_bind, Option.bind_eq_some_iff,
      Option.some.injEq] at h
    obtain ⟨t, ht, ts', hts, rfl⟩ := h
    exact .cons (Value.form_of_tree? v ht) (Value.formAll_of_treeAll? vs hts)

/-- A body structure that can be written is a list of fields, and the form of that list is what is
    written. -/
theorem Body.form_of_tree? (b : Body) {t : Tree} (h : b.tree? = some t) :
    ∃ v, b.value? = some v ∧ Value.Form v t := by
  cases b with
  | single head attached lines extension =>
    simp only [Body.tree?, Option.bind_eq_bind, Option.bind_eq_some_iff, Option.some.injEq] at h
    obtain ⟨message, hmessage, more, hmore, rfl⟩ := h
    obtain ⟨vs, hvs, hform⟩ := Attached.form_of_trees? attached hmessage
    have hhead : Value.FormAll (Value.ofTrees head.trees) head.trees :=
      Value.formAll_ofTrees head.trees
    have hlines : Value.FormAll (Value.ofTrees (Body.linesTrees lines)) (Body.linesTrees lines) :=
      Value.formAll_ofTrees _
    have hextension := Value.formAll_of_treeAll? extension hmore
    exact ⟨_, by rw [Body.value?, hvs]; rfl,
      .group .round (((hhead.append hform).append hlines).append hextension)⟩
  | multipart parts subtype extension =>
    simp only [Body.tree?, Option.bind_eq_bind, Option.bind_eq_some_iff, Option.some.injEq] at h
    obtain ⟨ts, hts, more, hmore, rfl⟩ := h
    obtain ⟨vs, hvs, hform⟩ := Body.formAll_of_treeAll? parts hts
    have hextension := Value.formAll_of_treeAll? extension hmore
    exact ⟨_, by rw [Body.value?, hvs]; rfl,
      .group .round (hform.append (.cons (.bytes subtype) hextension))⟩

theorem Body.formAll_of_treeAll? (bs : List Body) {ts : List Tree}
    (h : Body.treeAll? bs = some ts) :
    ∃ vs, Body.valueAll? bs = some vs ∧ Value.FormAll vs ts := by
  cases bs with
  | nil => cases h; exact ⟨[], rfl, .nil⟩
  | cons b bs =>
    simp only [Body.treeAll?, Option.bind_eq_bind, Option.bind_eq_some_iff,
      Option.some.injEq] at h
    obtain ⟨t, ht, ts', hts, rfl⟩ := h
    obtain ⟨v, hv, hform⟩ := Body.form_of_tree? b ht
    obtain ⟨vs, hvs, hforms⟩ := Body.formAll_of_treeAll? bs hts
    exact ⟨v :: vs, by rw [Body.valueAll?, hv, hvs]; rfl, .cons hform hforms⟩

theorem Attached.form_of_trees? (a : Attached) {ts : List Tree} (h : a.trees? = some ts) :
    ∃ vs, a.values? = some vs ∧ Value.FormAll vs ts := by
  cases a with
  | none => cases h; exact ⟨[], rfl, .nil⟩
  | message envelope body =>
    simp only [Attached.trees?, Option.bind_eq_bind, Option.bind_eq_some_iff,
      Option.some.injEq] at h
    obtain ⟨e, he, t, ht, rfl⟩ := h
    obtain ⟨v, hv, hform⟩ := Body.form_of_tree? body ht
    exact ⟨[Value.ofTree e, v], by rw [Attached.values?, he, hv]; rfl,
      .cons (Value.form_ofTree e) (.cons hform .nil)⟩
end

/-- **Writing and the rules agree**, so a value has at most one form. -/
theorem Value.form_iff {v : Value} {t : Tree} : Value.Form v t ↔ v.tree? = some t :=
  ⟨Value.tree?_of_form, Value.form_of_tree? v⟩

theorem Value.formAll_iff {vs : List Value} {ts : List Tree} :
    Value.FormAll vs ts ↔ Value.treeAll? vs = some ts :=
  ⟨Value.treeAll?_of_formAll, Value.formAll_of_treeAll? vs⟩

/-! ## The dates in a value -/

mutual
/-- The dates of all envelopes in a value, also of those deep in body structures. -/
def Value.dates : Value → List Stamp
  | .int _ | .bytes _ | .nil | .flags _ | .stamp _ | .address _ => []
  | .group _ items => Value.datesAll items
  | .envelope e => e.date.toList
  | .body b => Body.dates b

def Value.datesAll : List Value → List Stamp
  | [] => []
  | v :: vs => Value.dates v ++ Value.datesAll vs

def Body.dates : Body → List Stamp
  | .single _ attached _ extension => Attached.dates attached ++ Value.datesAll extension
  | .multipart parts _ extension => Body.datesAll parts ++ Value.datesAll extension

def Body.datesAll : List Body → List Stamp
  | [] => []
  | b :: bs => Body.dates b ++ Body.datesAll bs

def Attached.dates : Attached → List Stamp
  | .none => []
  | .message envelope body => envelope.date.toList ++ Body.dates body
end

/-- A date can be written exactly if its year has at most four digits. -/
theorem Stamp.isSome_messageDate? (s : Stamp) : s.messageDate?.isSome = s.isWritable := by
  unfold Stamp.messageDate?
  cases h : s.isWritable <;> rfl

theorem Envelope.isSome_tree? (e : Envelope) :
    e.tree?.isSome = e.date.toList.all Stamp.isWritable := by
  unfold Envelope.tree?
  cases h : e.date with
  | none => rfl
  | some s => simp [Envelope.dateTree?, Stamp.isSome_messageDate?]

mutual
theorem Value.isSome_tree? (v : Value) : v.tree?.isSome = v.dates.all Stamp.isWritable := by
  cases v with
  | int n => rfl
  | bytes bs => rfl
  | nil => rfl
  | group b items => simp [Value.tree?, Value.dates, Value.isSome_treeAll? items]
  | flags fs => rfl
  | stamp s => rfl
  | envelope e => exact Envelope.isSome_tree? e
  | address a => rfl
  | body b => exact Body.isSome_tree? b

theorem Value.isSome_treeAll? (vs : List Value) :
    (Value.treeAll? vs).isSome = (Value.datesAll vs).all Stamp.isWritable := by
  cases vs with
  | nil => rfl
  | cons v vs =>
    rw [Value.datesAll, List.all_append, ← Value.isSome_tree? v, ← Value.isSome_treeAll? vs]
    cases h : v.tree? <;> cases hs : Value.treeAll? vs <;> simp [Value.treeAll?, h, hs]

theorem Body.isSome_tree? (b : Body) : b.tree?.isSome = b.dates.all Stamp.isWritable := by
  cases b with
  | single head attached lines extension =>
    rw [Body.dates, List.all_append, ← Attached.isSome_trees? attached,
      ← Value.isSome_treeAll? extension]
    cases h : attached.trees? <;> cases hs : Value.treeAll? extension <;>
      simp [Body.tree?, h, hs]
  | multipart parts subtype extension =>
    rw [Body.dates, List.all_append, ← Body.isSome_treeAll? parts,
      ← Value.isSome_treeAll? extension]
    cases h : Body.treeAll? parts <;> cases hs : Value.treeAll? extension <;>
      simp [Body.tree?, h, hs]

theorem Body.isSome_treeAll? (bs : List Body) :
    (Body.treeAll? bs).isSome = (Body.datesAll bs).all Stamp.isWritable := by
  cases bs with
  | nil => rfl
  | cons b bs =>
    rw [Body.datesAll, List.all_append, ← Body.isSome_tree? b, ← Body.isSome_treeAll? bs]
    cases h : b.tree? <;> cases hs : Body.treeAll? bs <;> simp [Body.treeAll?, h, hs]

theorem Attached.isSome_trees? (a : Attached) :
    a.trees?.isSome = a.dates.all Stamp.isWritable := by
  cases a with
  | none => rfl
  | message envelope body =>
    rw [Attached.dates, List.all_append, ← Envelope.isSome_tree? envelope,
      ← Body.isSome_tree? body]
    cases h : envelope.tree? <;> cases hs : body.tree? <;> simp [Attached.trees?, h, hs]
end

/-- **Values have forms exactly if all dates in them can be written.** -/
theorem Value.exists_formAll_iff (vs : List Value) :
    (∃ ts, Value.FormAll vs ts) ↔ ∀ s ∈ Value.datesAll vs, 0 ≤ s.year ∧ s.year ≤ 9999 := by
  have hwritable : ∀ s : Stamp, s.isWritable = true ↔ 0 ≤ s.year ∧ s.year ≤ 9999 := by
    intro s
    simp [Stamp.isWritable]
  have hsome : (∃ ts, Value.FormAll vs ts) ↔ (Value.treeAll? vs).isSome = true := by
    rw [Option.isSome_iff_exists]
    exact exists_congr fun ts => Value.formAll_iff
  rw [hsome, Value.isSome_treeAll?, List.all_eq_true]
  exact forall₂_congr fun s _ => hwritable s

end ImapWire
