/-
  What is said about folders is read back from its values.

  Each record is laid out in a shape of its own: numbers in a row, names with values, names with
  triplets, lists of lists.  The trees of the shape are given first, then what the reader makes of
  them.

  1. **The shapes are read back.**  A reader finds the fields where the shape puts them, in any number:
     pairs and triplets are told apart again, and each field is read back whatever it looks like.
     The names of a status are keys of a table, which holds what was put in if no two names are the
     same (`Table.perm_ofList`).

  2. **Shapes without their last value** are refused: pairs are no pairs then, triplets no triplets.

  3. **Depth.**  Most shapes are flat.  A status holds values of any depth and a namespace is followed by
     values that its reader ignores, but nesting is limited when the lines are read.  So a
     namespace can be lost by what would be ignored (`Namespaces.depthAll_trees_le_iff`).

  The records go over lines in these shapes (`Value.reread_folder_data`).
-/
import ImapWire.Mailbox.Read
import ImapWire.Proofs.Text.Encoded
import ImapWire.Proofs.Value.Field

namespace ImapWire

open Value (ofTree ofTrees reread Refuses)

/-! ## Searches -/

namespace SearchResult

/-- The number of a message, or the sequence of modifications in its list. -/
def itemTree : UInt32 ⊕ UInt64 → Tree
  | .inl id => .int (Int64.ofInt id.toNat)
  | .inr modseq => .group .round [.bytes (Bytes.ofString "MODSEQ"), .ofUInt64 modseq]

theorem readItem_itemTree (item : UInt32 ⊕ UInt64) : readItem (ofTree (itemTree item)) = .ok item := by
  cases item with
  | inl id => exact congrArg (Except.map Sum.inl) (Value.number32_ofInt "message id" id)
  | inr modseq => exact congrArg (Except.map Sum.inr) (Value.number64_ofUInt64 "MODSEQ" modseq)

/-- Numbers and sequences of modifications in any order. -/
theorem read_items (items : List (UInt32 ⊕ UInt64)) :
    read (ofTrees (items.map itemTree)) =
      .ok ⟨items.filterMap Sum.getLeft?, (items.filterMap Sum.getRight?).getLast?⟩ := by
  have hitems : (ofTrees (items.map itemTree)).mapM readItem = .ok items := by
    rw [Value.ofTrees_eq_map, List.map_map]
    exact Result.mapM_map_ok fun item _ => readItem_itemTree item
  rw [read, hitems]
  rfl

theorem depth_itemTree_le (item : UInt32 ⊕ UInt64) : (itemTree item).depth ≤ 1 := by
  cases item with
  | inl id => exact Nat.zero_le 1
  | inr modseq =>
    simp only [itemTree, Tree.depth, Tree.depthAll, Tree.depth_ofUInt64]
    omega

theorem fits_itemTree (item : UInt32 ⊕ UInt64) : (itemTree item).Fits := by
  cases item with
  | inl id => exact trivial
  | inr modseq =>
    have hname : (Bytes.ofString "MODSEQ").Fits := by decide
    exact ⟨hname, Tree.fits_ofUInt64 modseq, trivial⟩

theorem reread_items (items : List (UInt32 ⊕ UInt64)) :
    reread read (ofTrees (items.map itemTree)) =
      some (.ok ⟨items.filterMap Sum.getLeft?, (items.filterMap Sum.getRight?).getLast?⟩) := by
  have hdepth : Tree.depthAll (items.map itemTree) ≤ maxDepth := by
    rw [Tree.depthAll_le_iff, List.forall_mem_map]
    exact fun item _ => Nat.le_trans (depth_itemTree_le item) (by decide)
  have hfits : Tree.FitsAll (items.map itemTree) := by
    rw [Tree.fitsAll_iff, List.forall_mem_map]
    exact fun item _ => fits_itemTree item
  rw [Value.reread_ofTrees read hdepth hfits, read_items]

end SearchResult

/-! ## Tables -/

namespace Table

variable {κ ν : Type} [Ord κ] [Std.TransOrd κ] [Std.LawfulEqOrd κ]

omit [Std.TransOrd κ] in
/-- A new key is put among the entries. -/
theorem perm_put {k : κ} {v : ν} {es : List (κ × ν)} (h : k ∉ es.map Prod.fst) :
    (put k v es).Perm ((k, v) :: es) := by
  induction es with
  | nil => exact .refl _
  | cons e rest ih =>
    obtain ⟨k', v'⟩ := e
    rw [List.map_cons, List.mem_cons, not_or] at h
    obtain ⟨hne, hrest⟩ := h
    unfold put
    split
    · exact .refl _
    · next heq => exact absurd (Std.LawfulEqCmp.eq_of_compare heq) hne
    · exact ((ih hrest).cons _).trans (.swap _ _ _)

/-- New keys are put in one by one. -/
theorem perm_foldl_insert {es : List (κ × ν)} {t : Table κ ν}
    (h : (es.map Prod.fst ++ t.entries.map Prod.fst).Nodup) :
    (es.foldl (fun t e => t.insert e.1 e.2) t).entries.Perm (es ++ t.entries) := by
  induction es generalizing t with
  | nil => exact .refl _
  | cons e es ih =>
    obtain ⟨hnew, hes⟩ := List.nodup_cons.1 h
    have hput : (t.insert e.1 e.2).entries.Perm (e :: t.entries) :=
      perm_put fun hmem => hnew (List.mem_append_right _ hmem)
    have hkeys : (es.map Prod.fst ++ (t.insert e.1 e.2).entries.map Prod.fst).Perm
        ((e :: es).map Prod.fst ++ t.entries.map Prod.fst) :=
      ((hput.map Prod.fst).append_left _).trans List.perm_middle
    exact (ih (hkeys.nodup_iff.2 h)).trans ((hput.append_left es).trans List.perm_middle)

/-- **A table holds what was put in**, if no two keys are the same. -/
theorem perm_ofList {es : List (κ × ν)} (h : (es.map Prod.fst).Nodup) :
    (ofList es).entries.Perm es := by
  have hempty : (es.map Prod.fst ++ (empty : Table κ ν).entries.map Prod.fst).Nodup := by
    rwa [show (empty : Table κ ν).entries.map Prod.fst = [] from rfl, List.append_nil]
  have hall := perm_foldl_insert hempty
  rwa [show (empty : Table κ ν).entries = [] from rfl, List.append_nil] at hall

end Table

/-! ## Status -/

namespace FolderState

variable {mailbox : Bytes} {items : List (String × Tree)}

/-- A folder and a list. -/
def trees (mailbox : Bytes) (list : List Tree) : List Tree := [.bytes mailbox, .group .round list]

/-- Names with their values. -/
def itemTrees (items : List (String × Tree)) : List Tree :=
  items.flatMap fun item => [.bytes (Bytes.ofString item.1), item.2]

/-- What is kept of them. -/
def entries (items : List (String × Tree)) : List (String × Value) :=
  items.map fun item => (item.1, ofTree item.2)

theorem read_trees (hnames : ∀ item ∈ items, Text.upper item.1 = item.1) :
    read (ofTrees (trees mailbox (itemTrees items))) =
      .ok ⟨mailbox, Table.ofList (entries items)⟩ := by
  have hkey : ∀ item ∈ items, keyOf (Bytes.ofString item.1) = item.1 := fun item hitem =>
    (congrArg Text.upper (Bytes.text_ofString item.1)).trans (hnames item hitem)
  refine Result.bind_eq_ok.2 ⟨mailbox, rfl, Result.bind_eq_ok.2 ⟨_, Value.pairs_flatMap _ _ _ _,
    Result.bind_eq_ok.2 ⟨entries items, ?_, rfl⟩⟩⟩
  exact Result.mapM_map fun item hitem =>
    congrArg (fun key => Except.ok (key, ofTree item.2)) (hkey item hitem)

/-- A status is one list deeper than its values. -/
theorem depthAll_trees_le {n : Nat} (hdepth : ∀ item ∈ items, item.2.depth ≤ n) :
    Tree.depthAll (trees mailbox (itemTrees items)) ≤ n + 1 := by
  have hitems : Tree.depthAll (itemTrees items) ≤ n := Tree.depthAll_flatMap_le fun item hitem =>
    Nat.max_le.2 ⟨Nat.zero_le n, Nat.max_le.2 ⟨hdepth item hitem, Nat.zero_le n⟩⟩
  exact Nat.max_le.2 ⟨Nat.zero_le _, Nat.max_le.2 ⟨Nat.succ_le_succ hitems, Nat.zero_le _⟩⟩

/-- Two values are what a status takes. -/
theorem isRefusal_dropLast (mailbox : Bytes) (list : List Tree) :
    ∃ e, read (ofTrees (trees mailbox list).dropLast) = .error e ∧ e.IsRefusal :=
  ⟨_, rfl, Error.isRefusal_near .statusShape [.bytes mailbox]⟩

/-- Each name has its value. -/
theorem isRefusal_items_dropLast (mailbox : Bytes) (hne : items ≠ []) :
    ∃ e, read (ofTrees (trees mailbox (itemTrees items).dropLast)) = .error e ∧ e.IsRefusal := by
  obtain ⟨e, he, hrefusal⟩ := Value.isRefusal_pairs "STATUS"
    (Value.length_dropLast_flatMap_two (fun item => .bytes (Bytes.ofString item.1)) Prod.snd hne)
  refine ⟨e, ?_, hrefusal⟩
  exact Result.bind_eq_error.2 (Or.inr ⟨mailbox, rfl, Result.bind_eq_error.2 (Or.inl he)⟩)

end FolderState

/-! ## Quotas -/

namespace Quota

/-- Resources, each with how much is used and how much may be. -/
def resourceTrees (quotas : List Quota) : List Tree :=
  quotas.flatMap fun q => [.bytes q.resource, .ofUInt64 q.usage, .ofUInt64 q.limit]

/-- Roots with the lists of their resources. -/
def rootTrees (roots : List (Bytes × List Tree)) : List Tree :=
  roots.flatMap fun root => [.bytes root.1, .group .round root.2]

/-- A root with all of its quotas. -/
structure OfRoot where
  root : Bytes
  quotas : List Quota
  root_eq : ∀ q ∈ quotas, q.root = root

/-- A quota alone, whatever other ones of its root there are. -/
def single (q : Quota) : OfRoot := ⟨q.root, [q], List.forall_mem_singleton.2 rfl⟩

/-- The root with the list of its resources. -/
def OfRoot.fields (r : OfRoot) : Bytes × List Tree := (r.root, resourceTrees r.quotas)

/-- Quotas one by one, each with its root in front. -/
def trees (qs : List Quota) : List Tree :=
  qs.flatMap fun q =>
    [.bytes q.root, .group .round [.bytes q.resource, .ofUInt64 q.usage, .ofUInt64 q.limit]]

theorem trees_eq (qs : List Quota) : trees qs = rootTrees ((qs.map single).map OfRoot.fields) := by
  rw [rootTrees, List.map_map, List.flatMap_map]
  rfl

/-- Reads a root and the items of a list. -/
def readFields (fields : Bytes × List Tree) : Result (List Quota) :=
  readRoot (.bytes fields.1) (.group .round (ofTrees fields.2))

theorem readFields_fields (r : OfRoot) : readFields r.fields = .ok r.quotas := by
  have hlength : (ofTrees (resourceTrees r.quotas)).length % 3 = 0 := by
    rw [Value.length_ofTrees, resourceTrees, Value.length_flatMap_three, Nat.mul_mod_right]
  refine Result.bind_eq_ok.2 ⟨r.root, rfl, ?_⟩
  refine (if_pos hlength).trans ?_
  rw [OfRoot.fields, resourceTrees, Value.tripleUp_flatMap]
  refine Result.mapM_map_ok fun q hq => ?_
  refine Result.bind_eq_ok.2 ⟨q.resource, rfl, ?_⟩
  refine Result.bind_eq_ok.2 ⟨q.usage, Value.number64_ofUInt64 _ _, ?_⟩
  refine Result.bind_eq_ok.2 ⟨q.limit, Value.number64_ofUInt64 _ _, ?_⟩
  rw [← r.root_eq q hq]

/-- Resources without the last value are no triplets. -/
theorem isRefusal_readFields (root : Bytes) {quotas : List Quota} (hne : quotas ≠ []) :
    ∃ e, readFields (root, (resourceTrees quotas).dropLast) = .error e ∧ e.IsRefusal := by
  have hlength : ¬ (ofTrees (resourceTrees quotas).dropLast).length % 3 = 0 := by
    rw [Value.length_ofTrees, resourceTrees]
    exact Value.length_dropLast_flatMap_three _ _ _ hne
  refine ⟨_, Result.bind_eq_error.2 (Or.inr ⟨root, rfl, if_neg hlength⟩), ?_⟩
  exact Error.isRefusal_near .quotaTriplets _

/-- All roots are read, and then their quotas are put together. -/
theorem readAll_rootTrees (roots : List (Bytes × List Tree)) :
    readAll (ofTrees (rootTrees roots)) =
      roots.mapM readFields >>= fun quotas => .ok quotas.flatten := by
  unfold readAll rootTrees
  rw [Value.pairs_flatMap]
  show ((roots.map fun root => (ofTree (.bytes root.1), ofTree (.group .round root.2))).mapM
    fun root => readRoot root.1 root.2) >>= _ = _
  rw [List.mapM_map]
  rfl

theorem readAll_fields (roots : List OfRoot) :
    readAll (ofTrees (rootTrees (roots.map OfRoot.fields))) = .ok (roots.flatMap OfRoot.quotas) := by
  rw [readAll_rootTrees, Result.mapM_map fun r _ => readFields_fields r]
  rfl

theorem isRefusal_dropLast {roots : List (Bytes × List Tree)} (hne : roots ≠ []) :
    ∃ e, readAll (ofTrees (rootTrees roots).dropLast) = .error e ∧ e.IsRefusal := by
  obtain ⟨e, he, hrefusal⟩ := Value.isRefusal_pairs "QUOTA"
    (Value.length_dropLast_flatMap_two (fun root => .bytes root.1)
      (fun root : Bytes × List Tree => .group .round root.2) hne)
  exact ⟨e, Result.bind_eq_error.2 (Or.inl he), hrefusal⟩

/-- Nothing is read if that is so for one root, whatever is behind it. -/
theorem isRefusal_resources_dropLast (front : List OfRoot) {r : OfRoot} (hne : r.quotas ≠ [])
    (back : List (Bytes × List Tree)) :
    ∃ e, readAll (ofTrees (rootTrees (front.map OfRoot.fields ++
      (r.root, (resourceTrees r.quotas).dropLast) :: back))) = .error e ∧ e.IsRefusal := by
  obtain ⟨e, he, hrefusal⟩ := isRefusal_readFields r.root hne
  refine ⟨e, ?_, hrefusal⟩
  rw [readAll_rootTrees, List.mapM_append, List.mapM_cons, he,
    Result.mapM_map fun r _ => readFields_fields r]
  rfl

/-- Roots are flat but for the lists of their resources. -/
theorem depthAll_fields_le (roots : List OfRoot) :
    Tree.depthAll (rootTrees (roots.map OfRoot.fields)) ≤ 1 := by
  refine Tree.depthAll_flatMap_le (List.forall_mem_map.2 fun r _ => ?_)
  have hflat : Tree.depthAll r.fields.2 ≤ 0 := Tree.depthAll_flatMap_le fun q _ => by
    simp only [Tree.depthAll, Tree.depth_ofUInt64, Tree.depth]
    omega
  exact Nat.max_le.2 ⟨Nat.zero_le 1, Nat.max_le.2 ⟨Nat.succ_le_succ hflat, Nat.zero_le 1⟩⟩

theorem reread_fields {roots : List OfRoot}
    (hfits : Tree.FitsAll (rootTrees (roots.map OfRoot.fields))) :
    reread readAll (ofTrees (rootTrees (roots.map OfRoot.fields))) =
      some (.ok (roots.flatMap OfRoot.quotas)) := by
  have hdepth := Nat.le_trans (depthAll_fields_le roots) (by decide : 1 ≤ maxDepth)
  rw [Value.reread_ofTrees readAll hdepth hfits, readAll_fields]

theorem reread_trees {qs : List Quota} (hfits : Tree.FitsAll (trees qs)) :
    reread readAll (ofTrees (trees qs)) = some (.ok qs) := by
  have hall : (qs.map single).flatMap OfRoot.quotas = qs := by
    rw [List.flatMap_map]
    exact List.flatMap_singleton' qs
  rw [trees_eq] at hfits ⊢
  rw [reread_fields hfits, hall]

end Quota

/-! ## Quota roots -/

namespace QuotaRoots

/-- A folder and the names of its quota roots. -/
def trees (r : QuotaRoots) : List Tree := .bytes r.mailbox :: r.roots.map .bytes

theorem read_trees (r : QuotaRoots) : read (ofTrees r.trees) = .ok r :=
  Result.bind_eq_ok.2 ⟨r.mailbox, rfl,
    Result.bind_eq_ok.2 ⟨r.roots, Value.strings_bytes "quota root" r.roots, rfl⟩⟩

theorem depthAll_trees_le (r : QuotaRoots) : Tree.depthAll r.trees ≤ 0 :=
  Tree.depthAll_le_iff.2 (List.forall_mem_cons.2 ⟨Nat.le_refl 0,
    List.forall_mem_map.2 fun _ _ => Nat.le_refl 0⟩)

end QuotaRoots

/-! ## Lists in lists -/

/-- Lists in one another, with nothing inside. -/
def Tree.nested : Nat → Tree
  | 0 => .nil
  | n + 1 => .group .round [nested n]

theorem Tree.depthAll_nested (n : Nat) : depthAll [nested n] = n := by
  induction n with
  | zero => rfl
  | succ n ih =>
    show max (depthAll [nested n] + 1) 0 = n + 1
    rw [ih, Nat.max_zero]

theorem Tree.fitsAll_nested (n : Nat) : FitsAll [nested n] := by
  induction n with
  | zero => exact ⟨trivial, trivial⟩
  | succ n ih => exact ⟨ih, trivial⟩

/-! ## Namespaces -/

/-- A namespace with the values behind it, which can be written. -/
structure Namespace.Entry where
  entry : Namespace
  extension : List Value
  form : List Tree
  isForm : Value.FormAll extension form

namespace Namespace

/-- The list of a namespace, its extension as it is. -/
def Entry.value (e : Entry) : Value :=
  .group .round (.bytes e.entry.start :: ofTree (.ofOption e.entry.delimiter) :: e.extension)

def Entry.tree (e : Entry) : Tree :=
  .group .round (.bytes e.entry.start :: .ofOption e.entry.delimiter :: e.form)

theorem Entry.form_value (e : Entry) : Value.Form e.value e.tree :=
  .group .round (.cons (.bytes _) (.cons (Value.form_ofTree _) e.isForm))

/-- What is behind a namespace is not looked at. -/
theorem Entry.read_tree (e : Entry) : read (ofTree e.tree) = .ok e.entry :=
  Result.bind_eq_ok.2 ⟨e.entry.start, rfl,
    Result.bind_eq_ok.2 ⟨e.entry.delimiter, Value.nstring_ofOption _ _, rfl⟩⟩

/-- The namespaces of one sort; `NIL` if there is none. -/
def groupValue (es : List Entry) : Value :=
  if es.isEmpty then .nil else .group .round (es.map Entry.value)

def groupTree (es : List Entry) : Tree :=
  if es.isEmpty then .nil else .group .round (es.map Entry.tree)

theorem form_groupValue (es : List Entry) : Value.Form (groupValue es) (groupTree es) := by
  cases es with
  | nil => exact .nil
  | cons e es => exact .group .round (Value.formAll_map fun e _ => e.form_value)

theorem readGroup_groupTree (es : List Entry) :
    readGroup (ofTree (groupTree es)) = .ok (es.map Entry.entry) := by
  cases es with
  | nil => rfl
  | cons e es =>
    show (ofTrees ((e :: es).map Entry.tree)).mapM read = _
    rw [Value.ofTrees_eq_map, List.map_map]
    exact Result.mapM_map fun e _ => e.read_tree

/-- Extensions are two lists deep in their group. -/
theorem depth_groupTree_le_iff {es : List Entry} {n : Nat} :
    (groupTree es).depth ≤ n + 2 ↔ ∀ e ∈ es, Tree.depthAll e.form ≤ n := by
  have hentry : ∀ e : Entry, e.tree.depth ≤ n + 1 ↔ Tree.depthAll e.form ≤ n := by
    intro e
    simp only [Entry.tree, Tree.depth, Tree.depthAll, Tree.depth_ofOption]
    omega
  cases es with
  | nil => exact ⟨fun _ => List.forall_mem_nil _, fun _ => Nat.zero_le _⟩
  | cons e es =>
    show Tree.depthAll ((e :: es).map Entry.tree) + 1 ≤ n + 2 ↔ _
    rw [Nat.add_le_add_iff_right (k := n + 1), Tree.depthAll_le_iff, List.forall_mem_map]
    exact forall₂_congr fun e _ => hentry e

end Namespace

namespace Namespaces

open Namespace (Entry groupValue groupTree)

variable {personal other shared : List Entry}

/-- The groups of the three sorts. -/
def values (personal other shared : List Entry) : List Value :=
  [groupValue personal, groupValue other, groupValue shared]

def trees (personal other shared : List Entry) : List Tree :=
  [groupTree personal, groupTree other, groupTree shared]

theorem formAll_values (personal other shared : List Entry) :
    Value.FormAll (values personal other shared) (trees personal other shared) :=
  .cons (Namespace.form_groupValue _) (.cons (Namespace.form_groupValue _)
    (.cons (Namespace.form_groupValue _) .nil))

theorem read_trees (personal other shared : List Entry) :
    read (ofTrees (trees personal other shared)) =
      .ok ⟨personal.map Entry.entry, other.map Entry.entry, shared.map Entry.entry⟩ :=
  Result.bind_eq_ok.2 ⟨_, Namespace.readGroup_groupTree personal,
    Result.bind_eq_ok.2 ⟨_, Namespace.readGroup_groupTree other,
      Result.bind_eq_ok.2 ⟨_, Namespace.readGroup_groupTree shared, rfl⟩⟩⟩

/-- **Namespaces are as deep as what is behind them**, and two lists more. -/
theorem depthAll_trees_le_iff {n : Nat} :
    Tree.depthAll (trees personal other shared) ≤ n + 2 ↔
      ∀ e ∈ personal ++ other ++ shared, Tree.depthAll e.form ≤ n := by
  simp only [trees, Tree.depthAll, Nat.max_le, Nat.zero_le, and_true,
    Namespace.depth_groupTree_le_iff, List.forall_mem_append, and_assoc]

theorem isRefusal_dropLast (personal other shared : List Entry) :
    ∃ e, read (ofTrees (trees personal other shared).dropLast) = .error e ∧ e.IsRefusal :=
  ⟨_, rfl, Error.isRefusal_near (.namespaceGroups 2) [groupTree personal, groupTree other]⟩

/-- What is behind a namespace may be too deep to be read. -/
theorem refuses_of_deep (hfits : Tree.FitsAll (trees personal other shared))
    (hdeep : ∃ e ∈ personal ++ other ++ shared, 254 < Tree.depthAll e.form) :
    Refuses read (values personal other shared) := by
  refine Value.refuses_of_deep read (formAll_values _ _ _) (Nat.lt_of_not_le fun hle => ?_) hfits
  obtain ⟨e, he, hdeep⟩ := hdeep
  exact absurd (depthAll_trees_le_iff.1 hle e he) (Nat.not_le_of_lt hdeep)

end Namespaces

/-! ## Over lines -/

/-- **What is said about folders survives its lines.**

    The numbers of a search with the sequence of modifications anywhere among them, the items of a
    status under different names in capitals, quotas root by root or one by one, the quota roots of
    a folder, and namespaces are written in their shapes and read back as the same record.  Values
    of a status may nest 255 lists deep.  What is behind a namespace may be anything that can be
    written and nests 254 lists deep; if it nests deeper, the namespaces are lost.

    Without the last value of a status, of its items, of quotas, of the resources of one root or of
    the three groups of namespaces, reading fails.  (`FitsAll`: no byte string has 2⁶⁴ bytes.) -/
theorem Value.reread_folder_data :
    (∀ (s : SearchResult) (items : List (UInt32 ⊕ UInt64)),
      items.filterMap Sum.getLeft? = s.ids → items.filterMap Sum.getRight? = s.modseq.toList →
      reread SearchResult.read (ofTrees (items.map SearchResult.itemTree)) = some (.ok s)) ∧
    (∀ (mailbox : Bytes) (items : List (String × Tree)), (items.map Prod.fst).Nodup →
      (∀ item ∈ items, Text.upper item.1 = item.1) → (∀ item ∈ items, item.2.depth ≤ 255) →
      Tree.FitsAll (FolderState.trees mailbox (FolderState.itemTrees items)) →
      ∃ s : FolderState, s.mailbox = mailbox ∧ s.items.entries.Perm (FolderState.entries items) ∧
        reread FolderState.read (ofTrees (FolderState.trees mailbox (FolderState.itemTrees items))) =
          some (.ok s)) ∧
    (∀ roots : List Quota.OfRoot, Tree.FitsAll (Quota.rootTrees (roots.map Quota.OfRoot.fields)) →
      reread Quota.readAll (ofTrees (Quota.rootTrees (roots.map Quota.OfRoot.fields))) =
        some (.ok (roots.flatMap Quota.OfRoot.quotas))) ∧
    (∀ qs : List Quota, Tree.FitsAll (Quota.trees qs) →
      reread Quota.readAll (ofTrees (Quota.trees qs)) = some (.ok qs)) ∧
    (∀ r : QuotaRoots, Tree.FitsAll r.trees →
      reread QuotaRoots.read (ofTrees r.trees) = some (.ok r)) ∧
    (∀ personal other shared : List Namespace.Entry,
      Tree.FitsAll (Namespaces.trees personal other shared) →
      ((∀ e ∈ personal ++ other ++ shared, Tree.depthAll e.form ≤ 254) →
        reread Namespaces.read (Namespaces.values personal other shared) =
          some (.ok ⟨personal.map Namespace.Entry.entry, other.map Namespace.Entry.entry,
            shared.map Namespace.Entry.entry⟩)) ∧
      ((∃ e ∈ personal ++ other ++ shared, 254 < Tree.depthAll e.form) →
        Refuses Namespaces.read (Namespaces.values personal other shared))) ∧
    (∀ (mailbox : Bytes) (list : List Tree),
      Tree.FitsAll (FolderState.trees mailbox list).dropLast →
      Refuses FolderState.read (ofTrees (FolderState.trees mailbox list).dropLast)) ∧
    (∀ (mailbox : Bytes) (items : List (String × Tree)), items ≠ [] →
      Tree.FitsAll (FolderState.trees mailbox (FolderState.itemTrees items).dropLast) →
      Refuses FolderState.read
        (ofTrees (FolderState.trees mailbox (FolderState.itemTrees items).dropLast))) ∧
    (∀ roots : List (Bytes × List Tree), roots ≠ [] →
      Tree.FitsAll (Quota.rootTrees roots).dropLast →
      Refuses Quota.readAll (ofTrees (Quota.rootTrees roots).dropLast)) ∧
    (∀ (front : List Quota.OfRoot) (r : Quota.OfRoot) (back : List (Bytes × List Tree)),
      r.quotas ≠ [] →
      Tree.FitsAll (Quota.rootTrees (front.map Quota.OfRoot.fields ++
        (r.root, (Quota.resourceTrees r.quotas).dropLast) :: back)) →
      Refuses Quota.readAll (ofTrees (Quota.rootTrees (front.map Quota.OfRoot.fields ++
        (r.root, (Quota.resourceTrees r.quotas).dropLast) :: back)))) ∧
    ∀ personal other shared : List Namespace.Entry,
      Tree.FitsAll (Namespaces.trees personal other shared).dropLast →
      Refuses Namespaces.read (Namespaces.values personal other shared).dropLast := by
  refine ⟨?searches, ?status, ?quotas, ?single, ?roots, ?namespaces, ?cutStatus, ?cutItems,
    ?cutQuotas, ?cutResources, ?cutNamespaces⟩
  case searches =>
    intro s items hids hmodseq
    have hlast : s.modseq.toList.getLast? = s.modseq := by cases s.modseq <;> rfl
    rw [SearchResult.reread_items, hids, hmodseq, hlast]
  case status =>
    intro mailbox items hdistinct hnames hdepth hfits
    refine ⟨⟨mailbox, Table.ofList (FolderState.entries items)⟩, rfl, Table.perm_ofList ?_, ?_⟩
    · rwa [FolderState.entries, List.map_map]
    · rw [reread_ofTrees _ (FolderState.depthAll_trees_le hdepth) hfits,
        FolderState.read_trees hnames]
  case quotas => exact fun roots hfits => Quota.reread_fields hfits
  case single => exact fun qs hfits => Quota.reread_trees hfits
  case roots =>
    intro r hfits
    have hdepth : Tree.depthAll r.trees ≤ maxDepth := Nat.le_trans r.depthAll_trees_le (Nat.zero_le _)
    rw [reread_ofTrees _ hdepth hfits, QuotaRoots.read_trees]
  case namespaces =>
    intro personal other shared hfits
    refine ⟨fun hdepth => ?_, Namespaces.refuses_of_deep hfits⟩
    rw [reread_of_formAll _ (Namespaces.formAll_values _ _ _)
      (Namespaces.depthAll_trees_le_iff.2 hdepth) hfits, Namespaces.read_trees]
  case cutStatus =>
    exact fun mailbox list hfits => refuses_of_isRefusal (formAll_ofTrees _) hfits
      (FolderState.isRefusal_dropLast mailbox list)
  case cutItems =>
    exact fun mailbox items hne hfits => refuses_of_isRefusal (formAll_ofTrees _) hfits
      (FolderState.isRefusal_items_dropLast mailbox hne)
  case cutQuotas =>
    exact fun roots hne hfits => refuses_of_isRefusal (formAll_ofTrees _) hfits
      (Quota.isRefusal_dropLast hne)
  case cutResources =>
    exact fun front r back hne hfits => refuses_of_isRefusal (formAll_ofTrees _) hfits
      (Quota.isRefusal_resources_dropLast front hne back)
  case cutNamespaces =>
    intro personal other shared hfits
    have hform : Value.FormAll (Namespaces.values personal other shared).dropLast
        (Namespaces.trees personal other shared).dropLast :=
      .cons (Namespace.form_groupValue personal) (.cons (Namespace.form_groupValue other) .nil)
    exact refuses_of_isRefusal hform hfits (Namespaces.isRefusal_dropLast personal other shared)

/-- Numbers past those of 32 and of 63 bits, a name that looks like nothing, a status item that does, a
    root with two resources, and a namespace with flags behind it. -/
theorem Value.reread_folder_data_numbers :
    reread SearchResult.read (ofTrees [.int 3,
        .group .round [.bytes (Bytes.ofString "MODSEQ"), .bytes (Bytes.ofString "9223372036854775808")],
        .int 4294967295]) = some (.ok ⟨[3, 4294967295], some 9223372036854775808⟩) ∧
    (∃ s : FolderState, s.mailbox = Tree.nilWord ∧
      s.items.entries.Perm [("NIL", .int 2), ("7", .group .round [.nil])] ∧
      reread FolderState.read (ofTrees [.bytes Tree.nilWord, .group .round
        [.bytes (Bytes.ofString "NIL"), .int 2, .bytes (Bytes.ofString "7"), .group .round [.nil]]]) =
          some (.ok s)) ∧
    reread Quota.readAll (ofTrees [.bytes [], .group .round [.bytes [0x61], .int 1, .int 2,
        .bytes [0x62], .int 0, .bytes (Bytes.ofString "18446744073709551615")]]) =
      some (.ok [⟨[], [0x61], 1, 2⟩, ⟨[], [0x62], 0, 18446744073709551615⟩]) ∧
    reread Quota.readAll (ofTrees [.bytes [], .group .round [.bytes [0x61], .int 1, .int 2]]) =
      some (.ok [⟨[], [0x61], 1, 2⟩]) ∧
    reread QuotaRoots.read (ofTrees [.bytes [0x31], .bytes []]) = some (.ok ⟨[0x31], [[]]⟩) ∧
    reread Namespaces.read [.group .round [.group .round [.bytes [], .nil, .flags [[0x5C]]]],
        .nil, .nil] = some (.ok ⟨[⟨[], none⟩], [], []⟩) ∧
    Refuses Namespaces.read [.nil, .nil, .group .round [.group .round [.bytes [], .nil,
      ofTree (Tree.nested 255)]]] ∧
    Refuses FolderState.read (ofTrees [.bytes Tree.nilWord]) ∧
    Refuses FolderState.read (ofTrees [.bytes Tree.nilWord, .group .round
      [.bytes (Bytes.ofString "NIL")]]) ∧
    Refuses Quota.readAll (ofTrees [.bytes []]) ∧
    Refuses Quota.readAll (ofTrees [.bytes [], .group .round [.bytes [0x61], .int 1]]) ∧
    Refuses Namespaces.read [.group .round [.group .round [.bytes [], .nil, .flags [[0x5C]]]],
      .nil] := by
  obtain ⟨hsearch, hstatus, hquotas, hsingle, hroots, hnamespaces, hcutStatus, hcutItems, hcutQuotas,
    hcutResources, hcutNamespaces⟩ := reread_folder_data
  have htrees : [.inl 3, .inr 9223372036854775808, .inl 4294967295].map SearchResult.itemTree =
      [.int 3, .group .round
        [.bytes (Bytes.ofString "MODSEQ"), .bytes (Bytes.ofString "9223372036854775808")],
        .int 4294967295] := by decide +kernel
  have hshape : Quota.rootTrees ([(⟨[], [⟨[], [0x61], 1, 2⟩, ⟨[], [0x62], 0, 18446744073709551615⟩],
      by decide⟩ : Quota.OfRoot)].map Quota.OfRoot.fields) =
        [.bytes [], .group .round [.bytes [0x61], .int 1, .int 2, .bytes [0x62], .int 0,
          .bytes (Bytes.ofString "18446744073709551615")]] := by decide +kernel
  have hone : Quota.trees [⟨[], [0x61], 1, 2⟩] =
      [.bytes [], .group .round [.bytes [0x61], .int 1, .int 2]] := by decide +kernel
  have hnamespace := hnamespaces [⟨⟨[], none⟩, [.flags [[0x5C]]], [.group .round [.bytes [0x5C]]],
    .cons (.flags _) .nil⟩] [] [] (by decide)
  have hlost := hnamespaces [] [] [⟨⟨[], none⟩, [ofTree (Tree.nested 255)], [Tree.nested 255],
    formAll_ofTrees [Tree.nested 255]⟩]
    ⟨trivial, trivial, ⟨⟨Nat.two_pow_pos 64, trivial, Tree.fitsAll_nested 255⟩, trivial⟩, trivial⟩
  have hdeep : 254 < Tree.depthAll [Tree.nested 255] := by
    rw [Tree.depthAll_nested]
    decide
  refine ⟨?_, ?_, ?_, ?_, ?_, hnamespace.1 (by decide),
    hlost.2 ⟨_, List.mem_singleton.2 rfl, hdeep⟩, ?_, ?_, ?_, ?_, ?_⟩
  · rw [← htrees]
    exact hsearch _ _ rfl rfl
  · exact hstatus _ [("NIL", .int 2), ("7", .group .round [.nil])] (by decide) (by decide +kernel)
      (by decide) (by decide +kernel)
  · rw [← hshape]
    exact hquotas _ (by decide +kernel)
  · rw [← hone]
    exact hsingle _ (by decide +kernel)
  · exact hroots ⟨[0x31], [[]]⟩ (by decide)
  · exact hcutStatus Tree.nilWord [] (by decide +kernel)
  · exact hcutItems _ [("NIL", .int 2)] (by decide) (by decide +kernel)
  · exact hcutQuotas [([], [])] (by decide) (by decide)
  · exact hcutResources [] ⟨[], [⟨[], [0x61], 1, 2⟩], by decide⟩ [] (by decide) (by decide +kernel)
  · exact hcutNamespaces [⟨⟨[], none⟩, [.flags [[0x5C]]], [.group .round [.bytes [0x5C]]],
      .cons (.flags _) .nil⟩] [] [] (by decide)

/-- What is behind a namespace is ignored, but it must be written and read: with an envelope of the year
    10000 nothing is written, and with lists that are 255 deep nothing is read. -/
theorem Namespaces.refuses_nested :
    Refuses read [.group .round [.group .round [.bytes (Bytes.ofString "p"), .nil,
      ofTree (Tree.nested 255)]], .nil, .nil] ∧
    reread read [.group .round [.group .round [.bytes (Bytes.ofString "p"), .nil,
      ofTree (Tree.nested 255)]], .nil, .nil] ≠
        some (.ok ⟨[⟨Bytes.ofString "p", none⟩], [], []⟩) ∧
    reread read [.group .round [.group .round [.bytes (Bytes.ofString "p"), .nil,
      .envelope ⟨some ⟨253402300800, 0, 0⟩, none, [], [], [], [], [], [], none, none⟩]], .nil,
        .nil] = none := by
  have hfits : (Bytes.ofString "p").Fits := by decide
  have hdeep : 254 < Tree.depthAll [Tree.nested 255] := by
    rw [Tree.depthAll_nested]
    decide
  have hfitsAll : Tree.FitsAll (trees [⟨⟨Bytes.ofString "p", none⟩, [ofTree (Tree.nested 255)],
      [Tree.nested 255], Value.formAll_ofTrees [Tree.nested 255]⟩] [] []) :=
    ⟨⟨⟨hfits, trivial, Tree.fitsAll_nested 255⟩, trivial⟩, trivial, trivial, trivial⟩
  have hrefuses := refuses_of_deep hfitsAll ⟨_, List.mem_singleton.2 rfl, hdeep⟩
  refine ⟨hrefuses, fun hread => ?_, rfl⟩
  obtain ⟨e, he, -⟩ := hrefuses
  exact absurd (he.symm.trans hread) nofun

end ImapWire
