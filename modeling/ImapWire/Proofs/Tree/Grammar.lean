/-
  The tree parser accepts exactly the bracket grammar.

  A forest is a sequence of written trees: groups in round or square brackets, and words.  Its
  sentence is its tokens from left to right, and it may be parsed if it nests no deeper than
  `maxDepth`.  That these sentences are accepted, and no others, is `Tree.ofScan_tokensAll` and
  `Tree.ofScan_ok`.  What is left is to show that the grammar leaves no choice.

  1. **A sentence has one forest** (`tokensAll_injective`).  A tree is over where its own tokens
     say so: two trees that start the same tokens are the same tree and leave the same tokens
     (`tokens_cancel`).  A sequence of trees is over where no tree can start, which is at the end or
     at a closing bracket (`Over`).

  2. **Nothing but the nesting is refused** (`Nest.run_error`): where every token could be read, a
     failure is one of the tree, not of a token.

  3. **The grammar** (`Tree.parse_forest`).
-/
import ImapWire.Proofs.Tree.Written

namespace ImapWire

namespace Written

/-! ## Depth -/

mutual
/-- How deep groups nest in a written tree. -/
def depth : Written → Nat
  | word _ => 0
  | group _ items => depthAll items + 1

/-- How deep groups nest in a forest. -/
def depthAll : List Written → Nat
  | [] => 0
  | w :: ws => max (depth w) (depthAll ws)
end

mutual
theorem depth_tree (w : Written) : w.tree.depth = w.depth := by
  cases w with
  | word w => exact Word.depth_tree w
  | group b items =>
    show Tree.depthAll (treeAll items) + 1 = depthAll items + 1
    rw [depthAll_treeAll]

/-- The spelling of the words has no part in the depth. -/
theorem depthAll_treeAll (ws : List Written) : Tree.depthAll (treeAll ws) = depthAll ws := by
  cases ws with
  | nil => rfl
  | cons w ws =>
    show max w.tree.depth (Tree.depthAll (treeAll ws)) = max w.depth (depthAll ws)
    rw [depth_tree, depthAll_treeAll]
end

/-! ## A sentence has one forest -/

/-- No tree starts here: the tokens are over, or a bracket closes. -/
def Over (toks : List Token) : Prop := ∀ t ∈ toks.head?, ∃ b, t = .closing b

theorem over_nil : Over [] := nofun

theorem over_closing (b : Bracket) (rest : List Token) : Over (.closing b :: rest) := by
  intro t ht
  cases ht
  exact ⟨b, rfl⟩

theorem not_over_tokens (w : Written) (rest : List Token) : ¬ Over (w.tokens ++ rest) := by
  intro h
  cases w with
  | word w =>
    obtain ⟨b, hb⟩ := h w.token rfl
    cases w <;> cases hb
  | group k items =>
    obtain ⟨b, hb⟩ := h (.opening k) rfl
    cases hb

theorem token_injective {w v : Word} (h : w.token = v.token) : w = v := by
  cases w <;> cases v <;> cases h <;> rfl

theorem token_ne_opening (w : Word) (b : Bracket) : w.token ≠ .opening b := by
  cases w <;> nofun

mutual
/-- **A tree is over where its tokens say so.**  If two trees start the same tokens they are the same
    tree, with the same tokens behind it. -/
theorem tokens_cancel (w v : Written) {after after' : List Token}
    (h : w.tokens ++ after = v.tokens ++ after') : w = v ∧ after = after' := by
  cases w with
  | word w =>
    cases v with
    | word v =>
      obtain ⟨htoken, hafter⟩ := List.cons.inj h
      rw [token_injective htoken]
      exact ⟨rfl, hafter⟩
    | group b items => exact absurd (List.cons.inj h).1 (token_ne_opening w b)
  | group b items =>
    cases v with
    | word v => exact absurd (List.cons.inj h).1.symm (token_ne_opening v b)
    | group b' items' =>
      simp only [tokens, List.cons_append, List.append_assoc, List.nil_append] at h
      obtain ⟨hbracket, hinside⟩ := List.cons.inj h
      cases hbracket
      -- the bracket that closes the group ends its items
      obtain ⟨hitems, hbehind⟩ :=
        tokensAll_cancel items items' (over_closing b _) (over_closing b _) hinside
      rw [hitems]
      exact ⟨rfl, (List.cons.inj hbehind).2⟩

/-- The same for forests, if no tree starts behind them. -/
theorem tokensAll_cancel (ws vs : List Written) {after after' : List Token} (hover : Over after)
    (hover' : Over after') (h : tokensAll ws ++ after = tokensAll vs ++ after') :
    ws = vs ∧ after = after' := by
  -- the first tree of a forest, and the tokens behind it
  have hfirst : ∀ (w : Written) (ws : List Written) (rest : List Token),
      tokensAll (w :: ws) ++ rest = w.tokens ++ (tokensAll ws ++ rest) :=
    fun w ws rest => List.append_assoc ..
  cases ws with
  | nil =>
    cases vs with
    | nil => exact ⟨rfl, h⟩
    | cons v vs =>
      have hstart : after = v.tokens ++ (tokensAll vs ++ after') := h.trans (hfirst v vs after')
      exact absurd (hstart ▸ hover) (not_over_tokens v _)
  | cons w ws =>
    rw [hfirst] at h
    cases vs with
    | nil =>
      have hstart : after' = w.tokens ++ (tokensAll ws ++ after) := h.symm
      exact absurd (hstart ▸ hover') (not_over_tokens w _)
    | cons v vs =>
      rw [hfirst] at h
      obtain ⟨hw, hbehind⟩ := tokens_cancel w v h
      obtain ⟨hws, hafter⟩ := tokensAll_cancel ws vs hover hover' hbehind
      rw [hw, hws]
      exact ⟨rfl, hafter⟩
end

/-- **A sentence has one forest.** -/
theorem tokensAll_injective {ws vs : List Written} (h : tokensAll ws = tokensAll vs) : ws = vs :=
  (tokensAll_cancel ws vs over_nil over_nil (by rw [h])).1

end Written

/-! ## Nothing but the nesting is refused -/

/-- Tokens all of which could be read fail as a tree, or not at all. -/
theorem Nest.run_error {s : Nest} {toks : List Token} {count : Nat} {e : Error}
    (h : run count s toks none = .error e) :
    ∃ position cause context, e = .parse position cause context := by
  induction toks generalizing s count with
  | nil =>
    cases hfinish : s.finish with
    | ok ts =>
      rw [run, hfinish] at h
      cases h
    | error failure =>
      rw [run, hfinish] at h
      cases h
      exact ⟨_, _, _, rfl⟩
  | cons t toks ih =>
    cases hstep : s.step t with
    | ok s' =>
      rw [run_cons hstep] at h
      exact ih h
    | error failure =>
      rw [run_refused hstep] at h
      cases h
      exact ⟨_, _, _, rfl⟩

/-! ## The grammar -/

namespace Tree

open Written (tokensAll treeAll)

/-- Scanned tokens form trees exactly if they are the sentence of a forest that is not too deep. -/
theorem ofScan_eq_ok_iff {tokens : List Token} {ts : List Tree} :
    ofScan ⟨tokens, none⟩ = .ok ts ↔
      ∃ ws, tokens = tokensAll ws ∧ Written.depthAll ws ≤ maxDepth ∧ ts = treeAll ws := by
  constructor
  · intro h
    obtain ⟨-, hdepth, ws, hws, rfl⟩ := ofScan_ok h
    rw [Written.depthAll_treeAll] at hdepth
    exact ⟨ws, hws, hdepth, rfl⟩
  · rintro ⟨ws, rfl, hdepth, rfl⟩
    rw [← Written.depthAll_treeAll] at hdepth
    exact ofScan_tokensAll hdepth

/-- **The tree parser accepts exactly the bracket grammar.**  A response whose bytes can all be read
    as tokens has trees exactly if its tokens are those of a forest that nests at most `maxDepth`
    deep; there is at most one such forest, and the trees are what it means; otherwise the failure
    is one of the tree.  Whatever has trees nests at most 256 deep. -/
theorem parse_forest :
    (∀ chunks : List Chunk, (Cursor.start chunks).scan.fault = none →
      (∀ ts, parse chunks = .ok ts ↔
        ∃ ws, (Cursor.start chunks).scan.tokens = tokensAll ws ∧
          Written.depthAll ws ≤ maxDepth ∧ ts = treeAll ws) ∧
      (∀ ws vs, (Cursor.start chunks).scan.tokens = tokensAll ws →
        (Cursor.start chunks).scan.tokens = tokensAll vs → ws = vs) ∧
      ((¬ ∃ ws, (Cursor.start chunks).scan.tokens = tokensAll ws ∧
          Written.depthAll ws ≤ maxDepth) →
        ∃ position cause context, parse chunks = .error (.parse position cause context))) ∧
    (∀ (chunks : List Chunk) (ts : List Tree), parse chunks = .ok ts → depthAll ts ≤ 256) := by
  refine ⟨?_, ?_⟩
  · intro chunks hfault
    have hscan : (Cursor.start chunks).scan = ⟨(Cursor.start chunks).scan.tokens, none⟩ := by
      rw [← hfault]
    have hparse : parse chunks = ofScan ⟨(Cursor.start chunks).scan.tokens, none⟩ := by
      rw [← hscan]
      rfl
    have hiff : ∀ ts, parse chunks = .ok ts ↔
        ∃ ws, (Cursor.start chunks).scan.tokens = tokensAll ws ∧
          Written.depthAll ws ≤ maxDepth ∧ ts = treeAll ws := by
      intro ts
      rw [hparse]
      exact ofScan_eq_ok_iff
    refine ⟨hiff, ?_, ?_⟩
    · intro ws vs hws hvs
      exact Written.tokensAll_injective (hws.symm.trans hvs)
    · intro hnone
      cases hresult : parse chunks with
      | ok ts =>
        obtain ⟨ws, hws, hdepth, -⟩ := (hiff ts).1 hresult
        exact absurd ⟨ws, hws, hdepth⟩ hnone
      | error e =>
        rw [hparse] at hresult
        obtain ⟨position, cause, context, rfl⟩ := Nest.run_error hresult
        exact ⟨position, cause, context, rfl⟩
  · intro chunks ts h
    exact (ofScan_ok h).2.1

/-- All spellings of a word in two groups, across a literal; and a bracket that closes nothing. -/
theorem parse_forest_mixed :
    (parse [⟨Bytes.ofString "(nil \"nil\" [07 {1}", some [0]⟩, .plain (Bytes.ofString "-7])")]
      = .ok [.group .round [.nil, .bytes (Bytes.ofString "nil"),
          .group .square [.bytes (Bytes.ofString "07"), .bytes [0], .int (-7)]]]) ∧
    (∃ position cause context,
      parse [.plain (Bytes.ofString ")")] = .error (.parse position cause context)) := by
  obtain ⟨hgrammar, -⟩ := parse_forest
  refine ⟨?_, ?_⟩
  · refine ((hgrammar _ (by decide +kernel)).1 _).2 ⟨[.group .round [
      .word (.atom (Bytes.ofString "nil")), .word (.quoted (Bytes.ofString "nil")),
      .group .square [.word (.atom (Bytes.ofString "07")), .word (.literal [0]),
        .word (.atom (Bytes.ofString "-7"))]]], ?_, by decide, ?_⟩
    · decide +kernel
    · decide +kernel
  · refine (hgrammar _ (by decide +kernel)).2.2 ?_
    rintro ⟨ws, hws, -⟩
    have hclosing : tokensAll ws = [.closing .round] := hws.symm.trans (by decide +kernel)
    cases ws with
    | nil => cases hclosing
    | cons w ws =>
      have hstart : w.tokens ++ tokensAll ws = [.closing .round] := hclosing
      exact Written.not_over_tokens w (tokensAll ws) (hstart ▸ Written.over_closing .round [])

end Tree

end ImapWire
