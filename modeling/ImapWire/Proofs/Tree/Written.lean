/-
  Trees with the spelling of their words, and what the nest makes of their tokens.

  A `Tree` has forgotten how its words were spelt.  A `Written` tree has not: its leaves are atoms,
  quoted strings and literals, so it stands for one sequence of tokens (`tokens`), and for the tree
  that this sequence means (`tree`).  The tokens of a response are the left-to-right flattening of a
  sequence of written trees, or they are refused.

  1. **Flattened trees are accepted** (`run_tokens`): the nest that meets the tokens of a written
     tree gains its tree as one item, whatever is open around it, as long as there is room below
     `maxDepth`.

  2. **Nothing else is** (`Spells.run`).  The invariant `Spells s toks` says which tokens have
     brought an empty nest to `s`: for every open group those in front of it, its bracket, and the
     flattened items that it holds.  It also keeps the depth: an item may nest as deep as the groups
     around it leave room for.  Every accepted token extends it (`Spells.step`), so at the end,
     where nothing is open, the tokens are a flattening, and no tree is deeper than `maxDepth`.
-/
import ImapWire.Tree.Nesting

namespace ImapWire

/-! ## Words -/

/-- A leaf of a tree as it is written. -/
inductive Word
  | atom (bytes : Bytes)
  | quoted (bytes : Bytes)
  | literal (bytes : Bytes)
  deriving DecidableEq, Repr

namespace Word

/-- The token that a word is. -/
def token : Word → Token
  | atom bs => .atom bs
  | quoted bs => .quoted bs
  | literal bs => .literal bs

/-- The leaf that a word means. -/
def tree : Word → Tree
  | atom bs => Tree.ofAtom bs
  | quoted bs | literal bs => .bytes bs

theorem depth_tree (w : Word) : w.tree.depth = 0 := by
  cases w with
  | atom bs =>
    show (Tree.ofAtom bs).depth = 0
    unfold Tree.ofAtom
    split
    · rfl
    · split <;> rfl
  | quoted bs => rfl
  | literal bs => rfl

end Word

/-! ## Written trees -/

/-- A tree whose words have their spelling. -/
inductive Written
  | word (w : Word)
  | group (bracket : Bracket) (items : List Written)

namespace Written

mutual
/-- The tree without the spelling. -/
def tree : Written → Tree
  | word w => w.tree
  | group b items => .group b (treeAll items)

def treeAll : List Written → List Tree
  | [] => []
  | w :: ws => tree w :: treeAll ws
end

mutual
/-- The tokens of a tree, from left to right. -/
def tokens : Written → List Token
  | word w => [w.token]
  | group b items => .opening b :: (tokensAll items ++ [.closing b])

def tokensAll : List Written → List Token
  | [] => []
  | w :: ws => tokens w ++ tokensAll ws
end

theorem treeAll_append (ws vs : List Written) :
    treeAll (ws ++ vs) = treeAll ws ++ treeAll vs := by
  induction ws with
  | nil => rfl
  | cons w ws ih => simp [treeAll, ih]

theorem tokensAll_append (ws vs : List Written) :
    tokensAll (ws ++ vs) = tokensAll ws ++ tokensAll vs := by
  induction ws with
  | nil => rfl
  | cons w ws ih => simp [tokensAll, ih]

end Written

theorem Tree.depthAll_append (ts us : List Tree) :
    Tree.depthAll (ts ++ us) = max (Tree.depthAll ts) (Tree.depthAll us) := by
  induction ts with
  | nil => simp [Tree.depthAll]
  | cons t ts ih => simp [Tree.depthAll, ih, Nat.max_assoc]

/-! ## Flattened trees are accepted -/

namespace Nest

open Written

/-- More items in the innermost group. -/
def addAll (s : Nest) (ts : List Tree) : Nest := { s with items := ts.reverse ++ s.items }

theorem addAll_cons (s : Nest) (t : Tree) (ts : List Tree) :
    s.addAll (t :: ts) = (s.add t).addAll ts := by
  simp [addAll, add]

theorem step_word (s : Nest) (w : Word) : s.step w.token = .ok (s.add w.tree) := by
  cases w <;> rfl

/-- An accepted token, and the run goes on behind it. -/
theorem run_cons {s s' : Nest} {t : Token} (h : s.step t = .ok s') (count : Nat)
    (rest : List Token) (fault : Option LexFault) :
    run count s (t :: rest) fault = run (count + 1) s' rest fault := by
  rw [run, h]

/-- A refused token ends the run. -/
theorem run_refused {s : Nest} {t : Token} {e : Cause × String} (h : s.step t = .error e)
    (count : Nat) (rest : List Token) (fault : Option LexFault) :
    run count s (t :: rest) fault = .error (.parse (count + 1) e.1 e.2) := by
  rw [run, h]

mutual
/-- **The tokens of a written tree are read as its tree**, with the tree as one more item of the
    innermost group. -/
theorem run_tokens (w : Written) (count : Nat) (s : Nest) (rest : List Token)
    (fault : Option LexFault) (hroom : s.frames.length + w.tree.depth ≤ maxDepth) :
    run count s (w.tokens ++ rest) fault
      = run (count + w.tokens.length) (s.add w.tree) rest fault := by
  cases w with
  | word w => exact run_cons (step_word s w) count rest fault
  | group b items =>
    have hdepth : s.frames.length + (Tree.depthAll (treeAll items) + 1) ≤ maxDepth := hroom
    have hopen : s.step (.opening b) = .ok ⟨[], ⟨b, s.items⟩ :: s.frames⟩ := by
      have hlt : s.frames.length < maxDepth := by omega
      simp only [step, if_pos hlt]
    have hclose : (Nest.addAll ⟨[], ⟨b, s.items⟩ :: s.frames⟩ (treeAll items)).step (.closing b)
        = .ok (s.add (.group b (treeAll items))) := by
      simp [addAll, step, add]
    have hinner : (Nest.mk [] (⟨b, s.items⟩ :: s.frames)).frames.length
        + Tree.depthAll (treeAll items) ≤ maxDepth := by
      show s.frames.length + 1 + Tree.depthAll (treeAll items) ≤ maxDepth
      omega
    -- the opening bracket, the items inside the new frame, the closing bracket
    show run count s ((.opening b :: (tokensAll items ++ [.closing b])) ++ rest) fault = _
    rw [List.cons_append, List.append_assoc, run_cons hopen,
      run_tokensAll items (count + 1) _ ([Token.closing b] ++ rest) fault hinner,
      List.singleton_append, run_cons hclose]
    congr 1
    show count + 1 + (tokensAll items).length + 1
      = count + (Token.opening b :: (tokensAll items ++ [.closing b])).length
    simp only [List.length_cons, List.length_append, List.length_nil]
    omega

/-- The same for a sequence of written trees. -/
theorem run_tokensAll (ws : List Written) (count : Nat) (s : Nest) (rest : List Token)
    (fault : Option LexFault) (hroom : s.frames.length + Tree.depthAll (treeAll ws) ≤ maxDepth) :
    run count s (tokensAll ws ++ rest) fault
      = run (count + (tokensAll ws).length) (s.addAll (treeAll ws)) rest fault := by
  cases ws with
  | nil => rfl
  | cons w ws =>
    have hmax : s.frames.length + max w.tree.depth (Tree.depthAll (treeAll ws)) ≤ maxDepth := hroom
    have hfirst : s.frames.length + w.tree.depth ≤ maxDepth := by omega
    have hlater : (s.add w.tree).frames.length + Tree.depthAll (treeAll ws) ≤ maxDepth := by
      show s.frames.length + Tree.depthAll (treeAll ws) ≤ maxDepth
      omega
    show run count s ((w.tokens ++ tokensAll ws) ++ rest) fault = _
    rw [List.append_assoc, run_tokens w count s _ fault hfirst,
      run_tokensAll ws _ _ rest fault hlater, ← addAll_cons, Nat.add_assoc, ← List.length_append]
    rfl
end

end Nest

/-- **A flattened sequence of written trees is read as its trees.** -/
theorem Tree.ofScan_tokensAll {ws : List Written}
    (hdepth : Tree.depthAll (Written.treeAll ws) ≤ maxDepth) :
    Tree.ofScan ⟨Written.tokensAll ws, none⟩ = .ok (Written.treeAll ws) := by
  have hroom : Nest.empty.frames.length + Tree.depthAll (Written.treeAll ws) ≤ maxDepth := by
    show 0 + Tree.depthAll (Written.treeAll ws) ≤ maxDepth
    omega
  have hrun := Nest.run_tokensAll ws 0 Nest.empty [] none hroom
  rw [List.append_nil] at hrun
  show Nest.run 0 Nest.empty (Written.tokensAll ws) none = _
  rw [hrun]
  show Except.ok (Nest.empty.addAll (Written.treeAll ws)).items.reverse = _
  simp [Nest.addAll, Nest.empty]

/-! ## Nothing else is accepted -/

open Written in
/-- The tokens that have brought an empty nest to a nest: with no group open a flattened sequence,
    otherwise the tokens in front of the innermost group, its bracket, and its flattened items. -/
inductive Spells : Nest → List Token → Prop
  | closed (ws : List Written) (hdepth : Tree.depthAll (treeAll ws) ≤ maxDepth) :
      Spells ⟨(treeAll ws).reverse, []⟩ (tokensAll ws)
  | inside {s : Nest} {toks : List Token} (b : Bracket) (ws : List Written) (h : Spells s toks)
      (hdepth : s.frames.length + 1 + Tree.depthAll (treeAll ws) ≤ maxDepth) :
      Spells ⟨(treeAll ws).reverse, ⟨b, s.items⟩ :: s.frames⟩ (toks ++ .opening b :: tokensAll ws)

namespace Spells

open Written

theorem empty : Spells Nest.empty [] := closed [] (Nat.zero_le _)

/-- A whole written tree extends the innermost group. -/
theorem add {s : Nest} {toks : List Token} (h : Spells s toks) (w : Written)
    (hroom : s.frames.length + w.tree.depth ≤ maxDepth) :
    Spells (s.add w.tree) (toks ++ w.tokens) := by
  have hone : treeAll [w] = [w.tree] := rfl
  -- the tree goes behind the items of the innermost group, if there is one, and may fill its room
  cases h with
  | closed ws hdepth =>
    have hboth : Tree.depthAll (treeAll (ws ++ [w])) ≤ maxDepth := by
      rw [treeAll_append, Tree.depthAll_append, hone]
      simp only [Tree.depthAll, List.length_nil] at hroom ⊢
      omega
    have hspells := closed (ws ++ [w]) hboth
    simpa [treeAll_append, tokensAll_append, hone, tokensAll, Nest.add] using hspells
  | @inside s₀ toks₀ b ws h₀ hdepth =>
    have hboth : s₀.frames.length + 1 + Tree.depthAll (treeAll (ws ++ [w])) ≤ maxDepth := by
      rw [treeAll_append, Tree.depthAll_append, hone]
      simp only [Tree.depthAll, List.length_cons] at hroom ⊢
      omega
    have hspells := inside b (ws ++ [w]) h₀ hboth
    simpa [treeAll_append, tokensAll_append, hone, tokensAll, Nest.add] using hspells

theorem frames_length_le {s : Nest} {toks : List Token} (h : Spells s toks) :
    s.frames.length ≤ maxDepth := by
  cases h with
  | closed ws hdepth => exact Nat.zero_le _
  | @inside s₀ toks₀ b ws h₀ hdepth =>
    show s₀.frames.length + 1 ≤ maxDepth
    omega

/-- **One token.**  A token that the nest accepts extends the tokens that it spells. -/
theorem step {s s' : Nest} {toks : List Token} {t : Token} (h : Spells s toks)
    (hstep : s.step t = .ok s') : Spells s' (toks ++ [t]) := by
  -- a word is a whole tree of depth 0
  have hword : ∀ w : Word, s.step w.token = .ok s' → Spells s' (toks ++ [w.token]) := by
    intro w hw
    rw [Nest.step_word] at hw
    cases hw
    refine add h (.word w) ?_
    show s.frames.length + w.tree.depth ≤ maxDepth
    rw [Word.depth_tree]
    exact frames_length_le h
  cases t with
  | atom bs => exact hword (.atom bs) hstep
  | quoted bs => exact hword (.quoted bs) hstep
  | literal bs => exact hword (.literal bs) hstep
  | opening b =>
    simp only [Nest.step] at hstep
    split at hstep
    · next hroom =>
      cases hstep
      exact inside b [] h (by simp only [treeAll, Tree.depthAll]; omega)
    · cases hstep
  | closing b =>
    cases h with
    | closed ws hdepth => simp [Nest.step] at hstep
    | @inside s₀ toks₀ b₀ ws h₀ hdepth =>
      simp only [Nest.step] at hstep
      split at hstep
      · next hb =>
        -- the closed group is one more item of the group around it
        cases hstep
        subst hb
        have hroom : s₀.frames.length + (Written.group b ws).tree.depth ≤ maxDepth := by
          show s₀.frames.length + (Tree.depthAll (treeAll ws) + 1) ≤ maxDepth
          omega
        have hspells := add h₀ (.group b ws) hroom
        simpa [Written.tree, Written.tokens, Nest.add] using hspells
      · cases hstep

/-- **A whole run.**  Tokens that are accepted to the end are a flattened sequence of written trees,
    none of them too deep, and the result is their trees. -/
theorem run {s : Nest} {before toks : List Token} {fault : Option LexFault} {count : Nat}
    {ts : List Tree} (h : Spells s before) (hrun : Nest.run count s toks fault = .ok ts) :
    fault = none ∧ Tree.depthAll ts ≤ maxDepth ∧
      ∃ ws, before ++ toks = tokensAll ws ∧ ts = treeAll ws := by
  induction toks generalizing s before count with
  | nil =>
    cases fault with
    | some f => simp [Nest.run] at hrun
    | none =>
      cases h with
      | closed ws hdepth =>
        have hclosed : Except.ok (treeAll ws).reverse.reverse = Except.ok ts := hrun
        rw [List.reverse_reverse] at hclosed
        cases hclosed
        exact ⟨rfl, hdepth, ws, by rw [List.append_nil], rfl⟩
      | inside b ws h₀ hdepth => cases hrun
  | cons t toks ih =>
    cases hstep : s.step t with
    | error e => rw [Nest.run_refused hstep] at hrun; cases hrun
    | ok s' =>
      rw [Nest.run_cons hstep] at hrun
      obtain ⟨hfault, hdepth, ws, hws, hts⟩ := ih (step h hstep) hrun
      exact ⟨hfault, hdepth, ws, by simpa using hws, hts⟩

end Spells

/-- Scanned tokens that form trees are a flattened sequence of written trees, none too deep. -/
theorem Tree.ofScan_ok {s : Cursor.Scan} {ts : List Tree} (h : Tree.ofScan s = .ok ts) :
    s.fault = none ∧ Tree.depthAll ts ≤ maxDepth ∧
      ∃ ws, s.tokens = Written.tokensAll ws ∧ ts = Written.treeAll ws := by
  obtain ⟨hfault, hdepth, ws, hws, hts⟩ := Spells.run Spells.empty h
  exact ⟨hfault, hdepth, ws, by simpa using hws, hts⟩

end ImapWire
