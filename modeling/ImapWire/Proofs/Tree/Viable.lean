/-
  Failures come as early as they can.

  A sentence is a sequence of tokens that has trees: the tokens of a forest that nests no deeper than
  `maxDepth`.  Tokens are viable if others can follow them so that the whole is a sentence.

  1. **What was accepted is viable** (`Spells.viable`).  Whatever nest the tokens have led to, its
     open groups can be closed one after the other, and closing is never refused.

  2. **A refused token is not** (`not_viable_of_refused`).  What follows it is not even looked at.

  3. Together they give what a failure says about the tokens (`run_earliest`): those in front of it
     are viable, and with the refused token they are not, or they are all there is.  A token that
     could not be read counts only where all in front of it were accepted.

  With `scan_fault`, which says the same of the bytes, this is what a failure says about its input
  (`Tree.parse_earliest`).
-/
import ImapWire.Proofs.Token.Places
import ImapWire.Proofs.Tree.Grammar

namespace ImapWire

open Written (tokensAll treeAll)

/-- The tokens of a forest that is not too deep. -/
def Sentence (toks : List Token) : Prop :=
  ∃ ws, toks = tokensAll ws ∧ Written.depthAll ws ≤ maxDepth

/-- The front of a sentence. -/
def Viable (toks : List Token) : Prop := ∃ more, Sentence (toks ++ more)

/-- Sentences are what the tree parser accepts. -/
theorem sentence_iff {toks : List Token} :
    Sentence toks ↔ ∃ ts, Tree.ofScan ⟨toks, none⟩ = .ok ts := by
  constructor
  · rintro ⟨ws, hws, hdepth⟩
    exact ⟨treeAll ws, Tree.ofScan_eq_ok_iff.2 ⟨ws, hws, hdepth, rfl⟩⟩
  · rintro ⟨ts, h⟩
    obtain ⟨ws, hws, hdepth, -⟩ := Tree.ofScan_eq_ok_iff.1 h
    exact ⟨ws, hws, hdepth⟩

/-! ## What was accepted is viable -/

/-- The innermost group can be closed. -/
theorem Nest.step_close (items outer : List Tree) (b : Bracket) (frames : List Frame) :
    (Nest.mk items (⟨b, outer⟩ :: frames)).step (.closing b)
      = .ok ⟨.group b items.reverse :: outer, frames⟩ := by
  simp [step]

/-- **What was accepted is viable.** -/
theorem Spells.viable {s : Nest} {toks : List Token} (h : Spells s toks) : Viable toks := by
  obtain ⟨items, frames⟩ := s
  -- the open groups are closed from the inside out
  induction frames generalizing items toks with
  | nil =>
    cases h with
    | closed ws hdepth =>
      rw [Written.depthAll_treeAll] at hdepth
      exact ⟨[], ws, List.append_nil _, hdepth⟩
  | cons f frames ih =>
    obtain ⟨more, hsentence⟩ := ih _ (h.step (Nest.step_close items f.outer f.bracket frames))
    rw [List.append_assoc] at hsentence
    exact ⟨_, hsentence⟩

/-! ## A refused token is not -/

/-- From an empty nest the tokens have led to this one, whatever comes behind them. -/
def Nest.ReachedBy (s : Nest) (toks : List Token) : Prop :=
  ∀ rest fault, run 0 empty (toks ++ rest) fault = run toks.length s rest fault

namespace Nest.ReachedBy

theorem nil : ReachedBy empty [] := fun _ _ => rfl

/-- One accepted token more. -/
theorem snoc {s s' : Nest} {toks : List Token} {t : Token} (h : ReachedBy s toks)
    (hstep : s.step t = .ok s') : ReachedBy s' (toks ++ [t]) := by
  intro rest fault
  rw [List.append_assoc, h, List.length_append]
  exact run_cons hstep toks.length rest fault

end Nest.ReachedBy

/-- **A refused token** cannot be mended by what follows it. -/
theorem not_viable_of_refused {s : Nest} {toks : List Token} {t : Token} {e : Cause × String}
    (h : s.ReachedBy toks) (hstep : s.step t = .error e) : ¬ Viable (toks ++ [t]) := by
  rintro ⟨more, hsentence⟩
  obtain ⟨ts, haccepted⟩ := sentence_iff.1 hsentence
  have hrun : Nest.run 0 Nest.empty (toks ++ t :: more) none = .ok ts := by
    rw [List.append_assoc] at haccepted
    exact haccepted
  rw [h, Nest.run_refused hstep] at hrun
  cases hrun

/-! ## Failures -/

/-- What a failure says about the tokens in front of it. -/
def Earliest (tokens : List Token) (fault : Option LexFault) : Error → Prop
  | .parse k cause _ =>
      0 < k ∧ k ≤ tokens.length ∧ Viable (tokens.take (k - 1)) ∧
        ((∃ b, cause = .unterminated b) ∧ fault = none ∧ k = tokens.length ∧ Viable tokens ∨
          ¬ Viable (tokens.take k))
  | .lex f => fault = some f ∧ Viable tokens
  | _ => False

theorem Viable.take {toks : List Token} (h : Viable toks) (k : Nat) : Viable (toks.take k) := by
  obtain ⟨more, hsentence⟩ := h
  refine ⟨toks.drop k ++ more, ?_⟩
  rwa [← List.append_assoc, List.take_append_drop]

/-- A group is left open. -/
theorem earliest_unterminated {s : Nest} {toks : List Token} {e : Cause × String}
    (h : Spells s toks) (hfinish : s.finish = .error e) :
    Earliest toks none (.parse toks.length e.1 e.2) := by
  cases h with
  | closed ws hdepth => cases hfinish
  | @inside s₀ toks₀ b ws h₀ hdepth =>
    have hviable := (Spells.inside b ws h₀ hdepth).viable
    cases hfinish
    refine ⟨?_, Nat.le_refl _, hviable.take _, Or.inl ⟨⟨b, rfl⟩, rfl, rfl, hviable⟩⟩
    rw [List.length_append, List.length_cons]
    omega

/-- A token is refused. -/
theorem earliest_refused {s : Nest} {toks rest : List Token} {t : Token} {e : Cause × String}
    (fault : Option LexFault) (h : Spells s toks) (hreached : s.ReachedBy toks)
    (hstep : s.step t = .error e) :
    Earliest (toks ++ t :: rest) fault (.parse (toks.length + 1) e.1 e.2) := by
  have hbefore : (toks ++ t :: rest).take toks.length = toks := List.take_left
  have hhere : (toks ++ t :: rest).take (toks.length + 1) = toks ++ [t] := by
    rw [List.take_length_add_append]
    rfl
  refine ⟨Nat.succ_pos _, by simp, ?_, Or.inr ?_⟩
  · rw [Nat.add_sub_cancel, hbefore]
    exact h.viable
  · rw [hhere]
    exact not_viable_of_refused hreached hstep

/-- **A whole run.**  Its failure comes as early as it can. -/
theorem run_earliest {s : Nest} {before toks : List Token} {fault : Option LexFault} {e : Error}
    (h : Spells s before) (hreached : s.ReachedBy before)
    (hrun : Nest.run before.length s toks fault = .error e) :
    Earliest (before ++ toks) fault e := by
  induction toks generalizing s before with
  | nil =>
    rw [List.append_nil]
    cases fault with
    | some f =>
      cases hrun
      exact ⟨rfl, h.viable⟩
    | none =>
      cases hfinish : s.finish with
      | ok ts =>
        rw [Nest.run, hfinish] at hrun
        cases hrun
      | error failure =>
        rw [Nest.run, hfinish] at hrun
        cases hrun
        exact earliest_unterminated h hfinish
  | cons t toks ih =>
    cases hstep : s.step t with
    | ok s' =>
      have hlater : Nest.run (before ++ [t]).length s' toks fault = .error e := by
        rw [← hrun, Nest.run_cons hstep, List.length_append]
        rfl
      have hearliest := ih (h.step hstep) (hreached.snoc hstep) hlater
      rwa [List.append_assoc] at hearliest
    | error failure =>
      rw [Nest.run_refused hstep] at hrun
      cases hrun
      exact earliest_refused fault h hreached hstep

namespace Tree

/-- The failure of a scan comes as early as it can. -/
theorem ofScan_earliest {s : Cursor.Scan} {e : Error} (h : ofScan s = .error e) :
    Earliest s.tokens s.fault e :=
  run_earliest Spells.empty Nest.ReachedBy.nil h

/-- **A failure comes as early as it can and points into the input.**  Sentences are the tokens that
    the tree parser accepts.  If it refuses a response, then either because of its tokens: all those
    before the one that is named could be read and are the front of a sentence, and with that one
    they are not, unless it is the last of them and a group is left open.  Or it is because of a
    place where there is no token: the place is on a line of the response, the message shows that
    line, and the tokens before it are the front of a sentence. -/
theorem parse_earliest :
    (∀ toks, Sentence toks ↔ ∃ ts, ofScan ⟨toks, none⟩ = .ok ts) ∧
    ∀ (chunks : List Chunk) (e : Error), parse chunks = .error e →
      (∃ k cause context, e = .parse k cause context ∧
        0 < k ∧ k ≤ (Cursor.start chunks).scan.tokens.length ∧
        Viable ((Cursor.start chunks).scan.tokens.take (k - 1)) ∧
        (((∃ b : Bracket, cause = .unterminated b ∧ cause.message = "unterminated " ++ b.name) ∧
            (Cursor.start chunks).scan.fault = none ∧
            k = (Cursor.start chunks).scan.tokens.length ∧
            Viable (Cursor.start chunks).scan.tokens) ∨
          ¬ Viable ((Cursor.start chunks).scan.tokens.take k))) ∨
      (∃ fault chunk, e = .lex fault ∧ (Cursor.start chunks).scan.fault = some fault ∧
        chunks[fault.chunk]? = some chunk ∧ fault.pos ≤ chunk.line.length ∧
        e.message = "Lex error in chunk " ++ toString fault.chunk ++ " at byte "
          ++ toString fault.pos ++ ": " ++ fault.cause.message
          ++ " (line: " ++ chunk.line.escaped ++ ")" ∧
        Viable (Cursor.start chunks).scan.tokens) := by
  refine ⟨fun toks => sentence_iff, ?_⟩
  intro chunks e h
  have hearliest : Earliest (Cursor.start chunks).scan.tokens (Cursor.start chunks).scan.fault e :=
    ofScan_earliest h
  cases e with
  | parse k cause context =>
    obtain ⟨hpos, hread, hbefore, hopen | hrefused⟩ := hearliest
    · obtain ⟨⟨b, rfl⟩, hfault, hall, hviable⟩ := hopen
      exact Or.inl ⟨k, _, context, rfl, hpos, hread, hbefore,
        Or.inl ⟨⟨b, rfl, rfl⟩, hfault, hall, hviable⟩⟩
    · exact Or.inl ⟨k, cause, context, rfl, hpos, hread, hbefore, Or.inr hrefused⟩
  | lex fault =>
    obtain ⟨hfault, hviable⟩ := hearliest
    obtain ⟨chunk, hchunk, hline, hpos⟩ :=
      Cursor.scan_fault (Cursor.within_start chunks) hfault
    refine Or.inr ⟨fault, chunk, rfl, hfault, hchunk, hpos, ?_, hviable⟩
    rw [← hline]
    rfl
  | protocol breach => exact hearliest.elim
  | io interruption => exact hearliest.elim
  | unwritable => exact hearliest.elim

/-- The bracket of the wrong kind is the third token, and the quote that is never closed stands at
    the third byte of the second line. -/
theorem parse_earliest_two :
    (parse [.plain (Bytes.ofString "(a] \"")]
        = .error (.parse 3 (.mismatch .square .round) "(a") ∧
      Viable [.opening .round, .atom (Bytes.ofString "a")] ∧
      ¬ Viable [.opening .round, .atom (Bytes.ofString "a"), .closing .square]) ∧
    (parse [.plain (Bytes.ofString "(a"), .plain (Bytes.ofString "b \"c)")]
        = .error (.lex ⟨1, 2, .unterminatedQuote, Bytes.ofString "b \"c)"⟩) ∧
      Viable [.opening .round, .atom (Bytes.ofString "a"), .atom (Bytes.ofString "b")]) := by
  have hwrong : parse [.plain (Bytes.ofString "(a] \"")]
      = .error (.parse 3 (.mismatch .square .round) "(a") := by decide +kernel
  have hquote : parse [.plain (Bytes.ofString "(a"), .plain (Bytes.ofString "b \"c)")]
      = .error (.lex ⟨1, 2, .unterminatedQuote, Bytes.ofString "b \"c)"⟩) := by decide +kernel
  have htokens : (Cursor.start [.plain (Bytes.ofString "(a] \"")]).scan.tokens
      = [.opening .round, .atom (Bytes.ofString "a"), .closing .square] := by decide +kernel
  have htokens' :
      (Cursor.start [.plain (Bytes.ofString "(a"), .plain (Bytes.ofString "b \"c)")]).scan.tokens
        = [.opening .round, .atom (Bytes.ofString "a"), .atom (Bytes.ofString "b")] := by
    decide +kernel
  refine ⟨⟨hwrong, ?_⟩, hquote, ?_⟩
  · rcases parse_earliest.2 _ _ hwrong with ⟨k, cause, context, he, -, -, hbefore, hhere⟩ | hlex
    · cases he
      rw [htokens] at hbefore hhere
      rcases hhere with ⟨⟨b, hb, -⟩, -⟩ | hrefused
      · cases hb
      · exact ⟨hbefore, hrefused⟩
    · obtain ⟨fault, chunk, he, -⟩ := hlex
      cases he
  · rcases parse_earliest.2 _ _ hquote with ⟨k, cause, context, he, -⟩ | hlex
    · cases he
    · obtain ⟨fault, chunk, -, -, -, -, -, hviable⟩ := hlex
      rwa [htokens'] at hviable

end Tree

end ImapWire
