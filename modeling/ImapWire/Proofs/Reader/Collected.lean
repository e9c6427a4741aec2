/-
  Whatever is collected is given once.

  Program: `Collector.readUntilTagged` again and again (`Collector.calls`), on any reader and any
  stream, failed calls included.  Spec: the responses that the reader itself gives in that time,
  call by call (`Reader.results`).

  1. **One read.**  A response that was read goes behind those that are kept; if it starts with the
     tag, all of them are given and none is kept.  A failed read changes nothing.

  2. **One call** (`readUntilTagged_accounts`), by induction on its reads.  What was given and what
     is kept afterwards is what was kept before and what was read (`Accounts`), and what is kept is
     always unfinished (`Pending`): none of it starts with the tag.

  3. **All calls** (`calls_conserve`).  The accounts of one call and of the calls behind it add up,
     since what the first one keeps is what the others begin with.
-/
import ImapWire.Proofs.Reader.Exact
import ImapWire.Reader.Collector

namespace ImapWire

/-! ## Results in a row -/

namespace Result

variable {α : Type}

/-- What the successful ones gave. -/
def successes : List (Result α) → List α
  | [] => []
  | .ok a :: rest => a :: successes rest
  | .error _ :: rest => successes rest

/-- Why the others failed. -/
def failures : List (Result α) → List Error
  | [] => []
  | .ok _ :: rest => failures rest
  | .error e :: rest => e :: failures rest

theorem successes_append (as bs : List (Result α)) :
    successes (as ++ bs) = successes as ++ successes bs := by
  induction as with
  | nil => rfl
  | cons a as ih => cases a <;> simp [successes, ih]

theorem failures_append (as bs : List (Result α)) :
    failures (as ++ bs) = failures as ++ failures bs := by
  induction as with
  | nil => rfl
  | cons a as ih => cases a <;> simp [failures, ih]

end Result

open Result (successes failures successes_append failures_append)

/-! ## Reads in a row -/

namespace Reader

/-- The reader after its next calls. -/
def after (r : Reader) : Nat → Reader
  | 0 => r
  | n + 1 => after r.readResponse.2 n

theorem after_succ {r r' : Reader} {e : Result (List Chunk)} (h : r.readResponse = (e, r'))
    (n : Nat) : r.after (n + 1) = r'.after n := by
  rw [after, h]

theorem after_add (r : Reader) (m n : Nat) : r.after (m + n) = (r.after m).after n := by
  induction m generalizing r with
  | zero => rw [Nat.zero_add]; rfl
  | succ m ih =>
    rw [Nat.succ_add]
    exact ih r.readResponse.2

theorem results_add (r : Reader) (m n : Nat) :
    r.results (m + n) = r.results m ++ (r.after m).results n := by
  induction m generalizing r with
  | zero => rw [Nat.zero_add]; rfl
  | succ m ih =>
    rw [Nat.succ_add]
    show r.readResponse.1 :: r.readResponse.2.results (m + n) = _
    rw [ih]
    rfl

end Reader

namespace Collector

variable {c c' : Collector} {r r' : Reader}

/-! ## One call -/

/-- Nothing that is kept starts with the tag. -/
def Pending (c : Collector) : Prop := ∀ response ∈ c.responses, c.isCompletedBy response = false

/-- A result for a tag: it ends with a response that starts with the tag, and no other one does. -/
def IsResult (c : Collector) (given : List (List Chunk)) : Prop :=
  ∃ front last, given = front ++ [last] ∧ c.isCompletedBy last = true ∧
    ∀ response ∈ front, c.isCompletedBy response = false

/-- The accounts of some calls: the reader went on by so many reads; what was given and what is kept
    now is what was kept before and what was read; and the calls failed as the reads did. -/
def Accounts (c : Collector) (r : Reader) (given : List (Result (List (List Chunk))))
    (c' : Collector) (r' : Reader) : Prop :=
  ∃ reads, r' = r.after reads ∧
    (successes given).flatten ++ c'.responses = c.responses ++ successes (r.results reads) ∧
    failures given = failures (r.results reads)

theorem responses_push (c : Collector) (response : List Chunk) :
    responses { c with latest := response :: c.latest } = c.responses ++ [response] := by
  simp [responses]

/-- Only the tag says what completes a result. -/
theorem isCompletedBy_congr (h : c'.tag = c.tag) (response : List Chunk) :
    c'.isCompletedBy response = c.isCompletedBy response := by
  unfold isCompletedBy
  rw [h]

/-- A response without the tag leaves the collector pending. -/
theorem Pending.push {response : List Chunk} (hc : c.Pending)
    (h : c.isCompletedBy response = false) :
    Pending { c with latest := response :: c.latest } := by
  intro kept hkept
  rw [responses_push] at hkept
  rcases List.mem_append.1 hkept with hkept | hkept
  · exact hc kept hkept
  · rw [List.mem_singleton.1 hkept]
    exact h

/-- A read in front of others that are accounted for. -/
theorem Accounts.read {given : List (Result (List (List Chunk)))} {response : List Chunk}
    {r₁ : Reader} (hread : r.readResponse = (.ok response, r₁))
    (h : Accounts { c with latest := response :: c.latest } r₁ given c' r') :
    Accounts c r given c' r' := by
  obtain ⟨reads, hr', hgiven, hfailed⟩ := h
  refine ⟨reads + 1, ?_, ?_, ?_⟩
  · rw [Reader.after_succ hread]
    exact hr'
  · rw [Reader.results_succ hread, hgiven, responses_push, List.append_assoc]
    rfl
  · rw [Reader.results_succ hread]
    exact hfailed

/-- **One call.**  The tag stays, nothing that is kept starts with it, what is given is a result for
    it, and the accounts add up. -/
theorem readUntilTagged_accounts {result : Result (List (List Chunk))} (hc : c.Pending)
    (h : c.readUntilTagged r = (result, c', r')) :
    c'.tag = c.tag ∧ c'.Pending ∧ (∀ given, result = .ok given → c.IsResult given) ∧
      Accounts c r [result] c' r' := by
  fun_induction readUntilTagged c r with
  | case1 c r e r₁ hread =>
    -- nothing was read: the collector is left as it was
    cases h
    refine ⟨rfl, hc, nofun, 1, ?_, ?_, ?_⟩
    · rw [Reader.after_succ hread]
      rfl
    · rw [Reader.results_succ hread]
      exact (List.append_nil _).symm
    · rw [Reader.results_succ hread]
      rfl
  | case2 c r response r₁ hread latest hcompleted =>
    cases h
    have hall : latest.reverse = c.responses ++ [response] := responses_push c response
    refine ⟨rfl, nofun, ?_, 1, ?_, ?_, ?_⟩
    · rintro given ⟨⟩
      exact ⟨c.responses, response, hall, hcompleted, hc⟩
    · rw [Reader.after_succ hread]
      rfl
    · rw [Reader.results_succ hread]
      show [latest.reverse].flatten ++ [] = c.responses ++ [response]
      rw [hall, List.append_nil, List.flatten_singleton]
    · rw [Reader.results_succ hread]
      rfl
  | case3 c r response r₁ hread latest hcompleted ih =>
    have hpending := hc.push (Bool.eq_false_iff.2 hcompleted)
    obtain ⟨htag, hc', hgiven, haccounts⟩ := ih hpending h
    exact ⟨htag, hc', hgiven, haccounts.read hread⟩

/-! ## Calls in a row -/

/-- What the next calls give, one after the other, and the collector and the reader after them. -/
def calls (c : Collector) (r : Reader) :
    Nat → List (Result (List (List Chunk))) × Collector × Reader
  | 0 => ([], c, r)
  | n + 1 =>
    let (result, c₁, r₁) := c.readUntilTagged r
    let (results, c', r') := calls c₁ r₁ n
    (result :: results, c', r')

theorem Accounts.nil (c : Collector) (r : Reader) : Accounts c r [] c r :=
  ⟨0, rfl, (List.append_nil _).symm, rfl⟩

/-- The accounts of a call and of those behind it add up. -/
theorem Accounts.append {c₁ : Collector} {r₁ : Reader}
    {given more : List (Result (List (List Chunk)))} (h : Accounts c r given c₁ r₁)
    (hmore : Accounts c₁ r₁ more c' r') : Accounts c r (given ++ more) c' r' := by
  obtain ⟨reads, rfl, hgiven, hfailed⟩ := h
  obtain ⟨reads', rfl, hgiven', hfailed'⟩ := hmore
  refine ⟨reads + reads', (r.after_add reads reads').symm, ?_, ?_⟩
  · rw [successes_append, List.flatten_append, List.append_assoc, hgiven', ← List.append_assoc,
      hgiven, List.append_assoc, ← successes_append, ← Reader.results_add]
  · rw [failures_append, hfailed, hfailed', ← failures_append, ← Reader.results_add]

/-- **Calls in a row**, from a collector that is pending. -/
theorem calls_accounts {n : Nat} {given : List (Result (List (List Chunk)))} (hc : c.Pending)
    (h : c.calls r n = (given, c', r')) :
    c'.tag = c.tag ∧ c'.Pending ∧ (∀ result ∈ successes given, c.IsResult result) ∧
      Accounts c r given c' r' := by
  induction n generalizing c r given with
  | zero =>
    cases h
    exact ⟨rfl, hc, nofun, .nil _ _⟩
  | succ n ih =>
    rcases hcall : c.readUntilTagged r with ⟨result, c₁, r₁⟩
    rcases hcalls : c₁.calls r₁ n with ⟨results, c₂, r₂⟩
    simp only [calls, hcall, hcalls] at h
    cases h
    obtain ⟨htag₁, hc₁, hresult, haccounts₁⟩ := readUntilTagged_accounts hc hcall
    obtain ⟨htag, hc', hresults, haccounts⟩ := ih hc₁ hcalls
    refine ⟨htag.trans htag₁, hc', ?_, haccounts₁.append haccounts⟩
    have hlater : ∀ given ∈ successes results, c.IsResult given := by
      intro given hgiven
      simpa only [IsResult, isCompletedBy_congr htag₁] using hresults given hgiven
    cases result with
    | error e => exact hlater
    | ok given => exact List.forall_mem_cons.2 ⟨hresult given rfl, hlater⟩

/-- **Nothing is lost, and nothing is given twice.**  After any number of calls, failed ones
    included, the responses that were given and then those that are kept are all responses that were
    read, in the order in which they were read: the reader has gone on by so many reads, and those
    that failed are the ones that the calls failed with.  Nothing that is kept starts with the tag.
    Whatever is given ends with a response that does, and holds no other. -/
theorem calls_conserve {tag : Tag} {n : Nat} {given : List (Result (List (List Chunk)))}
    (h : (ofTag tag).calls r n = (given, c', r')) :
    (∃ reads, r' = r.after reads ∧
      (successes given).flatten ++ c'.responses = successes (r.results reads) ∧
      failures given = failures (r.results reads)) ∧
    (∀ first later, first :: later ∈ c'.responses → tag.starts first.line = false) ∧
    ∀ result ∈ successes given, ∃ front first later, result = front ++ [first :: later] ∧
      tag.starts first.line = true ∧
      ∀ first later, first :: later ∈ front → tag.starts first.line = false := by
  have hpending : (ofTag tag).Pending := nofun
  obtain ⟨htag, hc', hresults, haccounts⟩ := calls_accounts hpending h
  refine ⟨haccounts, ?_, ?_⟩
  · intro first later hkept
    have hnot := hc' _ hkept
    rw [isCompletedBy_congr htag] at hnot
    exact hnot
  · intro result hresult
    obtain ⟨front, last, rfl, hlast, hfront⟩ := hresults result hresult
    cases last with
    | nil => cases hlast
    | cons first later =>
      refine ⟨front, first, later, rfl, hlast, ?_⟩
      intro first later hmem
      exact hfront _ hmem

/-- The stream fails after the first response: it is kept, and starts the result of the next call.
    The third call finds a response and then the end of the stream. -/
theorem calls_conserve_failed :
    (∃ given c' r', (ofTag ⟨"a"⟩).calls (Reader.ofStream default
        [.bytes (Bytes.ofString "* 1\r\n"), .failure "reset",
          .bytes (Bytes.ofString "a OK\r\n* 2\r"), .bytes (Bytes.ofString "\nb OK\r")]) 3
        = (given, c', r') ∧
      given = [.error (.io (.failed "reset")),
        .ok [[.plain (Bytes.ofString "* 1")], [.plain (Bytes.ofString "a OK")]],
        .error (.io .closed)] ∧
      c'.responses = [[.plain (Bytes.ofString "* 2")]] ∧
      ∃ reads, successes ((Reader.ofStream default
        [.bytes (Bytes.ofString "* 1\r\n"), .failure "reset",
          .bytes (Bytes.ofString "a OK\r\n* 2\r"), .bytes (Bytes.ofString "\nb OK\r")]).results
            reads) =
        [[.plain (Bytes.ofString "* 1")], [.plain (Bytes.ofString "a OK")],
          [.plain (Bytes.ofString "* 2")]]) := by
  rcases hcalls : (ofTag ⟨"a"⟩).calls (Reader.ofStream default
    [.bytes (Bytes.ofString "* 1\r\n"), .failure "reset", .bytes (Bytes.ofString "a OK\r\n* 2\r"),
      .bytes (Bytes.ofString "\nb OK\r")]) 3 with ⟨given, c', r'⟩
  have hboth : given = [.error (.io (.failed "reset")),
        .ok [[.plain (Bytes.ofString "* 1")], [.plain (Bytes.ofString "a OK")]],
        .error (.io .closed)] ∧ c'.responses = [[.plain (Bytes.ofString "* 2")]] := by
    have hgiven := congrArg (fun p => (p.1, p.2.1.responses)) hcalls
    exact Prod.mk.inj (hgiven.symm.trans (by decide +kernel))
  obtain ⟨⟨reads, -, hall, -⟩, -, -⟩ := calls_conserve hcalls
  rw [hboth.1, hboth.2] at hall
  exact ⟨given, c', r', rfl, hboth.1, hboth.2, reads, hall.symm⟩

end Collector

end ImapWire
