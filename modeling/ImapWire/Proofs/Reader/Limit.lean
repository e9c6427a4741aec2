/-
  The limit on lines, and the place where the buffer is filled.

  Program: `Reader.readLine` on a healthy stream, with a line and its end ahead.  Spec: the line is
  read, or refused as too long; which of the two is a matter of its length and, for one single
  length, of how its bytes arrive (`Reader.readLine_limit`).

  1. **The fillings** (`Reader.fillings`).  As long as only lines are read, the buffer holds one
     portion of a segment after the other, each full unless its segment ends there
     (`fillings_fill`).

  2. **A line** (`finishLine_limit`).  The invariant is about `more`, what is ahead of the line up to
     its CR.  A filling without a line end counts as a whole, the CR at its end included; a filling
     with one counts only up to the CR.  So the CR is counted exactly if a filling ends behind it.
     A shorter line has room for the CR either way, and a longer one has no room without it.  **A
     line of exactly the limit** is read if CR and LF are in one filling, and refused if they are in
     two.
-/
import ImapWire.Proofs.Reader.Exact
import Mathlib.Data.List.Infix

namespace ImapWire

open Bytes (Unbroken unbroken_append_iff)

/-! ## Portions -/

namespace Bytes

/-- A byte string in portions of `size` bytes, the last of which may be shorter. -/
def portions (size : Nat) (bs : Bytes) : List Bytes :=
  if bs.length ≤ size ∨ size = 0 then [bs] else bs.take size :: portions size (bs.drop size)
termination_by bs.length
decreasing_by
  rw [List.length_drop]
  omega

/-- One of these pieces ends `n` bytes behind the start of the first one. -/
def EndsAt (pieces : List Bytes) (n : Nat) : Prop :=
  ∃ front, front <+: pieces ∧ front.flatten.length = n

instance (pieces : List Bytes) (n : Nat) : Decidable (EndsAt pieces n) :=
  decidable_of_iff (∃ front ∈ pieces.inits, front.flatten.length = n) <| by
    simp only [List.mem_inits, EndsAt]

/-- The first piece ends there, or a later one does. -/
theorem endsAt_cons {p : Bytes} {ps : List Bytes} {n : Nat} (hn : 0 < n) :
    EndsAt (p :: ps) n ↔ p.length ≤ n ∧ EndsAt ps (n - p.length) := by
  constructor
  · rintro ⟨front, hfront, hlen⟩
    cases front with
    | nil => exact absurd hlen (by simp; omega)
    | cons q front =>
      obtain ⟨rfl, hlater⟩ := List.cons_prefix_cons.1 hfront
      rw [List.flatten_cons, List.length_append] at hlen
      exact ⟨by omega, front, hlater, by omega⟩
  · rintro ⟨hle, front, hfront, hlen⟩
    refine ⟨p :: front, List.cons_prefix_cons.2 ⟨rfl, hfront⟩, ?_⟩
    rw [List.flatten_cons, List.length_append, hlen]
    omega

end Bytes

open Bytes (EndsAt endsAt_cons)

namespace Stream

/-- The portions in which a stream is read, at most `most` bytes at a time. -/
def portions (most : Nat) (s : Stream) : List Bytes :=
  s.flatMap fun segment => segment.data.portions most

/-- A read takes the first portion. -/
theorem portions_read {s s' : Stream} {most : Nat} {bs : Bytes} (hmost : 0 < most)
    (h : s.read most = (.ok bs, s')) (hbs : bs ≠ []) :
    s.portions most = bs :: s'.portions most := by
  unfold read at h
  split at h
  · cases h
    exact absurd rfl hbs
  · cases h
  · next bs' rest =>
    split at h
    · next hall =>
      cases h
      have hfits : bs.length ≤ most := List.drop_eq_nil_iff.1 (List.isEmpty_iff.1 hall)
      simp only [portions, List.flatMap_cons, Segment.data]
      rw [Bytes.portions, if_pos (Or.inl hfits)]
      rfl
    · next hmore =>
      cases h
      have hlong : ¬ (bs'.length ≤ most ∨ most = 0) := by
        rintro (hle | hzero)
        · exact hmore (List.isEmpty_iff.2 (List.drop_eq_nil_iff.2 hle))
        · omega
      simp only [portions, List.flatMap_cons, Segment.data]
      rw [Bytes.portions, if_neg hlong]
      rfl

end Stream

namespace Reader

variable {r r' : Reader}

/-- What the buffer will hold, one filling after the other, as long as only lines are read. -/
def fillings (r : Reader) : List Bytes :=
  if r.buffer = [] then r.stream.portions bufferSize
  else r.buffer :: r.stream.portions bufferSize

/-- Once the buffer is filled, it holds the first filling. -/
theorem fillings_fill {e : Result Unit} (h : r.fill = (e, r')) (hbuffer : r'.buffer ≠ []) :
    r.fillings = r'.buffer :: fillings { r' with buffer := [] } := by
  have hsize : 0 < bufferSize := by decide
  show r.fillings = r'.buffer :: r'.stream.portions bufferSize
  unfold fill at h
  split at h
  · next hempty =>
    have hnil : r.buffer = [] := List.isEmpty_iff.1 hempty
    rw [fillings, if_pos hnil]
    split at h
    · next bs s' hread =>
      cases h
      exact Stream.portions_read hsize hread hbuffer
    · cases h
      exact absurd hnil hbuffer
  · cases h
    rw [fillings, if_neg hbuffer]

/-! ## Lines -/

/-- A line is ahead of which `seen` is read, latest byte first: `more` and then its LF are next, and
    `more` ends with the CR of its end, unless that is seen too. -/
structure Ahead (r : Reader) (seen line more rest : Bytes) : Prop where
  unbroken_line : Unbroken line
  whole : seen.reverse ++ more = line ++ [Bytes.cr]
  next : r.unread = more ++ Bytes.lf :: rest

namespace Ahead

variable {seen line more rest before behind : Bytes}

theorem unbroken (h : r.Ahead seen line more rest) : Unbroken (seen.reverse ++ more) := by
  rw [h.whole]
  exact h.unbroken_line.append_cr

/-- What was seen and what is ahead begin with the line and its end. -/
theorem bytes (h : r.Ahead seen line more rest) :
    seen.reverse ++ r.unread = line ++ lineEnd ++ rest := by
  rw [h.next, ← List.append_assoc, h.whole]
  simp [lineEnd]

theorem of_fill (h : r.Ahead seen line more rest) {e : Result Unit} (hfill : r.fill = (e, r')) :
    r'.Ahead seen line more rest :=
  ⟨h.unbroken_line, h.whole, (unread_fill hfill).1.trans h.next⟩

/-- If the CR was seen and the LF is next, nothing else is missing. -/
theorem of_meet (h : r.Ahead seen line more rest)
    (hmeet : seen.head? = some Bytes.cr ∧ r.buffer.head? = some Bytes.lf) :
    more = [] ∧ seen.tail.reverse = line := by
  obtain ⟨hcr, hlf⟩ := hmeet
  obtain ⟨seen, rfl⟩ : ∃ tail, seen = Bytes.cr :: tail := List.head?_eq_some_iff.1 hcr
  obtain ⟨buffer, hbuffer⟩ : ∃ tail, r.buffer = Bytes.lf :: tail := List.head?_eq_some_iff.1 hlf
  have hnil : more = [] := by
    cases more with
    | nil => rfl
    | cons b more =>
      have hnext := h.next
      rw [Reader.unread, hbuffer] at hnext
      have hb : Bytes.lf = b := (List.cons.inj hnext).1
      have hacross := (unbroken_append_iff.1 h.unbroken).2.2
      exact absurd ⟨by simp, by rw [hb]; rfl⟩ hacross
  have hwhole := h.whole
  rw [hnil] at hwhole
  exact ⟨hnil, by simpa using hwhole⟩

/-- A filling with a line end holds the rest of the line and its end. -/
theorem of_split (h : r.Ahead seen line more rest)
    (hmeet : ¬ (seen.head? = some Bytes.cr ∧ r.buffer.head? = some Bytes.lf))
    (hsplit : splitLine r.buffer = some (before, behind)) :
    seen.reverse ++ before = line ∧ more = before ++ [Bytes.cr] := by
  obtain ⟨hbuffer, hbefore⟩ := splitLine_eq_some_iff.1 hsplit
  have hunbroken : Unbroken (seen.reverse ++ before) := by
    refine unbroken_seen_append h.unbroken.left hbefore ?_
    rintro ⟨hcr, hlf⟩
    exact hmeet ⟨hcr, head?_before hsplit hlf⟩
  have hahead : line ++ lineEnd ++ rest
      = (seen.reverse ++ before) ++ lineEnd ++ (behind ++ r.stream.data) := by
    rw [← h.bytes, Reader.unread, hbuffer]
    simp
  have hfirst := (line_unique h.unbroken_line hunbroken hahead).1
  have hwhole := h.whole
  rw [hfirst, List.append_assoc] at hwhole
  exact ⟨hfirst.symm, List.append_cancel_left hwhole⟩

/-- A filling without one is a part of `more`. -/
theorem of_unsplit (h : r.Ahead seen line more rest)
    (hmeet : ¬ (seen.head? = some Bytes.cr ∧ r.buffer.head? = some Bytes.lf))
    (hsplit : splitLine r.buffer = none) :
    ∃ more', more = r.buffer ++ more' ∧
      Ahead { r with buffer := [] } (r.buffer.reverse ++ seen) line more' rest := by
  have hunbroken : Unbroken (seen.reverse ++ r.buffer) :=
    unbroken_seen_append h.unbroken.left (splitLine_eq_none_iff.1 hsplit) hmeet
  have hstart : seen.reverse ++ r.buffer <+: line ++ lineEnd ++ rest := by
    rw [← h.bytes]
    exact ⟨r.stream.data, by simp [Reader.unread]⟩
  have hshort := initial_length_le hstart hunbroken
  have hwhole := congrArg List.length h.whole
  simp only [List.length_append, List.length_singleton] at hshort hwhole
  have hpart : r.buffer <+: more ++ Bytes.lf :: rest := by
    rw [← h.next]
    exact List.prefix_append r.buffer r.stream.data
  obtain ⟨more', rfl⟩ :=
    List.prefix_of_prefix_length_le hpart (List.prefix_append more _) (by omega)
  refine ⟨more', rfl, h.unbroken_line, ?_, ?_⟩
  · rw [← h.whole]
    simp
  · have hunread := h.next
    rw [Reader.unread, List.append_assoc] at hunread
    exact List.append_cancel_left hunread

end Ahead

/-- Whether there is room for a line of which `n` bytes are ahead, the CR of its end included: for
    all of them, or for all but the CR if no filling ends with it. -/
def Fits (room n : Nat) (fillings : List Bytes) : Prop :=
  n ≤ room ∨ n = room + 1 ∧ ¬ EndsAt fillings n

/-- **How a line stops** that is ahead, and of which `seen` is read. -/
theorem finishLine_limit (room : Nat) {seen line more rest : Bytes} (hr : r.stream.Healthy)
    (h : r.Ahead seen line more rest) :
    (Fits room more.length r.fillings → ∃ r', r.finishLine room seen = (.ok line, r')) ∧
    (¬ Fits room more.length r.fillings →
      ∃ r', r.finishLine room seen = (.error (.protocol .lineTooLong), r')) := by
  fun_induction finishLine r room seen generalizing more with
  | case1 r room seen e r₁ hfill =>
    obtain ⟨-, hok, -⟩ := healthy_fill hr hfill
    cases hok
  | case2 r room seen r₁ hfill hempty =>
    -- the stream is not at its end: the LF at least is ahead
    have hnil := (healthy_fill hr hfill).2.2 hempty
    rw [h.next] at hnil
    exact absurd hnil (by simp)
  | case3 r room seen r₁ hfill hempty hmeet =>
    obtain ⟨rfl, hline⟩ := (h.of_fill hfill).of_meet hmeet
    refine ⟨fun _ => ⟨_, by rw [hline]⟩, ?_⟩
    intro hnot
    exact absurd (Or.inl (Nat.zero_le room)) hnot
  | case4 r room seen r₁ hfill hempty hmeet before behind hsplit hlong =>
    obtain ⟨-, rfl⟩ := (h.of_fill hfill).of_split hmeet hsplit
    refine ⟨?_, fun _ => ⟨_, rfl⟩⟩
    rw [List.length_append, List.length_singleton]
    rintro (hle | ⟨hnext, -⟩) <;> omega
  | case5 r room seen r₁ hfill hempty hmeet before behind hsplit hlong =>
    obtain ⟨hline, rfl⟩ := (h.of_fill hfill).of_split hmeet hsplit
    refine ⟨fun _ => ⟨_, by rw [hline]⟩, ?_⟩
    -- the filling goes on behind the CR, so it does not end there
    have hbuffer := congrArg List.length (splitLine_eq_some hsplit)
    have hends : ¬ EndsAt r.fillings (before ++ [Bytes.cr]).length := by
      rw [fillings_fill hfill hempty, endsAt_cons (by simp)]
      simp only [List.length_append, lineEnd, List.length_cons, List.length_nil] at hbuffer ⊢
      omega
    intro hnot
    refine absurd ?_ hnot
    by_cases hroom : before.length < room
    · exact Or.inl (by rwa [List.length_append])
    · exact Or.inr ⟨by simp; omega, hends⟩
  | case6 r room seen r₁ hfill hempty hmeet hsplit hlong =>
    obtain ⟨more, rfl, -⟩ := (h.of_fill hfill).of_unsplit hmeet hsplit
    refine ⟨?_, fun _ => ⟨_, rfl⟩⟩
    rw [List.length_append]
    rintro (hle | ⟨hnext, hends⟩)
    · omega
    · -- the filling is all that was ahead of the line, so it ends with the CR
      refine absurd ⟨[r₁.buffer], ?_, ?_⟩ hends
      · rw [fillings_fill hfill hempty]
        exact List.cons_prefix_cons.2 ⟨rfl, List.nil_prefix⟩
      · rw [List.flatten_singleton]
        omega
  | case7 r room seen r₁ hfill hempty hmeet hsplit hlong ih =>
    obtain ⟨more, rfl, hlater⟩ := (h.of_fill hfill).of_unsplit hmeet hsplit
    have hpos := List.length_pos_iff.2 hempty
    -- the filling takes as much of the room as of the line
    have hfits : Fits room (r₁.buffer ++ more).length r.fillings ↔
        Fits (room - r₁.buffer.length) more.length (fillings { r₁ with buffer := [] }) := by
      have hcons : EndsAt (r₁.buffer :: fillings { r₁ with buffer := [] })
            (r₁.buffer ++ more).length ↔ _ :=
        endsAt_cons (by rw [List.length_append]; omega)
      have hleft : (r₁.buffer ++ more).length - r₁.buffer.length = more.length := by simp
      unfold Fits
      rw [fillings_fill hfill hempty, hcons, hleft]
      simp only [List.length_append]
      constructor
      · rintro (hle | ⟨hnext, hends⟩)
        · exact Or.inl (by omega)
        · exact Or.inr ⟨by omega, fun hlater => hends ⟨by omega, hlater⟩⟩
      · rintro (hle | ⟨hnext, hends⟩)
        · exact Or.inl (by omega)
        · exact Or.inr ⟨by omega, fun hall => hends hall.2⟩
    rw [hfits]
    exact ih (healthy_fill hr hfill).1 hlater

/-- **The limit on lines.**  On a healthy stream a line that is ahead is read, and nothing behind its
    end, if it is shorter than the limit, or if it has exactly the limit and no filling of the buffer
    ends between its CR and its LF.  Otherwise, if it is longer, or has exactly the limit and a
    filling ends there, it is refused as too long, and the response with it. -/
theorem readLine_limit {line rest : Bytes} (hr : r.stream.Healthy) (hline : Unbroken line)
    (hunread : r.unread = line ++ lineEnd ++ rest) :
    (line.length < r.limits.line ∨
        line.length = r.limits.line ∧ ¬ EndsAt r.fillings (line.length + 1) →
      ∃ r', r.readLine = (.ok line, r') ∧ r'.unread = rest ∧
        (announced? line = none → r.readResponse = (.ok [.plain line], r'))) ∧
    (r.limits.line < line.length ∨
        line.length = r.limits.line ∧ EndsAt r.fillings (line.length + 1) →
      ∃ r', r.readLine = (.error (.protocol .lineTooLong), r') ∧
        r.readResponse = (.error (.protocol .lineTooLong), r')) := by
  have hahead : r.Ahead [] line (line ++ [Bytes.cr]) rest :=
    ⟨hline, rfl, by rw [hunread]; simp [lineEnd]⟩
  have hcount : (line ++ [Bytes.cr]).length = line.length + 1 := by simp
  obtain ⟨hread, hrefuse⟩ := finishLine_limit r.limits.line hr hahead
  rw [hcount] at hread hrefuse
  constructor
  · intro hshort
    have hfits : Fits r.limits.line (line.length + 1) r.fillings := by
      rcases hshort with hlt | ⟨heq, hends⟩
      · exact Or.inl hlt
      · exact Or.inr ⟨by rw [heq], hends⟩
    obtain ⟨r', hok⟩ := hread hfits
    have htaken := (readLine_sound hok).1
    rw [hunread] at htaken
    exact ⟨r', hok, (line_unique hline hline htaken).2.symm, readResponse_of_last hok⟩
  · intro hlong
    have hnot : ¬ Fits r.limits.line (line.length + 1) r.fillings := by
      rintro (hle | ⟨heq, hends⟩)
      · omega
      · rcases hlong with hlt | ⟨-, hend⟩
        · omega
        · exact hends hend
    obtain ⟨r', herror⟩ := hrefuse hnot
    exact ⟨r', herror, readResponse_of_error herror⟩

/-- Three bytes and a limit of three: with CR and LF in one segment, and with a segment each. -/
theorem readLine_limit_three :
    (∃ r', readLine (ofStream ⟨3, 0⟩ [.bytes (Bytes.ofString "a"), .bytes (Bytes.ofString "bc\r\n")])
        = (.ok (Bytes.ofString "abc"), r') ∧ r'.unread = [] ∧
      (announced? (Bytes.ofString "abc") = none →
        readResponse (ofStream ⟨3, 0⟩ [.bytes (Bytes.ofString "a"), .bytes (Bytes.ofString "bc\r\n")])
          = (.ok [.plain (Bytes.ofString "abc")], r'))) ∧
    ∃ r', readLine (ofStream ⟨3, 0⟩ [.bytes (Bytes.ofString "abc\r"), .bytes (Bytes.ofString "\n")])
        = (.error (.protocol .lineTooLong), r') ∧
      readResponse (ofStream ⟨3, 0⟩ [.bytes (Bytes.ofString "abc\r"), .bytes (Bytes.ofString "\n")])
        = (.error (.protocol .lineTooLong), r') := by
  have hline : Unbroken (Bytes.ofString "abc") := by decide
  constructor
  · have hunread : (ofStream ⟨3, 0⟩ [.bytes (Bytes.ofString "a"),
        .bytes (Bytes.ofString "bc\r\n")]).unread = Bytes.ofString "abc" ++ lineEnd ++ [] := by
      decide
    exact (readLine_limit (by decide) hline hunread).1 (Or.inr ⟨by decide, by decide +kernel⟩)
  · have hunread : (ofStream ⟨3, 0⟩ [.bytes (Bytes.ofString "abc\r"),
        .bytes (Bytes.ofString "\n")]).unread = Bytes.ofString "abc" ++ lineEnd ++ [] := by
      decide
    exact (readLine_limit (by decide) hline hunread).2 (Or.inr ⟨by decide, by decide +kernel⟩)

/-- A line of the limit is read or refused, as CR and LF come together or apart. -/
theorem readLine_apart :
    (Bytes.ofString "abc").length ≤ 3 ∧
    (ofStream ⟨3, 0⟩ [.bytes (Bytes.ofString "abc\r\n")]).readResponse.1 =
      .ok [.plain (Bytes.ofString "abc")] ∧
    (ofStream ⟨3, 0⟩ [.bytes (Bytes.ofString "abc\r"), .bytes (Bytes.ofString "\n")]).readResponse.1 =
      .error (.protocol .lineTooLong) := by
  decide +kernel

end Reader

end ImapWire
