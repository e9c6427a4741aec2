/-
  Framing does not depend on how the bytes arrive.

  Program: `Reader.readResponse` again and again (`Reader.results`), on a stream that is *healthy*:
  each of its segments brings bytes.  Spec: the responses that were put on the wire, one by one, and
  then the end of the connection; if the wire was cut inside a response, those before it, and then
  failures of the stream and nothing else (`Reader.results_exact`).

  Nothing here follows how a line or a literal is spread over segments and fillings of the buffer.
  What is proved of the loops is only how they *stop*: on a healthy stream a line is finished, or
  too long, or the bytes ran out (`finishLine_healthy`); a literal is complete, or the bytes ran out
  (`readExactly_healthy`).  Which bytes were taken is known already, from soundness, and the bytes
  leave one choice: the first line of a byte string is unique (`line_unique`).

  **Where the strict bound comes from.**  While a line is read the CR of its end may be counted to
  it.  So a line has to be shorter than the limit: all unbroken starts of what is ahead keep it then
  (`initial_length_le`).
-/
import ImapWire.Proofs.Reader.Sound

namespace ImapWire

open Bytes (Unbroken unbroken_append_iff)
open Response (Framed Below below_cons)

/-! ## Healthy streams -/

/-- Each segment brings bytes: no read fails, and none finds an end before the end. -/
def Stream.Healthy (s : Stream) : Prop := ∀ segment ∈ s, segment.data ≠ []

instance (s : Stream) : Decidable s.Healthy :=
  inferInstanceAs (Decidable (∀ segment ∈ s, segment.data ≠ []))

/-- A healthy stream gives bytes as long as there are any, and stays healthy. -/
theorem Stream.Healthy.of_read {s s' : Stream} {most : Nat} {e : Except String Bytes}
    (hs : s.Healthy) (hmost : 0 < most) (h : s.read most = (e, s')) :
    s'.Healthy ∧ ∃ bs, e = .ok bs ∧ (bs = [] → s.data = []) := by
  unfold read at h
  split at h
  · cases h
    exact ⟨hs, [], rfl, fun _ => rfl⟩
  · exact absurd rfl (hs _ List.mem_cons_self)
  · next bs rest =>
    have hbs : bs ≠ [] := hs _ List.mem_cons_self
    have hrest : Stream.Healthy rest := fun segment hmem => hs segment (List.mem_cons_of_mem _ hmem)
    split at h
    · cases h
      exact ⟨hrest, bs, rfl, fun hnil => absurd hnil hbs⟩
    · next hmore =>
      cases h
      refine ⟨?_, bs.take most, rfl, ?_⟩
      · intro segment hmem
        rcases List.mem_cons.1 hmem with rfl | hmem
        · show bs.drop most ≠ []
          intro hnil
          exact hmore (List.isEmpty_iff.2 hnil)
        · exact hrest segment hmem
      · intro hnil
        rcases List.take_eq_nil_iff.1 hnil with hzero | hnil
        · omega
        · exact absurd hnil hbs

namespace Reader

variable {r r' : Reader}

/-- With an empty buffer, all that is ahead is in the stream. -/
theorem unread_eq_nil (hbuffer : r.buffer.isEmpty) (hdata : r.stream.data = []) :
    r.unread = [] := by
  unfold unread
  rw [List.isEmpty_iff.1 hbuffer, hdata]
  rfl

theorem healthy_fill {e : Result Unit} (hr : r.stream.Healthy) (h : r.fill = (e, r')) :
    r'.stream.Healthy ∧ e = .ok () ∧ (r'.buffer = [] → r.unread = []) := by
  have hsize : 0 < bufferSize := by decide
  unfold fill at h
  split at h
  · next hempty =>
    split at h
    · next bs s' hread =>
      obtain ⟨hs', bs', hok, hend⟩ := hr.of_read hsize hread
      cases hok
      cases h
      exact ⟨hs', rfl, fun hnil => unread_eq_nil hempty (hend hnil)⟩
    · next reason s' hread =>
      obtain ⟨-, bs', hok, -⟩ := hr.of_read hsize hread
      cases hok
  · next hfull =>
    cases h
    exact ⟨hr, rfl, fun hnil => absurd (List.isEmpty_iff.2 hnil) hfull⟩

theorem healthy_pull {n : Nat} {e : Result Bytes} (hr : r.stream.Healthy) (hn : 0 < n)
    (h : r.pull n = (e, r')) :
    r'.stream.Healthy ∧ ∃ bs, e = .ok bs ∧ (bs = [] → r.unread = []) := by
  unfold pull at h
  split at h
  · next hpast =>
    split at h
    · next bs s' hread =>
      obtain ⟨hs', bs', hok, hend⟩ := hr.of_read hn hread
      cases hok
      cases h
      exact ⟨hs', bs, rfl, fun hnil => unread_eq_nil hpast.1 (hend hnil)⟩
    · next reason s' hread =>
      obtain ⟨-, bs', hok, -⟩ := hr.of_read hn hread
      cases hok
  · split at h
    · next r₁ hfill =>
      obtain ⟨hr₁, -, hend⟩ := healthy_fill hr hfill
      cases h
      refine ⟨hr₁, _, rfl, ?_⟩
      intro hnil
      rcases List.take_eq_nil_iff.1 hnil with hzero | hnil
      · omega
      · exact hend hnil
    · next reason r₁ hfill =>
      obtain ⟨-, hok, -⟩ := healthy_fill hr hfill
      cases hok

/-! ## Lines -/

/-- **How a line stops** on a healthy stream that has room for it: either it is finished, or there
    was no line end and all bytes are gone. -/
theorem finishLine_healthy {room : Nat} {seen : Bytes} (hr : r.stream.Healthy)
    (hseen : Unbroken seen.reverse)
    (hroom : ∀ start, start <+: seen.reverse ++ r.unread → Unbroken start →
      start.length ≤ seen.length + room) :
    (∃ line r', r.finishLine room seen = (.ok line, r') ∧ r'.stream.Healthy) ∨
      ∃ r', r.finishLine room seen = (.error (.io .closed), r') ∧ r'.stream.Healthy ∧
        r'.unread = [] ∧ Unbroken (seen.reverse ++ r.unread) := by
  fun_induction finishLine r room seen with
  | case1 r room seen e r₁ hfill =>
    obtain ⟨-, hok, -⟩ := healthy_fill hr hfill
    cases hok
  | case2 r room seen r₁ hfill hempty =>
    -- no bytes any more: the line that was begun is all that there was
    obtain ⟨hr₁, -, hend⟩ := healthy_fill hr hfill
    have hunread : r.unread = [] := hend hempty
    refine .inr ⟨r₁, rfl, hr₁, ?_, ?_⟩
    · rw [(unread_fill hfill).1, hunread]
    · rw [hunread, List.append_nil]
      exact hseen
  | case3 r room seen r₁ hfill hempty hmeet =>
    exact .inl ⟨_, _, rfl, (healthy_fill hr hfill).1⟩
  | case4 r room seen r₁ hfill hempty hmeet before behind hsplit hlong =>
    -- too long: but what was seen of it is an unbroken start, and there is room for those
    exfalso
    obtain ⟨hbuffer, hbefore⟩ := splitLine_eq_some_iff.1 hsplit
    have hstart : seen.reverse ++ before <+: seen.reverse ++ r.unread := by
      rw [← (unread_fill hfill).1]
      exact ⟨lineEnd ++ behind ++ r₁.stream.data, by simp [unread, hbuffer]⟩
    have hunbroken : Unbroken (seen.reverse ++ before) := by
      refine unbroken_seen_append hseen hbefore ?_
      rintro ⟨hcr, hlf⟩
      exact hmeet ⟨hcr, head?_before hsplit hlf⟩
    have hlen := hroom _ hstart hunbroken
    rw [List.length_append, List.length_reverse] at hlen
    omega
  | case5 r room seen r₁ hfill hempty hmeet before behind hsplit hlong =>
    exact .inl ⟨_, _, rfl, (healthy_fill hr hfill).1⟩
  | case6 r room seen r₁ hfill hempty hmeet hsplit hlong =>
    exfalso
    have hstart : seen.reverse ++ r₁.buffer <+: seen.reverse ++ r.unread := by
      rw [← (unread_fill hfill).1]
      exact ⟨r₁.stream.data, by simp [unread]⟩
    have hunbroken : Unbroken (seen.reverse ++ r₁.buffer) :=
      unbroken_seen_append hseen (splitLine_eq_none_iff.1 hsplit) hmeet
    have hlen := hroom _ hstart hunbroken
    rw [List.length_append, List.length_reverse] at hlen
    omega
  | case7 r room seen r₁ hfill hempty hmeet hsplit hlong ih =>
    have hmore : Unbroken (r₁.buffer.reverse ++ seen).reverse := by
      rw [List.reverse_append, List.reverse_reverse]
      exact unbroken_seen_append hseen (splitLine_eq_none_iff.1 hsplit) hmeet
    have hsame : (r₁.buffer.reverse ++ seen).reverse ++ unread { r₁ with buffer := [] }
        = seen.reverse ++ r.unread := by
      rw [← (unread_fill hfill).1]
      simp [unread]
    rw [hsame] at ih
    apply ih (healthy_fill hr hfill).1 hmore
    intro start hstart hunbroken
    have hlen := hroom start hstart hunbroken
    rw [List.length_append, List.length_reverse]
    omega

/-- An unbroken start of a line with its end takes at most the CR of the end. -/
theorem initial_length_le {start line rest : Bytes} (hstart : start <+: line ++ lineEnd ++ rest)
    (hunbroken : Unbroken start) : start.length ≤ line.length + 1 := by
  by_contra hlong
  have hlen : (line ++ lineEnd).length ≤ start.length := by
    simp only [lineEnd, List.length_append, List.length_cons, List.length_nil]
    omega
  obtain ⟨tail, rfl⟩ := List.prefix_of_prefix_length_le (List.prefix_append _ rest) hstart hlen
  exact hunbroken (List.infix_append line lineEnd tail)

/-- How the first line stops, if there is room for all that can be seen of it. -/
theorem readLine_healthy (hr : r.stream.Healthy)
    (hroom : ∀ start, start <+: r.unread → Unbroken start → start.length ≤ r.limits.line) :
    (∃ line r', r.readLine = (.ok line, r') ∧ r'.stream.Healthy) ∨
      ∃ r', r.readLine = (.error (.io .closed), r') ∧ r'.stream.Healthy ∧ r'.unread = [] ∧
        Unbroken r.unread := by
  have hnil : Unbroken ([] : Bytes).reverse := Bytes.unbroken_nil
  apply finishLine_healthy hr hnil
  intro start hstart hunbroken
  rw [List.length_nil, Nat.zero_add]
  exact hroom start hstart hunbroken

/-- A line that is ahead is read. -/
theorem readLine_exact {line rest : Bytes} (hr : r.stream.Healthy) (hline : Unbroken line)
    (hshort : line.length < r.limits.line) (hunread : r.unread = line ++ lineEnd ++ rest) :
    ∃ r', r.readLine = (.ok line, r') ∧ r'.stream.Healthy ∧ r'.unread = rest ∧
      r'.limits = r.limits := by
  have hroom : ∀ start, start <+: r.unread → Unbroken start → start.length ≤ r.limits.line := by
    intro start hstart hunbroken
    rw [hunread] at hstart
    have hlen := initial_length_le hstart hunbroken
    omega
  rcases readLine_healthy hr hroom with ⟨line', r', hread, hr'⟩ | ⟨r', -, -, -, hunbroken⟩
  · obtain ⟨htaken, hline', -, hlimits⟩ := readLine_sound hread
    rw [hunread] at htaken
    obtain ⟨rfl, rfl⟩ := line_unique hline hline' htaken
    exact ⟨r', hread, hr', rfl, hlimits⟩
  · rw [hunread] at hunbroken
    exact absurd hunbroken (Bytes.not_unbroken_lineEnd line rest)

/-- If only a part of a line is ahead, the connection is closed. -/
theorem readLine_cut (hr : r.stream.Healthy) (hline : Unbroken r.unread)
    (hshort : r.unread.length ≤ r.limits.line) :
    ∃ r', r.readLine = (.error (.io .closed), r') ∧ r'.stream.Healthy ∧ r'.unread = [] := by
  have hroom : ∀ start, start <+: r.unread → Unbroken start → start.length ≤ r.limits.line := by
    intro start hstart _
    exact Nat.le_trans hstart.length_le hshort
  rcases readLine_healthy hr hroom with ⟨line', r', hread, -⟩ | ⟨r', hread, hr', hnil, -⟩
  · obtain ⟨htaken, -⟩ := readLine_sound hread
    rw [htaken] at hline
    exact absurd hline (Bytes.not_unbroken_lineEnd line' r'.unread)
  · exact ⟨r', hread, hr', hnil⟩

/-! ## Literals -/

/-- **How a literal stops** on a healthy stream: either it is complete, or all bytes are gone, and
    there were too few. -/
theorem readExactly_healthy {n : Nat} (hr : r.stream.Healthy) :
    (∃ bs r', r.readExactly n = (.ok bs, r') ∧ r'.stream.Healthy) ∨
      ∃ r', r.readExactly n = (.error (.io .cutShort), r') ∧ r'.stream.Healthy ∧ r'.unread = [] ∧
        r.unread.length < n := by
  fun_induction readExactly r n with
  | case1 r => exact .inl ⟨_, _, rfl, hr⟩
  | case2 r n hn e r₁ hpull =>
    obtain ⟨-, bs, hok, -⟩ := healthy_pull hr (Nat.pos_of_ne_zero hn) hpull
    cases hok
  | case3 r n hn r₁ hpull =>
    obtain ⟨hr₁, bs, hok, hend⟩ := healthy_pull hr (Nat.pos_of_ne_zero hn) hpull
    cases hok
    have hnil : r.unread = [] := hend rfl
    have htaken := (pull_sound hpull).1
    refine .inr ⟨r₁, rfl, hr₁, ?_, ?_⟩
    · rw [hnil] at htaken
      exact htaken.symm
    · rw [hnil]
      exact Nat.pos_of_ne_zero hn
  | case4 r n hn first r₁ hpull hfirst rest r₂ hrest ih =>
    obtain ⟨hr₁, -⟩ := healthy_pull hr (Nat.pos_of_ne_zero hn) hpull
    rcases ih hr₁ with ⟨bs, r', hread, hr'⟩ | ⟨r', hread, -⟩
    · rw [hrest] at hread
      cases hread
      exact .inl ⟨_, _, rfl, hr'⟩
    · rw [hrest] at hread
      cases hread
  | case5 r n hn first r₁ hpull hfirst e r₂ hrest ih =>
    obtain ⟨hr₁, -⟩ := healthy_pull hr (Nat.pos_of_ne_zero hn) hpull
    obtain ⟨htaken, hle, -⟩ := pull_sound hpull
    rcases ih hr₁ with ⟨bs, r', hread, -⟩ | ⟨r', hread, hr', hnil, hfew⟩
    · rw [hrest] at hread
      cases hread
    · rw [hrest] at hread
      cases hread
      refine .inr ⟨r₂, rfl, hr', hnil, ?_⟩
      rw [htaken, List.length_append]
      omega

/-- A literal that is ahead is read. -/
theorem readExactly_exact {bs rest : Bytes} (hr : r.stream.Healthy)
    (hunread : r.unread = bs ++ rest) :
    ∃ r', r.readExactly bs.length = (.ok bs, r') ∧ r'.stream.Healthy ∧ r'.unread = rest ∧
      r'.limits = r.limits := by
  rcases readExactly_healthy hr with ⟨bs', r', hread, hr'⟩ | ⟨r', -, -, -, hfew⟩
  · obtain ⟨htaken, hlen, hlimits⟩ := readExactly_sound hread
    rw [hunread] at htaken
    obtain ⟨rfl, rfl⟩ := List.append_inj htaken hlen.symm
    exact ⟨r', hread, hr', rfl, hlimits⟩
  · rw [hunread, List.length_append] at hfew
    omega

/-- If only a part of a literal is ahead, the stream is cut short. -/
theorem readExactly_cut {n : Nat} (hr : r.stream.Healthy) (hfew : r.unread.length < n) :
    ∃ r', r.readExactly n = (.error (.io .cutShort), r') ∧ r'.stream.Healthy ∧ r'.unread = [] := by
  rcases readExactly_healthy (n := n) hr with ⟨bs, r', hread, -⟩ | ⟨r', hread, hr', hnil, -⟩
  · obtain ⟨htaken, hlen, -⟩ := readExactly_sound hread
    rw [htaken, List.length_append] at hfew
    omega
  · exact ⟨r', hread, hr', hnil⟩

/-! ## One step of a response -/

theorem readResponse_of_error {r₁ : Reader} {e : Error} (hline : r.readLine = (.error e, r₁)) :
    r.readResponse = (.error e, r₁) := by
  rw [readResponse]
  split
  · next heq =>
    rw [hline] at heq
    cases heq
    rfl
  · next heq =>
    rw [hline] at heq
    cases heq

theorem readResponse_of_last {r₁ : Reader} {line : Bytes} (hline : r.readLine = (.ok line, r₁))
    (hnone : announced? line = none) : r.readResponse = (.ok [.plain line], r₁) := by
  rw [readResponse]
  split
  · next heq =>
    rw [hline] at heq
    cases heq
  · next heq =>
    rw [hline] at heq
    cases heq
    rw [hnone]

/-- With a literal that is not too large, all is up to the literal and what follows it. -/
theorem readResponse_of_announced {r₁ : Reader} {line : Bytes} {n : Nat}
    (hline : r.readLine = (.ok line, r₁)) (hsome : announced? line = some n)
    (hsmall : n ≤ r₁.limits.literal) :
    r.readResponse =
      match r₁.readExactly n with
      | (.error e, r₂) => (.error e, r₂)
      | (.ok literal, r₂) =>
        (r₂.readResponse.1.map fun chunks => ⟨line, some literal⟩ :: chunks,
          r₂.readResponse.2) := by
  rw [readResponse]
  split
  · next heq =>
    rw [hline] at heq
    cases heq
  · next heq =>
    rw [hline] at heq
    cases heq
    rw [hsome]
    show (if r₁.limits.literal < n then _ else _) = _
    rw [if_neg (Nat.not_lt.2 hsmall)]
    split
    · next hliteral => rw [hliteral]
    · next r₂ hliteral =>
      rw [hliteral]
      split
      · next hrest =>
        show _ = (r₂.readResponse.1.map _, r₂.readResponse.2)
        rw [hrest]
        rfl
      · next hrest =>
        show _ = (r₂.readResponse.1.map _, r₂.readResponse.2)
        rw [hrest]
        rfl

theorem readResponse_of_literal_error {r₁ r₂ : Reader} {line : Bytes} {n : Nat} {e : Error}
    (hline : r.readLine = (.ok line, r₁)) (hsome : announced? line = some n)
    (hsmall : n ≤ r₁.limits.literal) (hliteral : r₁.readExactly n = (.error e, r₂)) :
    r.readResponse = (.error e, r₂) := by
  rw [readResponse_of_announced hline hsome hsmall, hliteral]

theorem readResponse_of_literal {r₁ r₂ r₃ : Reader} {line literal : Bytes} {n : Nat}
    {e : Result (List Chunk)} (hline : r.readLine = (.ok line, r₁))
    (hsome : announced? line = some n) (hsmall : n ≤ r₁.limits.literal)
    (hliteral : r₁.readExactly n = (.ok literal, r₂)) (hrest : r₂.readResponse = (e, r₃)) :
    r.readResponse = (e.map fun chunks => ⟨line, some literal⟩ :: chunks, r₃) := by
  rw [readResponse_of_announced hline hsome hsmall, hliteral]
  show (r₂.readResponse.1.map _, r₂.readResponse.2) = _
  rw [hrest]

/-! ## Responses -/

variable {chunks : List Chunk}

/-- A response that is ahead is read, and nothing behind it. -/
theorem readResponse_exact {rest : Bytes} (hr : r.stream.Healthy) (hframed : Framed chunks)
    (hbelow : Below r.limits.line r.limits.literal chunks)
    (hunread : r.unread = wire chunks ++ rest) :
    ∃ r', r.readResponse = (.ok chunks, r') ∧ r'.stream.Healthy ∧ r'.unread = rest ∧
      r'.limits = r.limits := by
  induction hframed generalizing r with
  | @last line hnone hline =>
    have hshort : line.length < r.limits.line := (below_cons.1 hbelow).1.1
    have hahead : r.unread = line ++ lineEnd ++ rest := by simpa [Chunk.wire] using hunread
    obtain ⟨r₁, hread, hr₁, hrest, hlimits⟩ := readLine_exact hr hline hshort hahead
    exact ⟨r₁, readResponse_of_last hread hnone, hr₁, hrest, hlimits⟩
  | @literal line bs chunks hsome hline hframed ih =>
    obtain ⟨⟨hshort, hsmall⟩, hbelow'⟩ := below_cons.1 hbelow
    have hahead : r.unread = line ++ lineEnd ++ (bs ++ (wire chunks ++ rest)) := by
      simpa [Chunk.wire] using hunread
    obtain ⟨r₁, hread, hr₁, hbehind, hlimits⟩ := readLine_exact hr hline hshort hahead
    obtain ⟨r₂, hread', hr₂, hbehind', hlimits'⟩ := readExactly_exact hr₁ hbehind
    rw [← hlimits, ← hlimits'] at hbelow'
    obtain ⟨r₃, hread'', hr₃, hrest, hlimits''⟩ := ih hr₂ hbelow' hbehind'
    refine ⟨r₃, ?_, hr₃, hrest, hlimits''.trans (hlimits'.trans hlimits)⟩
    have hfits : bs.length ≤ r₁.limits.literal := by
      rw [hlimits]
      exact hsmall bs rfl
    exact readResponse_of_literal hread hsome hfits hread' hread''

/-- A part of a line with its end is too short to hold the end. -/
theorem unbroken_of_cut {line front back : Bytes} (hline : Unbroken line) (hback : back ≠ [])
    (hcut : front ++ back = line ++ lineEnd) :
    Unbroken front ∧ front.length ≤ line.length + 1 := by
  have hlen := congrArg List.length hcut
  have hpos := List.length_pos_iff.2 hback
  simp only [List.length_append, lineEnd, List.length_cons, List.length_nil] at hlen
  refine ⟨?_, by omega⟩
  have hshort : front.length ≤ (line ++ [Bytes.cr]).length := by
    rw [List.length_append, List.length_singleton]
    omega
  have hstart : front <+: line ++ [Bytes.cr] :=
    List.prefix_of_prefix_length_le ⟨back, hcut⟩ ⟨[Bytes.lf], by simp [lineEnd]⟩ hshort
  exact hline.append_cr.initial hstart

/-- Where a string that is cut in one place and made of two parts is cut: inside the first part, or
    at its end or later. -/
theorem append_eq_append_cases {front back a b : Bytes} (h : front ++ back = a ++ b) :
    (∃ more, front ++ more = a ∧ more ≠ []) ∨
      ∃ front', front = a ++ front' ∧ front' ++ back = b := by
  rcases List.append_eq_append_iff.1 h with ⟨more, ha, hback⟩ | ⟨front', hfront, hb⟩
  · by_cases hmore : more = []
    · refine .inr ⟨[], ?_, ?_⟩
      · rw [ha, hmore, List.append_nil, List.append_nil]
      · rw [hback, hmore]
        rfl
    · exact .inl ⟨more, ha.symm, hmore⟩
  · exact .inr ⟨front', hfront, hb.symm⟩

/-- **A response of which only a part is ahead** fails for the stream, and uses up all bytes. -/
theorem readResponse_cut {back : Bytes} (hr : r.stream.Healthy) (hframed : Framed chunks)
    (hbelow : Below r.limits.line r.limits.literal chunks) (hback : back ≠ [])
    (hcut : wire chunks = r.unread ++ back) :
    ∃ reason r', r.readResponse = (.error (.io reason), r') ∧ r'.stream.Healthy ∧
      r'.unread = [] := by
  induction hframed generalizing r with
  | @last line hnone hline =>
    have hshort : line.length < r.limits.line := (below_cons.1 hbelow).1.1
    have hpart : r.unread ++ back = line ++ lineEnd := by simpa [Chunk.wire] using hcut.symm
    obtain ⟨hunbroken, hlen⟩ := unbroken_of_cut hline hback hpart
    obtain ⟨r', hread, hr', hnil⟩ := readLine_cut hr hunbroken (by omega)
    exact ⟨.closed, r', readResponse_of_error hread, hr', hnil⟩
  | @literal line bs chunks hsome hline hframed ih =>
    obtain ⟨⟨hshort, hsmall⟩, hbelow'⟩ := below_cons.1 hbelow
    have hwhole : r.unread ++ back = (line ++ lineEnd) ++ (bs ++ wire chunks) := by
      simpa [Chunk.wire] using hcut.symm
    rcases append_eq_append_cases hwhole with ⟨more, hpart, hmore⟩ | ⟨front, hunread, hfront⟩
    · -- the cut is inside the line
      obtain ⟨hunbroken, hlen⟩ := unbroken_of_cut hline hmore hpart
      have hroom : r.unread.length ≤ r.limits.line := Nat.le_trans hlen hshort
      obtain ⟨r', hread, hr', hnil⟩ := readLine_cut hr hunbroken hroom
      exact ⟨.closed, r', readResponse_of_error hread, hr', hnil⟩
    · obtain ⟨r₁, hread, hr₁, hbehind, hlimits⟩ := readLine_exact hr hline hshort hunread
      have hfits : bs.length ≤ r₁.limits.literal := by
        rw [hlimits]
        exact hsmall bs rfl
      rcases append_eq_append_cases hfront with ⟨more, hpart, hmore⟩ | ⟨front', hfront', hcut'⟩
      · -- the cut is inside the literal
        have hfew : r₁.unread.length < bs.length := by
          have hpos := List.length_pos_iff.2 hmore
          rw [← hpart, hbehind, List.length_append]
          omega
        obtain ⟨r', hread', hr', hnil⟩ := readExactly_cut hr₁ hfew
        exact ⟨.cutShort, r', readResponse_of_literal_error hread hsome hfits hread', hr', hnil⟩
      · -- the cut is behind the literal
        rw [← hbehind] at hfront'
        obtain ⟨r₂, hread', hr₂, hbehind', hlimits'⟩ := readExactly_exact hr₁ hfront'
        rw [← hlimits, ← hlimits'] at hbelow'
        rw [← hbehind'] at hcut'
        obtain ⟨reason, r', hread'', hr', hnil⟩ := ih hr₂ hbelow' hcut'.symm
        exact ⟨reason, r', readResponse_of_literal hread hsome hfits hread' hread'', hr', hnil⟩

/-- At the end of the bytes there is no further response. -/
theorem readResponse_ended (hr : r.stream.Healthy) (hnil : r.unread = []) :
    ∃ r', r.readResponse = (.error (.io .closed), r') ∧ r'.stream.Healthy ∧ r'.unread = [] := by
  have hline : Unbroken r.unread := by
    rw [hnil]
    exact Bytes.unbroken_nil
  have hroom : r.unread.length ≤ r.limits.line := by
    rw [hnil]
    exact Nat.zero_le _
  obtain ⟨r', hread, hr', hnil'⟩ := readLine_cut hr hline hroom
  exact ⟨r', readResponse_of_error hread, hr', hnil'⟩

/-! ## One response after the other -/

/-- What the next calls give, one after the other. -/
def results (r : Reader) : Nat → List (Result (List Chunk))
  | 0 => []
  | n + 1 => r.readResponse.1 :: results r.readResponse.2 n

theorem results_succ {r' : Reader} {e : Result (List Chunk)} (h : r.readResponse = (e, r'))
    (n : Nat) : r.results (n + 1) = e :: r'.results n := by
  rw [results, h]

/-- After the end of the bytes, every call says that the connection is closed. -/
theorem results_ended (hr : r.stream.Healthy) (hnil : r.unread = []) (n : Nat) :
    r.results n = List.replicate n (.error (.io .closed)) := by
  induction n generalizing r with
  | zero => rfl
  | succ n ih =>
    obtain ⟨r', hread, hr', hnil'⟩ := readResponse_ended hr hnil
    rw [results_succ hread, ih hr' hnil', List.replicate_succ]

/-- The responses ahead are read one by one, whatever is behind them. -/
theorem results_append {rs : List (List Chunk)} {rest : Bytes} (hr : r.stream.Healthy)
    (hrs : ∀ chunks ∈ rs, Framed chunks ∧ Below r.limits.line r.limits.literal chunks)
    (hunread : r.unread = rs.flatMap wire ++ rest) :
    ∃ r' : Reader, (∀ n, r.results (rs.length + n) = rs.map .ok ++ r'.results n) ∧
      r'.stream.Healthy ∧ r'.unread = rest ∧ r'.limits = r.limits := by
  induction rs generalizing r with
  | nil =>
    refine ⟨r, ?_, hr, hunread, rfl⟩
    intro n
    rw [List.length_nil, Nat.zero_add]
    rfl
  | cons chunks rs ih =>
    obtain ⟨⟨hframed, hbelow⟩, hrs'⟩ := List.forall_mem_cons.1 hrs
    rw [List.flatMap_cons, List.append_assoc] at hunread
    obtain ⟨r₁, hread, hr₁, hbehind, hlimits⟩ := readResponse_exact hr hframed hbelow hunread
    rw [← hlimits] at hrs'
    obtain ⟨r', hresults, hr', hrest, hlimits'⟩ := ih hr₁ hrs' hbehind
    refine ⟨r', ?_, hr', hrest, hlimits'.trans hlimits⟩
    intro n
    have hcount : (chunks :: rs).length + n = rs.length + n + 1 := by
      rw [List.length_cons]
      omega
    rw [hcount, results_succ hread, hresults n]
    rfl

/-- **Framing is exact under every segmentation.**  A reader whose stream is healthy gives the
    responses that are ahead, one by one, and says then that the connection is closed.  If the
    last of them is cut anywhere, it gives those before it, and then failures of the stream. -/
theorem results_exact {rs : List (List Chunk)} (hr : r.stream.Healthy)
    (hrs : ∀ chunks ∈ rs, Framed chunks ∧ Below r.limits.line r.limits.literal chunks) :
    (r.unread = rs.flatMap wire → ∀ n,
      r.results (rs.length + n) = rs.map .ok ++ List.replicate n (.error (.io .closed))) ∧
    ∀ before cut behind, rs = before ++ cut :: behind → ∀ front back, wire cut = front ++ back →
      back ≠ [] → r.unread = before.flatMap wire ++ front → ∃ reason, ∀ n,
        r.results (before.length + (n + 1)) =
          before.map .ok ++ .error (.io reason) :: List.replicate n (.error (.io .closed)) := by
  constructor
  · intro hunread n
    have hwhole : r.unread = rs.flatMap wire ++ [] := by rw [hunread, List.append_nil]
    obtain ⟨r', hresults, hr', hnil, -⟩ := results_append hr hrs hwhole
    rw [hresults, results_ended hr' hnil]
  · rintro before cut behind rfl front back hcut hback hunread
    have hbefore : ∀ chunks ∈ before, Framed chunks ∧ Below r.limits.line r.limits.literal chunks :=
      fun chunks hmem => hrs chunks (List.mem_append_left _ hmem)
    obtain ⟨hframed, hbelow⟩ := hrs cut (List.mem_append_right _ List.mem_cons_self)
    obtain ⟨r₁, hresults, hr₁, hfront, hlimits⟩ := results_append hr hbefore hunread
    rw [← hlimits] at hbelow
    rw [← hfront] at hcut
    obtain ⟨reason, r', hread, hr', hnil⟩ := readResponse_cut hr₁ hframed hbelow hback hcut
    refine ⟨reason, ?_⟩
    intro n
    rw [hresults, results_succ hread, results_ended hr' hnil]

/-- A literal that ends in a CR before a line that starts with an LF, and a line that ends in a CR:
    first the whole of it in five pieces, then without the last LF. -/
theorem results_exact_pieces :
    (ofStream ⟨6, 1⟩ [.bytes (Bytes.ofString "* {1}\r"), .bytes (Bytes.ofString "\n"),
        .bytes (Bytes.ofString "\r\n\r"), .bytes (Bytes.ofString "\na\r\r"),
        .bytes (Bytes.ofString "\n")]).results 3 =
      [.ok [⟨Bytes.ofString "* {1}", some [Bytes.cr]⟩, .plain [Bytes.lf]],
        .ok [.plain (Bytes.ofString "a\r")], .error (.io .closed)] ∧
    ∃ reason, (ofStream ⟨6, 1⟩ [.bytes (Bytes.ofString "* {1}\r\n\r\n\r"),
        .bytes (Bytes.ofString "\na\r\r")]).results 3 =
      [.ok [⟨Bytes.ofString "* {1}", some [Bytes.cr]⟩, .plain [Bytes.lf]], .error (.io reason),
        .error (.io .closed)] := by
  have hlegal : ∀ chunks ∈ [[⟨Bytes.ofString "* {1}", some [Bytes.cr]⟩, .plain [Bytes.lf]],
      [.plain (Bytes.ofString "a\r")]], Framed chunks ∧ Below 6 1 chunks := by
    intro chunks hmem
    rcases List.mem_cons.1 hmem with rfl | hmem
    · have hannounced : announced? (Bytes.ofString "* {1}") = some [Bytes.cr].length := by
        decide +kernel
      exact ⟨.literal hannounced (by decide) (.last (by decide) (by decide)), by decide⟩
    · rw [List.mem_singleton.1 hmem]
      exact ⟨.last (by decide) (by decide), by decide⟩
  constructor
  · have hwhole := results_exact (r := ofStream ⟨6, 1⟩ [.bytes (Bytes.ofString "* {1}\r"),
      .bytes (Bytes.ofString "\n"), .bytes (Bytes.ofString "\r\n\r"),
      .bytes (Bytes.ofString "\na\r\r"), .bytes (Bytes.ofString "\n")]) (by decide) hlegal
    exact hwhole.1 (by decide) 1
  · have hpart := results_exact (r := ofStream ⟨6, 1⟩
      [.bytes (Bytes.ofString "* {1}\r\n\r\n\r"), .bytes (Bytes.ofString "\na\r\r")])
      (by decide) hlegal
    obtain ⟨reason, hresults⟩ := hpart.2
      [[⟨Bytes.ofString "* {1}", some [Bytes.cr]⟩, .plain [Bytes.lf]]]
      [.plain (Bytes.ofString "a\r")] [] rfl (Bytes.ofString "a\r\r") [Bytes.lf]
      (by decide) (by decide) (by decide)
    exact ⟨reason, hresults 1⟩

end Reader

end ImapWire
