/-
  Whatever is read was there, and nothing else is gone.

  A reader makes no promise about the stream: its segments may be cut anywhere, be empty, or be
  failures.  What it promises is about the responses that it does give.  A response is well formed
  (`Response.Framed`), its lines and literals keep the limits (`Response.Below`), and its wire form
  is exactly what it took from the bytes ahead (`Reader.readResponse_takes`).

  1. **The logical position.**  `unread` is what lies ahead, first in the buffer and then in the
     stream.  Filling the buffer does not change it, also where it fails; a pull takes its bytes from
     the front.

  2. **A line** (`finishLine_sound`).  The invariant of the loop is about `seen`, the part of the
     line that is already out of the buffer: it is unbroken, and in front of what is unread it makes
     up what was there at the start.  The three ways out (a line end across two fillings, one inside
     a filling, none yet) all keep it.

  3. **A literal** (`readExactly_sound`), and the two in turns (`readResponse_takes`).

  No state is excluded, so this holds of every call in every history, failed calls included.
  `Reader.readResponse_sound` says the same chunk by chunk.
-/
import ImapWire.Proofs.Reader.LineEnd
import Mathlib.Control.Monad.Basic

namespace ImapWire

open Bytes (Unbroken unbroken_append_iff)

namespace Response

/-! ## Well-formed responses -/

/-- A sequence of chunks that one response can be: each line but the last announces the literal
    behind it, the last one announces none, and no line holds a line end. -/
inductive Framed : List Chunk → Prop
  | last {line : Bytes} (hnone : announced? line = none) (hline : Unbroken line) :
      Framed [.plain line]
  | literal {line bs : Bytes} {rest : List Chunk} (hsome : announced? line = some bs.length)
      (hline : Unbroken line) (hrest : Framed rest) : Framed (⟨line, some bs⟩ :: rest)

/-- Every line has fewer bytes than `line`, and no literal has more than `literal`. -/
def Below (line literal : Nat) (chunks : List Chunk) : Prop :=
  ∀ c ∈ chunks, c.line.length < line ∧ ∀ bs ∈ c.literal, bs.length ≤ literal

instance (line literal : Nat) (chunks : List Chunk) : Decidable (Below line literal chunks) :=
  inferInstanceAs (Decidable (∀ c ∈ chunks, c.line.length < line ∧
    ∀ bs ∈ c.literal, bs.length ≤ literal))

theorem below_cons {line literal : Nat} {c : Chunk} {chunks : List Chunk} :
    Below line literal (c :: chunks) ↔
      (c.line.length < line ∧ ∀ bs ∈ c.literal, bs.length ≤ literal) ∧ Below line literal chunks :=
  List.forall_mem_cons

/-- A well-formed response, chunk by chunk. -/
theorem framed_iff {chunks : List Chunk} :
    Framed chunks ↔ ∃ front last, chunks = front ++ [Chunk.plain last] ∧
      announced? last = none ∧ Unbroken last ∧
      ∀ c ∈ front, Unbroken c.line ∧
        ∃ bs, c.literal = some bs ∧ announced? c.line = some bs.length := by
  constructor
  · intro h
    induction h with
    | @last line hnone hline => exact ⟨[], line, rfl, hnone, hline, fun c hc => by cases hc⟩
    | @literal line bs rest hsome hline hrest ih =>
      obtain ⟨front, last, rfl, hnone, hlast, hfront⟩ := ih
      refine ⟨⟨line, some bs⟩ :: front, last, rfl, hnone, hlast, ?_⟩
      intro c hc
      rcases List.mem_cons.1 hc with rfl | hc
      · exact ⟨hline, bs, rfl, hsome⟩
      · exact hfront c hc
  · rintro ⟨front, last, rfl, hnone, hlast, hfront⟩
    induction front with
    | nil => exact .last hnone hlast
    | cons c front ih =>
      obtain ⟨hline, bs, hbs, hsome⟩ := hfront c List.mem_cons_self
      obtain ⟨line, literal⟩ := c
      subst hbs
      exact .literal hsome hline (ih fun c hc => hfront c (List.mem_cons_of_mem _ hc))

end Response

open Response (Framed Below framed_iff below_cons)

namespace Reader

/-! ## The buffer -/

/-- Filling the buffer moves bytes and loses none, also if it fails. -/
theorem unread_fill {r r' : Reader} {e : Result Unit} (h : r.fill = (e, r')) :
    r'.unread = r.unread ∧ r'.limits = r.limits := by
  unfold fill at h
  split at h
  · next hempty =>
    have hbuffer : r.buffer = [] := List.isEmpty_iff.1 hempty
    split at h
    · next bs stream hread =>
      obtain ⟨hdata, -⟩ := Stream.data_read hread
      cases h
      exact ⟨by simp [unread, hbuffer, hdata], rfl⟩
    · next reason stream hread =>
      have hdata := Stream.data_read_error hread
      cases h
      exact ⟨by simp [unread, hdata], rfl⟩
  · cases h
    exact ⟨rfl, rfl⟩

/-- A pull takes the bytes that it gives from the front. -/
theorem pull_sound {r r' : Reader} {n : Nat} {bs : Bytes} (h : r.pull n = (.ok bs, r')) :
    r.unread = bs ++ r'.unread ∧ bs.length ≤ n ∧ r'.limits = r.limits := by
  unfold pull at h
  split at h
  · next hpast =>
    have hbuffer : r.buffer = [] := List.isEmpty_iff.1 hpast.1
    split at h
    · next bs' stream hread =>
      obtain ⟨hdata, hlen⟩ := Stream.data_read hread
      cases h
      exact ⟨by simp [unread, hbuffer, hdata], hlen, rfl⟩
    · cases h
  · split at h
    · next r₁ hfill =>
      obtain ⟨hunread, hlimits⟩ := unread_fill hfill
      cases h
      refine ⟨?_, List.length_take_le n r₁.buffer, hlimits⟩
      show r.unread = r₁.buffer.take n ++ (r₁.buffer.drop n ++ r₁.stream.data)
      rw [← hunread, ← List.append_assoc, List.take_append_drop]
      rfl
    · cases h

/-! ## Lines -/

/-- The part of a line that was seen ends as the reversed one starts. -/
theorem getLast?_seen (seen : Bytes) : seen.reverse.getLast? = seen.head? := by simp

/-- What was seen and a piece without a line end stay unbroken, unless a line end lies across. -/
theorem unbroken_seen_append {seen piece : Bytes} (hseen : Unbroken seen.reverse)
    (hpiece : Unbroken piece)
    (hmeet : ¬ (seen.head? = some Bytes.cr ∧ piece.head? = some Bytes.lf)) :
    Unbroken (seen.reverse ++ piece) := by
  refine unbroken_append_iff.2 ⟨hseen, hpiece, ?_⟩
  rw [getLast?_seen]
  exact hmeet

/-- The first line of a piece starts as the piece, if it starts at all. -/
theorem head?_before {piece before behind : Bytes}
    (hsplit : splitLine piece = some (before, behind)) {b : UInt8} (h : before.head? = some b) :
    piece.head? = some b := by
  rw [splitLine_eq_some hsplit, List.append_assoc, List.head?_append, h]
  rfl

/-- **A line that is finished.**  What was seen and what was unread begin with the line and its end,
    the line is unbroken, and it has no more bytes than there was room for. -/
theorem finishLine_sound {r r' : Reader} {room : Nat} {seen line : Bytes}
    (hseen : Unbroken seen.reverse) (h : r.finishLine room seen = (.ok line, r')) :
    seen.reverse ++ r.unread = line ++ lineEnd ++ r'.unread ∧ Unbroken line ∧
      line.length ≤ seen.length + room ∧ r'.limits = r.limits := by
  fun_induction finishLine r room seen with
  | case1 => cases h
  | case2 => cases h
  | case3 r room seen r₁ hfill hempty hmeet =>
    -- the CR was the last byte of the filling before, the LF is the first one of this
    obtain ⟨hunread, hlimits⟩ := unread_fill hfill
    obtain ⟨hcr, hlf⟩ := hmeet
    cases h
    obtain ⟨seen, rfl⟩ : ∃ tail, seen = Bytes.cr :: tail := List.head?_eq_some_iff.1 hcr
    obtain ⟨rest, hrest⟩ : ∃ tail, r₁.buffer = Bytes.lf :: tail := List.head?_eq_some_iff.1 hlf
    refine ⟨?_, ?_, ?_, hlimits⟩
    · rw [← hunread]
      simp [unread, hrest, lineEnd]
    · rw [List.reverse_cons] at hseen
      exact hseen.left
    · simp only [List.tail_cons, List.length_reverse, List.length_cons]
      omega
  | case4 => cases h
  | case5 r room seen r₁ hfill hempty hmeet before behind hsplit hlong =>
    -- the line ends inside this filling
    obtain ⟨hunread, hlimits⟩ := unread_fill hfill
    obtain ⟨hbuffer, hbefore⟩ := splitLine_eq_some_iff.1 hsplit
    cases h
    refine ⟨?_, ?_, ?_, hlimits⟩
    · rw [← hunread]
      simp [unread, hbuffer]
    · refine unbroken_seen_append hseen hbefore ?_
      rintro ⟨hcr, hlf⟩
      exact hmeet ⟨hcr, head?_before hsplit hlf⟩
    · simp only [List.length_append, List.length_reverse]
      omega
  | case6 => cases h
  | case7 r room seen r₁ hfill hempty hmeet hsplit hlong ih =>
    -- no line end yet: the whole filling belongs to the line
    obtain ⟨hunread, hlimits⟩ := unread_fill hfill
    have hmore : Unbroken (r₁.buffer.reverse ++ seen).reverse := by
      rw [List.reverse_append, List.reverse_reverse]
      exact unbroken_seen_append hseen (splitLine_eq_none_iff.1 hsplit) hmeet
    obtain ⟨hbytes, hline, hlen, hlimits'⟩ := ih hmore h
    refine ⟨?_, hline, ?_, hlimits'.trans hlimits⟩
    · rw [← hbytes, ← hunread]
      simp [unread]
    · simp only [List.length_append, List.length_reverse] at hlen
      omega

theorem readLine_sound {r r' : Reader} {line : Bytes} (h : r.readLine = (.ok line, r')) :
    r.unread = line ++ lineEnd ++ r'.unread ∧ Unbroken line ∧
      line.length ≤ r.limits.line ∧ r'.limits = r.limits := by
  have hnil : Unbroken ([] : Bytes).reverse := Bytes.unbroken_nil
  obtain ⟨hbytes, hline, hlen, hlimits⟩ := finishLine_sound hnil h
  refine ⟨hbytes, hline, ?_, hlimits⟩
  rw [List.length_nil, Nat.zero_add] at hlen
  exact hlen

/-! ## Literals -/

/-- **A literal that is read** has the bytes that were next, as many as were asked for. -/
theorem readExactly_sound {r r' : Reader} {n : Nat} {bs : Bytes}
    (h : r.readExactly n = (.ok bs, r')) :
    r.unread = bs ++ r'.unread ∧ bs.length = n ∧ r'.limits = r.limits := by
  fun_induction readExactly r n generalizing bs r' with
  | case1 => cases h; exact ⟨rfl, rfl, rfl⟩
  | case2 => cases h
  | case3 => cases h
  | case4 r n hn first r₁ hpull hfirst rest r₂ hrest ih =>
    obtain ⟨hunread, hle, hlimits⟩ := pull_sound hpull
    obtain ⟨hunread', hlen, hlimits'⟩ := ih hrest
    cases h
    refine ⟨?_, ?_, hlimits'.trans hlimits⟩
    · rw [hunread, hunread', List.append_assoc]
    · rw [List.length_append, hlen]
      omega
  | case5 => cases h

/-! ## Responses -/

/-- **What a reader gives was there, and nothing else is gone.**  From any state and on any stream,
    a response that is read is well formed and keeps the limits, and the bytes that were ahead are
    its wire form followed by the bytes that are ahead now. -/
theorem readResponse_takes {r r' : Reader} {chunks : List Chunk}
    (h : r.readResponse = (.ok chunks, r')) :
    Framed chunks ∧ Below (r.limits.line + 1) r.limits.literal chunks ∧
      r.unread = wire chunks ++ r'.unread ∧ r'.limits = r.limits := by
  fun_induction readResponse r generalizing chunks r' with
  | case1 => cases h
  | case2 r line r₁ hline hnone =>
    obtain ⟨hunread, hunbroken, hlen, hlimits⟩ := readLine_sound hline
    cases h
    refine ⟨.last hnone hunbroken, ?_, by simp [hunread, Chunk.wire], hlimits⟩
    refine below_cons.2 ⟨⟨Nat.lt_succ_of_le hlen, ?_⟩, ?_⟩
    · intro bs hbs
      cases hbs
    · intro c hc
      cases hc
  | case3 => cases h
  | case4 => cases h
  | case5 => cases h
  | case6 r line r₁ hline n hsome hlong literal r₂ hliteral chunks' r₃ hrest ih =>
    obtain ⟨hunread, hunbroken, hlen, hlimits⟩ := readLine_sound hline
    obtain ⟨hunread', hsize, hlimits'⟩ := readExactly_sound hliteral
    obtain ⟨hframed, hkept, hunread'', hlimits''⟩ := ih hrest
    cases h
    rw [hlimits', hlimits] at hkept hlimits''
    rw [hlimits] at hlong
    refine ⟨.literal (by rw [hsome, hsize]) hunbroken hframed, ?_, ?_, hlimits''⟩
    · refine below_cons.2 ⟨⟨Nat.lt_succ_of_le hlen, ?_⟩, hkept⟩
      intro bs hbs
      cases hbs
      omega
    · rw [hunread, hunread', hunread'']
      simp [Chunk.wire]

/-- **Sound framing**, chunk by chunk: all chunks but the last have the literal that they announce,
    and it is not too large; the last one announces none; no line is too long or holds a line end;
    and the bytes that were ahead are the response on the wire and then the bytes that are ahead
    now. -/
theorem readResponse_sound {r r' : Reader} {chunks : List Chunk}
    (h : r.readResponse = (.ok chunks, r')) :
    (∃ front last, chunks = front ++ [Chunk.plain last] ∧ announced? last = none ∧
      ∀ c ∈ front, ∃ bs, c.literal = some bs ∧ announced? c.line = some bs.length ∧
        bs.length ≤ r.limits.literal) ∧
    (∀ c ∈ chunks, c.line.length ≤ r.limits.line ∧ ¬ lineEnd <:+: c.line) ∧
    r.unread = wire chunks ++ r'.unread := by
  obtain ⟨hframed, hbelow, hunread, -⟩ := readResponse_takes h
  obtain ⟨front, last, rfl, hnone, hlast, hfront⟩ := framed_iff.1 hframed
  refine ⟨⟨front, last, rfl, hnone, ?_⟩, ?_, hunread⟩
  · intro c hc
    obtain ⟨-, bs, hbs, hsome⟩ := hfront c hc
    exact ⟨bs, hbs, hsome, (hbelow c (List.mem_append_left _ hc)).2 bs hbs⟩
  · intro c hc
    refine ⟨Nat.le_of_lt_succ (hbelow c hc).1, ?_⟩
    rcases List.mem_append.1 hc with hc | hc
    · exact (hfront c hc).1
    · rw [List.mem_singleton.1 hc]
      exact hlast

/-- A line end across two segments, a literal that is one itself, and a stream that fails
    afterwards. -/
theorem readResponse_sound_across :
    readResponse ⟨⟨8, 4⟩, Bytes.ofString "* {2}\r",
        [.bytes (Bytes.ofString "\n\r"), .bytes (Bytes.ofString "\n x\r\n*"), .failure "reset"]⟩ =
      (.ok [⟨Bytes.ofString "* {2}", some lineEnd⟩, .plain (Bytes.ofString " x")],
        ⟨⟨8, 4⟩, Bytes.ofString "*", [.failure "reset"]⟩) ∧
    Bytes.ofString "* {2}\r\n\r\n x\r\n*" =
      wire [⟨Bytes.ofString "* {2}", some lineEnd⟩, .plain (Bytes.ofString " x")] ++
        Bytes.ofString "*" := by
  have hread : readResponse ⟨⟨8, 4⟩, Bytes.ofString "* {2}\r",
        [.bytes (Bytes.ofString "\n\r"), .bytes (Bytes.ofString "\n x\r\n*"), .failure "reset"]⟩ =
      (.ok [⟨Bytes.ofString "* {2}", some lineEnd⟩, .plain (Bytes.ofString " x")],
        ⟨⟨8, 4⟩, Bytes.ofString "*", [.failure "reset"]⟩) := by decide +kernel
  exact ⟨hread, (readResponse_sound hread).2.2⟩

end Reader

end ImapWire
