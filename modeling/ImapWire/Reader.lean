/-
  Reading responses off a stream.

  A `Reader` cuts the bytes of a stream into responses (`readResponse`): a line, and as long as the
  line announces a literal, that literal and a further line.  It reads the stream through a buffer,
  which it fills when it is empty; only a literal that needs a whole buffer or more bypasses it.

  A line ends with the first CR LF.  The CR may be the last byte of one filling and the LF the first
  of the next one.  A line is too long as soon as more bytes of it than the limit have been seen,
  which may be before its end comes in sight.

  After a failure the reader goes on where it stands; what it had read of the response is lost.

  Everything ends because a line uses up bytes (`readLine_weight_lt`): the weight of a reader is the
  number of bytes ahead of it, each segment of the stream counting one more.
-/
import ImapWire.Chunk
import ImapWire.Error
import ImapWire.Options
import ImapWire.Stream

namespace ImapWire

/-- A stream, and the bytes read from it that are not used yet. -/
structure Reader where
  limits : Limits
  buffer : Bytes
  stream : Stream
  deriving DecidableEq, Repr

/-- How many bytes the buffer takes. -/
def bufferSize : Nat := 8192

namespace Reader

/-- At the start of a stream. -/
def ofStream (limits : Limits) (stream : Stream) : Reader := ⟨limits, [], stream⟩

/-- The bytes ahead: those of the buffer and those of the stream. -/
def unread (r : Reader) : Bytes := r.buffer ++ r.stream.data

/-- The number of bytes ahead, each segment of the stream counting one more. -/
def weight (r : Reader) : Nat := r.buffer.length + r.stream.weight

/-- A failed read of the stream. -/
def failed (reason : String) : Error := .io (.failed reason)

/-! ## The buffer -/

/-- Fills the buffer if it is empty; it stays empty at the end of the stream. -/
def fill (r : Reader) : Result Unit × Reader :=
  if r.buffer.isEmpty then
    match r.stream.read bufferSize with
    | (.ok bs, stream) => (.ok (), { r with buffer := bs, stream })
    | (.error reason, stream) => (.error (failed reason), { r with stream })
  else (.ok (), r)

/-- One read of at most `n` bytes, past the buffer if it is empty and `n` would fill it. -/
def pull (r : Reader) (n : Nat) : Result Bytes × Reader :=
  if r.buffer.isEmpty ∧ bufferSize ≤ n then
    match r.stream.read n with
    | (.ok bs, stream) => (.ok bs, { r with stream })
    | (.error reason, stream) => (.error (failed reason), { r with stream })
  else
    match r.fill with
    | (.ok (), r) => (.ok (r.buffer.take n), { r with buffer := r.buffer.drop n })
    | (.error e, r) => (.error e, r)

theorem fill_weight_le {r r' : Reader} {e : Result Unit} (h : r.fill = (e, r')) :
    r'.weight ≤ r.weight := by
  unfold fill at h
  split at h
  · next hb =>
    split at h
    · next hr =>
      have := Stream.weight_read hr
      cases h; simp only [weight, List.isEmpty_iff.1 hb, List.length_nil]; omega
    · next hr =>
      have := Stream.weight_read_error hr
      cases h; simp only [weight]; omega
  · cases h; exact Nat.le_refl _

theorem pull_weight_le {r r' : Reader} {n : Nat} {e : Result Bytes} (h : r.pull n = (e, r')) :
    r'.weight ≤ r.weight := by
  unfold pull at h
  split at h
  · split at h
    · next hr =>
      have := Stream.weight_read hr
      cases h; simp only [weight]; omega
    · next hr =>
      have := Stream.weight_read_error hr
      cases h; simp only [weight]; omega
  · split at h
    · next hf =>
      have := fill_weight_le hf
      cases h; simp only [weight, List.length_drop] at *; omega
    · next hf =>
      have := fill_weight_le hf
      cases h; exact this

/-! ## Lines -/

/-- The bytes before the first line end, and those behind it. -/
def splitLine : Bytes → Option (Bytes × Bytes)
  | b :: c :: rest =>
    if b = Bytes.cr ∧ c = Bytes.lf then some ([], rest)
    else (splitLine (c :: rest)).map fun (before, behind) => (b :: before, behind)
  | _ => none

theorem splitLine_eq_some {bs before behind : Bytes} (h : splitLine bs = some (before, behind)) :
    bs = before ++ lineEnd ++ behind := by
  fun_induction splitLine bs generalizing before behind with
  | case1 b c rest hend => obtain ⟨rfl, rfl⟩ := hend; simp_all [lineEnd]
  | case2 b c rest hend ih =>
    obtain ⟨⟨before', behind'⟩, hs, heq⟩ := Option.map_eq_some_iff.1 h
    simp only [Prod.mk.injEq] at heq
    obtain ⟨rfl, rfl⟩ := heq
    rw [ih hs]
    simp
  | case3 => simp at h

/-- Reads on to the end of a line: `seen` is what has been read of it, latest byte first, and `room`
    says how many more bytes it may have. -/
def finishLine (r : Reader) (room : Nat) (seen : Bytes) : Result Bytes × Reader :=
  match _h : r.fill with
  | (.error e, r) => (.error e, r)
  | (.ok (), r') =>
    if _hempty : r'.buffer = [] then (.error (.io .closed), r')
    else if seen.head? = some Bytes.cr ∧ r'.buffer.head? = some Bytes.lf then
      (.ok seen.tail.reverse, { r' with buffer := r'.buffer.tail })
    else
      match splitLine r'.buffer with
      | some (before, behind) =>
        if room < before.length then (.error (.protocol .lineTooLong), r')
        else (.ok (seen.reverse ++ before), { r' with buffer := behind })
      | none =>
        if room < r'.buffer.length then
          (.error (.protocol .lineTooLong), { r' with buffer := [] })
        else
          finishLine { r' with buffer := [] } (room - r'.buffer.length) (r'.buffer.reverse ++ seen)
termination_by r.weight
decreasing_by
  have := fill_weight_le _h
  have := List.length_pos_iff.2 _hempty
  simp only [weight, List.length_nil] at *
  omega

/-- Reads a line. -/
def readLine (r : Reader) : Result Bytes × Reader := r.finishLine r.limits.line []

theorem finishLine_weight_lt {r r' : Reader} {room : Nat} {seen line : Bytes}
    (h : r.finishLine room seen = (.ok line, r')) : r'.weight < r.weight := by
  fun_induction finishLine r room seen with
  | case1 => cases h
  | case2 => cases h
  | case3 r room seen r' hfill hempty hsplit =>
    have := fill_weight_le hfill
    have := List.length_pos_iff.2 hempty
    cases h
    simp only [weight, List.length_tail] at *
    omega
  | case4 => cases h
  | case5 r room seen r' hfill hempty hsplit before behind hs hlong =>
    have := fill_weight_le hfill
    have hlen := congrArg List.length (splitLine_eq_some hs)
    cases h
    simp only [weight, List.length_append, lineEnd, List.length_cons, List.length_nil] at *
    omega
  | case6 => cases h
  | case7 r room seen r' hfill hempty hsplit hs hlong ih =>
    have := ih h
    have := fill_weight_le hfill
    simp only [weight, List.length_nil] at *
    omega

/-- A line uses up bytes. -/
theorem readLine_weight_lt {r r' : Reader} {line : Bytes} (h : r.readLine = (.ok line, r')) :
    r'.weight < r.weight :=
  finishLine_weight_lt h

/-! ## Literals -/

/-- Reads exactly `n` bytes. -/
def readExactly (r : Reader) (n : Nat) : Result Bytes × Reader :=
  if _hn : n = 0 then (.ok [], r)
  else
    match r.pull n with
    | (.error e, r) => (.error e, r)
    | (.ok bs, r) =>
      if _hbs : bs = [] then (.error (.io .cutShort), r)
      else
        match readExactly r (n - bs.length) with
        | (.ok rest, r) => (.ok (bs ++ rest), r)
        | (.error e, r) => (.error e, r)
termination_by n
decreasing_by
  have := List.length_pos_iff.2 _hbs
  omega

theorem readExactly_weight_le {r r' : Reader} {n : Nat} {e : Result Bytes}
    (h : r.readExactly n = (e, r')) : r'.weight ≤ r.weight := by
  fun_induction readExactly r n generalizing e r' with
  | case1 => cases h; exact Nat.le_refl _
  | case2 r n hn e' r1 hp => cases h; exact pull_weight_le hp
  | case3 r n hn r1 hp => cases h; exact pull_weight_le hp
  | case4 r n hn bs r1 hp hbs rest r2 hrest ih =>
    cases h; exact Nat.le_trans (ih hrest) (pull_weight_le hp)
  | case5 r n hn bs r1 hp hbs e' r2 hrest ih =>
    cases h; exact Nat.le_trans (ih hrest) (pull_weight_le hp)

/-! ## Responses -/

/-- Reads one response. -/
def readResponse (r : Reader) : Result (List Chunk) × Reader :=
  match _hline : r.readLine with
  | (.error e, r) => (.error e, r)
  | (.ok line, r1) =>
    match announced? line with
    | none => (.ok [.plain line], r1)
    | some n =>
      if r1.limits.literal < n then
        (.error (.protocol (.literalTooLarge n r1.limits.literal)), r1)
      else
        match _hliteral : r1.readExactly n with
        | (.error e, r2) => (.error e, r2)
        | (.ok literal, r2) =>
          match readResponse r2 with
          | (.error e, r3) => (.error e, r3)
          | (.ok chunks, r3) => (.ok (⟨line, some literal⟩ :: chunks), r3)
termination_by r.weight
decreasing_by
  have := readLine_weight_lt _hline
  have := readExactly_weight_le _hliteral
  omega

/-- A response uses up bytes. -/
theorem readResponse_weight_lt {r r' : Reader} {chunks : List Chunk}
    (h : r.readResponse = (.ok chunks, r')) : r'.weight < r.weight := by
  fun_induction readResponse r generalizing chunks r' with
  | case1 => cases h
  | case2 r line r1 hline hnone => cases h; exact readLine_weight_lt hline
  | case3 => cases h
  | case4 => cases h
  | case5 => cases h
  | case6 r line r1 hline n hsome hlong literal r2 hliteral chunks' r3 hrest ih =>
    cases h
    have := readLine_weight_lt hline
    have := readExactly_weight_le hliteral
    have := ih hrest
    omega

end Reader
end ImapWire
