/-
  Streams.

  A stream gives its bytes in segments, as they happen to arrive.  One read takes from the first
  segment alone, as much as is asked for; what is left of the segment stays first.  A read may also
  find nothing, which is the end of the stream as far as that read is concerned, or fail.

  Main fact: a read takes the bytes it gives from the front of the stream (`data_read`).
-/
import ImapWire.Bytes

namespace ImapWire

/-- What one read meets at most. -/
inductive Segment
  | bytes (bs : Bytes)
  | failure (reason : String)
  deriving DecidableEq, Repr

/-- The segments that are still to come. -/
abbrev Stream := List Segment

namespace Segment

/-- The bytes of a segment. -/
def data : Segment → Bytes
  | bytes bs => bs
  | failure _ => []

end Segment

namespace Stream

/-- All bytes that are still to come. -/
def data (s : Stream) : Bytes := s.flatMap Segment.data

/-- The number of bytes to come, each segment counting one more. -/
def weight : Stream → Nat
  | [] => 0
  | segment :: rest => segment.data.length + 1 + weight rest

/-- Reads at most `most` bytes; no bytes mean the end. -/
def read (most : Nat) : Stream → Except String Bytes × Stream
  | [] => (.ok [], [])
  | .failure reason :: rest => (.error reason, rest)
  | .bytes bs :: rest =>
    if (bs.drop most).isEmpty then (.ok bs, rest)
    else (.ok (bs.take most), .bytes (bs.drop most) :: rest)

/-- A read takes the bytes it gives from the front of the stream. -/
theorem data_read {most : Nat} {s s' : Stream} {bs : Bytes} (h : s.read most = (.ok bs, s')) :
    s.data = bs ++ s'.data ∧ bs.length ≤ most := by
  unfold read at h
  split at h
  · cases h; simp [data]
  · cases h
  · split at h
    · next hle => cases h; simpa [data, Segment.data] using hle
    · cases h
      simp only [data, List.flatMap_cons, Segment.data, List.length_take]
      rw [← List.append_assoc, List.take_append_drop]
      exact ⟨rfl, Nat.min_le_left _ _⟩

/-- A failed read loses no bytes. -/
theorem data_read_error {most : Nat} {s s' : Stream} {reason : String}
    (h : s.read most = (.error reason, s')) : s.data = s'.data := by
  unfold read at h
  split at h
  · cases h
  · cases h; simp [data, Segment.data]
  · split at h <;> cases h

/-- A read makes the stream lighter by the bytes that it gives at least. -/
theorem weight_read {most : Nat} {s s' : Stream} {bs : Bytes} (h : s.read most = (.ok bs, s')) :
    bs.length + s'.weight ≤ s.weight := by
  unfold read at h
  split at h
  · cases h; simp
  · cases h
  · split at h
    · cases h
      simp only [weight, Segment.data]
      omega
    · cases h
      simp only [weight, Segment.data, List.length_take, List.length_drop]
      omega

theorem weight_read_error {most : Nat} {s s' : Stream} {reason : String}
    (h : s.read most = (.error reason, s')) : s'.weight ≤ s.weight := by
  unfold read at h
  split at h
  · cases h
  · cases h; simp [weight]
  · split at h <;> cases h

end Stream
end ImapWire
