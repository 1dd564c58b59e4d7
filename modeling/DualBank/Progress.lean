import DualBank.Plan

/-! Progress through one image of a plan. The stream comes in chunks of any size, and each chunk is
cut into bytes before the image, signature bytes and payload bytes. -/
namespace DualBank

structure Progress where
  streamOffset : Nat
  signatureLen : Nat
  payloadLen : Nat
  signature : Bytes
  written : Nat
  signatureLen_le : signatureLen ≤ 8
  signature_le : signature.length ≤ signatureLen
  written_le : written ≤ payloadLen

/-- How a chunk is cut for one image. -/
structure Cut where
  /-- Bytes that come before the image. -/
  skip : Nat
  /-- Bytes that belong to the signature. -/
  signature : Nat
  /-- The payload bytes, as a range of the chunk. -/
  start : Nat
  stop : Nat
  /-- Position in the payload of the first of them. -/
  flashOffset : Nat
  deriving DecidableEq

namespace Cut

/-- Bytes of the chunk that the image has used up. The rest is for the next image. -/
def consumed (c : Cut) : Nat := c.stop

end Cut

namespace Progress

def start (p : Placement) : Progress where
  streamOffset := p.streamOffset.toNat
  signatureLen := min p.signatureLen.toNat 8
  payloadLen := p.payloadLen.toNat
  signature := []
  written := 0
  signatureLen_le := Nat.min_le_right _ _
  signature_le := Nat.zero_le _
  written_le := Nat.zero_le _

def isComplete (p : Progress) : Bool :=
  p.signature.length == p.signatureLen && p.written == p.payloadLen

/-- The signature, once all of it is there. -/
def signature? (p : Progress) : Option Signature :=
  if p.signatureLen = Signature.length then Signature.ofBytes? p.signature else none

/-- Stream position of the next byte that the image needs. -/
def next (p : Progress) : Nat := p.streamOffset + p.signature.length + p.written

/-- How a chunk of `len` bytes is cut that starts at stream position `position`. -/
def cut (p : Progress) (position len : Nat) : Cut :=
  let skip := min (p.next - position) len
  let signature := min (p.signatureLen - p.signature.length) (len - skip)
  let payload := min (p.payloadLen - p.written) (len - (skip + signature))
  { skip, signature, start := skip + signature, stop := skip + signature + payload,
    flashOffset := p.written }

theorem cut_start_le (p : Progress) (position len : Nat) :
    (p.cut position len).start ≤ (p.cut position len).stop := by
  simp only [cut]; omega

theorem cut_stop_le (p : Progress) (position len : Nat) : (p.cut position len).stop ≤ len := by
  simp only [cut]; omega

/-- Takes a chunk in. -/
def feed (p : Progress) (position : Nat) (chunk : Bytes) : Progress :=
  let c := p.cut position chunk.length
  { p with
    signature := p.signature ++ (chunk.drop c.skip).take c.signature
    written := p.written + (c.stop - c.start)
    signature_le := by
      have := p.signature_le
      simp only [List.length_append, List.length_take, List.length_drop, c, cut]
      omega
    written_le := by
      have := p.written_le
      simp only [c, cut]
      omega }

/-- Stream bytes that have to come, from a position on, until the image is complete. -/
def need (p : Progress) (position : Nat) : Nat :=
  (p.next - position) + (p.signatureLen - p.signature.length) + (p.payloadLen - p.written)

/-- A chunk that is not empty brings an incomplete image nearer to its end. -/
theorem need_feed_lt (p : Progress) (position : Nat) (chunk : Bytes) (hp : p.isComplete = false)
    (hc : chunk ≠ []) :
    (p.feed position chunk).need (position + (p.cut position chunk.length).consumed) <
      p.need position := by
  have hl := List.length_pos_iff.2 hc
  have hs := p.signature_le
  have hw := p.written_le
  have hi : p.signature.length ≠ p.signatureLen ∨ p.written ≠ p.payloadLen := by
    simpa [isComplete, ← Decidable.not_and_iff_not_or_not] using hp
  simp only [need, feed, next, cut, Cut.consumed, List.length_append, List.length_take,
    List.length_drop]
  omega

end Progress
end DualBank
