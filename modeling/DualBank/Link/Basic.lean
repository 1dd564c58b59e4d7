import DualBank.Journal

/-! A connection, as the update sees it. It is asked for bytes and takes bytes, and it may say what
is not true: the count that a read reports need not be the number of bytes it brought. -/
namespace DualBank

/-- What a read brings: bytes for the front of the buffer, and the count that it reports. -/
structure Delivery where
  bytes : Bytes
  count : Nat

/-- The outcome of a call, the connection after it, and the calls that went out, oldest first. -/
structure Answer (ε σ α : Type) where
  result : Except ε α
  link : σ
  calls : List LinkCall := []

class Link (σ : Type) where
  /-- Reads into a buffer with room for some number of bytes. -/
  read : Nat → σ → Answer IoKind σ Delivery
  /-- Answers how many of the bytes were taken. -/
  write : Bytes → σ → Answer IoKind σ Nat
  flush : σ → Answer IoKind σ Unit

/-- A connection with an end: only so many reads in a row report any bytes. -/
class FiniteLink (σ : Type) extends Link σ where
  left : σ → Nat
  left_read_lt : ∀ {room : Nat} {s : σ} {d : Delivery},
    (read room s).result = .ok d → d.count ≠ 0 → left (read room s).link < left s

end DualBank
