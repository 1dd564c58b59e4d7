/-! Byte strings, and the slices that buffers are read and written by. A slice either lies
wholly inside its buffer or is not there at all. -/
namespace DualBank

abbrev Bytes := List UInt8

namespace Bytes

/-- The bytes from position `start` up to `stop`, if the buffer reaches that far. -/
def slice? (b : Bytes) (start stop : Nat) : Option Bytes :=
  if start ≤ stop ∧ stop ≤ b.length then some ((b.drop start).take (stop - start)) else none

/-- The buffer with `new` written over it from position `pos` on. -/
def overlay (b : Bytes) (pos : Nat) (new : Bytes) : Bytes :=
  b.take pos ++ new ++ b.drop (pos + new.length)

/-- The first `count` pieces of `size` bytes each. -/
def pieces (size : Nat) : (count : Nat) → Bytes → List Bytes
  | 0, _ => []
  | count + 1, b => b.take size :: pieces size count (b.drop size)

theorem slice?_eq_some {b s : Bytes} {start stop : Nat} :
    b.slice? start stop = some s ↔
      start ≤ stop ∧ stop ≤ b.length ∧ s = (b.drop start).take (stop - start) := by
  unfold slice?
  split
  · rename_i h; simp [h, eq_comm]
  · rename_i h; simp only [reduceCtorEq, false_iff]; exact fun ⟨h₁, h₂, _⟩ => h ⟨h₁, h₂⟩

theorem length_of_slice? {b s : Bytes} {start stop : Nat} (h : b.slice? start stop = some s) :
    s.length = stop - start := by
  obtain ⟨_, h₂, rfl⟩ := slice?_eq_some.1 h
  simp only [List.length_take, List.length_drop]
  omega

theorem length_overlay {b new : Bytes} {pos : Nat} (h : pos + new.length ≤ b.length) :
    (b.overlay pos new).length = b.length := by
  simp only [overlay, List.length_append, List.length_take, List.length_drop]
  omega

end Bytes
end DualBank
