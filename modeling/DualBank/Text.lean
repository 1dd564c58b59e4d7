/-! Strings of bounded size. The bound is on the UTF-8 bytes. -/
namespace DualBank

structure Text (capacity : Nat) where
  value : String
  fits : value.utf8ByteSize ≤ capacity
  deriving DecidableEq

namespace Text

def fit? (capacity : Nat) (s : String) : Option (Text capacity) :=
  if h : s.utf8ByteSize ≤ capacity then some ⟨s, h⟩ else none

/-- Appends characters up to the first that does not fit. -/
def extend {capacity : Nat} (t : Text capacity) : List Char → Text capacity
  | [] => t
  | c :: cs =>
    if h : t.value.utf8ByteSize + c.utf8Size ≤ capacity then
      extend ⟨t.value.push c, by rwa [String.utf8ByteSize_push]⟩ cs
    else t

/-- The longest beginning of `s` that fits. -/
def clip (capacity : Nat) (s : String) : Text capacity :=
  extend ⟨"", Nat.zero_le _⟩ s.toList

def isEmpty {capacity : Nat} (t : Text capacity) : Bool := t.value.isEmpty

theorem fit?_value {capacity : Nat} (t : Text capacity) : fit? capacity t.value = some t := by
  simp [fit?, t.fits]

end Text
end DualBank
