import DualBank.Bytes

/-! The four bytes that name an image, and the eight bytes that make a bank bootable. -/
namespace DualBank

structure Tag where
  b₀ : UInt8
  b₁ : UInt8
  b₂ : UInt8
  b₃ : UInt8
  deriving DecidableEq

namespace Tag

/-- The image for bank 1. -/
def ota1 : Tag := ⟨0x4F, 0x54, 0x41, 0x31⟩
/-- The image for bank 2. -/
def ota2 : Tag := ⟨0x4F, 0x54, 0x41, 0x32⟩
/-- The secondary image, which belongs to neither bank. -/
def rdp : Tag := ⟨0x52, 0x44, 0x50, 0x00⟩

def bytes (t : Tag) : Bytes := [t.b₀, t.b₁, t.b₂, t.b₃]

def ofBytes? : Bytes → Option Tag
  | [a, b, c, d] => some ⟨a, b, c, d⟩
  | _ => none

/-- The fourth byte of the secondary tag is not compared. -/
def isSecondary (t : Tag) : Bool := t.bytes.take 3 == rdp.bytes.take 3

theorem ofBytes?_bytes (t : Tag) : ofBytes? t.bytes = some t := rfl

theorem isSecondary_iff {t : Tag} :
    t.isSecondary = true ↔ t.b₀ = 0x52 ∧ t.b₁ = 0x44 ∧ t.b₂ = 0x50 := by
  simp [isSecondary, bytes, rdp]

end Tag

/-- The eight bytes that lead the primary payload. They are flashed last, so a bank without
them never boots. -/
structure Signature where
  bytes : Bytes
  length_bytes : bytes.length = 8
  deriving DecidableEq

namespace Signature

def length : Nat := 8

def ofBytes? (b : Bytes) : Option Signature := if h : b.length = 8 then some ⟨b, h⟩ else none

theorem ofBytes?_eq_some {b : Bytes} {s : Signature} : ofBytes? b = some s ↔ s.bytes = b := by
  obtain ⟨c, hc⟩ := s
  unfold ofBytes?
  split
  · simp [eq_comm]
  · rename_i h
    simp only [reduceCtorEq, false_iff]
    rintro rfl
    exact h hc

end Signature
end DualBank
