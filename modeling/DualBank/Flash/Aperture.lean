import DualBank.Config
import DualBank.UpdateError

/-! The address range through which the flash chip is seen. Addresses are absolute, and the chip's
first byte is at the base. -/
namespace DualBank

structure Aperture where
  base : Word
  /-- Someone else holds the chip, so that no call gets through. -/
  held : Bool := false

namespace Aperture

/-- Streamed data lands at any byte, so the chip has to take single bytes, and a sector has to be a
whole number of the blocks that it erases. -/
def onto? (base : Word) (writeSize eraseSize : Nat) : Except UpdateError Aperture :=
  if writeSize ≠ 1 ∨ sectorSize % eraseSize ≠ 0 then .error (.storageFault none)
  else .ok { base }

def offset (a : Aperture) (address : Word) : Except UpdateError Nat :=
  match address.minus? a.base with
  | some offset => .ok offset.toNat
  | none => .error .invalidAddress

/-- The whole sectors that cover `len` bytes from an address on, and at least one. -/
def sectors (a : Aperture) (address len : Word) : Except UpdateError (Nat × Nat) := do
  let start ← a.offset address
  let covered := max 1 ((len.toNat + (sectorSize - 1)) / sectorSize) * sectorSize
  if start % sectorSize ≠ 0 ∨ UInt32.size ≤ len.toNat + (sectorSize - 1) ∨
      UInt32.size ≤ start + covered then
    throw .invalidAddress
  return (start, start + covered)

end Aperture
end DualBank
