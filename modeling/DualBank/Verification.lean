import DualBank.Checksum
import DualBank.Transfer

/-! Reading flash back, and checking each image against the checksum it was planned with. -/
namespace DualBank.Rig

variable {σ : Type}

/-- Reads flash into the front of the buffer, and answers what was read. -/
def readBack (a : Aperture) (address : Word) (len : Nat) : Action σ Bytes := do
  let b ← onBoard (a.read address len)
  modify fun r => { r with buffer := r.buffer.overlay 0 b }
  return b

/-- Sums `left` more bytes of flash, after `done` bytes of the region, one buffer at a time. -/
def sumRegion (a : Aperture) (address : Word) (capacity : Nat) (sum : Word) (done left : Nat) :
    Action σ Word :=
  if left = 0 ∨ capacity = 0 then pure sum
  else do
    let block := min left capacity
    let some here := Word.ofNat? (address.toNat + done) | throw .invalidAddress
    let b ← readBack a here block
    sumRegion a address capacity (Checksum.add sum b) (done + block) (left - block)
termination_by left

/-- The checksum of `len` bytes of flash. -/
def regionChecksum (a : Aperture) (address len : Word) : Action σ Word := do
  let capacity := (← get).buffer.length
  if capacity = 0 then throw .invalidLayout
  sumRegion a address capacity 0 0 len.toNat

/-- The sum of a primary image covers the signature, though it is not in flash yet. -/
def verifyImage (a : Aperture) (p : Placement) (written : Word) (signature : Option Signature) :
    Action σ Unit := do
  let sum ← regionChecksum a p.destination written
  let total := match signature with
    | some s => Checksum.add sum s.bytes
    | none => sum
  if total ≠ p.expectedChecksum then throw .checksumMismatch

def verify (a : Aperture) (s : Summary) : List Placement → Action σ Unit
  | [] => pure ()
  | p :: rest => do
    match p.role with
    | .primary =>
      if p.signatureLen ≠ 0 ∧ s.signature.isNone then throw .checksumMismatch
      verifyImage a p s.primaryWritten s.signature
    | .secondary => verifyImage a p s.secondaryWritten none
    verify a s rest

end DualBank.Rig
