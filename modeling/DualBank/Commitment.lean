import DualBank.Board
import DualBank.Plan

/-! Erasing the target, making it bootable, and wiping it again. -/
namespace DualBank.Board

/-- Erases every region that the plan writes to. -/
def eraseTargets (a : Aperture) : List Placement → Action Unit
  | [] => pure ()
  | p :: rest => do
    let some start := p.regionStart? | throw .invalidLayout
    let some len := p.regionLen? | throw .invalidLayout
    a.erase start len
    eraseTargets a rest

/-- Writes the signature, if there is one, and then makes the target the active bank. The order
matters: a bank without its signature never boots. -/
def commit (a : Aperture) (plan : Plan) (signature : Option Signature) : Action Unit := do
  let some address := plan.bankAddress? | throw .invalidLayout
  if let some s := signature then a.write address s.bytes
  writeSlot .activeBank plan.targetBank.toWord

/-- Erases the first sector of the target bank, so that an image that is not whole never has its
signature. -/
def rollBack (a : Aperture) (plan : Plan) : Action Unit := do
  let some address := plan.bankAddress? | throw .invalidLayout
  a.erase address (.ofNat sectorSize)

end DualBank.Board
