import DualBank.Flash.Aperture

/-! Two words that outlive a reboot: the address of bank 2, and the bank to boot. They are kept in
memory of their own, or as a record at the start of a flash sector. -/
namespace DualBank

inductive Slot where
  | bank2Address
  | activeBank
  deriving DecidableEq

namespace Slot

/-- Position of the word in the record. -/
def position : Slot → Nat
  | bank2Address => 0
  | activeBank => 4

def name : Slot → String
  | bank2Address => "Bank2Address"
  | activeBank => "ActiveBank"

end Slot

/-- The words in memory of their own, which may be set to fail at given calls. -/
structure SlotMemory where
  bank2Address : Word := erasedWord
  activeBank : Word := erasedWord
  /-- Writes that were done. -/
  writes : Nat := 0
  readCalls : Nat := 0
  writeCalls : Nat := 0
  failsRead : Nat → Bool := fun _ => false
  failsWrite : Nat → Bool := fun _ => false
  /-- Writes are taken and forgotten. -/
  ignoresWrites : Bool := false

namespace SlotMemory

def value (m : SlotMemory) : Slot → Word
  | .bank2Address => m.bank2Address
  | .activeBank => m.activeBank

def put (m : SlotMemory) (slot : Slot) (value : Word) : SlotMemory :=
  match slot with
  | .bank2Address => { m with bank2Address := value, writes := m.writes + 1 }
  | .activeBank => { m with activeBank := value, writes := m.writes + 1 }

def read (slot : Slot) : EStateM UpdateError SlotMemory Word := fun m =>
  let m := { m with readCalls := m.readCalls + 1 }
  if m.failsRead m.readCalls then .error (.storageFault none) m else .ok (m.value slot) m

def write (slot : Slot) (value : Word) : EStateM UpdateError SlotMemory Unit := fun m =>
  let m := { m with writeCalls := m.writeCalls + 1 }
  if m.failsWrite m.writeCalls then .error (.storageFault none) m
  else .ok () (if m.ignoresWrites then m else m.put slot value)

end SlotMemory

inductive Store where
  | memory (m : SlotMemory)
  /-- A record at an address, seen through an aperture. -/
  | record (aperture : Aperture) (address : Word)

/-- A record starts a sector. -/
def Store.ofRecord (aperture : Aperture) (address : Word) : Except UpdateError Store := do
  let offset ← aperture.offset address
  if offset % sectorSize ≠ 0 then throw .invalidAddress
  return .record aperture address

end DualBank
