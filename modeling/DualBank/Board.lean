import DualBank.Flash.Chip
import DualBank.Journal

/-! The device: its flash chip, its two durable words, and the journal of the calls on them. -/
namespace DualBank

structure Board where
  chip : Chip
  store : Store
  /-- The newest event comes first. -/
  journal : List Event := []

namespace Board

abbrev Action := EStateM UpdateError Board

def note (e : Event) (b : Board) : Board := { b with journal := e :: b.journal }

/-- Does a call on the chip and notes it. -/
def onChip {α : Type} (call : FlashCall) (x : Chip.Action α) : EStateM FlashError Board α :=
  fun b => match x b.chip with
  | .ok v chip => .ok v ({ b with chip }.note (.flash call none))
  | .error e chip => .error e ({ b with chip }.note (.flash call (some e)))

def readFlash (offset len : Nat) : EStateM FlashError Board Bytes :=
  onChip (.read offset len) (Chip.read offset len)

def writeFlash (offset : Nat) (bytes : Bytes) : EStateM FlashError Board Unit :=
  onChip (.write offset bytes) (Chip.write offset bytes)

def eraseFlash (start stop : Nat) : EStateM FlashError Board Unit :=
  onChip (.erase start stop) (Chip.erase start stop)

end Board

namespace Aperture

/-- Lets a call through to the chip, unless someone else holds it. -/
def through {α : Type} (a : Aperture) (x : EStateM FlashError Board α) : Board.Action α := fun b =>
  if a.held then .error (.storageFault none) b
  else
    match x b with
    | .ok v b => .ok v b
    | .error e b => .error (.storageFault (some e)) b

def read (a : Aperture) (address : Word) (len : Nat) : Board.Action Bytes := do
  let offset ← MonadExcept.ofExcept (a.offset address)
  a.through (Board.readFlash offset len)

def readWord (a : Aperture) (address : Word) : Board.Action Word := do
  let b ← a.read address 4
  return (Word.at? b 0).getD 0

def write (a : Aperture) (address : Word) (bytes : Bytes) : Board.Action Unit := do
  let offset ← MonadExcept.ofExcept (a.offset address)
  a.through (Board.writeFlash offset bytes)

def erase (a : Aperture) (address len : Word) : Board.Action Unit := do
  let (start, stop) ← MonadExcept.ofExcept (a.sectors address len)
  a.through (Board.eraseFlash start stop)

end Aperture

namespace Board

/-- Does a call on the slots in memory and notes it. -/
def onMemory {α : Type} (m : SlotMemory) (event : Bool → Event)
    (x : EStateM UpdateError SlotMemory α) : Action α := fun b =>
  match x m with
  | .ok v m => .ok v ({ b with store := .memory m }.note (event false))
  | .error e m => .error e ({ b with store := .memory m }.note (event true))

def slotAddress (address : Word) (slot : Slot) : Except UpdateError Word :=
  match address.plus? (.ofNat slot.position) with
  | some a => .ok a
  | none => .error .invalidAddress

def readSlot (slot : Slot) : Action Word := do
  match (← get).store with
  | .memory m => onMemory m (.slotRead slot) (SlotMemory.read slot)
  | .record a address => do
    let home ← MonadExcept.ofExcept (slotAddress address slot)
    a.readWord home

/-- Reads the whole record, changes one word, and writes it to the erased sector. -/
def replaceRecord (a : Aperture) (address : Word) (slot : Slot) (value : Word) : Action Unit := do
  let record ← a.read address 8
  a.erase address (.ofNat sectorSize)
  a.write address (record.overlay slot.position value.toBytes)

/-- In a record, an erased word is written in place. Any other change takes an erasure. -/
def writeSlot (slot : Slot) (value : Word) : Action Unit := do
  match (← get).store with
  | .memory m => onMemory m (.slotWrite slot value) (SlotMemory.write slot value)
  | .record a address => do
    let home ← MonadExcept.ofExcept (slotAddress address slot)
    let current ← a.readWord home
    if current = value then return
    if current = erasedWord then a.write home value.toBytes
    else replaceRecord a address slot value

/-- Points the boot loader at a bank, without downloading anything. -/
def selectBank (bank : Bank) : Action Unit := writeSlot .activeBank bank.toWord

end Board
end DualBank
