import DualBank.Board
import DualBank.Container.Header

/-! Where the banks are. Bank 1 has a fixed address; that of bank 2 is a durable word, which starts
out as the configured default. Bank 2 begins on a sector and never before the end of bank 1. -/
namespace DualBank.Config

/-- Offset of the size word in the header of an image in flash. -/
def imageSizeOffset : Word := 8

def checkBank2 (address : Word) : Except UpdateError Unit :=
  if address = erasedWord ∨ isSectorAligned address = false then .error .invalidAddress else .ok ()

/-- Reads the address of bank 2, after setting it to the default if it was never set. -/
def bank2Address (c : Config) : Board.Action Word := do
  let stored ← Board.readSlot .bank2Address
  let address ←
    if stored = erasedWord then do
      Board.writeSlot .bank2Address c.defaultBank2Address
      Board.readSlot .bank2Address
    else pure stored
  MonadExcept.ofExcept (checkBank2 address)
  return address

/-- The address, if the sum of the words is one. -/
def addressSum (a : Word) (bs : List Word) : Except UpdateError Word :=
  match bs.foldlM Word.plus? a with
  | some s => .ok s
  | none => .error .invalidAddress

/-- One past the last byte that bank 1 uses: a header and the image, then a header and the data. -/
def bank1End (c : Config) (a : Aperture) : Board.Action Word := do
  let imageLen ← a.readWord (← MonadExcept.ofExcept (addressSum c.bank1Address [imageSizeOffset]))
  let data ← MonadExcept.ofExcept (addressSum c.bank1Address [imageLen, Bank.imageHeaderLen])
  let dataLen ← a.readWord (← MonadExcept.ofExcept (addressSum data [imageSizeOffset]))
  MonadExcept.ofExcept (addressSum data [dataLen, Bank.imageHeaderLen])

/-- Bank 2 may start where bank 1 ends, but not before. -/
def checkClear (c : Config) (a : Aperture) (bank2 : Word) : Board.Action Unit := do
  let stop ← c.bank1End a
  if bank2 < stop then throw .invalidAddress

/-- An image for bank 1 has to fit below bank 2. -/
def checkFits (c : Config) (bank2 imageLen : Word) : Except UpdateError Unit :=
  match bank2.minus? c.bank1Address with
  | none => .error .invalidAddress
  | some gap => if gap < imageLen then .error .invalidAddress else .ok ()

/-- Start of the bank that an image of some length goes to. Nothing is written but a missing
address of bank 2. -/
def targetAddress (c : Config) (a : Aperture) (target : Bank) (imageLen : Word) :
    Board.Action Word := do
  let bank2 ← c.bank2Address
  match target with
  | .bank2 =>
    c.checkClear a bank2
    if bank2 = erasedWord then throw .invalidAddress
    return bank2
  | .bank1 =>
    MonadExcept.ofExcept (c.checkFits bank2 imageLen)
    if c.bank1Address = erasedWord then throw .invalidAddress
    return c.bank1Address

/-- The address of the bank that does not run, if it is the one that the image was linked for. -/
def resolve (c : Config) (a : Aperture) (running : Bank) (primary : ImageHeader) :
    Board.Action Word := do
  let address ← c.targetAddress a running.other primary.imageLen
  if address ≠ primary.flashAddress then throw .invalidAddress
  return address

end DualBank.Config
