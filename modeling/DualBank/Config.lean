import DualBank.Container.Tag
import DualBank.Word

/-! The two banks of the device, and where its images live. -/
namespace DualBank

inductive Bank where
  | bank1
  | bank2
  deriving DecidableEq

/-- What precedes the image data on the wire. -/
inductive Flow where
  /-- A container, whose signature is held back and flashed last. -/
  | container
  /-- A bare image, after a one byte handshake and a file info record. -/
  | bare
  deriving DecidableEq

def sectorSize : Nat := 4096

/-- What a word reads that was never written. -/
def erasedWord : Word := 0xFFFFFFFF

structure Config where
  /-- Address of the first byte of the flash. -/
  flashBase : Word := 0x08000000
  bank1Address : Word := 0x0800B000
  /-- Where bank 2 goes on a device that has no address for it. -/
  defaultBank2Address : Word := 0x08080000
  secondaryAddress : Word := 0x08004000
  flow : Flow := .container
  /-- A file info record comes before the container. -/
  expectFileInfo : Bool := false

namespace Config

def isSectorAligned (address : Word) : Bool := address.toNat % sectorSize == 0

end Config

namespace Bank

def other : Bank → Bank
  | bank1 => bank2
  | bank2 => bank1

/-- The word that stands for the bank in the active bank slot and in the handshake. -/
def toWord : Bank → Word
  | bank1 => 0
  | bank2 => 1

def ofWord? (w : Word) : Option Bank :=
  if w = 0 then some bank1 else if w = 1 then some bank2 else none

def imageTag : Bank → Tag
  | bank1 => .ota1
  | bank2 => .ota2

/-- Length of the header that leads every image already in flash. -/
def imageHeaderLen : Word := 0x20

/-- The bank that runs, told by the address of a marker that follows its image header. -/
def ofMarker (marker : Word) (config : Config) : Bank :=
  if config.bank1Address.plus? imageHeaderLen = some marker then bank1 else bank2

theorem ofWord?_toWord (b : Bank) : ofWord? b.toWord = some b := by cases b <;> rfl

end Bank
end DualBank
