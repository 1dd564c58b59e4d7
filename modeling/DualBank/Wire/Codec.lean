import DualBank.Command
import DualBank.Wire.Cobs
import DualBank.Wire.Varint

/-! The binary form of commands, replies and the values in them. A choice is written as the number
of the case, and then its fields. Bytes after a value do not matter. -/
namespace DualBank.Wire

/-- How the values of a type are written, and how one is read from the front of a byte string. -/
structure Codec (α : Type) where
  write : α → Bytes
  read : StateT Bytes Option α

namespace Codec

variable {α : Type}

/-- A number that a word of 16, 32 or 64 bits holds takes at most 3, 5 or 10 bytes. -/
def varint (most limit : Nat) : StateT Bytes Option Nat := Varint.read most limit

def byte : Codec UInt8 where
  write b := [b]
  read := fun
    | [] => none
    | b :: rest => some (b, rest)

def word16 : Codec UInt16 where
  write n := Varint.write n.toNat
  read := UInt16.ofNat <$> varint 3 UInt16.size

def word32 : Codec Word where
  write w := Varint.write w.toNat
  read := UInt32.ofNat <$> varint 5 UInt32.size

/-- The next `len` bytes. -/
def readBytes (len : Nat) : StateT Bytes Option Bytes := fun b =>
  if len ≤ b.length then some (b.take len, b.drop len) else none

/-- The length of a string is that of its UTF-8 bytes. -/
def text (capacity : Nat) : Codec (Text capacity) where
  write t := Varint.write t.value.utf8ByteSize ++ t.value.toUTF8.data.toList
  read := do
    let b ← readBytes (← varint 10 UInt64.size)
    let s ← StateT.lift (String.fromUTF8? ⟨b.toArray⟩)
    StateT.lift (Text.fit? capacity s)

/-- The number of a case. -/
def caseNumber : StateT Bytes Option Nat := varint 5 UInt32.size

/-- A choice without fields. -/
def enumeration [BEq α] (cases : List α) : Codec α where
  write a := Varint.write (cases.idxOf a)
  read := do StateT.lift cases[(← caseNumber)]?

def bank : Codec Bank := enumeration [.bank1, .bank2]

def flow : Codec Flow := enumeration [.container, .bare]

def refusal : Codec Refusal := enumeration [.alreadyRunning, .invalidRequest, .storageFault]

def errorKind : Codec ErrorKind := enumeration [
  .streamRead, .streamTruncated, .headerIncomplete, .noMatchingImage, .invalidAddress,
  .storageFault, .checksumMismatch, .malformedHeader, .headerTooLarge, .invalidLayout,
  .httpStatus, .httpMissingLength, .httpMalformed]

def location : Codec SourceLocation where
  write l := (text 96).write l.file ++ word32.write l.line ++ word32.write l.column
  read := do return ⟨← (text 96).read, ← word32.read, ← word32.read⟩

def command : Codec Command where
  write
    | .start (.direct a b c d port) => Varint.write 0 ++ [a, b, c, d] ++ word16.write port
    | .start (.http host port resource) =>
      Varint.write 1 ++ (text 63).write host ++ word16.write port ++ (text 63).write resource
    | .selectBank b => Varint.write 2 ++ bank.write b
  read := do
    match ← caseNumber with
    | 0 => return .start (.direct (← byte.read) (← byte.read) (← byte.read) (← byte.read)
        (← word16.read))
    | 1 => return .start (.http (← (text 63).read) (← word16.read) (← (text 63).read))
    | 2 => return .selectBank (← bank.read)
    | _ => failure

def reply : Codec Reply where
  write
    | .accepted => Varint.write 0
    | .rejected reason => Varint.write 1 ++ refusal.write reason
    | .bankSelected b => Varint.write 2 ++ bank.write b
  read := do
    match ← caseNumber with
    | 0 => return .accepted
    | 1 => return .rejected (← refusal.read)
    | 2 => return .bankSelected (← bank.read)
    | _ => failure

/-- The value at the front. -/
def decode? (c : Codec α) (b : Bytes) : Option α := (c.read b).map Prod.fst

def frame (c : Codec α) (a : α) : Bytes := Cobs.encode (c.write a)

/-- The value in the frame at the front. -/
def unframe? (c : Codec α) (b : Bytes) : Option α := do c.decode? (← Cobs.decode b)

end Codec
end DualBank.Wire
