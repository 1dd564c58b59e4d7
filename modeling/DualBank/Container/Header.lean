import DualBank.Word
import DualBank.Container.Error
import DualBank.Container.Tag

/-! The records of a container. It starts with a file header, followed by one image header for
each image, and all numbers are little-endian words:

* file header: version, number of image headers;
* image header: tag, record length, checksum, image length, offset, flash address.

The records may be padded, all to one length, which the first of them states. -/
namespace DualBank

/-- An action that fills an output buffer, whose length is fixed from the start. -/
abbrev Emit := EStateM ContainerError Bytes

namespace Emit

/-- Writes bytes at a position, or nothing if they do not all fit. -/
def put (pos : Nat) (b : Bytes) : Emit Unit := fun out =>
  if pos + b.length ≤ out.length then .ok () (out.overlay pos b)
  else .error (.outputTooSmall out.length) out

/-- Runs an action on one part of the buffer. -/
def within {α : Type} (start stop : Nat) (x : Emit α) : Emit α := fun out =>
  match x ((out.drop start).take (stop - start)) with
  | .ok a part => .ok a (out.overlay start part)
  | .error e part => .error e (out.overlay start part)

end Emit

structure FileHeader where
  version : Word
  headerCount : Word
  deriving DecidableEq

namespace FileHeader

def length : Nat := 8

def decode (b : Bytes) : Except ContainerError FileHeader :=
  match Word.at? b 0, Word.at? b 4 with
  | some version, some headerCount => .ok ⟨version, headerCount⟩
  | _, _ => .error (.headerIncomplete length b.length)

def emit (h : FileHeader) : Emit Unit := do
  Emit.put 0 h.version.toBytes
  Emit.put 4 h.headerCount.toBytes

end FileHeader

structure ImageHeader where
  tag : Tag
  headerLen : Word
  checksum : Word
  imageLen : Word
  /-- Position of the payload, counted from the first byte of the container. -/
  offset : Word
  flashAddress : Word
  deriving DecidableEq

namespace ImageHeader

/-- Length of a record without padding. -/
def length : Nat := 24

def decode? (b : Bytes) : Option ImageHeader := do
  let tag ← Tag.ofBytes? (← b.slice? 0 4)
  let headerLen ← Word.at? b 4
  let checksum ← Word.at? b 8
  let imageLen ← Word.at? b 12
  let offset ← Word.at? b 16
  let flashAddress ← Word.at? b 20
  return { tag, headerLen, checksum, imageLen, offset, flashAddress }

def decode (b : Bytes) : Except ContainerError ImageHeader :=
  match decode? b with
  | some h => .ok h
  | none => .error (.headerIncomplete length b.length)

/-- Fills the whole buffer: the record, then zeros. -/
def emit (h : ImageHeader) : Emit Unit := do
  Emit.put 0 h.tag.bytes
  Emit.put 4 h.headerLen.toBytes
  Emit.put 8 h.checksum.toBytes
  Emit.put 12 h.imageLen.toBytes
  Emit.put 16 h.offset.toBytes
  Emit.put 20 h.flashAddress.toBytes
  modify fun out => out.take length ++ List.replicate (out.length - length) 0

/-- Stream position one past the last byte of the payload. -/
def endOffset? (h : ImageHeader) : Option Word := h.offset.plus? h.imageLen

end ImageHeader

/-- Length of a header block of `count` records. Both factors are words, so the length stays
below `2 ^ 64`. -/
def headerBlockLen (count recordLen : Nat) : Except ContainerError Nat :=
  if count = 0 ∨ recordLen < ImageHeader.length then .error .malformedHeader
  else .ok (count * recordLen + FileHeader.length)

/-- The first sixteen bytes of a container, which tell how long its header block is. -/
structure Prologue where
  file : FileHeader
  recordLen : Word
  deriving DecidableEq

namespace Prologue

def length : Nat := 16

def blockLen (p : Prologue) : Except ContainerError Nat :=
  headerBlockLen p.file.headerCount.toNat p.recordLen.toNat

def decode (b : Bytes) : Except ContainerError Prologue :=
  if b.length < length then .error (.headerIncomplete length b.length)
  else do
    let file ← FileHeader.decode b
    let some recordLen := Word.at? b 12 | throw .malformedHeader
    let p : Prologue := ⟨file, recordLen⟩
    let _ ← p.blockLen
    return p

end Prologue
end DualBank
