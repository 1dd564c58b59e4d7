import DualBank.Checksum
import DualBank.Container.Header

/-! Packing payloads into a container. An image without an offset of its own starts where the
images before it end. The gaps between payloads are zero. -/
namespace DualBank

/-- An image to pack. -/
structure ImageSpec where
  tag : Tag
  flashAddress : Word
  payload : Bytes
  /-- A fixed position in the container. -/
  offset : Option Word := none

structure Builder where
  version : Word
  /-- Every record is padded to this length. -/
  recordLen : Word := 24
  images : List ImageSpec := []
  length_images : images.length ≤ 4 := by decide

namespace Builder

def maxImages : Nat := 4

def push (b : Builder) (image : ImageSpec) : Except ContainerError Builder :=
  if h : b.images.length < maxImages then
    .ok { b with
      images := b.images ++ [image]
      length_images := by simpa [maxImages, Nat.lt_succ_iff] using h }
  else .error .tooManyImages

def blockLen (b : Builder) : Except ContainerError Nat :=
  headerBlockLen b.images.length b.recordLen.toNat

/-- Two stream ranges share a byte. -/
def overlap (start stop start' stop' : Nat) : Bool := start < stop' && start' < stop

/-- Places the images one after the other; `next` is where an image without an offset goes. -/
def place (recordLen : Word) (blockLen : Nat) :
    List ImageSpec → (next : Nat) → (placed : List ImageHeader) →
      Except ContainerError (List ImageHeader)
  | [], _, placed => .ok placed
  | image :: images, next, placed => do
    let some imageLen := Word.ofNat? image.payload.length | throw .malformedHeader
    let offset := image.offset.getD (.ofNat next)
    if offset.toNat < blockLen then throw .overlappingImages
    let header : ImageHeader :=
      ⟨image.tag, recordLen, Checksum.of image.payload, imageLen, offset, image.flashAddress⟩
    let some stop := header.endOffset? | throw .malformedHeader
    if placed.any fun h => overlap h.offset.toNat (h.offset.toNat + h.imageLen.toNat)
        offset.toNat stop.toNat then
      throw .overlappingImages
    place recordLen blockLen images (max next stop.toNat) (placed ++ [header])

/-- Image headers in the order of the images. -/
def headers (b : Builder) : Except ContainerError (List ImageHeader) := do
  let some blockLen := Word.ofNat? (← b.blockLen) | throw .malformedHeader
  place b.recordLen blockLen.toNat b.images blockLen.toNat []

def totalLen (b : Builder) : Except ContainerError Nat := do
  let blockLen ← b.blockLen
  let headers ← b.headers
  return headers.foldl (fun total h => max total (h.offset.toNat + h.imageLen.toNat)) blockLen

def emitRecords (recordLen : Nat) : (pos : Nat) → List ImageHeader → Emit Unit
  | _, [] => pure ()
  | pos, h :: headers => do
    Emit.within pos (pos + recordLen) h.emit
    emitRecords recordLen (pos + recordLen) headers

def emitPayloads : List (ImageSpec × ImageHeader) → Emit Unit
  | [] => pure ()
  | (image, h) :: rest => do
    Emit.put h.offset.toNat image.payload
    emitPayloads rest

/-- Packs the container into the front of the output buffer and answers its length. -/
def build (b : Builder) : Emit Nat := do
  let total ← MonadExcept.ofExcept b.totalLen
  if (← get).length < total then throw (.outputTooSmall total)
  let headers ← MonadExcept.ofExcept b.headers
  Emit.within 0 total do
    modify fun out => List.replicate out.length 0
    FileHeader.emit ⟨b.version, .ofNat b.images.length⟩
    emitRecords b.recordLen.toNat FileHeader.length headers
    emitPayloads (b.images.zip headers)
  return total

end Builder
end DualBank
