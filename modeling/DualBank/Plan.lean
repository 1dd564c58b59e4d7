import DualBank.Config
import DualBank.Container.Target
import DualBank.UpdateError

/-! What one attempt takes from the stream, and where in flash it goes. -/
namespace DualBank

inductive Role where
  | primary
  | secondary
  deriving DecidableEq

/-- One image: a range of the stream, whose first bytes may be a signature, and the flash address
of the first byte after the signature. -/
structure Placement where
  role : Role
  tag : Tag
  destination : Word
  payloadLen : Word
  streamOffset : Word
  signatureLen : Word
  expectedChecksum : Word
  deriving DecidableEq

namespace Placement

/-- First flash byte of the image. The signature goes here, in the end. -/
def regionStart? (p : Placement) : Option Word := p.destination.minus? p.signatureLen

def regionLen? (p : Placement) : Option Word := p.payloadLen.plus? p.signatureLen

def streamEnd? (p : Placement) : Option Word := do p.streamOffset.plus? (← p.regionLen?)

/-- The primary image leads with its signature, which goes to the start of the bank. -/
def ofPrimary (h : ImageHeader) (bankAddress : Word) : Except UpdateError Placement := do
  let signatureLen : Word := .ofNat Signature.length
  let some payloadLen := h.imageLen.minus? signatureLen | throw .invalidLayout
  let some destination := bankAddress.plus? signatureLen | throw .invalidAddress
  return {
    role := .primary, tag := h.tag, destination, payloadLen, streamOffset := h.offset,
    signatureLen, expectedChecksum := h.checksum }

def ofSecondary (h : ImageHeader) (address : Word) : Placement where
  role := .secondary
  tag := h.tag
  destination := address
  payloadLen := h.imageLen
  streamOffset := h.offset
  signatureLen := 0
  expectedChecksum := h.checksum

end Placement

structure Plan where
  /-- In the order of the stream. -/
  placements : List Placement
  /-- Stream position of the first byte after the header block. -/
  streamStart : Word
  targetBank : Bank
  deriving DecidableEq

namespace Plan

/-- Each image starts at or after the end of the one before it. -/
def checkOrder (previousEnd : Word) : List Placement → Except UpdateError Unit
  | [] => .ok ()
  | p :: rest => do
    if p.streamOffset < previousEnd then throw .invalidLayout
    let some stop := p.streamEnd? | throw .invalidLayout
    let some _ := p.regionStart? | throw .invalidLayout
    checkOrder stop rest

def validated (plan : Plan) : Except UpdateError Plan := do
  checkOrder plan.streamStart plan.placements
  return plan

/-- The primary image at the bank's address, and the secondary image, if there is one, at its own.
Of two images at one offset the secondary comes first. -/
def ofTarget (t : TargetHeader) (targetBank : Bank) (bankAddress secondaryAddress : Word) :
    Except UpdateError Plan := do
  let blockLen ← t.blockLen.mapError UpdateError.ofContainer
  let some streamStart := Word.ofNat? blockLen | throw .malformedHeader
  let primary ← Placement.ofPrimary t.primary bankAddress
  let placements :=
    match t.secondary with
    | none => [primary]
    | some h =>
      let secondary := Placement.ofSecondary h secondaryAddress
      if secondary.streamOffset ≤ primary.streamOffset then [secondary, primary]
      else [primary, secondary]
  validated { placements, streamStart, targetBank }

/-- A bare image, which is the whole stream and has no signature. -/
def ofBare (targetBank : Bank) (bankAddress len checksum : Word) : Except UpdateError Plan :=
  validated {
    placements := [{
      role := .primary, tag := targetBank.imageTag, destination := bankAddress, payloadLen := len,
      streamOffset := 0, signatureLen := 0, expectedChecksum := checksum }]
    streamStart := 0
    targetBank }

def primary? (plan : Plan) : Option Placement := plan.placements.find? (·.role = .primary)

def secondary? (plan : Plan) : Option Placement := plan.placements.find? (·.role = .secondary)

/-- Start of the target bank. -/
def bankAddress? (plan : Plan) : Option Word := do (← plan.primary?).regionStart?

end Plan
end DualBank
