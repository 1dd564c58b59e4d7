import DualBank.Container.Header

/-! A header block, reduced to the images that one bank cares about. -/
namespace DualBank

structure TargetHeader where
  file : FileHeader
  recordLen : Word
  primary : ImageHeader
  secondary : Option ImageHeader
  deriving DecidableEq

namespace TargetHeader

def blockLen (t : TargetHeader) : Except ContainerError Nat :=
  Prologue.blockLen ⟨t.file, t.recordLen⟩

/-- The images found so far in a scan. -/
structure Found where
  primary : Option ImageHeader := none
  secondary : Option ImageHeader := none

/-- A later record takes the place of an earlier one. -/
def Found.see (wanted : Tag) (f : Found) (h : ImageHeader) : Found :=
  if h.tag = wanted then { f with primary := some h }
  else if h.tag.isSecondary then { f with secondary := some h }
  else f

/-- Looks at every record, to the end. -/
def scan (wanted : Tag) : List Bytes → Found → Except ContainerError Found
  | [], f => .ok f
  | record :: records, f => do
    let h ← ImageHeader.decode record
    scan wanted records (f.see wanted h)

/-- Reads a header block. Bytes after it do not matter. -/
def parse (block : Bytes) (wanted : Tag) : Except ContainerError TargetHeader := do
  let p ← Prologue.decode block
  let declared ← p.blockLen
  if block.length < declared then throw (.headerIncomplete declared block.length)
  let records :=
    Bytes.pieces p.recordLen.toNat p.file.headerCount.toNat (block.drop FileHeader.length)
  let found ← scan wanted records {}
  match found.primary with
  | none => throw .noMatchingImage
  | some primary => return ⟨p.file, p.recordLen, primary, found.secondary⟩

end TargetHeader
end DualBank
