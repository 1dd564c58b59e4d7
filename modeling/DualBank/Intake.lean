import DualBank.Container.Target
import DualBank.Rig

/-! What precedes the image data on the wire: the header block of a container, and the file info
record that some servers send first. No byte after them is taken from the connection. -/
namespace DualBank

/-- The largest count that a sum of counts can reach. -/
def maxCount : Nat := UInt64.size - 1

namespace Rig

variable {σ : Type} [Link σ]

/-- Reads until the buffer is full from `start` up to `stop`, or the connection has no more. So far
there are `got` bytes. The count is what the reads report, and may be more than there is room. -/
def fill (start stop got : Nat) : Action σ Nat :=
  if stop ≤ start + got then pure got
  else do
    let count ← readInto (start + got) stop
    if _h : count = 0 then return got
    else if start + (got + count) ≤ stop then fill start stop (got + count)
    else return min (got + count) maxCount
termination_by stop - (start + got)

/-- Reads a whole header block into the front of the buffer. The prologue tells how long it is. -/
def receiveHeader : Action σ Bytes := do
  let capacity := (← get).buffer.length
  if capacity < Prologue.length then throw .headerTooLarge
  let received ← fill 0 Prologue.length 0
  if received < Prologue.length then throw .headerIncomplete
  let start := (← get).buffer.take Prologue.length
  let declared ← MonadExcept.ofExcept
    ((Prologue.decode start >>= Prologue.blockLen).mapError UpdateError.ofContainer)
  if capacity < declared then throw .headerTooLarge
  let more ← fill Prologue.length declared 0
  match (← get).buffer.slice? 0 (more + Prologue.length) with
  | some block => return block
  | none => throw .headerIncomplete

end Rig

/-- The record that some servers send in front of the data. -/
structure FileInfo where
  checksum : Word
  /-- A bank, for a bare image. -/
  reserved : Word
  size : Word
  deriving DecidableEq

namespace FileInfo

def length : Nat := 12

def decode (b : Bytes) : FileInfo where
  checksum := (Word.at? b 0).getD 0
  reserved := (Word.at? b 4).getD 0
  size := (Word.at? b 8).getD 0

def encode (i : FileInfo) : Bytes := i.checksum.toBytes ++ i.reserved.toBytes ++ i.size.toBytes

def receive {σ : Type} [Link σ] : Rig.Action σ FileInfo :=
  Rig.withBuffer (List.replicate length 0) do
    let received ← Rig.fill 0 length 0
    if received < length then throw .streamTruncated
    return decode (← get).buffer

end FileInfo
end DualBank
