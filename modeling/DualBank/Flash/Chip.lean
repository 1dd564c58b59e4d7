import DualBank.Config
import DualBank.Flash.Cells
import DualBank.UpdateError

/-! A NOR flash chip. Erased bytes read `0xFF`, and a byte can be written only while it is erased.
Bytes are erased by whole sectors. A chip may be set to fail at given calls; such a call, and any
call that the chip refuses, changes no cell. -/
namespace DualBank

def erasedByte : UInt8 := 0xFF

inductive FlashOp where
  | read
  | write
  | erase
  deriving DecidableEq

/-- How many calls of each kind there were, failed ones included. -/
structure FlashCalls where
  reads : Nat := 0
  writes : Nat := 0
  erases : Nat := 0

namespace FlashCalls

def count (c : FlashCalls) : FlashOp → Nat
  | .read => c.reads
  | .write => c.writes
  | .erase => c.erases

def next (c : FlashCalls) : FlashOp → FlashCalls
  | .read => { c with reads := c.reads + 1 }
  | .write => { c with writes := c.writes + 1 }
  | .erase => { c with erases := c.erases + 1 }

end FlashCalls

structure Chip where
  size : Nat
  cells : Cells (size.log2 + 1) := .uniform erasedByte
  /-- Writes and erasures that were done. -/
  writes : Nat := 0
  erases : Nat := 0
  calls : FlashCalls := {}
  /-- What the n-th call of a kind fails with. -/
  faults : FlashOp → Nat → Option FlashError := fun _ _ => none

namespace Chip

abbrev Action := EStateM FlashError Chip

def byte (c : Chip) (i : Nat) : UInt8 := c.cells.get i

/-- Counts a call, and fails it if it is set to fail. -/
def count (op : FlashOp) : Action Unit := fun c =>
  let calls := c.calls.next op
  match c.faults op (calls.count op) with
  | some e => .error e { c with calls }
  | none => .ok () { c with calls }

def read (offset len : Nat) : Action Bytes := do
  count .read
  let c ← get
  if c.size < offset + len then throw .outOfBounds
  return c.cells.read offset len

def write (offset : Nat) (b : Bytes) : Action Unit := do
  count .write
  let c ← get
  if c.size < offset + b.length then throw .outOfBounds
  if (c.cells.read offset b.length).any (· != erasedByte) then throw .other
  set { c with cells := c.cells.write offset b, writes := c.writes + 1 }

def erase (start stop : Nat) : Action Unit := do
  count .erase
  let c ← get
  if stop < start ∨ c.size < stop then throw .outOfBounds
  if start % sectorSize ≠ 0 ∨ stop % sectorSize ≠ 0 then throw .notAligned
  set { c with cells := c.cells.fill start stop erasedByte, erases := c.erases + 1 }

/-- Puts bytes into the cells as they are, to begin with. -/
def preset (c : Chip) (offset : Nat) (b : Bytes) : Chip :=
  { c with cells := c.cells.write offset b }

/-- The longest runs of bytes that are not erased. -/
def runs (c : Chip) : List (Nat × Bytes) := c.cells.runs erasedByte

end Chip
end DualBank
