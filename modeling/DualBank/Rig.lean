import DualBank.Board
import DualBank.Link.Basic

/-! All that one attempt works with: the connection, the device, and the transfer buffer. -/
namespace DualBank

structure Rig (σ : Type) where
  link : σ
  board : Board
  buffer : Bytes

namespace Rig

variable {σ α : Type}

abbrev Action (σ : Type) := EStateM UpdateError (Rig σ)

/-- Works on the device alone. -/
def onBoard (x : Board.Action α) : Action σ α := fun r =>
  match x r.board with
  | .ok v board => .ok v { r with board }
  | .error e board => .error e { r with board }

/-- Takes in the answer of the connection, and puts its calls into the journal. -/
def hear (r : Rig σ) (a : Answer IoKind σ α) : Rig σ :=
  { r with
    link := a.link
    board := { r.board with journal := (a.calls.map Event.link).reverse ++ r.board.journal } }

/-- Calls the connection. -/
def onLink (call : σ → Answer IoKind σ α) : Action σ α := fun r =>
  let a := call r.link
  match a.result with
  | .ok v => .ok v (r.hear a)
  | .error kind => .error (.streamRead (some kind)) (r.hear a)

/-- Reads into the buffer from `start` up to `stop`, and answers the count that the read reports. -/
def readInto [Link σ] (start stop : Nat) : Action σ Nat := do
  let d ← onLink (Link.read (stop - start))
  modify fun r => { r with buffer := r.buffer.overlay start (d.bytes.take (stop - start)) }
  return d.count

/-- Works with another buffer for a while. -/
def withBuffer (buffer : Bytes) (x : Action σ α) : Action σ α := fun r =>
  match x { r with buffer } with
  | .ok v r' => .ok v { r' with buffer := r.buffer }
  | .error e r' => .error e { r' with buffer := r.buffer }

end Rig
end DualBank
