import DualBank.Board
import DualBank.Session

/-! Commands to the updater, and its replies. -/
namespace DualBank

/-- Where an update reads its image from. -/
inductive Source where
  /-- A plain server. -/
  | direct (a b c d : UInt8) (port : UInt16)
  | http (host : Text 63) (port : UInt16) (resource : Text 63)
  deriving DecidableEq

/-- A server has a port, and a name and a resource to ask it for. -/
def Source.isValid : Source → Bool
  | direct _ _ _ _ port => port != 0
  | http host port resource => port != 0 && !host.isEmpty && !resource.isEmpty

inductive Command where
  | start (source : Source)
  | selectBank (bank : Bank)
  deriving DecidableEq

inductive Refusal where
  | alreadyRunning
  | invalidRequest
  | storageFault
  deriving DecidableEq

/-- `accepted` says only that an attempt was let in. -/
inductive Reply where
  | accepted
  | rejected (reason : Refusal)
  | bankSelected (bank : Bank)
  deriving DecidableEq

/-- What commands work on. -/
structure Desk where
  gate : Gate
  board : Board

namespace Desk

/-- Refused while an update runs, as the update owns the slot. -/
def selectBank (d : Desk) (bank : Bank) : Reply × Desk :=
  match d.gate.enter? with
  | none => (.rejected .alreadyRunning, d)
  | some gate =>
    match Board.selectBank bank d.board with
    | .ok () board => (.bankSelected bank, { gate := gate.leave, board })
    | .error _ board => (.rejected .storageFault, { gate := gate.leave, board })

/-- Answers a command, and the source of the update if one was let in. -/
def dispatch (d : Desk) : Command → Reply × Option Source × Desk
  | .selectBank bank =>
    let (reply, d) := d.selectBank bank
    (reply, none, d)
  | .start source =>
    if source.isValid = false then (.rejected .invalidRequest, none, d)
    else
      match d.gate.enter? with
      | none => (.rejected .alreadyRunning, none, d)
      | some gate => (.accepted, some source, { d with gate })

end Desk
end DualBank
