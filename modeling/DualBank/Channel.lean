import DualBank.Wire.Codec

/-! Commands and replies in frames. -/
namespace DualBank

inductive CommandError where
  /-- There is no room for the reply. -/
  | encode
  deriving DecidableEq

def CommandError.message : CommandError → String
  | encode => "reply could not be encoded"

/-- Answers a frame with a frame of at most `room` bytes, and the source of the update if one was
let in. Without room for the reply no update stays let in. -/
def Desk.handle (d : Desk) (frame : Bytes) (room : Nat) :
    Except CommandError (Bytes × Option Source) × Desk :=
  let (reply, accepted, d) :=
    match Wire.Codec.command.unframe? frame with
    | some command => d.dispatch command
    | none => (.rejected .invalidRequest, none, d)
  let answer := Wire.Codec.reply.frame reply
  if answer.length ≤ room then (.ok (answer, accepted), d)
  else
    match accepted with
    | some _ => (.error .encode, { d with gate := d.gate.leave })
    | none => (.error .encode, d)

end DualBank
