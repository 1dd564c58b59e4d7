import DualBank.Attempt
import DualBank.Http.Body
import DualBank.Session

/-! Running an update that was let in. Its session ends before anything else happens. -/
namespace DualBank

inductive Ending where
  /-- The device is reset, into its new image. -/
  | reset (bank : Bank)
  /-- The image that runs goes on running. -/
  | returned (report : Report)
  deriving DecidableEq

namespace Ending

def ofReport (r : Report) : Ending :=
  match r.outcome with
  | .reboot bank => reset bank
  | .failed _ _ => returned r

end Ending

namespace Attempt

variable {σ : Type}

/-- Updates from an open connection. -/
def execute [Link σ] (a : Attempt) (g : Gate) (r : Rig σ) : Ending × Gate × Rig σ :=
  let (report, r) := a.run r
  (.ofReport report, g.leave, r)

/-- Runs an attempt on the body of a response whose head has not been read. -/
def runHttp [FiniteLink σ] (a : Attempt) (r : Rig σ) : Report × Rig σ :=
  let head := Http.Body.head { link := r.link }
  let board := { r.board with
    journal := (head.calls.map Event.link).reverse ++ r.board.journal }
  match head.result with
  | .error error => (.ofPlanning ⟨.parseHeader, error⟩, { r with link := head.link.link, board })
  | .ok _ =>
    let (report, r) := a.run { r with link := head.link, board }
    (report, { r with link := r.link.link })

/-- Updates from a connection on which a response comes. -/
def executeHttp [FiniteLink σ] (a : Attempt) (g : Gate) (r : Rig σ) : Ending × Gate × Rig σ :=
  let (report, r) := a.runHttp r
  (.ofReport report, g.leave, r)

end Attempt
end DualBank
