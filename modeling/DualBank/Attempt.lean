import DualBank.Banks
import DualBank.Commitment
import DualBank.Intake
import DualBank.Verification

/-! One attempt at an update, from the first byte of the stream to its report. Nothing is erased
before there is a plan, so a failure up to then leaves flash alone. Any failure after that wipes
the first sector of the target bank. -/
namespace DualBank

inductive Stage where
  | parseHeader
  | resolveBank
  | eraseTarget
  | streamWrite
  | verify
  | commitSuccess
  | rollbackFailure
  deriving DecidableEq

/-- A failure, and the stage it came at. -/
structure Failure where
  stage : Stage
  error : UpdateError
  deriving DecidableEq

inductive Outcome where
  /-- The new bank is active. The device is to be reset. -/
  | reboot (bank : Bank)
  | failed (failure : Failure) (rolledBack : Bool)
  deriving DecidableEq

structure Report where
  /-- The stage that the attempt ended in. -/
  stage : Stage
  outcome : Outcome
  deriving DecidableEq

namespace Report

def isReboot (r : Report) : Bool :=
  match r.outcome with
  | .reboot _ => true
  | .failed _ _ => false

def errorKind? (r : Report) : Option ErrorKind :=
  match r.outcome with
  | .reboot _ => none
  | .failed failure _ => some failure.error.kind

/-- A failure before there was a plan. -/
def ofPlanning (f : Failure) : Report := ⟨f.stage, .failed f false⟩

end Report

/-- What stays the same throughout an attempt. -/
structure Attempt where
  aperture : Aperture
  config : Config
  running : Bank

namespace Attempt

variable {σ α : Type}

abbrev Staged (σ : Type) := EStateM Failure (Rig σ)

/-- Failures of the action come at this stage. -/
def during (stage : Stage) (x : Rig.Action σ α) : Staged σ α := fun r =>
  match x r with
  | .ok v r => .ok v r
  | .error error r => .error ⟨stage, error⟩ r

/-- Reads the header block, and finds out which of its images goes where. -/
def planContainer [Link σ] (a : Attempt) : Staged σ (Plan × TargetHeader) := do
  if a.config.expectFileInfo then
    let _ ← during .parseHeader FileInfo.receive
  let target := a.running.other
  let block ← during .parseHeader Rig.receiveHeader
  let header ← during .parseHeader <| MonadExcept.ofExcept <|
    (TargetHeader.parse block target.imageTag).mapError UpdateError.ofContainer
  let address ← during .resolveBank <| Rig.onBoard <|
    a.config.resolve a.aperture a.running header.primary
  let plan ← during .resolveBank <| MonadExcept.ofExcept <|
    Plan.ofTarget header target address a.config.secondaryAddress
  return (plan, header)

/-- Tells the server which bank to send an image for. -/
def shakeHands [Link σ] (target : Bank) : Rig.Action σ Unit := do
  let taken ← Rig.onLink (Link.write [target.toWord.toUInt8])
  if taken = 0 then throw (.streamRead (some .writeZero))
  Rig.onLink Link.flush

/-- The configured address of bank 2 becomes the durable one, if bank 1 ends before it. -/
def settleBank2 (a : Attempt) : Board.Action Unit := do
  let bank2 := a.config.defaultBank2Address
  MonadExcept.ofExcept (Config.checkBank2 bank2)
  a.config.checkClear a.aperture bank2
  Board.writeSlot .bank2Address bank2

/-- Shakes hands, and learns the size of the image. -/
def planBare [Link σ] (a : Attempt) : Staged σ Plan := do
  during .resolveBank (Rig.onBoard a.settleBank2)
  let bank2 := a.config.defaultBank2Address
  let target := a.running.other
  during .parseHeader (shakeHands target)
  let info ← during .parseHeader FileInfo.receive
  if info.size = 0 then throw ⟨.parseHeader, .malformedHeader⟩
  let address ← match target with
    | .bank1 => do
      during .resolveBank (MonadExcept.ofExcept (a.config.checkFits bank2 info.size))
      pure a.config.bank1Address
    | .bank2 => pure bank2
  during .resolveBank (MonadExcept.ofExcept (Plan.ofBare target address info.size info.checksum))

/-- The plan, and the header block it comes from if there is one. -/
def plan [Link σ] (a : Attempt) : Flow → Staged σ (Plan × Option TargetHeader)
  | .container => do
    let (plan, header) ← a.planContainer
    return (plan, some header)
  | .bare => do
    let plan ← a.planBare
    return (plan, none)

/-- Makes the target bootable. A container has to have brought a signature. -/
def finish (a : Attempt) (flow : Flow) (plan : Plan) (s : Summary) : Board.Action Unit :=
  match flow with
  | .container =>
    match s.signature with
    | none => throw .invalidLayout
    | some signature => Board.commit a.aperture plan (some signature)
  | .bare => Board.commit a.aperture plan none

/-- Carries out a plan. -/
def install [Link σ] (a : Attempt) (flow : Flow) (plan : Plan) : Staged σ Unit := do
  during .eraseTarget (Rig.onBoard (Board.eraseTargets a.aperture plan.placements))
  let summary ← during .streamWrite (Rig.transfer a.aperture plan)
  during .verify (Rig.verify a.aperture summary plan.placements)
  during .commitSuccess (Rig.onBoard (a.finish flow plan summary))

/-- Wipes the target after a failure. -/
def abandon (a : Attempt) (plan : Plan) (f : Failure) (r : Rig σ) : Report × Rig σ :=
  match Board.rollBack a.aperture plan r.board with
  | .ok () board => (⟨.rollbackFailure, .failed f true⟩, { r with board })
  | .error _ board => (⟨.rollbackFailure, .failed f false⟩, { r with board })

/-- Plans and installs. The header block is answered too, once there is a plan. -/
def runFlow [Link σ] (a : Attempt) (flow : Flow) (r : Rig σ) :
    Report × Option TargetHeader × Rig σ :=
  match a.plan flow r with
  | .error f r => (.ofPlanning f, none, r)
  | .ok (plan, header) r =>
    match a.install flow plan r with
    | .ok () r => (⟨.commitSuccess, .reboot plan.targetBank⟩, header, r)
    | .error f r =>
      let (report, r) := a.abandon plan f r
      (report, header, r)

/-- Runs the flow that the configuration names. -/
def run [Link σ] (a : Attempt) (r : Rig σ) : Report × Rig σ :=
  let (report, _, r) := a.runFlow a.config.flow r
  (report, r)

end Attempt
end DualBank
