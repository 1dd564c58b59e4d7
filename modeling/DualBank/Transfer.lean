import DualBank.Progress
import DualBank.Rig

/-! The images of a plan, on their way from the connection into flash. Bytes that were read past the
end of one image are handed to the next. The signature is held back, and not written here. -/
namespace DualBank

/-- What a transfer brought. -/
structure Summary where
  primaryWritten : Word := 0
  secondaryWritten : Word := 0
  signature : Option Signature := none
  /-- Bytes of the stream that were used up, those before the first image included. -/
  received : Nat := 0
  deriving DecidableEq

namespace Summary

/-- Takes in an image that is complete. -/
def record (s : Summary) (role : Role) (p : Progress) : Summary :=
  match role with
  | .primary => { s with primaryWritten := .ofNat p.written, signature := p.signature? }
  | .secondary => { s with secondaryWritten := .ofNat p.written }

end Summary

/-- The part of the transfer buffer that is not used up. -/
structure Window where
  start : Nat := 0
  stop : Nat := 0

namespace Window

/-- The bytes of the window. There is always one. -/
def chunk? (w : Window) (buffer : Bytes) : Option { b : Bytes // b ≠ [] } := do
  let b ← buffer.slice? w.start w.stop
  if h : b ≠ [] then some ⟨b, h⟩ else none

/-- Uses up the first bytes of the window. -/
def advance (w : Window) (count : Nat) : Window := { w with start := min (w.start + count) w.stop }

theorem chunk?_of_lt {w : Window} {buffer : Bytes} (h : w.start < w.stop)
    (hstop : w.stop ≤ buffer.length) : ∃ chunk hne, w.chunk? buffer = some ⟨chunk, hne⟩ ∧
      chunk = (buffer.drop w.start).take (w.stop - w.start) ∧
      chunk.length = w.stop - w.start := by
  have hslice : buffer.slice? w.start w.stop =
      some ((buffer.drop w.start).take (w.stop - w.start)) :=
    Bytes.slice?_eq_some.2 ⟨Nat.le_of_lt h, hstop, rfl⟩
  have hlen := Bytes.length_of_slice? hslice
  have hne : (buffer.drop w.start).take (w.stop - w.start) ≠ [] :=
    List.length_pos_iff.1 (by omega)
  refine ⟨_, hne, ?_, rfl, hlen⟩
  simp only [chunk?, hslice, Option.bind_eq_bind, Option.bind_some, dif_pos hne]

theorem advance_eq {w : Window} {count : Nat} (h : w.start + count ≤ w.stop) :
    w.advance count = ⟨w.start + count, w.stop⟩ := by
  rw [advance, Nat.min_eq_left h]

end Window

/-- How far the transfer of one image has come. -/
structure Uptake where
  /-- Stream position of the first byte of the window. -/
  position : Nat
  window : Window
  progress : Progress

namespace Uptake

def need (u : Uptake) : Nat := u.progress.need u.position

/-- Takes in a chunk of the window. -/
def feed (u : Uptake) (chunk : Bytes) : Uptake :=
  let cut := u.progress.cut u.position chunk.length
  { position := u.position + cut.consumed
    window := u.window.advance cut.consumed
    progress := u.progress.feed u.position chunk }

theorem need_feed_lt (u : Uptake) (chunk : Bytes) (hu : u.progress.isComplete = false)
    (hc : chunk ≠ []) : (u.feed chunk).need < u.need :=
  u.progress.need_feed_lt u.position chunk hu hc

end Uptake

namespace Rig

variable {σ : Type} [Link σ]

/-- Reads on if the window is used up. -/
def refill (w : Window) : Action σ Window := do
  if w.start ≠ w.stop then return w
  let capacity := (← get).buffer.length
  let count ← readInto 0 capacity
  if count = 0 then throw .streamTruncated
  return { start := 0, stop := min count capacity }

/-- Writes the payload bytes of a chunk to where they belong. -/
def deposit (a : Aperture) (p : Placement) (c : Cut) (chunk : Bytes) : Action σ Unit := do
  if c.start = c.stop then return
  let some bytes := chunk.slice? c.start c.stop | throw .invalidLayout
  let some address := Word.ofNat? (p.destination.toNat + c.flashOffset) | throw .invalidAddress
  onBoard (a.write address bytes)

/-- Takes in the next chunk of an image that is not complete. -/
def step (a : Aperture) (p : Placement) (u : Uptake) (hu : u.progress.isComplete = false) :
    Action σ { v : Uptake // v.need < u.need } := do
  let window ← refill u.window
  let some chunk := window.chunk? (← get).buffer | throw .invalidLayout
  deposit a p (u.progress.cut u.position chunk.val.length) chunk.val
  return ⟨{ u with window }.feed chunk.val, { u with window }.need_feed_lt _ hu chunk.property⟩

/-- Takes in one image. -/
def takeImage (a : Aperture) (p : Placement) (u : Uptake) : Action σ Uptake :=
  if hu : u.progress.isComplete = true then pure u
  else do
    let v ← step a p u (by simpa using hu)
    takeImage a p v.val
termination_by u.need
decreasing_by exact v.property

/-- Takes in the images one after the other. What is left of the window goes to the next. -/
def takeImages (a : Aperture) (position : Nat) (window : Window) (s : Summary) :
    List Placement → Action σ Summary
  | [] => return { s with received := position }
  | p :: rest => do
    let u ← takeImage a p { position, window, progress := .start p }
    takeImages a u.position u.window (s.record p.role u.progress) rest

/-- Takes in the images of a plan, from a connection that is past the header block. -/
def transfer (a : Aperture) (plan : Plan) : Action σ Summary := do
  if (← get).buffer = [] then throw .invalidLayout
  takeImages a plan.streamStart.toNat {} {} plan.placements

end Rig
end DualBank
