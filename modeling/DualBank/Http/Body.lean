import DualBank.Http.Head
import DualBank.Link.Basic

/-! The body of an HTTP download, which is a connection of its own. The head is read when the first
bytes of the body are asked for. Body bytes that came with the head are served first, and nothing
is served past the content length. -/
namespace DualBank.Http

structure Body (σ : Type) where
  link : σ
  contentLength : Option Word := none
  remaining : Nat := 0
  /-- Body bytes that came with the head and are not served yet. -/
  pending : Bytes := []

/-- Size of the buffer that the head is read through. -/
def scratchLen : Nat := 64

/-- Reads up to the end of the head. Answers the content length, and the bytes after the head that
came with it. -/
def readHead {σ : Type} [FiniteLink σ] (bound : Option Nat) (h : Head) (scratch : Bytes) (s : σ) :
    Answer UpdateError σ (Word × Bytes) :=
  let a := Link.read scratchLen s
  match hr : a.result with
  | .error kind => ⟨.error (.streamRead (some kind)), a.link, a.calls⟩
  | .ok d =>
    if hd : d.count = 0 then ⟨.error .streamTruncated, a.link, a.calls⟩
    else
      let scratch := scratch.overlay 0 (d.bytes.take scratchLen)
      match scratch.slice? 0 d.count with
      | none => ⟨.error .httpMalformed, a.link, a.calls⟩
      | some received =>
        match h.scan bound received with
        | .error e => ⟨.error e, a.link, a.calls⟩
        | .ok (.over len rest) => ⟨.ok (len, rest), a.link, a.calls⟩
        | .ok (.going h) =>
          have : FiniteLink.left a.link < FiniteLink.left s := FiniteLink.left_read_lt hr hd
          let next := readHead bound h scratch a.link
          { next with calls := a.calls ++ next.calls }
termination_by FiniteLink.left s
decreasing_by exact this

namespace Body

variable {σ : Type}

/-- Starts the body, with the bytes of it that are there already. -/
def start (b : Body σ) (len : Word) (early : Bytes) : Except UpdateError Word × Body σ :=
  let keep := early.take len.toNat
  let b := { b with contentLength := some len, remaining := len.toNat }
  if b.pending.length + keep.length ≤ scratchLen then
    (.ok len, { b with pending := b.pending ++ keep })
  else (.error .httpMalformed, b)

/-- Reads the head, once, and answers the content length. -/
def head [FiniteLink σ] (b : Body σ) : Answer UpdateError (Body σ) Word :=
  match b.contentLength with
  | some len => ⟨.ok len, b, []⟩
  | none =>
    let a := readHead (some Head.lineMax) {} (List.replicate scratchLen 0) b.link
    let b := { b with link := a.link }
    match a.result with
    | .error e => ⟨.error e, b, a.calls⟩
    | .ok (len, early) =>
      let (result, b) := b.start len early
      ⟨result, b, a.calls⟩

/-- Serves bytes of the body, once the head is read. -/
def serve [Link σ] (room : Nat) (b : Body σ) : Answer UpdateError (Body σ) Delivery :=
  if b.remaining = 0 ∨ room = 0 then ⟨.ok ⟨[], 0⟩, b, []⟩
  else if b.pending ≠ [] then
    let bytes := b.pending.take room
    ⟨.ok ⟨bytes, bytes.length⟩,
      { b with pending := b.pending.drop room, remaining := b.remaining - bytes.length }, []⟩
  else
    let limit := min b.remaining room
    let a := Link.read limit b.link
    match a.result with
    | .error kind => ⟨.error (.streamRead (some kind)), { b with link := a.link }, a.calls⟩
    | .ok d =>
      ⟨.ok { d with bytes := d.bytes.take limit },
        { b with link := a.link, remaining := b.remaining - d.count }, a.calls⟩

def read [FiniteLink σ] (room : Nat) (b : Body σ) : Answer UpdateError (Body σ) Delivery :=
  let a := b.head
  match a.result with
  | .error e => ⟨.error e, a.link, a.calls⟩
  | .ok _ =>
    let next := a.link.serve room
    { next with calls := a.calls ++ next.calls }

def write [Link σ] (bytes : Bytes) (b : Body σ) : Answer UpdateError (Body σ) Nat :=
  let a := Link.write bytes b.link
  ⟨a.result.mapError (.streamRead ∘ some), { b with link := a.link }, a.calls⟩

def flush [Link σ] (b : Body σ) : Answer UpdateError (Body σ) Unit :=
  let a := Link.flush b.link
  ⟨a.result.mapError (.streamRead ∘ some), { b with link := a.link }, a.calls⟩

/-- The errors of a body, as those of a connection. -/
def asLink {τ α : Type} (a : Answer UpdateError τ α) : Answer IoKind τ α :=
  ⟨a.result.mapError UpdateError.ioKind, a.link, a.calls⟩

instance [FiniteLink σ] : Link (Body σ) where
  read room b := asLink (b.read room)
  write bytes b := asLink (b.write bytes)
  flush b := asLink b.flush

end Body
end DualBank.Http
