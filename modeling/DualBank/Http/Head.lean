import DualBank.UpdateError

/-! The head of an HTTP/1 response: a status line, header lines, and an empty line. Lines end with
a newline, and a carriage return before it is dropped. Only the status and the content length are
looked at. A scan takes the head byte by byte, so it does not see how the bytes arrived. -/
namespace DualBank.Http

def isBlank (b : UInt8) : Bool := b == 0x20 || b == 0x09 || b == 0x0A || b == 0x0C || b == 0x0D

/-- Without the blanks at both ends. -/
def trim (b : Bytes) : Bytes := ((b.dropWhile isBlank).reverse.dropWhile isBlank).reverse

def isDigit (b : UInt8) : Bool := 0x30 ≤ b && b ≤ 0x39

/-- The number that a non-empty row of digits stands for. -/
def number? (b : Bytes) : Option Nat :=
  if b ≠ [] ∧ b.all isDigit then some (b.foldl (fun n d => n * 10 + (d.toNat - 0x30)) 0) else none

/-- The first part of a line, where parts are set apart by spaces, and what follows it. It is empty
only if there is no part left. -/
def part (line : Bytes) : Bytes × Bytes := (line.dropWhile (· == 0x20)).span (· != 0x20)

/-- What a version starts with: `HTTP/1.` -/
def versionStart : Bytes := [0x48, 0x54, 0x54, 0x50, 0x2F, 0x31, 0x2E]

/-- The status line has to say `200`. -/
def checkStatus (line : Bytes) : Except UpdateError Unit := do
  let (version, rest) := part line
  unless versionStart.isPrefixOf version do throw .httpMalformed
  match number? (part rest).1 with
  | none => throw .httpMalformed
  | some status =>
    if UInt16.size ≤ status then throw .httpMalformed
    unless status = 200 do throw (.httpStatus (.ofNat status))

/-- The name of the only header that counts: `content-length` -/
def contentLength : Bytes :=
  [0x63, 0x6F, 0x6E, 0x74, 0x65, 0x6E, 0x74, 0x2D, 0x6C, 0x65, 0x6E, 0x67, 0x74, 0x68]

def toLower (b : UInt8) : UInt8 := if 0x41 ≤ b && b ≤ 0x5A then b + 0x20 else b

/-- The content length, if the line is the header for it. -/
def contentLength? (line : Bytes) : Except UpdateError (Option Word) :=
  match line.span (· != 0x3A) with
  | (_, []) => .ok none
  | (name, _ :: value) =>
    if (trim name).map toLower ≠ contentLength then .ok none
    else
      match (number? (trim value)).bind Word.ofNat? with
      | some len => .ok (some len)
      | none => .error .httpMalformed

/-- A scan of the head, so far. -/
structure Head where
  statusSeen : Bool := false
  /-- The line that has not ended. -/
  line : Bytes := []
  length : Option Word := none

namespace Head

/-- Where a scan stands after some bytes. -/
inductive Step where
  | going (h : Head)
  /-- The head is over. The rest belongs to the body. -/
  | over (length : Word) (rest : Bytes)

/-- Only so many bytes of a line are kept. -/
def lineMax : Nat := 128

/-- Appends a byte to the line. Where there is a bound, the tail of a longer line is lost. -/
def push (bound : Option Nat) (h : Head) (b : UInt8) : Head :=
  match bound with
  | some most => if h.line.length < most then { h with line := h.line ++ [b] } else h
  | none => { h with line := h.line ++ [b] }

/-- The line, without the carriage return at its end. -/
def ended (h : Head) : Bytes := if h.line.getLast? = some 0x0D then h.line.dropLast else h.line

/-- Deals with a whole line. Answers the content length after the empty line. -/
def endLine (h : Head) : Except UpdateError (Head ⊕ Word) :=
  if h.statusSeen = false then do
    checkStatus h.ended
    return .inl { h with statusSeen := true, line := [] }
  else if h.ended = [] then
    match h.length with
    | some len => if len = 0 then .error .httpMissingLength else .ok (.inr len)
    | none => .error .httpMissingLength
  else do
    let found ← contentLength? h.ended
    return .inl { h with line := [], length := found.or h.length }

/-- Goes through the bytes, up to the end of the head. -/
def scan (bound : Option Nat) : Head → Bytes → Except UpdateError Step
  | h, [] => .ok (.going h)
  | h, b :: rest =>
    if b = 0x0A then
      match h.endLine with
      | .error e => .error e
      | .ok (.inr len) => .ok (.over len rest)
      | .ok (.inl h) => scan bound h rest
    else scan bound (h.push bound b) rest

end Head
end DualBank.Http
