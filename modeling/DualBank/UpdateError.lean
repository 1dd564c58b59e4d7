import DualBank.Container.Error
import DualBank.SourceLocation

/-! Why an update fails. An error keeps its cause: what the connection or the flash said, or the
status the server sent. -/
namespace DualBank

/-- What a connection says when it fails. -/
inductive IoKind where
  | other
  | notFound
  | permissionDenied
  | connectionRefused
  | connectionReset
  | connectionAborted
  | notConnected
  | addrInUse
  | addrNotAvailable
  | brokenPipe
  | alreadyExists
  | invalidInput
  | invalidData
  | timedOut
  | interrupted
  | unsupported
  | outOfMemory
  | writeZero
  deriving DecidableEq

def IoKind.name : IoKind → String
  | other => "Other"
  | notFound => "NotFound"
  | permissionDenied => "PermissionDenied"
  | connectionRefused => "ConnectionRefused"
  | connectionReset => "ConnectionReset"
  | connectionAborted => "ConnectionAborted"
  | notConnected => "NotConnected"
  | addrInUse => "AddrInUse"
  | addrNotAvailable => "AddrNotAvailable"
  | brokenPipe => "BrokenPipe"
  | alreadyExists => "AlreadyExists"
  | invalidInput => "InvalidInput"
  | invalidData => "InvalidData"
  | timedOut => "TimedOut"
  | interrupted => "Interrupted"
  | unsupported => "Unsupported"
  | outOfMemory => "OutOfMemory"
  | writeZero => "WriteZero"

/-- What a flash chip says when it fails. -/
inductive FlashError where
  | notAligned
  | outOfBounds
  | other
  deriving DecidableEq

def FlashError.name : FlashError → String
  | notAligned => "NotAligned"
  | outOfBounds => "OutOfBounds"
  | other => "Other"

inductive ErrorKind where
  | streamRead
  | streamTruncated
  | headerIncomplete
  | noMatchingImage
  | invalidAddress
  | storageFault
  | checksumMismatch
  | malformedHeader
  | headerTooLarge
  | invalidLayout
  | httpStatus
  | httpMissingLength
  | httpMalformed
  deriving DecidableEq

inductive UpdateError where
  | streamRead (io : Option IoKind)
  | streamTruncated
  | headerIncomplete
  | noMatchingImage
  | invalidAddress
  | storageFault (flash : Option FlashError)
  | checksumMismatch
  | malformedHeader
  | headerTooLarge
  | invalidLayout
  | httpStatus (status : UInt16)
  | httpMissingLength
  | httpMalformed
  deriving DecidableEq

namespace UpdateError

def kind : UpdateError → ErrorKind
  | streamRead _ => .streamRead
  | streamTruncated => .streamTruncated
  | headerIncomplete => .headerIncomplete
  | noMatchingImage => .noMatchingImage
  | invalidAddress => .invalidAddress
  | storageFault _ => .storageFault
  | checksumMismatch => .checksumMismatch
  | malformedHeader => .malformedHeader
  | headerTooLarge => .headerTooLarge
  | invalidLayout => .invalidLayout
  | httpStatus _ => .httpStatus
  | httpMissingLength => .httpMissingLength
  | httpMalformed => .httpMalformed

/-- The error of a kind whose cause is not known. -/
def ofKind : ErrorKind → UpdateError
  | .streamRead => streamRead none
  | .streamTruncated => streamTruncated
  | .headerIncomplete => headerIncomplete
  | .noMatchingImage => noMatchingImage
  | .invalidAddress => invalidAddress
  | .storageFault => storageFault none
  | .checksumMismatch => checksumMismatch
  | .malformedHeader => malformedHeader
  | .headerTooLarge => headerTooLarge
  | .invalidLayout => invalidLayout
  | .httpStatus => httpStatus 0
  | .httpMissingLength => httpMissingLength
  | .httpMalformed => httpMalformed

def ofContainer : ContainerError → UpdateError
  | .headerIncomplete _ _ => headerIncomplete
  | .noMatchingImage => noMatchingImage
  | .headerTooLarge _ _ => headerTooLarge
  | .overlappingImages => invalidLayout
  | .malformedHeader | .outputTooSmall _ | .tooManyImages => malformedHeader

/-- How the error looks to a reader for whom this program is the connection. -/
def ioKind : UpdateError → IoKind
  | streamRead (some io) => io
  | streamTruncated => .brokenPipe
  | httpStatus _ | httpMissingLength | httpMalformed => .invalidData
  | _ => .other

def message : UpdateError → String
  | streamRead _ => "stream read failed"
  | streamTruncated => "stream closed early"
  | headerIncomplete => "header incomplete"
  | noMatchingImage => "no matching image"
  | invalidAddress => "invalid bank address"
  | storageFault _ => "storage fault"
  | checksumMismatch => "checksum mismatch"
  | malformedHeader => "malformed header"
  | headerTooLarge => "header too large"
  | invalidLayout => "invalid image layout"
  | httpStatus status => s!"http status {status.toNat}"
  | httpMissingLength => "http response without content length"
  | httpMalformed => "malformed http response"

def textAt (e : UpdateError) (l : SourceLocation) : String := s!"{e.message} at {l.text}"

theorem kind_ofKind (k : ErrorKind) : (ofKind k).kind = k := by cases k <;> rfl

end UpdateError
end DualBank
