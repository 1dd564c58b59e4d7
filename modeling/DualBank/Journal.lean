import DualBank.Store

/-! What an update says to the outside world, call by call. -/
namespace DualBank

inductive LinkCall where
  | read (room : Nat) (answer : Except IoKind Nat)
  | write (bytes : Bytes) (answer : Except IoKind Nat)
  | flush (answer : Except IoKind Unit)

inductive FlashCall where
  | read (offset len : Nat)
  | write (offset : Nat) (bytes : Bytes)
  | erase (start stop : Nat)

/-- A call, with what it failed by if it failed. -/
inductive Event where
  | link (call : LinkCall)
  | flash (call : FlashCall) (fault : Option FlashError)
  | slotRead (slot : Slot) (failed : Bool)
  | slotWrite (slot : Slot) (value : Word) (failed : Bool)

namespace Event

def mark (failure : Option String) : String :=
  match failure with
  | none => ""
  | some name => " !" ++ name

def answerText : Except IoKind Nat → String
  | .ok count => s!" {count}"
  | .error kind => mark (some kind.name)

/-- One line of the journal. -/
def text : Event → String
  | link (.read room answer) => s!"stream read {room}" ++ answerText answer
  | link (.write bytes answer) => s!"stream write {bytes.length}" ++ answerText answer
  | link (.flush (.ok _)) => "stream flush"
  | link (.flush (.error kind)) => "stream flush" ++ mark (some kind.name)
  | flash (.read offset len) fault =>
    s!"flash read {offset} {len}" ++ mark (fault.map FlashError.name)
  | flash (.write offset bytes) fault =>
    s!"flash write {offset} {bytes.length}" ++ mark (fault.map FlashError.name)
  | flash (.erase start stop) fault =>
    s!"flash erase {start} {stop}" ++ mark (fault.map FlashError.name)
  | slotRead slot failed =>
    s!"store read {slot.name}" ++ mark (if failed then some "StorageFault" else none)
  | slotWrite slot value failed =>
    s!"store write {slot.name} {value.toNat}" ++ mark (if failed then some "StorageFault" else none)

end Event
end DualBank
