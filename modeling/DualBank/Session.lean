/-! Updates are let in one at a time. -/
namespace DualBank

/-- The gate that every way of starting an update goes through. While an update is let in, whoever
runs it holds a session, and ends it in the end. -/
structure Gate where
  busy : Bool := false

namespace Gate

/-- Lets an update in, if none is. -/
def enter? (g : Gate) : Option Gate := if g.busy then none else some { busy := true }

/-- The session has ended. -/
def leave (_ : Gate) : Gate := { busy := false }

end Gate
end DualBank
