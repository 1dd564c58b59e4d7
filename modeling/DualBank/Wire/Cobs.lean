import DualBank.Bytes

/-! Frames without zero bytes. A frame is a row of groups, each led by a code byte that is one more
than the number of bytes in the group. A zero of the data is left out at the end of each group but
the last, and of each group of full length. A zero byte ends the frame. -/
namespace DualBank.Wire.Cobs

/-- Bytes in a group of full length. -/
def groupMax : Nat := 254

/-- The groups of some data. The first of them has begun with `group`. -/
def groups (group : Bytes) : Bytes → Bytes
  | [] => .ofNat (group.length + 1) :: group
  | b :: rest =>
    if b = 0 then .ofNat (group.length + 1) :: group ++ groups [] rest
    else if group.length + 1 = groupMax then
      .ofNat (groupMax + 1) :: group ++ b :: groups [] rest
    else groups (group ++ [b]) rest

def encode (b : Bytes) : Bytes := groups [] b ++ [0]

/-- The data of a row of groups, if each group is as long as its code says. -/
def ungroup : Bytes → Option Bytes
  | [] => some []
  | code :: rest =>
    let len := code.toNat - 1
    if rest.length < len then none
    else do
      let more ← ungroup (rest.drop len)
      let gap : Bytes := if code.toNat = groupMax + 1 ∨ rest.length = len then [] else [0]
      return rest.take len ++ gap ++ more
termination_by b => b.length
decreasing_by simp only [List.length_drop, List.length_cons]; omega

/-- The data of the frame at the front. A frame may end with the input. -/
def decode (b : Bytes) : Option Bytes := if b = [] then none else ungroup (b.takeWhile (· != 0))

end DualBank.Wire.Cobs
