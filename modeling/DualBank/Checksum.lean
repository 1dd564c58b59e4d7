import DualBank.Word

/-! The checksum of an image: the sum of its bytes, wrapping at 32 bits. -/
namespace DualBank.Checksum

/-- Adds the bytes to a running sum. -/
def add (sum : Word) (b : Bytes) : Word := b.foldl (fun s x => s + x.toUInt32) sum

def of (b : Bytes) : Word := add 0 b

/-- A sum may be taken piece by piece. -/
theorem add_append (sum : Word) (a b : Bytes) : add sum (a ++ b) = add (add sum a) b :=
  List.foldl_append

end DualBank.Checksum
