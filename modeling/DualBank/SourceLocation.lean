import DualBank.Text
import DualBank.Word

/-! A place in a source file, as an error report names it. -/
namespace DualBank

structure SourceLocation where
  file : Text 96
  line : Word
  column : Word
  deriving DecidableEq

namespace SourceLocation

/-- A file name that is too long loses its end. -/
def make (file : String) (line column : Word) : SourceLocation := ⟨.clip 96 file, line, column⟩

def text (l : SourceLocation) : String := s!"{l.file.value}:{l.line.toNat}:{l.column.toNat}"

end SourceLocation
end DualBank
