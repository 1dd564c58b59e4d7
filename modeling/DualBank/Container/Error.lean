/-! What can be wrong with a container, or with packing one. -/
namespace DualBank

inductive ContainerError where
  | headerIncomplete (declared received : Nat)
  | noMatchingImage
  | malformedHeader
  | headerTooLarge (declared capacity : Nat)
  | outputTooSmall (needed : Nat)
  | tooManyImages
  | overlappingImages
  deriving DecidableEq

def ContainerError.message : ContainerError → String
  | headerIncomplete declared received =>
    s!"header declares {declared} bytes but only {received} were received"
  | noMatchingImage => "no image header matched the requested tag"
  | malformedHeader => "header field is out of range"
  | headerTooLarge declared capacity =>
    s!"header of {declared} bytes does not fit a {capacity} byte buffer"
  | outputTooSmall needed => s!"output buffer of {needed} bytes is too small"
  | tooManyImages => "too many images for one container"
  | overlappingImages => "image payloads overlap in the stream"

end DualBank
