import Transcription.Fault

namespace Transcription

/-- The place `i` of a list of length `n`; a negative one counts back from the end. -/
def position (n : Nat) (i : Int) : Except Fault Nat :=
  let j := if i < 0 then i + n else i
  if 0 ≤ j && j < n then pure j.toNat else throw .indexOutside

end Transcription
