import Transcription.Value.Tensor
import Transcription.Text.Digit

namespace Transcription.Operators

/-- A count of operators that can be listed. A list has an index of 64 bits and eight bytes for each
member. -/
def listed (n : Int) : Except Fault Int :=
  if n < -Int.pow 2 63 || Int.pow 2 63 ≤ n then throw .tooLarge
  else if Int.pow 2 60 ≤ n then throw .noRoom
  else pure n

/-- A count of inputs, from a number or a text of digits. -/
def count? (spec : Value) : Except Fault (Option Int) :=
  match spec.integer? with
  | some n => some <$> listed n
  | none => match spec with
    | .text s =>
      if !s.isEmpty && s.all Digit.isDigit then
        match Numeral.toInt? s with
        | some n => some <$> listed n
        | none => throw .notANumber
      else pure none
    | _ => pure none

/-- The operators for `n` inputs: a count, of inputs that all have the first symbol, or a text of symbols in
which `|` only takes up space. -/
def parse (spec : Value) (n : Nat) (symbols : List Char) : Except Fault (List Char) := do
  match ← count? spec with
  | some k =>
    let first ← match symbols with
      | c :: _ => pure c
      | [] => throw .indexOutside
    if k = n || (k ≤ 0 && n = 0) then return List.replicate n first
    else throw (.unsupported (.operands k spec n))
  | none =>
    let ops := spec.plain.toList.filter (· != '|')
    let unknown := ops.filter fun c => !symbols.contains c
    if !unknown.isEmpty then throw (.unsupported (.operators unknown spec))
    if ops.length != n then throw (.unsupported (.operands ops.length spec n))
    return ops

end Transcription.Operators
