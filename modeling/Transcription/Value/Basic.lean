import Transcription.Poly.Matrix
import Transcription.Number.Numeral

namespace Transcription

/-- An array of doubles: its shape, and its entries row by row. -/
structure Tensor where
  shape : List Nat
  data : List Float
  deriving Repr

mutual

inductive Value where
  | none
  | bool (b : Bool)
  | int (n : Int)
  | float (x : Float)
  | complex (re im : Float)
  | text (s : String)
  | list (vs : List Value)
  | tuple (vs : List Value)
  | tensor (t : Tensor)
  | sparse (m : Matrix Float)
  | other (o : Value.Other)

/-- A literal of a kind that few parameters have a use for. The members of a set and the keys of a
dictionary are all different. -/
inductive Value.Other where
  | bytes (s : List Char)
  | ellipsis
  | set (vs : List Value)
  | dict (entries : List (Value × Value))

end

deriving instance Repr for Value, Value.Other

instance : Inhabited Value := ⟨.none⟩

namespace Value

/-- A whole number, truth values counting as 0 and 1. -/
def integer? : Value → Option Int
  | bool b => some b.toInt
  | int n => some n
  | _ => Option.none

mutual

/-- Whether a value can be looked up in a table; lists and arrays cannot. -/
def isKey : Value → Bool
  | list _ => false
  | tuple vs => areKeys vs
  | tensor _ => false
  | sparse _ => false
  | other (.set _) | other (.dict _) => false
  | _ => true

def areKeys : List Value → Bool
  | [] => true
  | v :: vs => isKey v && areKeys vs

end

/-- The name of a kind of literal, which stands for it where only the kind is shown. -/
def Other.name : Other → String
  | .bytes _ => "bytes"
  | .ellipsis => "ellipsis"
  | .set _ => "set"
  | .dict _ => "dict"

instance : Coe Other String := ⟨Other.name⟩

end Value

end Transcription
