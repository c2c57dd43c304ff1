import Transcription.Value.Basic
import Transcription.Text.Quoted

namespace Transcription

def commaSeparated (parts : List String) : String := ", ".intercalate parts

def bracketed (parts : List String) : String := "[" ++ commaSeparated parts ++ "]"

/-- A tuple of one part keeps a comma after it. -/
def parenthesized : List String → String
  | [p] => "(" ++ p ++ ",)"
  | parts => "(" ++ commaSeparated parts ++ ")"

/-- The text of a shape such as `(2, 3)` or `(4,)`. -/
def shapeText (shape : List Nat) : String := parenthesized (shape.map toString)

namespace Value

/-- A part of a complex number; a whole one is written without a point. -/
def complexPart (x : Float) : String :=
  match Binary64.integer? x with
  | some n =>
    if (Binary64.parts x).negative && n = 0 then "-0"
    else if n.natAbs < Nat.pow 10 16 then toString n
    else Numeral.ofFloat x
  | Option.none => Numeral.ofFloat x

def complexText (re im : Float) : String :=
  let imag := complexPart im
  if re == 0 && !(Binary64.parts re).negative then imag ++ "j"
  else
    let plus := if imag.startsWith "-" then "" else "+"
    "(" ++ complexPart re ++ plus ++ imag ++ "j)"

/-- An entry of an array: a whole one ends in its point. -/
def entryText (x : Float) : String :=
  let s := Numeral.ofFloat x
  if s.endsWith ".0" then (s.dropEnd 1).toString else s

/-- The entries of an array in nested brackets, `sep` between two of them. -/
def tensorText (sep : String) : List Nat → List Float → String
  | [], data => match data with
    | x :: _ => entryText x
    | [] => ""
  | n :: shape, data =>
    let size := shape.foldl (· * ·) 1
    let parts := (List.range n).map fun i => tensorText sep shape ((data.drop (i * size)).take size)
    "[" ++ sep.intercalate parts ++ "]"

mutual

/-- The text of a value; texts are quoted. -/
def quoted : Value → String
  | none => "None"
  | bool b => if b then "True" else "False"
  | int n => toString n
  | float x => Numeral.ofFloat x
  | complex re im => complexText re im
  | text s => Quoted.encode s
  | list vs => bracketed (quotedAll vs)
  | tuple vs => parenthesized (quotedAll vs)
  | tensor t => "array(" ++ tensorText ", " t.shape t.data ++ ")"
  | sparse m => s!"<sparse matrix of {m.rows.length} by {m.cols}>"
  | other o => quotedOther o

def quotedAll : List Value → List String
  | [] => []
  | v :: vs => quoted v :: quotedAll vs

/-- The text of another literal, its members and entries in the order in which they were written. -/
def quotedOther : Other → String
  | .bytes s => "b" ++ Quoted.encodeBytes s
  | .ellipsis => "Ellipsis"
  | .set [] => "set()"
  | .set vs => "\x7b" ++ commaSeparated (quotedAll vs) ++ "\x7d"
  | .dict entries => "\x7b" ++ commaSeparated (quotedEntries entries) ++ "\x7d"

def quotedEntries : List (Value × Value) → List String
  | [] => []
  | (k, v) :: rest => (quoted k ++ ": " ++ quoted v) :: quotedEntries rest

end

/-- The text of a value; a text stands for itself. -/
def plain : Value → String
  | text s => s
  | tensor t => tensorText " " t.shape t.data
  | v => quoted v

end Value

end Transcription
