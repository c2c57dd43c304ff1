import Transcription.Number.Shortest
import Transcription.Text.Digit

namespace Transcription.Numeral

open Shortest

/-- The decisions that turn digits into a text. -/
structure DecimalStyle where
  /-- The lowest and highest place of the decimal point that is written without an exponent. -/
  lowest : Int
  highest : Int
  /-- The fewest digits of an exponent. -/
  exponentDigits : Nat

def double : DecimalStyle := ⟨-3, 16, 2⟩

def padLeft (n : Nat) (c : Char) (s : List Char) : List Char :=
  List.replicate (n - s.length) c ++ s

/-- The text of a positive decimal; a whole number keeps one zero after the point. -/
def DecimalStyle.write (n : DecimalStyle) (d : Decimal) : List Char :=
  let ds := Nat.toDigits 10 d.digits
  let point : Int := ds.length + d.exponent
  if n.lowest ≤ point && point ≤ n.highest then
    if point ≤ 0 then '0' :: '.' :: (List.replicate (-point).toNat '0' ++ ds)
    else
      let whole := ds.take point.toNat ++ List.replicate (point.toNat - ds.length) '0'
      let rest := ds.drop point.toNat
      whole ++ '.' :: (if rest.isEmpty then ['0'] else rest)
  else
    let e := point - 1
    let exponent := padLeft n.exponentDigits '0' (Nat.toDigits 10 e.natAbs)
    let mantissa := match ds with
      | [] => []
      | [c] => [c]
      | c :: rest => c :: '.' :: rest
    mantissa ++ 'e' :: (if e < 0 then '-' else '+') :: exponent

def ofFloat (x : Float) : String :=
  if x.isNaN then "nan"
  else if x.isInf then (if x < 0 then "-inf" else "inf")
  else
    let p := Binary64.parts x
    let sign := if p.negative then ['-'] else []
    let body := if p.mantissa = 0 then ['0', '.', '0'] else double.write (ofParts p)
    String.ofList (sign ++ body)

/-- Takes digits, as `value?` reads them, with single underscores between them, off the front. -/
def takeDigits (value? : Char → Option Nat) : List Char → List Nat × List Char
  | [] => ([], [])
  | c :: '_' :: d :: rest =>
    match value? c, value? d with
    | some v, some _ => let (vs, r) := takeDigits value? (d :: rest); (v :: vs, r)
    | some v, none => ([v], '_' :: d :: rest)
    | none, _ => ([], c :: '_' :: d :: rest)
  | c :: rest =>
    match value? c with
    | some v => let (vs, r) := takeDigits value? rest; (v :: vs, r)
    | none => ([], c :: rest)

def ofDigits (base : Nat) (ds : List Nat) : Nat := ds.foldl (fun n d => base * n + d) 0

/-- Splits an optional sign off the front; true for a minus. -/
def takeSign : List Char → Bool × List Char
  | '+' :: r => (false, r)
  | '-' :: r => (true, r)
  | r => (false, r)

/-- The value of `whole . fraction e exponent`. -/
def compose (whole fraction : List Nat) (exponent : Int) : Float :=
  Decimal.toFloat ⟨ofDigits 10 (whole ++ fraction), exponent - fraction.length⟩

/-- Reads an exponent part, if one begins here. -/
def takeExponent (value? : Char → Option Nat) : List Char → Option (Int × List Char)
  | c :: r =>
    if c = 'e' || c = 'E' then
      let (negative, r) := takeSign r
      match takeDigits value? r with
      | ([], _) => none
      | (ds, r) =>
        let e : Int := ofDigits 10 ds
        some (if negative then -e else e, r)
    else some (0, c :: r)
  | [] => some (0, [])

/-- Reads an unsigned decimal numeral with an optional fraction and exponent. -/
def takeDecimal (value? : Char → Option Nat) (cs : List Char) : Option (Float × List Char) := do
  let (whole, rest) := takeDigits value? cs
  let (fraction, rest) := match rest with
    | '.' :: r => takeDigits value? r
    | r => ([], r)
  if whole.isEmpty && fraction.isEmpty then none
  let (exponent, rest) ← takeExponent value? rest
  pure (compose whole fraction exponent, rest)

def infinity : Float := 1.0 / 0.0

def notANumber : Float := 0.0 / 0.0

/-- Reads a whole text as a double: a decimal, an infinity or not-a-number. -/
def toFloat? (s : String) : Option Float := do
  let (negative, cs) := takeSign (Digit.stripBlanks s.toList)
  let word := String.ofList (cs.map Char.toLower)
  let x ← if word = "inf" || word = "infinity" then some infinity
    else if word = "nan" then some notANumber
    else match takeDecimal Digit.value? cs with
      | some (x, []) => some x
      | _ => none
  pure (if negative then -x else x)

/-- The most digits that an integer is read with. -/
def maxDigits : Nat := 4300

def toInt? (s : String) : Option Int :=
  let (negative, cs) := takeSign (Digit.stripBlanks s.toList)
  match takeDigits Digit.value? cs with
  | (d :: ds, []) =>
    let n : Int := ofDigits 10 (d :: ds)
    if maxDigits < (d :: ds).length then none else some (if negative then -n else n)
  | _ => none

end Transcription.Numeral
