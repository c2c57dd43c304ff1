import Transcription.Number.Division
import Transcription.Value.Tensor

namespace Transcription

inductive Period where
  /-- A whole number of steps, however large. -/
  | every (steps : Int)
  /-- One window for all steps, written as an infinite period of either sign. -/
  | endless (negative : Bool)
  /-- A period that is no whole number of steps. -/
  | fraction (steps : Float)
  deriving Repr

namespace Period

/-- The window of step `t` for a period that is no whole number. -/
def fractionWindow (n : Float) (offset t : Int) : Float :=
  Division.floorDiv (Float.ofInt (t - 1) - Division.floorMod (Float.ofInt offset) n) n

def window (p : Period) (offset t : Int) : Int :=
  match p with
  | every n => Int.fdiv (t - 1 - Int.fmod offset n) n
  | endless _ => 0
  | fraction n => Binary64.truncate (fractionWindow n offset t)

/-- The window that step `t` lies in, as a number. A period of no length has no windows. -/
def windowNumber (p : Period) (offset t : Int) : Except Fault Value :=
  match p with
  | fraction n =>
    if n == 0 then throw .divisionByZero else pure (.float (fractionWindow n offset t))
  | every 0 => throw .divisionByZero
  | p => pure (.int (p.window offset t))

def blocks : Period → Bool
  | every n => n != 1
  | _ => true

/-- The period and offset of a parameter: nothing, a period, or a list of the two. -/
def ofValue (v : Value) : Except Fault (Period × Int) := do
  match v with
  | .none => return (every 1, 0)
  | v =>
    let xs := (← v.tensor?).data
    let period := xs.headD 1
    let offset := (xs.drop 1).headD 0
    let p ← if period.isInf then pure (endless (period < 0))
      else if period < 1 then throw (.blockingPeriod period)
      else
        let n ← Value.integerOf period
        if Binary64.integer? period = some n then pure (every n) else throw (.blockingPeriod period)
    let o ← Value.integerOf offset
    if Binary64.integer? offset = some o then return (p, o) else throw (.blockingOffset offset)

end Period

end Transcription
