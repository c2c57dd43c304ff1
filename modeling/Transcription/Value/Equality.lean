import Transcription.Fault

namespace Transcription.Value

/-- A number or truth value as an exact pair of parts: an integer, or a double that is none. -/
inductive Quantity where
  | whole (n : Int)
  | real (x : Float)

def quantity? : Value → Option Quantity
  | bool b => some (.whole b.toInt)
  | int n => some (.whole n)
  | float x => some (match Binary64.integer? x with
      | some n => .whole n
      | Option.none => .real x)
  | complex re im => if im == 0 then some (match Binary64.integer? re with
      | some n => .whole n
      | Option.none => .real re) else Option.none
  | _ => Option.none

def Quantity.same : Quantity → Quantity → Bool
  | .whole m, .whole n => m = n
  | .real x, .real y => x == y
  | _, _ => false

/-- The only entry of a matrix of one row and column. -/
def lone? (m : Matrix Float) : Option Float :=
  match m.rows with
  | [r] => if m.cols = 1 then some ((r.lookup 0).getD 0) else Option.none
  | _ => Option.none

def sameEntry (x : Float) : Option Float → Except Fault Bool
  | some y => pure (x == y)
  | Option.none => throw .severalTruths

mutual

/-- Whether the only entry of an array equals a value; a list counts as an array of its members. -/
def equalsEntry (x : Float) : Value → Except Fault Bool
  | bool b => pure (x == if b then 1 else 0)
  | int n => match Binary64.ofInt? n with
    | some y => pure (x == y)
    | Option.none => throw .tooLarge
  | float y => pure (x == y)
  | complex re im => pure (x == re && im == 0)
  | list vs => equalsMember x vs
  | tuple vs => equalsMember x vs
  | tensor t => sameEntry x (match t.data with
    | [y] => some y
    | _ => Option.none)
  | sparse m => sameEntry x (lone? m)
  | none | text _ | other _ => pure false

def equalsMember (x : Float) : List Value → Except Fault Bool
  | [v] => equalsEntry x v
  | _ => throw .severalTruths

end

def tensorSame (t : Tensor) (v : Value) : Except Fault Bool :=
  match t.data with
  | [x] => equalsEntry x v
  | _ => throw .severalTruths

/-- Whether the only entry of a sparse matrix equals a value. -/
def loneSame (m : Matrix Float) (v : Value) : Except Fault Bool :=
  match lone? m with
  | some x => equalsEntry x v
  | Option.none => throw .severalTruths

/-- Whether a sparse matrix equals a value. Its entries cannot be compared with a text, nor with an
integer of more than 64 bits. -/
def sparseSame (m : Matrix Float) : Value → Except Fault Bool
  | text _ | other (.bytes _) => throw .wrongKind
  | none | list _ | tuple _ | other _ => pure false
  | int n => if n < -Int.pow 2 63 || Int.pow 2 64 ≤ n then throw .wrongKind else loneSame m (int n)
  | sparse k =>
    if m.rows.length = k.rows.length && m.cols = k.cols then loneSame m (sparse k) else pure false
  | v => loneSame m v

mutual

/-- Whether two values are equal. Numbers are compared by value, whatever their kind, lists and tuples member
by member, sets and dictionaries whatever the order of their members. An array is compared entry by entry,
and the answers for several entries are no one answer. -/
def same : Value → Value → Except Fault Bool
  | tensor t, w => tensorSame t w
  | v, tensor t => tensorSame t v
  | sparse m, w => sparseSame m w
  | v, sparse m => sparseSame m v
  | none, none => pure true
  | text s, text t => pure (s = t)
  | complex a b, complex c d => pure (a == c && b == d)
  | list vs, list ws => if vs.length = ws.length then sameAll vs ws else pure false
  | tuple vs, tuple ws => sameAll vs ws
  | other a, other b => sameOther a b
  | v, w => pure (match v.quantity?, w.quantity? with
    | some x, some y => x.same y
    | _, _ => false)
termination_by structural v => v

/-- Whether members are equal one by one, looked at up to the first two that differ. -/
def sameAll : List Value → List Value → Except Fault Bool
  | [], [] => pure true
  | v :: vs, w :: ws => do if ← same v w then sameAll vs ws else pure false
  | _, _ => pure false
termination_by structural vs => vs

def sameOther : Other → Other → Except Fault Bool
  | .bytes s, .bytes t => pure (s = t)
  | .ellipsis, .ellipsis => pure true
  | .set vs, .set ws => if vs.length = ws.length then areAmong vs ws else pure false
  | .dict ps, .dict qs => if ps.length = qs.length then entriesAmong ps qs else pure false
  | _, _ => pure false
termination_by structural o => o

def areAmong : List Value → List Value → Except Fault Bool
  | [], _ => pure true
  | v :: vs, ws => do if ← ws.anyM fun w => same v w then areAmong vs ws else pure false
termination_by structural vs => vs

def entriesAmong : List (Value × Value) → List (Value × Value) → Except Fault Bool
  | [], _ => pure true
  | (k, v) :: ps, qs => do
    match ← qs.findM? fun q => same k q.1 with
    | some q => if ← same v q.2 then entriesAmong ps qs else pure false
    | Option.none => pure false
termination_by structural ps => ps

end

/-- Whether a value equals itself as one and the same object: what lists, tuples and dictionaries hold
is not looked at again. -/
def sameItself : Value → Except Fault Bool
  | list _ | tuple _ | other _ => pure true
  | v => same v v

def isWord (t : String) (v : Value) : Except Fault Bool := same v (text t)

/-- Whether a value is one of some that can be looked up in a table. -/
def isAmong (v : Value) (ws : List Value) : Bool := ws.any fun w => (same v w) matches .ok true

end Transcription.Value
