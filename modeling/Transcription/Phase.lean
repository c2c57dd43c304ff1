namespace Transcription

inductive MajorPhase where
  | initial
  | intermediate
  | final
  deriving DecidableEq, Repr

namespace MajorPhase

def all : List MajorPhase := [initial, intermediate, final]

def name : MajorPhase → String
  | initial => "initial"
  | intermediate => "intermediate"
  | final => "final"

end MajorPhase

inductive Phase where
  | major (p : MajorPhase)
  | minor
  deriving DecidableEq, Repr

namespace Phase

def all : List Phase := MajorPhase.all.map major ++ [minor]

def name : Phase → String
  | major p => p.name
  | minor => "minor"

def ofName? (s : String) : Option Phase := all.find? fun p => p.name = s

end Phase

structure PhaseSet where
  initial : Bool := false
  intermediate : Bool := false
  final : Bool := false
  minor : Bool := false
  deriving DecidableEq, Repr

namespace PhaseSet

def empty : PhaseSet := {}

def majors : PhaseSet := ⟨true, true, true, false⟩

def hasMajor (s : PhaseSet) : MajorPhase → Bool
  | .initial => s.initial
  | .intermediate => s.intermediate
  | .final => s.final

def has (s : PhaseSet) : Phase → Bool
  | .major p => s.hasMajor p
  | .minor => s.minor

def insert (s : PhaseSet) : Phase → PhaseSet
  | .major .initial => { s with initial := true }
  | .major .intermediate => { s with intermediate := true }
  | .major .final => { s with final := true }
  | .minor => { s with minor := true }

def ofList (ps : List Phase) : PhaseSet := ps.foldl insert empty

def toList (s : PhaseSet) : List Phase := Phase.all.filter s.has

/-- The major phases in a set, in order. -/
def majorList (s : PhaseSet) : List MajorPhase := MajorPhase.all.filter s.hasMajor

def union (s t : PhaseSet) : PhaseSet :=
  ⟨s.initial || t.initial, s.intermediate || t.intermediate, s.final || t.final, s.minor || t.minor⟩

def meets (s t : PhaseSet) : Bool :=
  (s.initial && t.initial) || (s.intermediate && t.intermediate) || (s.final && t.final) ||
    (s.minor && t.minor)

def isEmpty (s : PhaseSet) : Bool := s = empty

end PhaseSet

/-- One value per major phase. -/
structure ByPhase (β : Type) where
  initial : β
  intermediate : β
  final : β
  deriving Repr

namespace ByPhase

variable {β : Type}

def constant (b : β) : ByPhase β := ⟨b, b, b⟩

def build (f : MajorPhase → β) : ByPhase β := ⟨f .initial, f .intermediate, f .final⟩

def get (v : ByPhase β) : MajorPhase → β
  | .initial => v.initial
  | .intermediate => v.intermediate
  | .final => v.final

def set (v : ByPhase β) (p : MajorPhase) (b : β) : ByPhase β :=
  match p with
  | .initial => { v with initial := b }
  | .intermediate => { v with intermediate := b }
  | .final => { v with final := b }

def toList (v : ByPhase β) : List β := [v.initial, v.intermediate, v.final]

end ByPhase

end Transcription
