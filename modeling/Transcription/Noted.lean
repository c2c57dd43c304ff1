import Transcription.Diagnostic

namespace Transcription

/-- A result with the diagnostics noted on the way to it. A fault ends a computation and keeps what was noted
before it. -/
structure Noted (α β : Type) where
  notes : List (Diagnostic α)
  result : Except Fault β

namespace Noted

variable {α β γ : Type}

def note (finding : Finding α) (block : Option String) : Noted α Unit :=
  ⟨[⟨finding, block⟩], .ok ()⟩

def ofResult (r : Except Fault β) : Noted α β := ⟨[], r⟩

def andThen (x : Noted α β) (f : β → Noted α γ) : Noted α γ :=
  match x.result with
  | .ok b => ⟨x.notes ++ (f b).notes, (f b).result⟩
  | .error e => ⟨x.notes, .error e⟩

instance : Monad (Noted α) where
  pure b := ⟨[], .ok b⟩
  bind := andThen

instance : MonadLift (Except Fault) (Noted α) := ⟨ofResult⟩

end Noted

end Transcription
