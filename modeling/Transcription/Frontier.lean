namespace Transcription

/-- Members that no one has asked for yet, and those that were asked for. Asking for one moves it to the end
of the queue, so a search that takes from the queue and asks for more comes to an end. -/
structure Frontier (β : Type) where
  fresh : List β
  queue : List β
  deriving Repr

namespace Frontier

variable {β : Type} [BEq β] [LawfulBEq β]

/-- A bound on the members that can still be taken from the queue. -/
def size (f : Frontier β) : Nat := 2 * f.fresh.length + f.queue.length

/-- Queues a member, unless it was asked for before. -/
def offer (f : Frontier β) (x : β) : Frontier β :=
  if f.fresh.contains x then ⟨f.fresh.erase x, f.queue ++ [x]⟩ else f

/-- Counts a member as asked for without queueing it. -/
def settle (f : Frontier β) (x : β) : Frontier β := { f with fresh := f.fresh.erase x }

def offerAll (f : Frontier β) (xs : List β) : Frontier β := xs.foldl offer f

def settleAll (f : Frontier β) (xs : List β) : Frontier β := xs.foldl settle f

theorem size_offer_le (f : Frontier β) (x : β) : (f.offer x).size ≤ f.size := by
  unfold offer
  split
  case isTrue h =>
    have hx : x ∈ f.fresh := by simpa using h
    have := List.length_erase_of_mem hx
    have := List.length_pos_of_mem hx
    simp only [size, List.length_append, List.length_singleton]
    omega
  case isFalse => exact Nat.le_refl _

omit [LawfulBEq β] in
theorem size_settle_le (f : Frontier β) (x : β) : (f.settle x).size ≤ f.size := by
  have := List.length_erase_le (a := x) (l := f.fresh)
  simp only [size, settle]
  omega

theorem size_offerAll_le (f : Frontier β) (xs : List β) : (f.offerAll xs).size ≤ f.size := by
  induction xs generalizing f with
  | nil => exact Nat.le_refl _
  | cons x xs ih => exact Nat.le_trans (ih (f.offer x)) (size_offer_le f x)

omit [LawfulBEq β] in
theorem size_settleAll_le (f : Frontier β) (xs : List β) : (f.settleAll xs).size ≤ f.size := by
  induction xs generalizing f with
  | nil => exact Nat.le_refl _
  | cons x xs ih => exact Nat.le_trans (ih (f.settle x)) (size_settle_le f x)

end Frontier

end Transcription
