import Transcription.Position

namespace Transcription

/-- Classes of `0 .. n - 1` that grow together. Every element points at another of its class, and following
the pointers ends at the root of the class. -/
structure Partition where
  parent : Array Nat
  rank : Array Nat
  deriving Repr

namespace Partition

def discrete (n : Nat) : Partition := ⟨Array.range n, Array.replicate n 0⟩

def size (p : Partition) : Nat := p.parent.size

/-- Adds an element as a class of its own. -/
def add (p : Partition) : Partition := ⟨p.parent.push p.size, p.rank.push 0⟩

def parentOf (p : Partition) (x : Nat) : Nat := p.parent.getD x x

def rankOf (p : Partition) (x : Nat) : Nat := p.rank.getD x 0

/-- Follows at most `fuel` pointers. -/
def rootWithin (p : Partition) : Nat → Nat → Nat
  | 0, x => x
  | fuel + 1, x => if p.parentOf x = x then x else rootWithin p fuel (p.parentOf x)

/-- The root of an element's class. No way to a root is longer than the number of elements. -/
def root (p : Partition) (x : Nat) : Nat := p.rootWithin p.size x

/-- Points the elements on the way from `x` at `root`. -/
def compress (root : Nat) : Nat → Nat → Partition → Partition
  | 0, _, p => p
  | fuel + 1, x, p =>
    let next := p.parentOf x
    if next = root then p
    else compress root fuel next { p with parent := p.parent.setIfInBounds x root }

/-- The root of `x`, and the partition with the way to it shortened. -/
def find (p : Partition) (x : Nat) : Nat × Partition :=
  let r := p.root x
  (r, compress r p.size x p)

/-- Joins two roots; the one of higher rank stays a root, the first of two equal ones. -/
def link (p : Partition) (ra rb : Nat) : Partition :=
  let (ra, rb) := if p.rankOf ra < p.rankOf rb then (rb, ra) else (ra, rb)
  let rank := if p.rankOf ra = p.rankOf rb then
    p.rank.setIfInBounds ra (p.rankOf ra + 1) else p.rank
  ⟨p.parent.setIfInBounds rb ra, rank⟩

/-- Joins the classes of `a` and `b`; false when they were one class before. -/
def union (p : Partition) (a b : Nat) : Bool × Partition :=
  let (ra, p) := p.find a
  let (rb, p) := p.find b
  if ra = rb then (false, p) else (true, p.link ra rb)

/-- `find` for an element that may be counted from either end. -/
def findAt (p : Partition) (x : Int) : Except Fault (Nat × Partition) := do
  return p.find (← position p.size x)

/-- `union` for elements that may be counted from either end. When only the second one is outside,
the first one has been looked up. -/
def unionAt (p : Partition) (a b : Int) : Except Fault Bool × Partition :=
  match position p.size a with
  | .error e => (.error e, p)
  | .ok i =>
    match position p.size b with
    | .error e => (.error e, (p.find i).2)
    | .ok j =>
      let (joined, p) := p.union i j
      (.ok joined, p)

def roots : List Nat → Partition → List Nat × Partition
  | [], p => ([], p)
  | x :: xs, p =>
    let (r, p) := p.find x
    let (rs, p) := roots xs p
    (r :: rs, p)

/-- Numbers the members of a list by first occurrence. -/
def number (rs : List Nat) : List Nat :=
  let firsts := rs.eraseDups
  rs.map fun r => firsts.idxOf r

/-- The number of every element's class, the classes in the order of their smallest members. -/
def labels (p : Partition) : List Nat × Partition :=
  let (rs, p) := roots (List.range p.size) p
  (number rs, p)

end Partition

end Transcription
