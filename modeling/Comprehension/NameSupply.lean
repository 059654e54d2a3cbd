import Comprehension.Path

/-!
Names made up during lowering. A node that once got a name keeps it, and no made-up name is ever one
that was reserved.
-/

namespace Comprehension

structure NameSupply where
  stem : String
  next : Nat
  reserved : List String
  assigned : List (Path × String)
  deriving DecidableEq, Repr

namespace NameSupply

def new (stem : String) : NameSupply := ⟨stem, 0, [], []⟩

def candidate (s : NameSupply) (n : Nat) : String := s.stem ++ "_" ++ toString n

def reserve (s : NameSupply) (names : List String) : NameSupply :=
  { s with reserved := names ++ s.reserved }

/-- The first number from `n` on whose candidate is not reserved, looking at `k` of them. -/
def firstFree (s : NameSupply) (n : Nat) : Nat → Nat
  | 0 => n
  | k + 1 => if s.candidate n ∈ s.reserved then firstFree s (n + 1) k else n

/-- The next free candidate, which is reserved from then on. One candidate more than there are
reserved names suffices to find it. -/
def fresh (s : NameSupply) : String × NameSupply :=
  let n := s.firstFree s.next s.reserved.length
  let name := s.candidate n
  (name, { s with next := n + 1, reserved := name :: s.reserved })

def assigned? (s : NameSupply) (p : Path) : Option String :=
  (s.assigned.find? (·.1 = p)).map (·.2)

/-- The name of a node, made up when the node has none yet. -/
def nameOf (s : NameSupply) (p : Path) : String × NameSupply :=
  match s.assigned? p with
  | some name => (name, s)
  | none =>
    let (name, s) := s.fresh
    (name, { s with assigned := (p, name) :: s.assigned })

end NameSupply
end Comprehension
