import Comprehension.Query

/-! The identity of a node: the way that leads to it. Equal nodes at different places differ in it.
-/

namespace Comprehension

/-- One step from a node to a node below it: to a part of an expression, or into a query. -/
inductive Step where
  | part (i : Nat)
  | slot (s : Slot)
  deriving DecidableEq, Repr

/-- The steps that lead to a node, the last one first. -/
abbrev Path := List Step

end Comprehension
