import Comprehension.Assoc
import Comprehension.Expr

/-!
Rows. A table gives rows of one value. Each join pairs the row so far with one more value, so that a
row after joins nests to the left: `(((base, j1), j2), ...)`. Grouping replaces the row by the pair
of its key and the rows of the group.
-/

namespace Comprehension

inductive Row where
  | table (name : String)
  | joined (prior : Row) (name : String)
  | grouped (prior : Row) (names : List String) (into : Option String)
  deriving DecidableEq, Repr

/-- What stays in reach after grouping: the row before it, the fields of the key and its own name.
-/
structure GroupView where
  prior : Row
  names : List String
  into : Option String
  deriving DecidableEq, Repr

/-! ## Pair paths -/

inductive Half where
  | first
  | second
  deriving DecidableEq, Repr

def Half.name : Half → String
  | .first => "first"
  | .second => "second"

/-- The way from a nested pair to one of its values. -/
abbrev PairPath := List Half

namespace PairPath

/-- `root.first.second...` -/
def read (path : PairPath) (root : Expr) : Expr := path.foldl (fun e h => e.field h.name) root

def text (path : PairPath) : String := "".intercalate (path.map fun h => "." ++ h.name)

end PairPath

/-! ## Rows -/

namespace Row

/-- The aliases in the order of their declaration; grouping keeps them. -/
def aliases : Row → List String
  | table a => [a]
  | joined prior a => prior.aliases ++ [a]
  | grouped prior _ _ => prior.aliases

def group? : Row → Option GroupView
  | grouped prior names into => some ⟨prior, names, into⟩
  | _ => none

def isGrouped (r : Row) : Bool := r.group?.isSome

/-- The row after the joins of a query. -/
def afterJoins (row : Row) (aliases : List String) : Row := aliases.foldl joined row

/-- Adds the paths of a chain of joins that itself stands at the end of `path`: the alias joined
last is the second half of the outermost pair. -/
def addPaths (path : PairPath) : Row → List (String × PairPath) → List (String × PairPath)
  | table a, ps => Assoc.put a path ps
  | joined prior a, ps =>
    Assoc.put a (path ++ [.second]) (addPaths (path ++ [.first]) prior ps)
  | grouped _ _ _, ps => ps

/-- One path for each alias of a chain of joins, the base first. Other rows need none. -/
def paths (r : Row) : List (String × PairPath) :=
  match r with
  | joined _ _ => addPaths [] r []
  | _ => []

end Row

namespace GroupView

def namesKey (g : GroupView) (n : String) : Bool :=
  g.into == some n || g.prior.aliases.contains n

def hasField (g : GroupView) (n : String) : Bool := g.names.contains n

end GroupView
end Comprehension
