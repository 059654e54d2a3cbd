/-! The operators of expressions and how strongly they bind. -/

namespace Comprehension

/-- Operators written between two operands. -/
inductive Operator where
  | eq | notEq | lt | ltEq | gt | gtEq | and | or | add | sub | mul | div | mod | isIn | notIn
  deriving DecidableEq, Repr

namespace Operator

def symbol : Operator → String
  | eq => "=="
  | notEq => "!="
  | lt => "<"
  | ltEq => "<="
  | gt => ">"
  | gtEq => ">="
  | and => "&&"
  | or => "||"
  | add => "+"
  | sub => "-"
  | mul => "*"
  | div => "/"
  | mod => "%"
  | isIn => "in"
  | notIn => "!in"

def all : List Operator :=
  [eq, notEq, lt, ltEq, gt, gtEq, and, or, add, sub, mul, div, mod, isIn, notIn]

def ofSymbol? (s : String) : Option Operator := all.find? (·.symbol == s)

/-- A stronger operator has the larger number. -/
def strength : Operator → Nat
  | or => 1
  | and => 2
  | eq | notEq => 3
  | lt | ltEq | gt | gtEq | isIn | notIn => 4
  | add | sub => 5
  | mul | div | mod => 6

/-- The two operators whose right side is a collection. -/
def searches : Operator → Bool
  | isIn | notIn => true
  | _ => false

/-- The symbol with the kind of the operator around it. -/
def kindText (op : Operator) : String := "BinaryOp(" ++ op.symbol ++ ")"

end Operator

/-- Forms with one operand. -/
inductive Unary where
  | not
  | negate
  | field (name : String)
  | rename (name : String)
  deriving DecidableEq, Repr

/-- Forms with two operands: an operator, `target[index]` and `object.(name)`. -/
inductive Binary where
  | operator (op : Operator)
  | index
  | computedField
  deriving DecidableEq, Repr

/-- Forms with any number of operands. -/
inductive Sequence where
  | list
  | tuple
  | construct (type : String)
  | call (name : String)
  deriving DecidableEq, Repr

/-- How a row of one source is matched with rows of another. -/
inductive JoinKind where
  | inner | left | right | full | cross
  deriving DecidableEq, Repr

namespace JoinKind

def all : List JoinKind := [inner, left, right, full, cross]

/-- The word that opens the clause. -/
def keyword : JoinKind → String
  | inner => "innerjoin"
  | left => "leftjoin"
  | right => "rightjoin"
  | full => "fulljoin"
  | cross => "crossjoin"

def ofKeyword? (s : String) : Option JoinKind := all.find? (·.keyword == s)

/-- The name of the call that runs the join. -/
def callee : JoinKind → String
  | inner => "innerJoin"
  | left => "leftJoin"
  | right => "rightJoin"
  | full => "fullJoin"
  | cross => "crossJoin"

def takesPredicate : JoinKind → Bool
  | cross => false
  | _ => true

theorem takesPredicate_iff {kind : JoinKind} : kind.takesPredicate = true ↔ kind ≠ cross := by
  cases kind <;> simp [takesPredicate]

end JoinKind
end Comprehension
