import Comprehension.Expr

/-! Aggregates: calls that reduce the rows of a group to one value. -/

namespace Comprehension

inductive Aggregate where
  | count | min | max | sum | avg | agg
  deriving DecidableEq, Repr

namespace Aggregate

/-- What becomes of the arguments of an aggregate. -/
inductive Rule where
  /-- There is no argument: all rows count. -/
  | allRows
  /-- The argument is read once for each row of the group. -/
  | eachRow
  /-- The argument is handed all rows at once. -/
  | rowsAtOnce
  deriving DecidableEq, Repr

def all : List Aggregate := [count, min, max, sum, avg, agg]

def name : Aggregate → String
  | count => "count"
  | min => "min"
  | max => "max"
  | sum => "sum"
  | avg => "avg"
  | agg => "agg"

def ofName? (n : String) : Option Aggregate := all.find? (·.name == n)

/-- The argument counts that an aggregate takes, each with its rule. -/
def rules : Aggregate → List (Nat × Rule)
  | count => [(0, .allRows), (1, .eachRow)]
  | min | max | sum | avg => [(1, .eachRow)]
  | agg => [(1, .rowsAtOnce)]

def rule? (a : Aggregate) (n : Nat) : Option Rule := (a.rules.find? (·.1 == n)).map (·.2)

def countsText (a : Aggregate) : String := " or ".intercalate (a.rules.map fun r => toString r.1)

end Aggregate

/-- A call of an aggregate without a receiver, with its arguments. -/
def Expr.aggregateCall? : Expr → Option (Aggregate × List Expr)
  | .sequence _ (.call n) args => (Aggregate.ofName? n).map (·, args)
  | _ => none

end Comprehension
