import Comprehension.Config
import Comprehension.Record
import Comprehension.Row

/-! The rows of a query, and what names mean after grouping, where the row is the pair of the key
and the rows of the group. -/

namespace Comprehension

namespace Query

/-- The row that the clauses up to `groupby` read. -/
def joinedRow (q : Query Expr) : Row := (Row.table q.table.name).afterJoins (q.joins.map (·.name))

/-- The row that the clauses after `groupby` read. -/
def row (q : Query Expr) : Row :=
  match q.grouping with
  | some g => .grouped q.joinedRow (labels g.classifiers) g.into
  | none => q.joinedRow

end Query

namespace GroupView

def key (param : String) : Expr := (Expr.name param).field "first"

def rows (param : String) : Expr := (Expr.name param).field "second"

/-- The rows of the group, seen under the aliases of the query. -/
def current (c : Config) (param : String) : Expr :=
  (rows param).send "withAliases" [NameList.aliases.access c.table]

/-- A name read from the row of the group: the group itself, a field of the key, or the key. -/
def read? (c : Config) (g : GroupView) (param n : String) : Option Expr :=
  if n = c.group then some (current c param)
  else if g.hasField n then some ((key param).field n)
  else if g.namesKey n then some (key param)
  else none

end GroupView
end Comprehension
