import Comprehension.Expr.Text

/-! Records: the names that expressions give to their values, and the values under those names. -/

namespace Comprehension

/-- `table['key']`, which reads a list of names when the query runs. -/
def NameList.access (table : String) (l : NameList) : Expr :=
  (Expr.name table).index (Expr.string l.key)

namespace Expr

/-- The field that an expression fills in a record: its own text where it has no better name. -/
def label : Expr → String
  | unary _ (.rename a) _ => a
  | unary _ (.field n) _ => n
  | binary _ .computedField _ (literal _ (.string s)) => s
  | binary _ .computedField _ n => n.text
  | e => e.text

def isRename : Expr → Bool
  | unary _ (.rename _) _ => true
  | _ => false

/-- The value under a rename. -/
def renamed : Expr → Expr
  | unary _ (.rename _) e => e
  | e => e

end Expr

def labels (es : List Expr) : List String := es.map Expr.label

/-- A single value without a name of its own needs no record around it. -/
def wantsRecord : List Expr → Bool
  | [e] => e.isRename
  | _ => true

/-- The record of the values whose names stand in the list `l` of the table. -/
def recordOf (table : String) (l : NameList) (values : List Expr) (row : Option Expr) : Expr :=
  .record .nowhere (values.map Expr.renamed) (l.access table) (NameList.aliases.access table) row

end Comprehension
