import Comprehension.Expr.Binding
import Comprehension.Group
import Comprehension.Expr.Names
import Comprehension.NameSupply

/-!
Where an expression stands while it is lowered: the row that it reads, if any, and whether the row
number counts there. A place says what a name means and what a name asks of the context.
-/

namespace Comprehension

/-- How the row-number identifier is read. -/
inductive Numbering where
  /-- No query is being lowered, so the identifier has no meaning yet. -/
  | noQuery
  /-- The identifier is a plain name. -/
  | plain
  /-- Inside `select` the identifier counts rows. -/
  | counted
  deriving DecidableEq, Repr

/-- Without a row the place is computed once: a source or a bound of `limit`. -/
structure Place where
  row : Option Row
  numbering : Numbering
  deriving DecidableEq, Repr

/-- What lowering asks of its context. -/
inductive Demand where
  /-- A name for the row parameter of the node. -/
  | name (node : Path)
  | report (d : Diagnostic)
  /-- The current query needs a row counter. -/
  | countRow
  | fail (f : Failure)
  deriving DecidableEq, Repr

/-- A row counter concerns one query alone; all else concerns the whole run. -/
def Demand.outlivesQuery : Demand → Bool
  | countRow => false
  | _ => true

/-! ## Row parameters -/

namespace Row

/-- A table row goes by its alias; any other row needs a name of its own. -/
def nameDemands (node : Path) : Row → List Demand
  | table _ => []
  | _ => [.name node]

def parameter (names : Path → String) (node : Path) : Row → String
  | table a => a
  | _ => names node

/-- The aliases that the expressions read, each with its path from the parameter, in the order of
the joins. -/
def bindings (r : Row) (param : String) (es : List Expr) : List (Binding Expr) :=
  let used := freeAll es
  (r.paths.filter (·.1 ∈ used)).map fun p => ⟨p.1, p.2.read (.name param)⟩

/-- A function with the given parameters, the row among them, whose body was made from the given
expressions. -/
def closeOver (c : Config) (r : Row) (params : List String) (param : String) (es : List Expr)
    (body : Expr) : Lambda Expr :=
  ⟨params, bind (r.bindings param es) body c.inlinePaths⟩

/-- The function of the row alone. -/
def close (c : Config) (r : Row) (param : String) (es : List Expr) (body : Expr) : Lambda Expr :=
  r.closeOver c [param] param es body

end Row

/-! ## Names at a place -/

namespace Place

/-- A type name keeps its meaning unless a table goes by it. -/
def isForeign (row : Row) (n : String) : Bool :=
  Identifier.isTypeName n && !row.aliases.contains n

/-- The group that a name at the place may be read from. -/
def group? (place : Place) : Option (Row × GroupView) :=
  place.row.bind fun r => r.group?.map (r, ·)

/-- After grouping, what a name reads from the row. -/
def read? (c : Config) (place : Place) (param n : String) : Option Expr :=
  match place.group? with
  | some (row, g) => if isForeign row n then none else g.read? c param n
  | none => none

/-- The three things that a name reads from the row of a group. -/
theorem read?_cases {c : Config} {place : Place} {param n : String} {e : Expr}
    (h : place.read? c param n = some e) :
    (n = c.group ∧ e = GroupView.current c param) ∨
      (n ≠ c.group ∧ (e = (GroupView.key param).field n ∨ e = GroupView.key param)) := by
  rw [read?] at h
  split at h
  · split at h
    · cases h
    · rw [GroupView.read?] at h
      split at h
      · rename_i hn
        cases h
        exact Or.inl ⟨hn, rfl⟩
      · rename_i hn
        refine Or.inr ⟨hn, ?_⟩
        split at h
        · cases h
          exact Or.inl rfl
        · split at h
          · cases h
            exact Or.inr rfl
          · cases h
  · cases h

def varDemands (c : Config) (place : Place) (bound : List String) (n : String) : List Demand :=
  if n ∈ bound ∨ n = c.table then []
  else if n = c.rowNumber then
    match place.numbering with
    | .noQuery => [.fail .noQueryFrame]
    | .plain => []
    | .counted => [.countRow]
  else []

/-- What becomes of a name: bound names and the name table stay; the row number counts; after
grouping the row is read. -/
def varImage (c : Config) (place : Place) (param : String) (bound : List String) (p : Position)
    (n : String) : Expr :=
  if n ∈ bound ∨ n = c.table then .var p n
  else if n = c.rowNumber ∧ place.numbering = .counted then .postIncrement p c.counter
  else
    match place.read? c param n with
    | some e => e.withPos p
    | none => .var p n

/-- The aggregate that a call without a receiver is at the place, with the row before grouping. -/
def reduction? (place : Place) (n : String) : Option (Aggregate × Row) :=
  match place.group? with
  | some (_, g) => (Aggregate.ofName? n).map (·, g.prior)
  | none => none

/-- The names that a nested query reads from the row of a group, each with what it reads. -/
def readsOfGroup (c : Config) (place : Place) (param : String) (bound free : List String) :
    List (Binding Expr) :=
  (distinct free).filterMap fun n =>
    if n ∈ bound then none else (place.read? c param n).map (⟨n, ·⟩)

/-- Binds what a lowered nested query reads from the row of a group. The nested query has a name
table of its own, so a value that consults the outer one stays outside in a `let`. -/
def attach (c : Config) (place : Place) (param : String) (bound free : List String)
    (lowered : Expr) : Expr :=
  let bs := place.readsOfGroup c param bound free
  let consults (b : Binding Expr) : Bool := c.table ∈ b.value.free
  bind (bs.filter consults) (bind (bs.filter (!consults ·)) lowered c.inlinePaths) false

end Place
end Comprehension
