import Comprehension.Place

/-!
What lowering asks of its context, in the order of lowering: names for row parameters, reports of
mistakes, a row counter, or to stop at a node that must not stand in a query. The demands do not
depend on the names that are given.
-/

namespace Comprehension

/-- `groupby` without a classifier has no key. -/
def emptyList : Failure := .impossibleNode "empty expression list"

/-- A second declaration of an alias is reported. -/
def Row.declareDemands (row : Row) (name : String) (p : Position) : List Demand :=
  if name ∈ row.aliases then [.report ⟨.aliasDeclared name, p⟩] else []

def Direction.demands (d : Direction) : List Demand :=
  if d.word = "asc" ∨ d.word = "desc" then [] else [.report ⟨.unknownDirection d.word, d.pos⟩]

mutual
def Expr.demands (c : Config) (place : Place) (path : Path) (bound : List String) :
    Expr → List Demand
  | .literal _ _ => []
  | .var _ n => place.varDemands c bound n
  | .unary _ _ e => e.demands c place (.part 0 :: path) bound
  | .binary _ _ l r =>
    l.demands c place (.part 0 :: path) bound ++ r.demands c place (.part 1 :: path) bound
  | .sequence p (.call n) args =>
    match place.reduction? n with
    | none => demandsAll c place path bound .part 0 args
    | some (a, prior) =>
      match a.rule? args.length, args with
      | some .allRows, _ => []
      | some .eachRow, arg :: _ =>
        (if arg.root? = some c.group then [.report ⟨.selectorOverGroup a, arg.pos⟩] else []) ++
          prior.nameDemands (.part 0 :: path) ++
          arg.demands c ⟨some prior, place.numbering⟩ (.part 0 :: path) []
      | some .rowsAtOnce, arg :: _ => arg.demands c place (.part 0 :: path) bound
      | _, rest =>
        .report ⟨.argumentCount a rest.length, p⟩ :: demandsAll c place path bound .part 0 rest
  | .sequence _ _ es => demandsAll c place path bound .part 0 es
  | .method _ r _ es =>
    r.demands c place (.part 0 :: path) bound ++ demandsAll c place path bound .part 1 es
  | .lambda _ ⟨ps, body⟩ => body.demands c place (.part 0 :: path) (ps ++ bound)
  | .query _ q => (queryDemands c path q).filter (·.outlivesQuery)
  | .letIn p bs e => [.fail (.impossibleNode (Expr.letIn p bs e).text)]
  | .record p vs ns as row => [.fail (.impossibleNode (Expr.record p vs ns as row).text)]
  | .postIncrement p n => [.fail (.impossibleNode (Expr.postIncrement p n).text)]
  | .subquery p t => [.fail (.impossibleNode (Expr.subquery p t).text)]

/-- The demands of expressions that stand at `step i :: path`, `step (i + 1) :: path` and so on. -/
def demandsAll (c : Config) (place : Place) (path : Path) (bound : List String)
    (step : Nat → Step) (i : Nat) : List Expr → List Demand
  | [] => []
  | e :: es =>
    e.demands c place (step i :: path) bound ++ demandsAll c place path bound step (i + 1) es

/-- The demands of a query, those for its own row counter included. -/
def queryDemands (c : Config) (path : Path) : Query Expr → List Demand
  | q@⟨⟨name, source, _⟩, joins, filter, grouping, sorting, limit, projection, _⟩ =>
    source.demands c ⟨none, .plain⟩ (.slot .source :: path) [] ++
      joinsDemands c path 0 (.table name) joins ++
      filterDemands c path q.joinedRow filter ++
      groupingDemands c path q.joinedRow grouping ++
      sortingDemands c path q.row sorting ++
      limitDemands c path limit ++
      projectionDemands c path q.row projection

/-- The joins from the `i`-th on, after the given row. -/
def joinsDemands (c : Config) (path : Path) (i : Nat) (row : Row) : List (Join Expr) → List Demand
  | [] => []
  | ⟨kind, name, source, on, p⟩ :: js =>
    row.declareDemands name p ++
      source.demands c ⟨none, .plain⟩ (.slot (.joinSource i) :: path) [] ++
      matchDemands c path i row kind p on ++
      joinsDemands c path (i + 1) (row.joined name) js

/-- The predicate of the `i`-th join, on the row before it. -/
def matchDemands (c : Config) (path : Path) (i : Nat) (row : Row) (kind : JoinKind)
    (p : Position) : Option Expr → List Demand
  | some e =>
    if kind.takesPredicate then
      row.nameDemands (.slot (.joinOn i) :: path) ++
        e.demands c ⟨some row, .plain⟩ (.slot (.joinOn i) :: path) []
    else [.report ⟨.predicateOnCross, e.pos⟩]
  | none => if kind.takesPredicate then [.report ⟨.predicateMissing kind, p⟩] else []

def filterDemands (c : Config) (path : Path) (row : Row) : Option (Filter Expr) → List Demand
  | some ⟨e, _⟩ =>
    row.nameDemands (.slot .predicate :: path) ++
      e.demands c ⟨some row, .plain⟩ (.slot .predicate :: path) []
  | none => []

/-- Grouping the given row. -/
def groupingDemands (c : Config) (path : Path) (row : Row) :
    Option (Grouping Expr) → List Demand
  | some ⟨cs, into, having, p⟩ =>
    (match into with
      | some n => row.declareDemands n p
      | none => []) ++
      (if cs.isEmpty then [.fail emptyList] else []) ++
      row.nameDemands (.slot (.classifier 0) :: path) ++
      demandsAll c ⟨some row, .plain⟩ path [] (.slot ∘ .classifier) 0 cs ++
      havingDemands c path (.grouped row (labels cs) into) having
  | none => []

def havingDemands (c : Config) (path : Path) (row : Row) : Option Expr → List Demand
  | some e =>
    row.nameDemands (.slot .having :: path) ++
      e.demands c ⟨some row, .plain⟩ (.slot .having :: path) []
  | none => []

def sortingDemands (c : Config) (path : Path) (row : Row) : Option (Sorting Expr) → List Demand
  | some ⟨terms, _⟩ => termsDemands c path row 0 terms
  | none => []

def termsDemands (c : Config) (path : Path) (row : Row) (i : Nat) :
    List (SortTerm Expr) → List Demand
  | [] => []
  | ⟨key, direction⟩ :: ts =>
    (match direction with
      | some d => d.demands
      | none => []) ++
      row.nameDemands (.slot (.orderKey i) :: path) ++
      key.demands c ⟨some row, .plain⟩ (.slot (.orderKey i) :: path) [] ++
      termsDemands c path row (i + 1) ts

def limitDemands (c : Config) (path : Path) : Option (Limit Expr) → List Demand
  | some ⟨some offset, size, _⟩ =>
    offset.demands c ⟨none, .plain⟩ (.slot .offset :: path) [] ++
      size.demands c ⟨none, .plain⟩ (.slot .size :: path) []
  | some ⟨none, size, _⟩ => size.demands c ⟨none, .plain⟩ (.slot .size :: path) []
  | none => []

def projectionDemands (c : Config) (path : Path) (row : Row) :
    Option (Projection Expr) → List Demand
  | some ⟨items, p⟩ =>
    if items.isEmpty then [.report ⟨.selectEmpty, p⟩]
    else row.nameDemands (.slot (.item 0) :: path) ++
      demandsAll c ⟨some row, .counted⟩ path [] (.slot ∘ .item) 0 items
  | none => [.report ⟨.selectMissing, .nowhere⟩]
end

/-- The query counts rows: the row number stands in its own `select`. -/
def countsRows (c : Config) (path : Path) (q : Query Expr) : Bool :=
  (queryDemands c path q).contains .countRow

end Comprehension
