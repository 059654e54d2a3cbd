import Comprehension.Demand

/-!
The lowered tree of a query, once every node that wants a name has one. Each clause becomes one
stage, and its expressions become the body of a function of the row that reaches it. What `demands`
reports is passed over here, and of a node that it refuses nothing is kept.
-/

namespace Comprehension

/-- What the lowered tree depends on besides the query. -/
structure Naming where
  config : Config
  name : Path → String

def NameList.record (c : Config) (l : NameList) (values : List Expr) (row : Option Expr) : Expr :=
  recordOf c.table l values row

/-- The name table of a query. -/
def Query.nameTable (q : Query Expr) : NameTable :=
  let t := NameTable.new.set .aliases q.aliases
  let t := match q.grouping with
    | some g => t.set .groups (labels g.classifiers)
    | none => t
  match q.projection with
  | some p => if p.items.isEmpty then t else t.set .selected (labels p.items)
  | none => t

/-- The only word that turns the order round; a word that is no direction leaves it. -/
def Direction.ascends (direction : Option Direction) : Bool :=
  direction.map (·.word) ≠ some "desc"

mutual
/-- The image of an expression at a place. A nested query that is searched by `in` is made a list.
-/
def Expr.image (s : Naming) (place : Place) (param : String) (path : Path) (bound : List String)
    (searched : Bool) : Expr → Expr
  | .literal p v => .literal p v
  | .var p n => place.varImage s.config param bound p n
  | .unary p f e => .unary p f (e.image s place param (.part 0 :: path) bound false)
  | .binary p (.operator op) l r =>
    .binary p (.operator op) (l.image s place param (.part 0 :: path) bound false)
      (r.image s place param (.part 1 :: path) bound op.searches)
  | .binary p f l r =>
    .binary p f (l.image s place param (.part 0 :: path) bound false)
      (r.image s place param (.part 1 :: path) bound false)
  | .sequence p (.call n) args =>
    match place.reduction? n with
    | none => .sequence p (.call n) (imageAll s place param path bound .part 0 args)
    | some (a, prior) =>
      match a.rule? args.length, args with
      | some .allRows, _ => .method p (GroupView.rows param) n []
      | some .eachRow, arg :: _ =>
        let row := prior.parameter s.name (.part 0 :: path)
        .method p (GroupView.rows param) n
          [.lambda arg.pos
            (prior.close s.config row [arg]
              (arg.image s ⟨some prior, place.numbering⟩ row (.part 0 :: path) [] false))]
      | some .rowsAtOnce, arg :: _ =>
        .method p (GroupView.rows param) n [arg.image s place param (.part 0 :: path) bound false]
      | _, rest => .sequence p (.call n) (imageAll s place param path bound .part 0 rest)
  | .sequence p f es => .sequence p f (imageAll s place param path bound .part 0 es)
  | .method p r n es =>
    .method p (r.image s place param (.part 0 :: path) bound false) n
      (imageAll s place param path bound .part 1 es)
  | .lambda p ⟨ps, body⟩ =>
    .lambda p ⟨ps, body.image s place param (.part 0 :: path) (ps ++ bound) false⟩
  | .query p q =>
    let thunk := .subquery p (queryImage s path q)
    place.attach s.config param bound (queryFree q)
      (if searched then thunk.send "toList" [] else thunk)
  | .letIn p _ _ | .record p _ _ _ _ | .postIncrement p _ | .subquery p _ => .literal p .null

def imageAll (s : Naming) (place : Place) (param : String) (path : Path) (bound : List String)
    (step : Nat → Step) (i : Nat) : List Expr → List Expr
  | [] => []
  | e :: es =>
    e.image s place param (step i :: path) bound false ::
      imageAll s place param path bound step (i + 1) es

def queryImage (s : Naming) (path : Path) : Query Expr → Thunk
  | q@⟨⟨name, source, _⟩, joins, filter, grouping, sorting, limit, projection, _⟩ =>
    ⟨.table s.config.table q.nameTable ::
        (if countsRows s.config path q then [.counter s.config.counter] else []),
      source.image s ⟨none, .plain⟩ "" (.slot .source :: path) [] false,
      joinsImage s path 0 (.table name) joins ++
        filterImage s path q.joinedRow filter ++
        groupingImage s path q.joinedRow grouping ++
        sortingImage s path q.row sorting ++
        limitImage s path limit ++
        projectionImage s path q.row projection⟩

def joinsImage (s : Naming) (path : Path) (i : Nat) (row : Row) : List (Join Expr) → List Stage
  | [] => []
  | ⟨kind, name, source, on, _⟩ :: js =>
    .join kind ⟨source.image s ⟨none, .plain⟩ "" (.slot (.joinSource i) :: path) [] false, []⟩
      (matchImage s path i row kind name on) ::
      joinsImage s path (i + 1) (row.joined name) js

/-- The predicate of a join is a function of the row before it and of the joined value. -/
def matchImage (s : Naming) (path : Path) (i : Nat) (row : Row) (kind : JoinKind)
    (name : String) : Option Expr → Option (Lambda Expr)
  | some e =>
    if kind.takesPredicate then
      let param := row.parameter s.name (.slot (.joinOn i) :: path)
      some (row.closeOver s.config [param, name] param [e]
        (e.image s ⟨some row, .plain⟩ param (.slot (.joinOn i) :: path) [] false))
    else none
  | none => none

def filterImage (s : Naming) (path : Path) (row : Row) : Option (Filter Expr) → List Stage
  | some ⟨e, _⟩ =>
    let param := row.parameter s.name (.slot .predicate :: path)
    [.filter (row.close s.config param [e]
      (e.image s ⟨some row, .plain⟩ param (.slot .predicate :: path) [] false))]
  | none => []

def groupingImage (s : Naming) (path : Path) (row : Row) : Option (Grouping Expr) → List Stage
  | some ⟨cs, into, having, _⟩ =>
    let param := row.parameter s.name (.slot (.classifier 0) :: path)
    [.groupBy
      (row.close s.config param cs
        (NameList.groups.record s.config
          (imageAll s ⟨some row, .plain⟩ param path [] (.slot ∘ .classifier) 0 cs) none))
      (havingImage s path (.grouped row (labels cs) into) having)]
  | none => []

def havingImage (s : Naming) (path : Path) (row : Row) : Option Expr → Option (Lambda Expr)
  | some e =>
    let param := row.parameter s.name (.slot .having :: path)
    some (row.close s.config param [e]
      (e.image s ⟨some row, .plain⟩ param (.slot .having :: path) [] false))
  | none => none

def sortingImage (s : Naming) (path : Path) (row : Row) : Option (Sorting Expr) → List Stage
  | some ⟨terms, _⟩ => [.orderBy (termsImage s path row 0 terms)]
  | none => []

def termsImage (s : Naming) (path : Path) (row : Row) (i : Nat) :
    List (SortTerm Expr) → List (SortSpec Expr)
  | [] => []
  | ⟨key, direction⟩ :: ts =>
    let param := row.parameter s.name (.slot (.orderKey i) :: path)
    ⟨row.close s.config param [key]
        (key.image s ⟨some row, .plain⟩ param (.slot (.orderKey i) :: path) [] false),
      Direction.ascends direction⟩ :: termsImage s path row (i + 1) ts

def limitImage (s : Naming) (path : Path) : Option (Limit Expr) → List Stage
  | some ⟨some offset, size, _⟩ =>
    [.limit (offset.image s ⟨none, .plain⟩ "" (.slot .offset :: path) [] false)
      (size.image s ⟨none, .plain⟩ "" (.slot .size :: path) [] false)]
  | some ⟨none, size, _⟩ =>
    [.limit (Expr.int 0) (size.image s ⟨none, .plain⟩ "" (.slot .size :: path) [] false)]
  | none => []

/-- A single value without a name of its own is selected as it is. -/
def projectionImage (s : Naming) (path : Path) (row : Row) :
    Option (Projection Expr) → List Stage
  | some ⟨e :: es, _⟩ =>
    let param := row.parameter s.name (.slot (.item 0) :: path)
    let value :=
      e.image s ⟨some row, .counted⟩ param (.slot (.item 0) :: path) [] false
    let values := imageAll s ⟨some row, .counted⟩ param path [] (.slot ∘ .item) 1 es
    [.select (row.close s.config param (e :: es)
      (if wantsRecord (e :: es) then
        NameList.selected.record s.config (value :: values) (some (Expr.name param))
      else value))]
  | some ⟨[], _⟩ | none => []
end

end Comprehension
