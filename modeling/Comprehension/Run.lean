import Comprehension.Lower

/-!
Lowering as one pass. The pass goes through a query clause by clause and asks the context for what it
needs at the moment it needs it: it opens and closes the frames of nested queries by hand, notes
names in the table of the open frame, and may stop at any depth. Steps that can fail are written as
such, also where a query never makes them fail.
-/

namespace Comprehension

/-- Why a pass ends without an answer. -/
inductive Stop where
  | failure (f : Failure)
  /-- An element was taken from a list that has none. -/
  | outOfRange
  deriving DecidableEq, Repr

/-- A pass changes the context, and what it changed stays changed when it stops. -/
def Run (α : Type) : Type := Context → Except Stop α × Context

namespace Run

variable {α β : Type}

def pure (a : α) : Run α := fun ctx => (.ok a, ctx)

def bind (x : Run α) (k : α → Run β) : Run β := fun ctx =>
  match x ctx with
  | (.ok a, ctx) => k a ctx
  | (.error e, ctx) => (.error e, ctx)

instance : Monad Run where
  pure := Run.pure
  bind := Run.bind

/-! ## Steps -/

def fail (f : Failure) : Run α := fun ctx => (.error (.failure f), ctx)

def ofExcept : Except Failure α → Run α
  | .ok a => pure a
  | .error f => fail f

def ofOption (f : Failure) : Option α → Run α
  | some a => pure a
  | none => fail f

def outOfRange : Run α := fun ctx => (.error .outOfRange, ctx)

/-- The first element, which must be there. -/
def first : List α → Run α
  | a :: _ => pure a
  | [] => outOfRange

/-- Goes on after a failure, which is handed over; nothing goes on after an element out of range. -/
def attempt (x : Run α) : Run (Except Failure α) := fun ctx =>
  match x ctx with
  | (.ok a, ctx) => (.ok (.ok a), ctx)
  | (.error (.failure f), ctx) => (.ok (.error f), ctx)
  | (.error .outOfRange, ctx) => (.error .outOfRange, ctx)

def config : Run Config := fun ctx => (.ok ctx.config, ctx)

def depth : Run Nat := fun ctx => (.ok ctx.depth, ctx)

def modify (g : Context → Context) : Run Unit := fun ctx => (.ok (), g ctx)

def report (d : Diagnostic) : Run Unit := modify (·.report d)

def nameOf (node : Path) : Run String := fun ctx => ((.ok (ctx.nameOf node).1), (ctx.nameOf node).2)

/-! ## Frames -/

def openFrame : Run Unit := modify Context.openFrame

def closeFrame : Run Frame := fun ctx =>
  match ctx.closeFrame with
  | .ok (f, ctx) => (.ok f, ctx)
  | .error f => (.error (.failure f), ctx)

def frame : Run Frame := fun ctx => ofExcept ctx.frame? ctx

def modifyFrame (g : Frame → Frame) : Run Unit := fun ctx =>
  match ctx.modifyFrame g with
  | .ok ctx => (.ok (), ctx)
  | .error f => (.error (.failure f), ctx)

def noteNames (l : NameList) (names : List String) : Run Unit :=
  modifyFrame fun f => { f with table := f.table.set l names }

/-- Lowers the clauses of a query in a frame of its own, which is closed also where a clause fails.
-/
def inFrame (clauses : Run Pipeline) : Run Thunk := do
  openFrame
  let pipeline ← attempt clauses
  let frame ← closeFrame
  let pipeline ← ofExcept pipeline
  let c ← config
  return ⟨.table c.table frame.table :: (if frame.countsRows then [.counter c.counter] else []),
    pipeline⟩

/-- Row numbers count while the clause is lowered, and no longer after it, also where it fails. -/
def selecting (clause : Run α) : Run α := do
  modifyFrame ({ · with selecting := true })
  let r ← attempt clause
  modifyFrame ({ · with selecting := false })
  ofExcept r

/-! ## Rows -/

/-- A table row goes by its alias; any other row is given a name. -/
def parameter (node : Path) : Row → Run String
  | .table a => pure a
  | _ => nameOf node

/-- The aliases that the expressions read, each with its path from the parameter. -/
def bindings (row : Row) (param : String) (es : List Expr) : Except Failure (List (Binding Expr)) :=
  (referenced (Assoc.keys row.paths) es).mapM fun a =>
    match Assoc.get? a row.paths with
    | some path => .ok ⟨a, path.read (.name param)⟩
    | none => .error (.aliasWithoutPath a)

/-- Lowers expressions that share one row, given how they are lowered once the row has its name. -/
def onRow (row : Row) (node : Path) (es : List Expr) (images : String → Run (List Expr)) :
    Run RowImage := do
  if es.isEmpty then
    fail emptyList
  else
    let param ← parameter node row
    let bs ← ofExcept (bindings row param es)
    return ⟨param, bs, ← images param⟩

/-- The function of a row with the given parameters besides it that the first expression is. -/
def function (r : RowImage) (joined : Option String) : Run (Lambda Expr) := do
  let body ← first r.exprs
  return ⟨r.param :: joined.toList, Comprehension.bind r.bindings body (← config).inlinePaths⟩

/-- The function of a row that one expression makes. -/
def single (row : Row) (node : Path) (joined : Option String) (e : Expr)
    (image : String → Run Expr) : Run (Lambda Expr) := do
  let r ← onRow row node [e] fun param => do return [← image param]
  function r joined

/-- A record of the values, whose names are noted in the table of the open query. -/
def record (l : NameList) (written values : List Expr) (row : Option Expr) : Run Expr := do
  noteNames l (labels written)
  return recordOf (← config).table l values row

/-! ## Mistakes -/

/-- A second declaration of an alias is reported. -/
def declare (row : Row) (name : String) (p : Position) : Run Unit := do
  if name ∈ row.aliases then
    report ⟨.aliasDeclared name, p⟩

/-- A word that is no direction is reported, and leaves the order. -/
def ascends : Option Direction → Run Bool
  | none => return true
  | some d =>
    if d.word = "asc" then return true
    else if d.word = "desc" then return false
    else do
      report ⟨.unknownDirection d.word, d.pos⟩
      return true

/-! ## Names -/

/-- What becomes of a name. -/
def var (row : Option Row) (param : String) (bound : List String) (p : Position) (n : String) :
    Run Expr := do
  let c ← config
  if n ∈ bound ∨ n = c.table then
    return .var p n
  else if n = c.rowNumber then
    if (← frame).selecting then
      modifyFrame fun f => { f with countsRows := true }
      return .postIncrement p c.counter
    else
      return onRows c row param p n
  else
    return onRows c row param p n
where
  onRows (c : Config) (row : Option Row) (param : String) (p : Position) (n : String) : Expr :=
    match (Place.mk row .plain).read? c param n with
    | some e => e.withPos p
    | none => .var p n

end Run

/-! ## Expressions -/

mutual
/-- Lowers an expression on a row, or where there is none. -/
def Expr.run (row : Option Row) (param : String) (path : Path) (bound : List String)
    (searched : Bool) : Expr → Run Expr
  | .literal p v => return .literal p v
  | .var p n => Run.var row param bound p n
  | .unary p f e => return .unary p f (← e.run row param (.part 0 :: path) bound false)
  | .binary p (.operator op) l r => do
    let l ← l.run row param (.part 0 :: path) bound false
    let r ← r.run row param (.part 1 :: path) bound op.searches
    return .binary p (.operator op) l r
  | .binary p f l r => do
    let l ← l.run row param (.part 0 :: path) bound false
    let r ← r.run row param (.part 1 :: path) bound false
    return .binary p f l r
  | .sequence p (.call n) args =>
    match row.filter (·.isGrouped), Aggregate.ofName? n with
    | some grouped, some a => do
      let group ← Run.ofOption (.impossibleNode (Expr.sequence p (.call n) args).text) grouped.group?
      match a.rule? args.length, args with
      | some .allRows, _ => return .method p (GroupView.rows param) a.name []
      | some .eachRow, arg :: _ =>
        if arg.root? = some (← Run.config).group then
          Run.report ⟨.selectorOverGroup a, arg.pos⟩
        let selector ← Run.single group.prior (.part 0 :: path) none arg fun param =>
          arg.run (some group.prior) param (.part 0 :: path) [] false
        return .method p (GroupView.rows param) a.name [.lambda arg.pos selector]
      | some .rowsAtOnce, arg :: _ =>
        return .method p (GroupView.rows param) a.name
          [← arg.run row param (.part 0 :: path) bound false]
      | some .eachRow, [] | some .rowsAtOnce, [] => Run.outOfRange
      | none, args => do
        Run.report ⟨.argumentCount a args.length, p⟩
        return .sequence p (.call a.name) (← runAll row param path bound .part 0 args)
    | _, _ => return .sequence p (.call n) (← runAll row param path bound .part 0 args)
  | .sequence p f es => return .sequence p f (← runAll row param path bound .part 0 es)
  | .method p r n es => do
    let r ← r.run row param (.part 0 :: path) bound false
    return .method p r n (← runAll row param path bound .part 1 es)
  | .lambda p ⟨ps, body⟩ =>
    return .lambda p ⟨ps, ← body.run row param (.part 0 :: path) (ps ++ bound) false⟩
  | .query p q => do
    let thunk := Expr.subquery p (← queryRun path q)
    return (Place.mk row .plain).attach (← Run.config) param bound (queryFree q)
      (if searched then thunk.send "toList" [] else thunk)
  | .letIn p bs e => Run.fail (.impossibleNode (Expr.letIn p bs e).text)
  | .record p vs ns as row => Run.fail (.impossibleNode (Expr.record p vs ns as row).text)
  | .postIncrement p n => Run.fail (.impossibleNode (Expr.postIncrement p n).text)
  | .subquery p t => Run.fail (.impossibleNode (Expr.subquery p t).text)

def runAll (row : Option Row) (param : String) (path : Path) (bound : List String)
    (step : Nat → Step) (i : Nat) : List Expr → Run (List Expr)
  | [] => return []
  | e :: es => do
    let e ← e.run row param (step i :: path) bound false
    return e :: (← runAll row param path bound step (i + 1) es)

/-- Lowers a query in a frame of its own. -/
def queryRun (path : Path) : Query Expr → Run Thunk
  | q@⟨⟨name, source, _⟩, joins, filter, grouping, sorting, limit, projection, _⟩ => Run.inFrame do
    Run.noteNames .aliases q.aliases
    let source ← source.run none "" (.slot .source :: path) [] false
    let (joined, row) ← joinsRun path 0 (.table name) joins
    let filtered ← filterRun path row filter
    let (grouped, row) ← groupingRun path row grouping
    let sorted ← sortingRun path row sorting
    let limited ← limitRun path limit
    let selected ← projectionRun path row projection
    return ⟨source, joined ++ filtered ++ grouped ++ sorted ++ limited ++ selected⟩

/-- The joins from the `i`-th on, and the row after them. -/
def joinsRun (path : Path) (i : Nat) (row : Row) : List (Join Expr) → Run (List Stage × Row)
  | [] => return ([], row)
  | ⟨kind, name, source, on, p⟩ :: js => do
    Run.declare row name p
    let source ← source.run none "" (.slot (.joinSource i) :: path) [] false
    let on ← matchRun path i row kind name p on
    let (joined, row) ← joinsRun path (i + 1) (row.joined name) js
    return (.join kind ⟨source, []⟩ on :: joined, row)

def matchRun (path : Path) (i : Nat) (row : Row) (kind : JoinKind) (name : String)
    (p : Position) : Option Expr → Run (Option (Lambda Expr))
  | some e =>
    if kind.takesPredicate then do
      let f ← Run.single row (.slot (.joinOn i) :: path) (some name) e fun param =>
        e.run (some row) param (.slot (.joinOn i) :: path) [] false
      return some f
    else do
      Run.report ⟨.predicateOnCross, e.pos⟩
      return none
  | none => do
    if kind.takesPredicate then
      Run.report ⟨.predicateMissing kind, p⟩
    return none

def filterRun (path : Path) (row : Row) : Option (Filter Expr) → Run (List Stage)
  | some ⟨e, _⟩ => do
    let f ← Run.single row (.slot .predicate :: path) none e fun param =>
      e.run (some row) param (.slot .predicate :: path) [] false
    return [.filter f]
  | none => return []

/-- Grouping the given row, and the row after it. -/
def groupingRun (path : Path) (row : Row) : Option (Grouping Expr) → Run (List Stage × Row)
  | some ⟨cs, into, having, p⟩ => do
    into.forM fun n => Run.declare row n p
    let r ← Run.onRow row (.slot (.classifier 0) :: path) cs fun param =>
      runAll (some row) param path [] (.slot ∘ .classifier) 0 cs
    let key ← Run.record .groups cs r.exprs none
    let classifier := r.close key (← Run.config).inlinePaths
    let row := .grouped row (labels cs) into
    return ([.groupBy classifier (← havingRun path row having)], row)
  | none => return ([], row)

def havingRun (path : Path) (row : Row) : Option Expr → Run (Option (Lambda Expr))
  | some e => do
    let f ← Run.single row (.slot .having :: path) none e fun param =>
      e.run (some row) param (.slot .having :: path) [] false
    return some f
  | none => return none

def sortingRun (path : Path) (row : Row) : Option (Sorting Expr) → Run (List Stage)
  | some ⟨terms, _⟩ => return [.orderBy (← termsRun path row 0 terms)]
  | none => return []

def termsRun (path : Path) (row : Row) (i : Nat) : List (SortTerm Expr) → Run (List (SortSpec Expr))
  | [] => return []
  | ⟨key, direction⟩ :: ts => do
    let ascending ← Run.ascends direction
    let f ← Run.single row (.slot (.orderKey i) :: path) none key fun param =>
      key.run (some row) param (.slot (.orderKey i) :: path) [] false
    return ⟨f, ascending⟩ :: (← termsRun path row (i + 1) ts)

def limitRun (path : Path) : Option (Limit Expr) → Run (List Stage)
  | some ⟨some offset, size, _⟩ => do
    let offset ← offset.run none "" (.slot .offset :: path) [] false
    return [.limit offset (← size.run none "" (.slot .size :: path) [] false)]
  | some ⟨none, size, _⟩ =>
    return [.limit (Expr.int 0) (← size.run none "" (.slot .size :: path) [] false)]
  | none => return []

def projectionRun (path : Path) (row : Row) : Option (Projection Expr) → Run (List Stage)
  | some ⟨items, p⟩ => Run.selecting do
    if items.isEmpty then
      Run.report ⟨.selectEmpty, p⟩
      return []
    else
      let r ← Run.onRow row (.slot (.item 0) :: path) items fun param =>
        runAll (some row) param path [] (.slot ∘ .item) 0 items
      if wantsRecord items then
        let values ← Run.record .selected items r.exprs (some (Expr.name r.param))
        return [.select (r.close values (← Run.config).inlinePaths)]
      else
        Run.noteNames .selected (labels items)
        return [.select (← Run.function r none)]
  | none => do
    Run.report ⟨.selectMissing, .nowhere⟩
    return []
end

/-! ## Entry points -/

namespace Run

/-- Lowers expressions, each with its node, that share one row. -/
def resolveAll (row : Row) (nodes : List (Path × Expr)) : Run RowImage := do
  match nodes with
  | [] => fail emptyList
  | (node, _) :: _ =>
    onRow row node (nodes.map (·.2)) fun param =>
      nodes.mapM' fun n => n.2.run (some row) param n.1 [] false

/-- Lowers one expression on a row. -/
def resolve (row : Row) (node : Path) (e : Expr) : Run RowImage := resolveAll row [(node, e)]

/-- Lowers an expression that is computed once, outside of any row. -/
def resolveValue (node : Path) (e : Expr) : Run Expr := e.run none "" node [] false

/-- Lowers a query. Where none is open yet, the names that it spells are reserved first. -/
def lower (node : Path) (q : Query Expr) : Run Thunk := do
  if (← depth) = 0 then
    let c ← config
    modify (·.reserve [c.table, c.counter])
    modify (·.reserve q.identifiers)
  queryRun node q

end Run
end Comprehension
