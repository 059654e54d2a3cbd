import Comprehension.Proofs.Pieces
import Comprehension.Proofs.Relocation

/-!
What a query will read once it is lowered. A row function binds the aliases that occur free in its
expressions, where a nested query hides its own aliases and its `into` name in all but its sources.
The lowered nested query hides less: the bounds of its limit stand outside of its functions, a
predicate of a join does not know the aliases that are joined later, and an `into` name reaches
nothing. Readings follow the lowered scopes, and note each alias that a row function reads without
binding it.
-/

namespace Comprehension

/-- A name that is read from outside, or an alias that a function of a chain of joins reads and does
not bind. -/
inductive Reading where
  | outer (name : String)
  | stray (name : String)
  deriving DecidableEq

namespace Reading

def name : Reading → String
  | outer n | stray n => n

/-- The readings left once the names are bound around them. -/
def within (names : List String) (rs : List Reading) : List Reading :=
  rs.filter fun
    | outer n => n ∉ names
    | stray _ => true

/-- The readings of a function that binds the names. An alias of its chain strays if it is read and
neither bound here nor replaced from outside. -/
def function (chain masked names : List String) (rs : List Reading) : List Reading :=
  within names rs ++
    (chain.filter fun a => a ∉ names ∧ a ∉ masked ∧ outer a ∈ rs).map stray

@[simp] theorem outer_mem_within {n : String} {names : List String} {rs : List Reading} :
    outer n ∈ within names rs ↔ outer n ∈ rs ∧ n ∉ names := by
  simp [within]

@[simp] theorem stray_mem_within {n : String} {names : List String} {rs : List Reading} :
    stray n ∈ within names rs ↔ stray n ∈ rs := by
  simp [within]

@[simp] theorem outer_mem_function {n : String} {chain masked names : List String}
    {rs : List Reading} :
    outer n ∈ function chain masked names rs ↔ outer n ∈ rs ∧ n ∉ names := by
  simp [function]

@[simp] theorem stray_mem_function {n : String} {chain masked names : List String}
    {rs : List Reading} :
    stray n ∈ function chain masked names rs ↔
      stray n ∈ rs ∨ n ∈ chain ∧ n ∉ names ∧ n ∉ masked ∧ outer n ∈ rs := by
  simp [function]

end Reading

/-! ## Names of functions -/

/-- The names that are replaced under parameters and locals. Locals replace names where paths are
put in their place, and hide names where they stand in a `let`. -/
def Config.masks (c : Config) (masked params locals : List String) : List String :=
  if c.inlinePaths then unbound params masked ++ locals else unbound (params ++ locals) masked

namespace Row

/-- The parameters of a function of the row that are no made-up name. -/
def written (joined : Option String) : Row → List String
  | table a => a :: joined.toList
  | _ => joined.toList

/-- The aliases that a function of the row binds to their paths. -/
def located (r : Row) (es : List Expr) : List String := (r.bindings "" es).map (·.name)

theorem names_bindings (r : Row) (param : String) (es : List Expr) :
    (r.bindings param es).map (·.name) = r.located es := by
  simp [located, bindings]

/-- What is replaced in the body of a function of the row. -/
def masks (c : Config) (r : Row) (masked : List String) (joined : Option String)
    (es : List Expr) : List String :=
  c.masks masked (r.written joined) (r.located es)

/-- The readings of a function of the row, given those of its body. -/
def readings (r : Row) (chain masked : List String) (joined : Option String) (es : List Expr)
    (rs : List Reading) : List Reading :=
  Reading.function chain masked (r.written joined ++ r.located es) rs

end Row

namespace Place

/-- The names from outside that are read where a name stood. -/
def outerReads (c : Config) (place : Place) (bound : List String) (n : String) : List String :=
  if n ∈ bound ∨ n = c.table then [n]
  else if n = c.rowNumber ∧ place.numbering = .counted then []
  else if (place.read? c "" n).isNone then [n]
  else if n = c.group then [c.table]
  else []

/-- The names that a nested query reads from the row of a group. -/
def groupNames (c : Config) (place : Place) (bound free : List String) : List String :=
  (distinct free).filter fun n => n ∉ bound ∧ (place.read? c "" n).isSome

/-- What is replaced in a nested query. The current group always stands in a `let`. -/
def masks (c : Config) (place : Place) (masked bound free : List String) : List String :=
  let names := place.groupNames c bound free
  c.masks masked (names.filter (· = c.group)) (names.filter (· ≠ c.group))

/-- The readings of a nested query, with what it reads from the row of a group attached. -/
def readings (c : Config) (place : Place) (bound free : List String) (rs : List Reading) :
    List Reading :=
  (if c.group ∈ place.groupNames c bound free then [.outer c.table] else []) ++
    Reading.within (place.groupNames c bound free) rs

end Place

/-! ## Readings -/

/-- What a record reads besides its values: the name table, and the row if it keeps the row. -/
def recordReadings (c : Config) (kept : List String) : List Reading :=
  (c.table :: kept).map .outer

mutual
/-- The readings of an expression at a place, once it is lowered. The masked names are those that
the functions around it replace. -/
def Expr.readings (c : Config) (masked : List String) (place : Place) (bound : List String) :
    Expr → List Reading
  | .literal _ _ => []
  | .var _ n => (place.outerReads c bound n).map .outer
  | .unary _ _ e => e.readings c masked place bound
  | .binary _ _ l r => l.readings c masked place bound ++ r.readings c masked place bound
  | .sequence _ (.call n) es =>
    match place.callCase n es.length with
    | .plain => readingsAll c masked place bound es
    | .allRows => []
    | .eachRow prior =>
      prior.readings [] masked none (es.take 1)
        (readingsFirst c (prior.masks c masked none (es.take 1)) ⟨some prior, place.numbering⟩ []
          es)
    | .rowsAtOnce => readingsFirst c masked place bound es
  | .sequence _ _ es => readingsAll c masked place bound es
  | .method _ r _ es => r.readings c masked place bound ++ readingsAll c masked place bound es
  | .lambda _ ⟨ps, e⟩ =>
    Reading.within ps (e.readings c (unbound ps masked) place (ps ++ bound))
  | .query _ q =>
    place.readings c bound (queryFree q)
      (queryReadings c (place.masks c masked bound (queryFree q)) q)
  | .letIn _ _ _ | .record _ _ _ _ _ | .postIncrement _ _ | .subquery _ _ => []

def readingsAll (c : Config) (masked : List String) (place : Place) (bound : List String) :
    List Expr → List Reading
  | [] => []
  | e :: es => e.readings c masked place bound ++ readingsAll c masked place bound es

def readingsFirst (c : Config) (masked : List String) (place : Place) (bound : List String) :
    List Expr → List Reading
  | [] => []
  | e :: _ => e.readings c masked place bound

def queryReadings (c : Config) (masked : List String) : Query Expr → List Reading
  | q@⟨⟨name, source, _⟩, joins, filter, grouping, sorting, limit, projection, _⟩ =>
    Reading.within (c.table :: if countsRows c [] q then [c.counter] else [])
      (source.readings c masked ⟨none, .plain⟩ [] ++
        (joinsReadings c masked (.table name) joins ++
          filterReadings c masked q.joinedRow filter ++
          groupingReadings c masked q.joinedRow grouping ++
          sortingReadings c masked q.row sorting ++
          limitReadings c masked limit ++
          projectionReadings c masked q.row projection))

def joinsReadings (c : Config) (masked : List String) (row : Row) :
    List (Join Expr) → List Reading
  | [] => []
  | ⟨kind, name, source, on, _⟩ :: js =>
    source.readings c masked ⟨none, .plain⟩ [] ++ matchReadings c masked row kind name on ++
      joinsReadings c masked (row.joined name) js

def matchReadings (c : Config) (masked : List String) (row : Row) (kind : JoinKind)
    (name : String) : Option Expr → List Reading
  | some e =>
    if kind.takesPredicate then
      row.readings row.chain masked (some name) [e]
        (e.readings c (row.masks c masked (some name) [e]) ⟨some row, .plain⟩ [])
    else []
  | none => []

def filterReadings (c : Config) (masked : List String) (row : Row) :
    Option (Filter Expr) → List Reading
  | some ⟨e, _⟩ =>
    row.readings row.chain masked none [e]
      (e.readings c (row.masks c masked none [e]) ⟨some row, .plain⟩ [])
  | none => []

def groupingReadings (c : Config) (masked : List String) (row : Row) :
    Option (Grouping Expr) → List Reading
  | some ⟨cs, into, having, _⟩ =>
    row.readings row.chain masked none cs
        (readingsAll c (row.masks c masked none cs) ⟨some row, .plain⟩ [] cs ++
          recordReadings c []) ++
      havingReadings c masked (.grouped row (labels cs) into) having
  | none => []

def havingReadings (c : Config) (masked : List String) (row : Row) :
    Option Expr → List Reading
  | some e =>
    row.readings row.chain masked none [e]
      (e.readings c (row.masks c masked none [e]) ⟨some row, .plain⟩ [])
  | none => []

def sortingReadings (c : Config) (masked : List String) (row : Row) :
    Option (Sorting Expr) → List Reading
  | some ⟨terms, _⟩ => termsReadings c masked row terms
  | none => []

def termsReadings (c : Config) (masked : List String) (row : Row) :
    List (SortTerm Expr) → List Reading
  | [] => []
  | ⟨key, _⟩ :: ts =>
    row.readings row.chain masked none [key]
        (key.readings c (row.masks c masked none [key]) ⟨some row, .plain⟩ []) ++
      termsReadings c masked row ts

def limitReadings (c : Config) (masked : List String) : Option (Limit Expr) → List Reading
  | some ⟨some offset, size, _⟩ =>
    offset.readings c masked ⟨none, .plain⟩ [] ++ size.readings c masked ⟨none, .plain⟩ []
  | some ⟨none, size, _⟩ => size.readings c masked ⟨none, .plain⟩ []
  | none => []

def projectionReadings (c : Config) (masked : List String) (row : Row) :
    Option (Projection Expr) → List Reading
  | some ⟨e :: es, _⟩ =>
    row.readings row.chain masked none (e :: es)
      (e.readings c (row.masks c masked none (e :: es)) ⟨some row, .counted⟩ [] ++
        readingsAll c (row.masks c masked none (e :: es)) ⟨some row, .counted⟩ [] es ++
        if wantsRecord (e :: es) then recordReadings c (row.written none) else [])
  | some ⟨[], _⟩ | none => []
end

/-! ## Readings of pieces -/

section

variable (c : Config) (masked : List String)

theorem readingsAll_eq_flatMap (place : Place) (bound : List String) (es : List Expr) :
    readingsAll c masked place bound es = es.flatMap (Expr.readings c masked place bound) := by
  induction es with
  | nil => rfl
  | cons e es ih => rw [readingsAll, ih, List.flatMap_cons]

theorem readings_numbered (place : Place) (bound : List String) (slot : Nat → Slot) (i : Nat)
    (es : List Expr) :
    ((numbered slot i es).flatMap fun p => p.2.readings c masked place bound) =
      readingsAll c masked place bound es := by
  have hexprs : (numbered slot i es).flatMap (fun p => p.2.readings c masked place bound) =
      ((numbered slot i es).map (·.2)).flatMap (Expr.readings c masked place bound) :=
    (List.flatMap_map ..).symm
  rw [hexprs, numbered_exprs, readingsAll_eq_flatMap]

/-- What the function reads besides its expressions. -/
def RowFunction.extraReadings (f : RowFunction) : List Reading :=
  match f.record with
  | some keeps => recordReadings c (if keeps then f.row.written none else [])
  | none => []

def RowFunction.readings (f : RowFunction) : List Reading :=
  let es := f.exprs.map (·.2)
  f.row.readings f.row.chain masked f.joined es
    ((f.exprs.flatMap fun p =>
        p.2.readings c (f.row.masks c masked f.joined es) f.place []) ++ f.extraReadings c)

def Piece.readings : Piece → List Reading
  | value _ e => e.readings c masked ⟨none, .plain⟩ []
  | function f => f.readings c masked

theorem readings_single (slot : Slot) (row : Row) (joined : Option String) (e : Expr) :
    (Piece.single slot row joined e).readings c masked =
      row.readings row.chain masked joined [e]
        (e.readings c (row.masks c masked joined [e]) ⟨some row, .plain⟩ []) := by
  simp [Piece.single, Piece.readings, RowFunction.readings, RowFunction.extraReadings,
    RowFunction.place]

theorem joinsReadings_eq (i : Nat) (row : Row) (js : List (Join Expr)) :
    joinsReadings c masked row js = (joinPieces i row js).flatMap (Piece.readings c masked) := by
  induction js generalizing i row with
  | nil => rfl
  | cons j js ih =>
    have hmatch : matchReadings c masked row j.kind j.name j.on =
        (matchPieces i row j.kind j.name j.on).flatMap (Piece.readings c masked) := by
      cases j.on with
      | none => rfl
      | some e =>
        rw [matchReadings, matchPieces]
        split
        · rw [List.flatMap_singleton, readings_single]
        · rfl
    rw [joinsReadings, joinPieces, hmatch, ih (i + 1), List.flatMap_append, List.flatMap_cons]
    rfl

theorem groupingReadings_eq (row : Row) (o : Option (Grouping Expr)) :
    groupingReadings c masked row o =
      (groupingPieces row o).flatMap (Piece.readings c masked) := by
  obtain _ | ⟨cs, into, having, p⟩ := o
  · rfl
  · have hhaving (row : Row) : havingReadings c masked row having =
        (havingPieces row having).flatMap (Piece.readings c masked) := by
      cases having with
      | none => rfl
      | some e => rw [havingReadings, havingPieces, List.flatMap_singleton, readings_single]
    rw [groupingReadings, groupingPieces, List.flatMap_cons, hhaving, Piece.readings,
      RowFunction.readings]
    simp only [readings_numbered, numbered_exprs]
    rfl

theorem termsReadings_eq (row : Row) (i : Nat) (ts : List (SortTerm Expr)) :
    termsReadings c masked row ts = (termPieces row i ts).flatMap (Piece.readings c masked) := by
  induction ts generalizing i with
  | nil => rfl
  | cons t ts ih => rw [termsReadings, termPieces, ih (i + 1), List.flatMap_cons, readings_single]

theorem projectionReadings_eq (row : Row) (o : Option (Projection Expr)) :
    projectionReadings c masked row o =
      (projectionPieces row o).flatMap (Piece.readings c masked) := by
  obtain _ | ⟨_ | ⟨e, es⟩, p⟩ := o
  · rfl
  · rfl
  · rw [projectionPieces, List.flatMap_singleton, Piece.readings, RowFunction.readings]
    simp only [readings_numbered, numbered_exprs]
    rw [projectionReadings, readingsAll, RowFunction.extraReadings]
    split <;> rfl

/-- A query reads what its pieces read. -/
theorem queryReadings_eq (q : Query Expr) :
    queryReadings c masked q =
      Reading.within (c.table :: if countsRows c [] q then [c.counter] else [])
        (q.pieces.flatMap (Piece.readings c masked)) := by
  have hfilter : filterReadings c masked q.joinedRow q.filter =
      (filterPieces q.joinedRow q.filter).flatMap (Piece.readings c masked) := by
    cases q.filter with
    | none => rfl
    | some f => rw [filterReadings, filterPieces, List.flatMap_singleton, readings_single]
  have hsorting : sortingReadings c masked q.row q.sorting =
      (sortingPieces q.row q.sorting).flatMap (Piece.readings c masked) := by
    cases q.sorting with
    | none => rfl
    | some s => exact termsReadings_eq c masked q.row 0 s.terms
  have hlimit : limitReadings c masked q.limit =
      (limitPieces q.limit).flatMap (Piece.readings c masked) := by
    obtain _ | ⟨_ | offset, size, p⟩ := q.limit <;> simp [limitReadings, limitPieces,
      Piece.readings]
  rw [queryReadings, joinsReadings_eq c masked 0, hfilter, groupingReadings_eq, hsorting, hlimit,
    projectionReadings_eq, Query.pieces]
  simp only [List.flatMap_cons, List.flatMap_append]
  rfl

end

/-! ## Aliases that stray -/

/-- The aliases that functions of the lowered query, at any depth, read without binding them. -/
def Query.strays (q : Query Expr) (c : Config) : List String :=
  (queryReadings c [] q).filterMap fun
    | .stray n => some n
    | .outer _ => none

theorem mem_strays {q : Query Expr} {c : Config} {n : String} :
    n ∈ q.strays c ↔ .stray n ∈ queryReadings c [] q := by
  rw [Query.strays, List.mem_filterMap]
  constructor
  · rintro ⟨r, hr, h⟩
    cases r with
    | outer m => cases h
    | stray m =>
      cases h
      exact hr
  · intro h
    exact ⟨_, h, rfl⟩

end Comprehension
