import Comprehension.Proofs.Scopes
import Comprehension.Lower

/-!
The pieces of a query. Each clause is lowered to values that are computed once and to functions of
the row that reaches it; in the order of the clauses they are the pieces of the query. What is asked
for a query is asked for its pieces, and what is found in its thunk is found in their images.
-/

namespace Comprehension

/-- The aliases of a chain of joins; a row of groups is no chain. -/
def Row.chain : Row → List String
  | grouped _ _ _ => []
  | row => row.aliases

/-- A function of a row. The node in `slot` gives the row its name. A record consults the name
table, and may keep the row. -/
structure RowFunction where
  slot : Slot
  row : Row
  joined : Option String
  numbering : Numbering
  exprs : List (Slot × Expr)
  record : Option Bool

inductive Piece where
  | value (slot : Slot) (e : Expr)
  | function (f : RowFunction)

/-- The function of a row that one expression makes. -/
def Piece.single (slot : Slot) (row : Row) (joined : Option String) (e : Expr) : Piece :=
  .function ⟨slot, row, joined, .plain, [(slot, e)], none⟩

/-- Expressions in numbered slots. -/
def numbered (slot : Nat → Slot) (i : Nat) : List Expr → List (Slot × Expr)
  | [] => []
  | e :: es => (slot i, e) :: numbered slot (i + 1) es

/-! ## Pieces of clauses -/

def matchPieces (i : Nat) (row : Row) (kind : JoinKind) (name : String) :
    Option Expr → List Piece
  | some e => if kind.takesPredicate then [.single (.joinOn i) row (some name) e] else []
  | none => []

def joinPieces (i : Nat) (row : Row) : List (Join Expr) → List Piece
  | [] => []
  | ⟨kind, name, source, on, _⟩ :: js =>
    .value (.joinSource i) source :: matchPieces i row kind name on ++
      joinPieces (i + 1) (row.joined name) js

def filterPieces (row : Row) : Option (Filter Expr) → List Piece
  | some f => [.single .predicate row none f.predicate]
  | none => []

def havingPieces (row : Row) : Option Expr → List Piece
  | some e => [.single .having row none e]
  | none => []

def groupingPieces (row : Row) : Option (Grouping Expr) → List Piece
  | some ⟨cs, into, having, _⟩ =>
    .function ⟨.classifier 0, row, none, .plain, numbered .classifier 0 cs, some false⟩ ::
      havingPieces (.grouped row (labels cs) into) having
  | none => []

def termPieces (row : Row) (i : Nat) : List (SortTerm Expr) → List Piece
  | [] => []
  | t :: ts => .single (.orderKey i) row none t.key :: termPieces row (i + 1) ts

def sortingPieces (row : Row) : Option (Sorting Expr) → List Piece
  | some s => termPieces row 0 s.terms
  | none => []

def limitPieces : Option (Limit Expr) → List Piece
  | some ⟨some offset, size, _⟩ => [.value .offset offset, .value .size size]
  | some ⟨none, size, _⟩ => [.value .size size]
  | none => []

def projectionPieces (row : Row) : Option (Projection Expr) → List Piece
  | some ⟨e :: es, _⟩ =>
    [.function ⟨.item 0, row, none, .counted, numbered .item 0 (e :: es),
      if wantsRecord (e :: es) then some true else none⟩]
  | some ⟨[], _⟩ | none => []

def Query.pieces (q : Query Expr) : List Piece :=
  .value .source q.table.source ::
    (joinPieces 0 (.table q.table.name) q.joins ++ filterPieces q.joinedRow q.filter ++
      groupingPieces q.joinedRow q.grouping ++ sortingPieces q.row q.sorting ++
      limitPieces q.limit ++ projectionPieces q.row q.projection)

/-! ## Demands -/

namespace Piece

def demands (c : Config) (path : Path) : Piece → List Demand
  | value slot e => e.demands c ⟨none, .plain⟩ (.slot slot :: path) []
  | function f =>
    f.row.nameDemands (.slot f.slot :: path) ++
      f.exprs.flatMap fun p => p.2.demands c ⟨some f.row, f.numbering⟩ (.slot p.1 :: path) []

def exprs : Piece → List Expr
  | value _ e => [e]
  | function f => f.exprs.map (·.2)

end Piece

/-- Mistakes and failures aside. -/
def Demand.wants : Demand → Bool
  | name _ | countRow => true
  | report _ | fail _ => false

/-- What is wanted of the context, mistakes and failures aside. -/
def wanted (ds : List Demand) : List Demand := ds.filter (·.wants)

theorem wanted_append (ds ds' : List Demand) : wanted (ds ++ ds') = wanted ds ++ wanted ds' :=
  List.filter_append ..

theorem wanted_declareDemands (row : Row) (name : String) (p : Position) :
    wanted (row.declareDemands name p) = [] := by
  rw [Row.declareDemands]
  split <;> rfl

theorem wanted_directionDemands (d : Direction) : wanted d.demands = [] := by
  rw [Direction.demands]
  split <;> rfl

theorem demandsAll_eq_flatMap (c : Config) (place : Place) (path : Path) (bound : List String)
    (slot : Nat → Slot) (i : Nat) (es : List Expr) :
    demandsAll c place path bound (.slot ∘ slot) i es =
      (numbered slot i es).flatMap fun p => p.2.demands c place (.slot p.1 :: path) bound := by
  induction es generalizing i with
  | nil => rfl
  | cons e es ih =>
    rw [demandsAll, ih]
    rfl

section

variable (c : Config) (path : Path)

theorem single_demands (slot : Slot) (row : Row) (joined : Option String) (e : Expr) :
    (Piece.single slot row joined e).demands c path =
      row.nameDemands (.slot slot :: path) ++
        e.demands c ⟨some row, .plain⟩ (.slot slot :: path) [] := by
  simp [Piece.single, Piece.demands]

theorem wanted_matchDemands (i : Nat) (row : Row) (kind : JoinKind) (name : String) (p : Position)
    (o : Option Expr) :
    wanted (matchDemands c path i row kind p o) =
      wanted ((matchPieces i row kind name o).flatMap (Piece.demands c path)) := by
  cases o with
  | none =>
    rw [matchDemands]
    split <;> rfl
  | some e =>
    rw [matchDemands, matchPieces]
    split
    · rw [List.flatMap_singleton, single_demands]
    · rfl

theorem wanted_joinsDemands (i : Nat) (row : Row) (js : List (Join Expr)) :
    wanted (joinsDemands c path i row js) =
      wanted ((joinPieces i row js).flatMap (Piece.demands c path)) := by
  induction js generalizing i row with
  | nil => rfl
  | cons j js ih =>
    rw [joinsDemands, joinPieces]
    simp only [wanted_append, wanted_declareDemands, List.nil_append, List.flatMap_cons,
      List.cons_append, List.flatMap_append, ih, wanted_matchDemands c path i row j.kind j.name,
      List.append_assoc]
    rfl

theorem wanted_filterDemands (row : Row) (o : Option (Filter Expr)) :
    wanted (filterDemands c path row o) =
      wanted ((filterPieces row o).flatMap (Piece.demands c path)) := by
  cases o with
  | none => rfl
  | some f => rw [filterDemands, filterPieces, List.flatMap_singleton, single_demands]

theorem wanted_havingDemands (row : Row) (o : Option Expr) :
    wanted (havingDemands c path row o) =
      wanted ((havingPieces row o).flatMap (Piece.demands c path)) := by
  cases o with
  | none => rfl
  | some e => rw [havingDemands, havingPieces, List.flatMap_singleton, single_demands]

theorem wanted_groupingDemands (row : Row) (o : Option (Grouping Expr)) :
    wanted (groupingDemands c path row o) =
      wanted ((groupingPieces row o).flatMap (Piece.demands c path)) := by
  obtain _ | ⟨cs, into, having, p⟩ := o
  · rfl
  · have hempty : wanted (if cs.isEmpty then [Demand.fail emptyList] else []) = [] := by
      split <;> rfl
    cases into <;>
      simp only [groupingDemands, groupingPieces, wanted_append, hempty,
        wanted_declareDemands, List.nil_append, List.flatMap_cons, Piece.demands,
        demandsAll_eq_flatMap, wanted_havingDemands]

theorem wanted_termsDemands (row : Row) (i : Nat) (ts : List (SortTerm Expr)) :
    wanted (termsDemands c path row i ts) =
      wanted ((termPieces row i ts).flatMap (Piece.demands c path)) := by
  induction ts generalizing i with
  | nil => rfl
  | cons t ts ih =>
    obtain ⟨key, direction⟩ := t
    cases direction <;>
      simp only [termsDemands, termPieces, wanted_append, wanted_directionDemands,
        List.nil_append, List.flatMap_cons, single_demands, ih, List.append_assoc]

theorem wanted_sortingDemands (row : Row) (o : Option (Sorting Expr)) :
    wanted (sortingDemands c path row o) =
      wanted ((sortingPieces row o).flatMap (Piece.demands c path)) := by
  cases o with
  | none => rfl
  | some s => exact wanted_termsDemands c path row 0 s.terms

theorem wanted_limitDemands (o : Option (Limit Expr)) :
    wanted (limitDemands c path o) =
      wanted ((limitPieces o).flatMap (Piece.demands c path)) := by
  obtain _ | ⟨_ | offset, size, p⟩ := o
  · rfl
  · simp [limitDemands, limitPieces, Piece.demands]
  · simp [limitDemands, limitPieces, Piece.demands]

theorem wanted_projectionDemands (row : Row) (o : Option (Projection Expr)) :
    wanted (projectionDemands c path row o) =
      wanted ((projectionPieces row o).flatMap (Piece.demands c path)) := by
  obtain _ | ⟨_ | ⟨e, es⟩, p⟩ := o
  · rfl
  · rfl
  · rw [projectionDemands, projectionPieces, List.flatMap_singleton, Piece.demands,
      demandsAll_eq_flatMap]
    rfl

/-- A query wants what its pieces want. -/
theorem wanted_queryDemands (q : Query Expr) :
    wanted (queryDemands c path q) = wanted (q.pieces.flatMap (Piece.demands c path)) := by
  rw [queryDemands, Query.pieces]
  simp only [wanted_append, List.flatMap_cons, List.flatMap_append, wanted_joinsDemands,
    wanted_filterDemands, wanted_groupingDemands, wanted_sortingDemands, wanted_limitDemands,
    wanted_projectionDemands, List.append_assoc]
  rfl

end

/-! ## Findings -/

namespace RowFunction

variable (s : Naming) (path : Path) (f : RowFunction)

def param : String := f.row.parameter s.name (.slot f.slot :: path)

def place : Place := ⟨some f.row, f.numbering⟩

/-- The image of an expression of the function. -/
def image (p : Slot × Expr) : Expr :=
  p.2.image s f.place (f.param s path) (.slot p.1 :: path) [] false

/-- What a record reads besides its values. -/
def extras : List String :=
  match f.record with
  | some keeps => [s.config.table, s.config.table] ++ if keeps then [f.param s path] else []
  | none => []

def body : List Finding :=
  (f.exprs.flatMap fun p => (f.image s path p).walk) ++ reads (f.extras s path)

def bindings : List (Binding Expr) := f.row.bindings (f.param s path) (f.exprs.map (·.2))

def walk : List Finding :=
  walkFunction f.row.chain (f.param s path :: f.joined.toList)
    (walkBound s.config.inlinePaths (f.bindings s path) (f.body s path))

end RowFunction

def Piece.walk (s : Naming) (path : Path) : Piece → List Finding
  | value slot e => (e.image s ⟨none, .plain⟩ "" (.slot slot :: path) [] false).walk
  | function f => f.walk s path

theorem PairPath.walk_read (path : PairPath) (e : Expr) : (path.read e).walk = e.walk := by
  induction path generalizing e with
  | nil => rfl
  | cons h path ih => exact ih (e.field h.name)

theorem Row.bindings_readsOnly (r : Row) (param : String) (es : List Expr) :
    ReadsOnly (r.bindings param es) := by
  intro b hb
  simp only [Row.bindings, List.mem_map] at hb
  obtain ⟨p, -, rfl⟩ := hb
  exact ⟨[param], PairPath.walk_read p.2 _⟩

theorem RowFunction.bindings_readsOnly (s : Naming) (path : Path) (f : RowFunction) :
    ReadsOnly (f.bindings s path) :=
  f.row.bindings_readsOnly _ _

theorem Place.row_of_read? {c : Config} {place : Place} {param n : String} {e : Expr}
    (h : place.read? c param n = some e) :
    ∃ prior names into, place.row = some (.grouped prior names into) := by
  obtain ⟨_ | row, numbering⟩ := place
  · cases h
  · cases row with
    | table b => cases h
    | joined r b => cases h
    | grouped r names into => exact ⟨r, names, into, rfl⟩

theorem Place.walk_read? {c : Config} {place : Place} {param n : String} {e : Expr}
    (h : place.read? c param n = some e) :
    e.walk = reads (param :: if n = c.group then [c.table] else []) := by
  rcases Place.read?_cases h with ⟨hn, rfl⟩ | ⟨hn, rfl | rfl⟩
  · rw [if_pos hn]
    rfl
  · rw [if_neg hn]
    rfl
  · rw [if_neg hn]
    rfl

/-- The names that are read where a name stood. -/
def Place.varReads (c : Config) (place : Place) (param : String) (bound : List String)
    (n : String) : List String :=
  if n ∈ bound ∨ n = c.table then [n]
  else if n = c.rowNumber ∧ place.numbering = .counted then []
  else
    match place.read? c param n with
    | some _ => param :: if n = c.group then [c.table] else []
    | none => [n]

/-- A name with no meaning of its own is replaced by what the group has under it. -/
theorem Place.varImage_of_read? {c : Config} {place : Place} {param n : String} {e : Expr}
    {bound : List String} (hbound : n ∉ bound) (htable : n ≠ c.table)
    (hnumber : ¬(n = c.rowNumber ∧ place.numbering = .counted))
    (hread : place.read? c param n = some e) (p : Position) :
    place.varImage c param bound p n = e.withPos p := by
  rw [varImage, if_neg (not_or.mpr ⟨hbound, htable⟩), if_neg hnumber, hread]

theorem walk_varImage (c : Config) (place : Place) (param : String) (bound : List String)
    (p : Position) (n : String) :
    (place.varImage c param bound p n).walk = reads (place.varReads c param bound n) := by
  rw [Place.varImage, Place.varReads]
  split
  · rfl
  · split
    · rfl
    · cases hread : place.read? c param n with
      | none => rfl
      | some e => exact (walk_withPos p e).trans (Place.walk_read? hread)

theorem Place.read?_of_mem {c : Config} {place : Place} {param : String}
    {bound free : List String} {b : Binding Expr}
    (hb : b ∈ place.readsOfGroup c param bound free) :
    place.read? c param b.name = some b.value := by
  obtain ⟨n, -, hn⟩ := List.mem_filterMap.mp hb
  split at hn
  · cases hn
  · obtain ⟨e, he, rfl⟩ := Option.map_eq_some_iff.mp hn
    exact he

theorem Place.readsOfGroup_readsOnly (c : Config) (place : Place) (param : String)
    (bound free : List String) : ReadsOnly (place.readsOfGroup c param bound free) :=
  fun _ hb => ⟨_, Place.walk_read? (Place.read?_of_mem hb)⟩

theorem ReadsOnly.filter {bs : List (Binding Expr)} (h : ReadsOnly bs) (p : Binding Expr → Bool) :
    ReadsOnly (bs.filter p) :=
  fun b hb => h b (List.mem_filter.mp hb).1

theorem walk_renamed (e : Expr) : e.renamed.walk = e.walk := by
  cases e with
  | unary p f e => cases f <;> rfl
  | _ => rfl

theorem walk_recordOf (table : String) (l : NameList) (values : List Expr) (row : Option String) :
    (recordOf table l values (row.map Expr.name)).walk =
      values.flatMap Expr.walk ++ reads ([table, table] ++ row.toList) := by
  have hvalues : walkAll (values.map Expr.renamed) = values.flatMap Expr.walk := by
    rw [walkAll_eq_flatMap, List.flatMap_map]
    simp only [walk_renamed]
  cases row <;> simp [recordOf, Expr.walk, hvalues, reads, NameList.access, Expr.index, Expr.name,
    Expr.string, Expr.pos]

/-- A record of the images of a function. -/
theorem RowFunction.walk_record (s : Naming) (path : Path) (f : RowFunction) (l : NameList)
    (row : Option String)
    (h : f.extras s path = [s.config.table, s.config.table] ++ row.toList) :
    (l.record s.config (f.exprs.map (f.image s path)) (row.map Expr.name)).walk =
      f.body s path := by
  rw [NameList.record, walk_recordOf, RowFunction.body, h, List.flatMap_map]

theorem imageAll_eq_map (s : Naming) (place : Place) (param : String) (path : Path)
    (bound : List String) (slot : Nat → Slot) (i : Nat) (es : List Expr) :
    imageAll s place param path bound (.slot ∘ slot) i es =
      (numbered slot i es).map fun p => p.2.image s place param (.slot p.1 :: path) bound false := by
  induction es generalizing i with
  | nil => rfl
  | cons e es ih =>
    rw [imageAll, ih]
    rfl

theorem numbered_exprs (slot : Nat → Slot) (i : Nat) (es : List Expr) :
    (numbered slot i es).map (·.2) = es := by
  induction es generalizing i with
  | nil => rfl
  | cons e es ih => rw [numbered, List.map_cons, ih]

section

variable (s : Naming) (path : Path)

/-- A function whose body reads what the pieces of it read. -/
theorem walk_closeOver (f : RowFunction) {body : Expr} (h : body.walk = f.body s path) :
    let g := f.row.closeOver s.config (f.param s path :: f.joined.toList) (f.param s path)
      (f.exprs.map (·.2)) body
    walkFunction f.row.chain g.params g.body.walk = (Piece.function f).walk s path := by
  intro g
  have hbody : g.body.walk = walkBound s.config.inlinePaths (f.bindings s path) (f.body s path) :=
    (walk_bind ..).trans (by rw [h]; rfl)
  rw [hbody]
  rfl

theorem walk_single (slot : Slot) (row : Row) (joined : Option String) (e : Expr) :
    let param := row.parameter s.name (.slot slot :: path)
    let f := row.closeOver s.config (param :: joined.toList) param [e]
      (e.image s ⟨some row, .plain⟩ param (.slot slot :: path) [] false)
    walkFunction row.chain f.params f.body.walk = (Piece.single slot row joined e).walk s path :=
  walk_closeOver s path ⟨slot, row, joined, .plain, [(slot, e)], none⟩ (by
    simp [RowFunction.body, RowFunction.extras, reads, RowFunction.image, RowFunction.place,
      RowFunction.param])

theorem chain_afterJoins {row : Row} (h : row.chain = row.aliases) (names : List String) :
    (row.afterJoins names).chain = (row.afterJoins names).aliases := by
  induction names generalizing row with
  | nil => exact h
  | cons n ns ih =>
    have hjoined : (row.joined n).chain = (row.joined n).aliases := rfl
    exact ih hjoined

theorem aliases_afterJoins (row : Row) (names : List String) :
    (row.afterJoins names).aliases = row.aliases ++ names := by
  induction names generalizing row with
  | nil => exact (List.append_nil _).symm
  | cons n ns ih =>
    rw [Row.afterJoins, List.foldl_cons]
    refine (ih (row.joined n)).trans ?_
    rw [Row.aliases, List.append_assoc]
    rfl

theorem walk_matchImage (i : Nat) (row : Row) (kind : JoinKind) (name : String)
    (o : Option Expr) :
    ((matchImage s path i row kind name o).toList.flatMap fun f =>
        walkFunction row.chain f.params f.body.walk) =
      (matchPieces i row kind name o).flatMap (Piece.walk s path) := by
  cases o with
  | none => rfl
  | some e =>
    rw [matchImage, matchPieces]
    split
    · rw [List.flatMap_singleton, Option.toList_some, List.flatMap_singleton]
      exact walk_single s path (.joinOn i) row (some name) e
    · rfl

theorem walk_joinsImage {row : Row} (h : row.chain = row.aliases) (i : Nat)
    (js : List (Join Expr)) :
    walkStages ⟨row.aliases, js.map (·.name)⟩ (joinsImage s path i row js) =
      (joinPieces i row js).flatMap (Piece.walk s path) := by
  induction js generalizing i row with
  | nil => rfl
  | cons j js ih =>
    obtain ⟨kind, name, source, on, p⟩ := j
    have hmatch := walk_matchImage s path i row kind name on
    have hjoined : (row.joined name).chain = (row.joined name).aliases := rfl
    have hjs := ih hjoined (i + 1)
    rw [joinsImage, joinPieces, walkStages, List.cons_append, List.flatMap_cons,
      List.flatMap_append, ← hmatch, ← hjs]
    cases matchImage s path i row kind name on <;>
      simp [Stage.walk, Pipeline.walk, walkStages, Piece.walk, Chain.after, Row.aliases, h]

theorem after_joinsImage (row : Row) (i : Nat) (js : List (Join Expr)) :
    (joinsImage s path i row js).foldl Chain.after ⟨row.aliases, js.map (·.name)⟩ =
      ⟨(row.afterJoins (js.map (·.name))).aliases, []⟩ := by
  induction js generalizing i row with
  | nil => rfl
  | cons j js ih =>
    rw [joinsImage, List.foldl_cons]
    exact ih (row.joined j.name) (i + 1)

theorem walk_filterImage {chain : Chain} {row : Row} (h : chain.reached = row.chain)
    (o : Option (Filter Expr)) :
    walkStages chain (filterImage s path row o) =
      (filterPieces row o).flatMap (Piece.walk s path) := by
  cases o with
  | none => rfl
  | some f =>
    rw [filterImage, filterPieces, List.flatMap_singleton,
      ← walk_single s path .predicate row none f.predicate, walkStages, walkStages,
      List.append_nil, h]
    rfl

theorem walk_havingImage (row : Row) (o : Option Expr) :
    ((havingImage s path row o).toList.flatMap fun f => walkFunction row.chain f.params f.body.walk) =
      (havingPieces row o).flatMap (Piece.walk s path) := by
  cases o with
  | none => rfl
  | some e =>
    rw [havingImage, havingPieces, Option.toList_some, List.flatMap_singleton,
      List.flatMap_singleton]
    exact walk_single s path .having row none e

theorem walk_groupingImage {chain : Chain} {row : Row} (h : chain.reached = row.chain)
    (o : Option (Grouping Expr)) :
    walkStages chain (groupingImage s path row o) =
      (groupingPieces row o).flatMap (Piece.walk s path) := by
  obtain _ | ⟨cs, into, having, p⟩ := o
  · rfl
  · let f : RowFunction :=
      ⟨.classifier 0, row, none, .plain, numbered .classifier 0 cs, some false⟩
    have hhaving := walk_havingImage s path (.grouped row (labels cs) into) having
    have hvalues : imageAll s ⟨some row, .plain⟩ (f.param s path) path [] (.slot ∘ .classifier) 0 cs =
        f.exprs.map (f.image s path) := imageAll_eq_map ..
    have hclassifier := walk_closeOver s path f (f.walk_record s path .groups none rfl)
    rw [← hvalues, show f.exprs.map (·.2) = cs from numbered_exprs ..] at hclassifier
    rw [groupingImage, groupingPieces, List.flatMap_cons, ← hhaving, ← hclassifier, walkStages,
      walkStages, List.append_nil, h]
    cases havingImage s path (.grouped row (labels cs) into) having with
    | none => rfl
    | some g =>
      rw [Option.toList_some, List.flatMap_singleton]
      rfl

theorem walk_termsImage {aliases : List String} {row : Row} (h : aliases = row.chain) (i : Nat)
    (ts : List (SortTerm Expr)) :
    walkSpecs aliases (termsImage s path row i ts) =
      (termPieces row i ts).flatMap (Piece.walk s path) := by
  induction ts generalizing i with
  | nil => rfl
  | cons t ts ih =>
    rw [termsImage, termPieces, List.flatMap_cons, ← walk_single s path (.orderKey i) row none t.key,
      ← ih, ← h]
    rfl

theorem walk_sortingImage {chain : Chain} {row : Row} (h : chain.reached = row.chain)
    (o : Option (Sorting Expr)) :
    walkStages chain (sortingImage s path row o) =
      (sortingPieces row o).flatMap (Piece.walk s path) := by
  cases o with
  | none => rfl
  | some sorting =>
    rw [sortingImage, sortingPieces, ← walk_termsImage s path h 0 sorting.terms, walkStages,
      walkStages, List.append_nil]
    rfl

theorem walk_limitImage (chain : Chain) (o : Option (Limit Expr)) :
    walkStages chain (limitImage s path o) =
      (limitPieces o).flatMap (Piece.walk s path) := by
  obtain _ | ⟨_ | offset, size, p⟩ := o
  · rfl
  · simp [limitImage, limitPieces, walkStages, Stage.walk, Piece.walk, Expr.int, Expr.walk]
  · simp [limitImage, limitPieces, walkStages, Stage.walk, Piece.walk]

theorem walk_projectionImage {chain : Chain} {row : Row} (h : chain.reached = row.chain)
    (o : Option (Projection Expr)) :
    walkStages chain (projectionImage s path row o) =
      (projectionPieces row o).flatMap (Piece.walk s path) := by
  obtain _ | ⟨_ | ⟨e, es⟩, p⟩ := o
  · rfl
  · rfl
  · rw [projectionImage, projectionPieces, List.flatMap_singleton, walkStages, walkStages,
      List.append_nil, h]
    cases hwants : wantsRecord (e :: es) with
    | true =>
      let f : RowFunction :=
        ⟨.item 0, row, none, .counted, numbered .item 0 (e :: es), some true⟩
      have hvalues : imageAll s ⟨some row, .counted⟩ (f.param s path) path [] (.slot ∘ .item) 0
          (e :: es) = f.exprs.map (f.image s path) := imageAll_eq_map ..
      have hrecord := walk_closeOver s path f
        (f.walk_record s path .selected (some (f.param s path)) rfl)
      rw [← hvalues, show f.exprs.map (·.2) = e :: es from numbered_exprs ..] at hrecord
      exact hrecord
    | false =>
      cases es with
      | cons e' es => cases hwants
      | nil =>
        let f : RowFunction := ⟨.item 0, row, none, .counted, [(.item 0, e)], none⟩
        refine walk_closeOver s path f ?_
        simp [RowFunction.body, RowFunction.extras, reads, RowFunction.image, f,
          RowFunction.place, RowFunction.param]

theorem after_filterImage (chain : Chain) (row : Row) (o : Option (Filter Expr)) :
    (filterImage s path row o).foldl Chain.after chain = chain := by
  cases o <;> rfl

theorem after_sortingImage (chain : Chain) (row : Row) (o : Option (Sorting Expr)) :
    (sortingImage s path row o).foldl Chain.after chain = chain := by
  cases o <;> rfl

theorem after_limitImage (chain : Chain) (o : Option (Limit Expr)) :
    (limitImage s path o).foldl Chain.after chain = chain := by
  obtain _ | ⟨_ | offset, size, p⟩ := o <;> rfl

/-- The rows that reach the clauses after grouping are those of the query. -/
theorem after_groupingImage (q : Query Expr) :
    ((groupingImage s path q.joinedRow q.grouping).foldl Chain.after
      ⟨q.joinedRow.aliases, []⟩).reached = q.row.chain := by
  have hchain : q.joinedRow.chain = q.joinedRow.aliases :=
    chain_afterJoins (show (Row.table q.table.name).chain = [q.table.name] from rfl) _
  rw [Query.row]
  cases q.grouping with
  | none => exact hchain.symm
  | some g => rfl

theorem nameTable_aliases (q : Query Expr) : q.nameTable.get .aliases = q.aliases := by
  rw [Query.nameTable]
  cases q.grouping <;> cases q.projection <;> simp <;> split <;> simp

/-- In the thunk of a query, under its declarations, is found what is found in its pieces. -/
theorem walk_queryImage (q : Query Expr) :
    (queryImage s path q).walk =
      walkDeclarations (q.pieces.flatMap (Piece.walk s path)) (queryImage s path q).declarations := by
  have htable : (Row.table q.table.name).chain = (Row.table q.table.name).aliases := rfl
  have hjoined : q.joinedRow.chain = q.joinedRow.aliases := chain_afterJoins htable _
  have haliases : (queryImage s path q).aliases = q.aliases := by
    rw [queryImage]
    exact nameTable_aliases q
  have hjoins := walk_joinsImage s path htable 0 q.joins
  have hafter : (joinsImage s path 0 (.table q.table.name) q.joins).foldl Chain.after
      ⟨(Row.table q.table.name).aliases, q.joins.map (·.name)⟩ = ⟨q.joinedRow.aliases, []⟩ :=
    after_joinsImage s path (.table q.table.name) 0 q.joins
  have hgrouped := after_groupingImage s path q
  have hstart : Chain.start q.aliases =
      ⟨(Row.table q.table.name).aliases, q.joins.map (·.name)⟩ := rfl
  have himage : queryImage s path q = ⟨(queryImage s path q).declarations,
      q.table.source.image s ⟨none, .plain⟩ "" (.slot .source :: path) [] false,
      joinsImage s path 0 (.table q.table.name) q.joins ++ filterImage s path q.joinedRow q.filter ++
        groupingImage s path q.joinedRow q.grouping ++ sortingImage s path q.row q.sorting ++
        limitImage s path q.limit ++ projectionImage s path q.row q.projection⟩ := by
    rw [queryImage]
  rw [himage] at haliases
  rw [himage, Thunk.walk, haliases, Pipeline.walk, hstart, Query.pieces]
  simp only [walkStages_append, List.foldl_append, hjoins, hafter, after_filterImage,
    after_sortingImage, after_limitImage, List.flatMap_cons, List.flatMap_append]
  rw [walk_filterImage s path hjoined.symm, walk_groupingImage s path hjoined.symm,
    walk_sortingImage s path hgrouped, walk_limitImage, walk_projectionImage s path hgrouped]
  rfl

end

/-! ## Expressions of the pieces -/

section

variable {P : Expr → Prop}

theorem exprs_single {slot : Slot} {row : Row} {joined : Option String} {e : Expr} (h : P e) :
    ∀ e' ∈ (Piece.single slot row joined e).exprs, P e' := by
  intro e' he
  rw [Piece.single, Piece.exprs, List.map_singleton, List.mem_singleton] at he
  exact he ▸ h

theorem exprs_joinPieces {js : List (Join Expr)} (h : ∀ j ∈ js, P j.source ∧ ∀ e ∈ j.on, P e)
    (i : Nat) (row : Row) : ∀ p ∈ joinPieces i row js, ∀ e ∈ p.exprs, P e := by
  induction js generalizing i row with
  | nil => exact List.forall_mem_nil _
  | cons j js ih =>
    obtain ⟨hsource, hon⟩ := h j List.mem_cons_self
    have hjs := ih (fun j hm => h j (List.mem_cons_of_mem _ hm)) (i + 1) (row.joined j.name)
    rw [joinPieces, List.cons_append]
    refine List.forall_mem_cons.mpr ⟨?_, List.forall_mem_append.mpr ⟨?_, hjs⟩⟩
    · exact List.forall_mem_singleton.mpr hsource
    · cases hopt : j.on with
      | none => exact List.forall_mem_nil _
      | some e =>
        rw [matchPieces]
        split
        · exact List.forall_mem_singleton.mpr (exprs_single (hon e hopt))
        · exact List.forall_mem_nil _

theorem exprs_termPieces {ts : List (SortTerm Expr)} (h : ∀ t ∈ ts, P t.key) (row : Row)
    (i : Nat) : ∀ p ∈ termPieces row i ts, ∀ e ∈ p.exprs, P e := by
  induction ts generalizing i with
  | nil => exact List.forall_mem_nil _
  | cons t ts ih =>
    exact List.forall_mem_cons.mpr ⟨exprs_single (h t List.mem_cons_self),
      ih (fun t hm => h t (List.mem_cons_of_mem _ hm)) (i + 1)⟩

theorem exprs_groupingPieces {o : Option (Grouping Expr)}
    (h : ∀ g ∈ o, (∀ e ∈ g.classifiers, P e) ∧ ∀ e ∈ g.having, P e) (row : Row) :
    ∀ p ∈ groupingPieces row o, ∀ e ∈ p.exprs, P e := by
  obtain _ | ⟨cs, into, having, p⟩ := o
  · exact List.forall_mem_nil _
  · obtain ⟨hcs, hhaving⟩ := h _ rfl
    refine List.forall_mem_cons.mpr ⟨?_, ?_⟩
    · intro e he
      exact hcs e (by rwa [Piece.exprs, numbered_exprs] at he)
    · cases having with
      | none => exact List.forall_mem_nil _
      | some e => exact List.forall_mem_singleton.mpr (exprs_single (hhaving e rfl))

theorem exprs_limitPieces {o : Option (Limit Expr)}
    (h : ∀ l ∈ o, (∀ e ∈ l.offset, P e) ∧ P l.size) :
    ∀ p ∈ limitPieces o, ∀ e ∈ p.exprs, P e := by
  obtain _ | ⟨_ | offset, size, p⟩ := o
  · exact List.forall_mem_nil _
  · exact List.forall_mem_singleton.mpr (List.forall_mem_singleton.mpr (h _ rfl).2)
  · obtain ⟨hoffset, hsize⟩ := h _ rfl
    exact List.forall_mem_cons.mpr ⟨List.forall_mem_singleton.mpr (hoffset offset rfl),
      List.forall_mem_singleton.mpr (List.forall_mem_singleton.mpr hsize)⟩

/-- What holds of every expression of a query holds of those of its pieces. -/
theorem Query.Each.pieces {q : Query Expr} (h : q.Each P) :
    ∀ p ∈ q.pieces, ∀ e ∈ p.exprs, P e := by
  rw [Query.pieces]
  simp only [List.forall_mem_cons, List.forall_mem_append]
  refine ⟨List.forall_mem_singleton.mpr h.source, ⟨⟨⟨⟨?_, ?_⟩, ?_⟩, ?_⟩, ?_⟩, ?_⟩
  · exact exprs_joinPieces h.joins 0 _
  · cases hf : q.filter with
    | none => exact List.forall_mem_nil _
    | some f => exact List.forall_mem_singleton.mpr (exprs_single (h.filter f hf))
  · exact exprs_groupingPieces h.grouping _
  · cases hs : q.sorting with
    | none => exact List.forall_mem_nil _
    | some s => exact exprs_termPieces (h.sorting s hs) _ 0
  · exact exprs_limitPieces h.limit
  · rcases hp : q.projection with _ | ⟨_ | ⟨e, es⟩, p⟩
    · exact List.forall_mem_nil _
    · exact List.forall_mem_nil _
    · refine List.forall_mem_singleton.mpr fun e' he => h.projection _ hp e' ?_
      rwa [Piece.exprs, numbered_exprs] at he

end

/-! ## Names of the rows -/

namespace Piece

/-- The aliases that the rows of the piece have. -/
def rowNames : Piece → List String
  | value _ _ => []
  | function f => f.row.aliases ++ f.joined.toList

end Piece

section

variable {names : List String}

theorem rowNames_single {row : Row} (h : ∀ n ∈ row.aliases, n ∈ names) (slot : Slot) (e : Expr) :
    ∀ n ∈ (Piece.single slot row none e).rowNames, n ∈ names := by
  intro n hn
  exact h n (by simpa [Piece.single, Piece.rowNames] using hn)

theorem rowNames_joinPieces {row : Row} {js : List (Join Expr)}
    (hrow : ∀ n ∈ row.aliases, n ∈ names) (hjs : ∀ j ∈ js, j.name ∈ names) (i : Nat) :
    ∀ p ∈ joinPieces i row js, ∀ n ∈ p.rowNames, n ∈ names := by
  induction js generalizing i row with
  | nil => exact List.forall_mem_nil _
  | cons j js ih =>
    have hj := hjs j List.mem_cons_self
    have hjoined : ∀ n ∈ (row.joined j.name).aliases, n ∈ names :=
      List.forall_mem_append.mpr ⟨hrow, List.forall_mem_singleton.mpr hj⟩
    rw [joinPieces, List.cons_append]
    refine List.forall_mem_cons.mpr ⟨List.forall_mem_nil _, List.forall_mem_append.mpr
      ⟨?_, ih hjoined (fun j hm => hjs j (List.mem_cons_of_mem _ hm)) (i + 1)⟩⟩
    rcases j.on with _ | e
    · exact List.forall_mem_nil _
    · rw [matchPieces]
      split
      · exact List.forall_mem_singleton.mpr hjoined
      · exact List.forall_mem_nil _

theorem rowNames_termPieces {row : Row} (h : ∀ n ∈ row.aliases, n ∈ names) (i : Nat)
    (ts : List (SortTerm Expr)) :
    ∀ p ∈ termPieces row i ts, ∀ n ∈ p.rowNames, n ∈ names := by
  induction ts generalizing i with
  | nil => exact List.forall_mem_nil _
  | cons t ts ih => exact List.forall_mem_cons.mpr ⟨rowNames_single h _ _, ih (i + 1)⟩

theorem rowNames_groupingPieces {row : Row} (h : ∀ n ∈ row.aliases, n ∈ names)
    (o : Option (Grouping Expr)) :
    ∀ p ∈ groupingPieces row o, ∀ n ∈ p.rowNames, n ∈ names := by
  obtain _ | ⟨cs, into, _ | having, p⟩ := o
  · exact List.forall_mem_nil _
  · refine List.forall_mem_singleton.mpr fun n hn => h n ?_
    simpa [Piece.rowNames] using hn
  · refine List.forall_mem_cons.mpr ⟨fun n hn => h n ?_,
      List.forall_mem_singleton.mpr (rowNames_single h .having having)⟩
    simpa [Piece.rowNames] using hn

theorem aliases_joinedRow (q : Query Expr) : q.joinedRow.aliases = q.aliases :=
  aliases_afterJoins ..

theorem aliases_row (q : Query Expr) : q.row.aliases = q.aliases := by
  rw [Query.row]
  cases q.grouping with
  | none => exact aliases_joinedRow q
  | some g => exact aliases_joinedRow q

/-- The rows of a query have no alias but those of the query. -/
theorem Query.rowNames_pieces (q : Query Expr) :
    ∀ p ∈ q.pieces, ∀ n ∈ p.rowNames, n ∈ q.aliases := by
  have hjoined : ∀ n ∈ q.joinedRow.aliases, n ∈ q.aliases := fun n hn => aliases_joinedRow q ▸ hn
  have hrow : ∀ n ∈ q.row.aliases, n ∈ q.aliases := fun n hn => aliases_row q ▸ hn
  rw [Query.pieces]
  simp only [List.forall_mem_cons, List.forall_mem_append]
  refine ⟨List.forall_mem_nil _, ⟨⟨⟨⟨?_, ?_⟩, ?_⟩, ?_⟩, ?_⟩, ?_⟩
  · refine rowNames_joinPieces ?_ (fun j hj => ?_) 0
    · exact List.forall_mem_singleton.mpr List.mem_cons_self
    · exact List.mem_cons_of_mem _ (List.mem_map_of_mem hj)
  · cases q.filter with
    | none => exact List.forall_mem_nil _
    | some f => exact List.forall_mem_singleton.mpr (rowNames_single hjoined _ _)
  · exact rowNames_groupingPieces hjoined q.grouping
  · cases q.sorting with
    | none => exact List.forall_mem_nil _
    | some s => exact rowNames_termPieces hrow 0 s.terms
  · rcases q.limit with _ | ⟨_ | offset, size, p⟩ <;> simp [limitPieces, Piece.rowNames]
  · rcases q.projection with _ | ⟨_ | ⟨e, es⟩, p⟩
    · exact List.forall_mem_nil _
    · exact List.forall_mem_nil _
    · refine List.forall_mem_singleton.mpr fun n hn => hrow n ?_
      simpa [Piece.rowNames] using hn

end

/-! ## Calls -/

/-- What a call without a receiver is. On the rows of a group an aggregate reads all rows, or its
argument for each row before grouping, or its argument at once; any other call is one of its parts.
-/
inductive CallCase where
  | plain
  | allRows
  | eachRow (prior : Row)
  | rowsAtOnce

def Place.callCase (place : Place) (n : String) (args : Nat) : CallCase :=
  match place.reduction? n with
  | none => .plain
  | some (a, prior) =>
    match a.rule? args, args with
    | some .allRows, _ => .allRows
    | some .eachRow, _ + 1 => .eachRow prior
    | some .rowsAtOnce, _ + 1 => .rowsAtOnce
    | _, _ => .plain

/-- The image and the demands of a call without a receiver. -/
inductive CallForm (s : Naming) (place : Place) (param : String) (path : Path)
    (bound : List String) (p : Position) (n : String) : List Expr → Expr → List Demand → Prop
  | plain (ds : List Demand) (es : List Expr) (h : ∀ d ∈ ds, d.wants = false)
    (hcase : place.callCase n es.length = .plain) :
    CallForm s place param path bound p n es
      (.sequence p (.call n) (imageAll s place param path bound .part 0 es))
      (ds ++ demandsAll s.config place path bound .part 0 es)
  | allRows (es : List Expr) (prior : Row) (names : List String) (into : Option String)
    (h : place.row = some (.grouped prior names into))
    (hcase : place.callCase n es.length = .allRows) :
    CallForm s place param path bound p n es (.method p (GroupView.rows param) n []) []
  | eachRow (ds : List Demand) (arg : Expr) (rest : List Expr) (prior : Row)
    (names : List String) (into : Option String)
    (h : place.row = some (.grouped prior names into)) (hds : ∀ d ∈ ds, d.wants = false)
    (hcase : place.callCase n (rest.length + 1) = .eachRow prior) :
    CallForm s place param path bound p n (arg :: rest)
      (.method p (GroupView.rows param) n
        [.lambda arg.pos (prior.close s.config (prior.parameter s.name (.part 0 :: path)) [arg]
          (arg.image s ⟨some prior, place.numbering⟩ (prior.parameter s.name (.part 0 :: path))
            (.part 0 :: path) [] false))])
      (ds ++ (prior.nameDemands (.part 0 :: path) ++
        arg.demands s.config ⟨some prior, place.numbering⟩ (.part 0 :: path) []))
  | rowsAtOnce (arg : Expr) (rest : List Expr) (prior : Row) (names : List String)
    (into : Option String) (h : place.row = some (.grouped prior names into))
    (hcase : place.callCase n (rest.length + 1) = .rowsAtOnce) :
    CallForm s place param path bound p n (arg :: rest)
      (.method p (GroupView.rows param) n [arg.image s place param (.part 0 :: path) bound false])
      (arg.demands s.config place (.part 0 :: path) bound)

/-- An aggregate reads all rows without an argument, and else has just one. -/
theorem Aggregate.rule?_some {a : Aggregate} {n : Nat} {r : Rule} (h : a.rule? n = some r) :
    n = if r = .allRows then 0 else 1 := by
  have hcounts : ∀ rule ∈ a.rules, rule.1 = if rule.2 = .allRows then 0 else 1 := by
    cases a <;> decide
  rw [rule?, Option.map_eq_some_iff] at h
  obtain ⟨rule, hfind, rfl⟩ := h
  have hn : rule.1 = n := by simpa using List.find?_some hfind
  exact hn ▸ hcounts rule (List.mem_of_find?_eq_some hfind)

/-- How many arguments a call on the rows of a group has. -/
theorem Place.callCase_args (place : Place) (n : String) (args : Nat) :
    match place.callCase n args with
    | .plain => True
    | .allRows => args = 0
    | .eachRow _ | .rowsAtOnce => args = 1 := by
  rw [callCase]
  cases place.reduction? n with
  | none => trivial
  | some reduction =>
    obtain ⟨a, prior⟩ := reduction
    cases hrule : a.rule? args with
    | none => simp only [hrule]
    | some rule =>
      have hargs := Aggregate.rule?_some hrule
      cases rule with
      | allRows => simp only [hrule]; exact hargs
      | _ => rw [if_neg nofun] at hargs; subst hargs; simp only [hrule]

theorem Place.row_of_reduction? {place : Place} {n : String} {a : Aggregate} {prior : Row}
    (h : place.reduction? n = some (a, prior)) :
    ∃ names into, place.row = some (.grouped prior names into) := by
  obtain ⟨_ | row, numbering⟩ := place
  · cases h
  · cases row with
    | table b => cases h
    | joined r b => cases h
    | grouped r names into =>
      obtain ⟨b, -, hb⟩ := Option.map_eq_some_iff.mp h
      cases hb
      exact ⟨names, into, rfl⟩

theorem callForm (s : Naming) (place : Place) (param : String) (path : Path) (bound : List String)
    (searched : Bool) (p : Position) (n : String) (es : List Expr) :
    CallForm s place param path bound p n es
      ((Expr.sequence p (.call n) es).image s place param path bound searched)
      ((Expr.sequence p (.call n) es).demands s.config place path bound) := by
  rw [Expr.image, Expr.demands]
  cases hreduction : place.reduction? n with
  | none => exact .plain [] es (List.forall_mem_nil _) (by rw [Place.callCase, hreduction])
  | some reduction =>
    obtain ⟨a, prior⟩ := reduction
    obtain ⟨names, into, hrow⟩ := Place.row_of_reduction? hreduction
    have hreport (m : Diagnostic) : ∀ d ∈ [Demand.report m], d.wants = false :=
      List.forall_mem_singleton.mpr rfl
    cases hrule : a.rule? es.length with
    | none =>
      simp only [hrule]
      exact .plain _ es (hreport _) (by simp only [Place.callCase, hreduction, hrule])
    | some rule =>
      cases es with
      | nil =>
        have hargs : a.rule? 0 = some rule := hrule
        cases rule with
        | allRows =>
          simp only [hrule]
          exact .allRows [] prior names into hrow (by simp [Place.callCase, hreduction, hargs])
        | _ =>
          simp only [hrule]
          exact .plain _ [] (hreport _) (by simp [Place.callCase, hreduction, hargs])
      | cons arg rest =>
        have hargs : a.rule? (rest.length + 1) = some rule := hrule
        cases rule with
        | allRows =>
          simp only [hrule]
          exact .allRows (arg :: rest) prior names into hrow
            (by simp [Place.callCase, hreduction, hargs])
        | eachRow =>
          simp only [hrule]
          rw [List.append_assoc]
          refine .eachRow _ arg rest prior names into hrow (fun d hd => ?_)
            (by simp [Place.callCase, hreduction, hargs])
          split at hd
          · rw [List.mem_singleton.mp hd]
            rfl
          · cases hd
        | rowsAtOnce =>
          simp only [hrule]
          exact .rowsAtOnce arg rest prior names into hrow
            (by simp [Place.callCase, hreduction, hargs])

end Comprehension
