import Comprehension.Proofs.MadeUpNames
import Comprehension.Proofs.Pieces

/-!
The structural defects of a query. They are listed clause by clause, in the order of lowering, and
speak of aliases, of counts and of whether the rows are grouped, but not of rows, nodes or names.
Lowering a query of the front end succeeds in every context and reports just these defects, one
diagnostic for each. So the report depends neither on the binding mode nor on what came before.
-/

namespace Comprehension

/-! ## Queries of the front end -/

mutual
/-- The expression holds no node that only lowering makes, and no grouping without a classifier. The
predicate of a crossjoin may be anything, as nothing looks into it. -/
def Expr.isFrontEnd : Expr → Bool
  | .literal _ _ | .var _ _ => true
  | .unary _ _ e => e.isFrontEnd
  | .binary _ _ l r => l.isFrontEnd && r.isFrontEnd
  | .sequence _ _ es => allFrontEnd es
  | .method _ r _ es => r.isFrontEnd && allFrontEnd es
  | .lambda _ ⟨_, body⟩ => body.isFrontEnd
  | .query _ q => queryFrontEnd q
  | .letIn _ _ _ | .record _ _ _ _ _ | .postIncrement _ _ | .subquery _ _ => false

def allFrontEnd : List Expr → Bool
  | [] => true
  | e :: es => e.isFrontEnd && allFrontEnd es

def queryFrontEnd : Query Expr → Bool
  | ⟨⟨_, source, _⟩, joins, filter, grouping, sorting, limit, projection, _⟩ =>
    source.isFrontEnd && joinsFrontEnd joins && filterFrontEnd filter &&
      groupingFrontEnd grouping && sortingFrontEnd sorting && limitFrontEnd limit &&
      projectionFrontEnd projection

def joinsFrontEnd : List (Join Expr) → Bool
  | [] => true
  | ⟨kind, _, source, on, _⟩ :: js =>
    source.isFrontEnd && (kind = .cross || optionFrontEnd on) && joinsFrontEnd js

def optionFrontEnd : Option Expr → Bool
  | some e => e.isFrontEnd
  | none => true

def filterFrontEnd : Option (Filter Expr) → Bool
  | some ⟨e, _⟩ => e.isFrontEnd
  | none => true

def groupingFrontEnd : Option (Grouping Expr) → Bool
  | some ⟨cs, _, having, _⟩ => !cs.isEmpty && allFrontEnd cs && optionFrontEnd having
  | none => true

def sortingFrontEnd : Option (Sorting Expr) → Bool
  | some ⟨terms, _⟩ => termsFrontEnd terms
  | none => true

def termsFrontEnd : List (SortTerm Expr) → Bool
  | [] => true
  | ⟨key, _⟩ :: ts => key.isFrontEnd && termsFrontEnd ts

def limitFrontEnd : Option (Limit Expr) → Bool
  | some ⟨offset, size, _⟩ => optionFrontEnd offset && size.isFrontEnd
  | none => true

def projectionFrontEnd : Option (Projection Expr) → Bool
  | some ⟨items, _⟩ => allFrontEnd items
  | none => true
end

/-! ## Defects -/

/-- An alias, or the name of a group key, that is declared already. -/
def aliasDefects (declared : List String) (name : String) (p : Position) : List Diagnostic :=
  if name ∈ declared then [⟨.aliasDeclared name, p⟩] else []

def directionDefects : Option Direction → List Diagnostic
  | some d => if d.word ∈ ["asc", "desc"] then [] else [⟨.unknownDirection d.word, d.pos⟩]
  | none => []

/-- An argument that is read for each row must not start from the group. -/
def selectorDefects (group : String) (a : Aggregate) (args : List Expr) : List Diagnostic :=
  args.filterMap fun arg =>
    if arg.root? = some group then some ⟨.selectorOverGroup a, arg.pos⟩ else none

mutual
/-- The defects of an expression, which stands after `groupby` or not. The argument of an aggregate
that is read for each row stands before it again, and a nested query starts anew. -/
def Expr.defects (group : String) (grouped : Bool) : Expr → List Diagnostic
  | .literal _ _ | .var _ _ => []
  | .unary _ _ e => e.defects group grouped
  | .binary _ _ l r => l.defects group grouped ++ r.defects group grouped
  | .sequence p (.call n) args =>
    match if grouped then Aggregate.ofName? n else none with
    | none => defectsAll group grouped args
    | some a =>
      match a.rule? args.length with
      | none => ⟨.argumentCount a args.length, p⟩ :: defectsAll group grouped args
      | some .allRows => []
      | some .eachRow => selectorDefects group a args ++ defectsAll group false args
      | some .rowsAtOnce => defectsAll group grouped args
  | .sequence _ _ es => defectsAll group grouped es
  | .method _ r _ es => r.defects group grouped ++ defectsAll group grouped es
  | .lambda _ ⟨_, body⟩ => body.defects group grouped
  | .query _ q => queryDefects group q
  | .letIn _ _ _ | .record _ _ _ _ _ | .postIncrement _ _ | .subquery _ _ => []

def defectsAll (group : String) (grouped : Bool) : List Expr → List Diagnostic
  | [] => []
  | e :: es => e.defects group grouped ++ defectsAll group grouped es

def queryDefects (group : String) : Query Expr → List Diagnostic
  | q@⟨⟨name, source, _⟩, joins, filter, grouping, sorting, limit, projection, _⟩ =>
    source.defects group false ++ joinsDefects group [name] joins ++ filterDefects group filter ++
      groupingDefects group q.aliases grouping ++
      sortingDefects group grouping.isSome sorting ++ limitDefects group limit ++
      projectionDefects group grouping.isSome projection

def joinsDefects (group : String) (declared : List String) : List (Join Expr) → List Diagnostic
  | [] => []
  | ⟨kind, name, source, on, p⟩ :: js =>
    aliasDefects declared name p ++ source.defects group false ++ matchDefects group kind p on ++
      joinsDefects group (declared ++ [name]) js

def matchDefects (group : String) (kind : JoinKind) (p : Position) :
    Option Expr → List Diagnostic
  | some e => if kind.takesPredicate then e.defects group false else [⟨.predicateOnCross, e.pos⟩]
  | none => if kind.takesPredicate then [⟨.predicateMissing kind, p⟩] else []

def filterDefects (group : String) : Option (Filter Expr) → List Diagnostic
  | some ⟨e, _⟩ => e.defects group false
  | none => []

def groupingDefects (group : String) (declared : List String) :
    Option (Grouping Expr) → List Diagnostic
  | some ⟨cs, into, having, p⟩ =>
    (into.elim [] fun n => aliasDefects declared n p) ++ defectsAll group false cs ++
      havingDefects group having
  | none => []

def havingDefects (group : String) : Option Expr → List Diagnostic
  | some e => e.defects group true
  | none => []

def sortingDefects (group : String) (grouped : Bool) : Option (Sorting Expr) → List Diagnostic
  | some ⟨terms, _⟩ => termsDefects group grouped terms
  | none => []

def termsDefects (group : String) (grouped : Bool) : List (SortTerm Expr) → List Diagnostic
  | [] => []
  | ⟨key, direction⟩ :: ts =>
    directionDefects direction ++ key.defects group grouped ++ termsDefects group grouped ts

def limitDefects (group : String) : Option (Limit Expr) → List Diagnostic
  | some ⟨some offset, size, _⟩ => offset.defects group false ++ size.defects group false
  | some ⟨none, size, _⟩ => size.defects group false
  | none => []

def projectionDefects (group : String) (grouped : Bool) :
    Option (Projection Expr) → List Diagnostic
  | some ⟨items, p⟩ =>
    if items.isEmpty then [⟨.selectEmpty, p⟩] else defectsAll group grouped items
  | none => [⟨.selectMissing, .nowhere⟩]
end

/-! ## Reports -/

/-- What a demand reports. -/
def Demand.report? : Demand → Option Diagnostic
  | report d => some d
  | name _ | countRow | fail _ => none

/-- The demands fail nowhere and report the defects, in this order. -/
structure Reports (ds : List Demand) (defects : List Diagnostic) : Prop where
  succeed : ∀ f, .fail f ∉ ds
  report : ds.filterMap Demand.report? = defects

namespace Reports

variable {ds ds' : List Demand} {defects defects' : List Diagnostic}

theorem nil : Reports [] [] := ⟨fun _ => List.not_mem_nil, rfl⟩

theorem single (d : Diagnostic) : Reports [.report d] [d] := ⟨fun _ => by simp, rfl⟩

theorem append (h : Reports ds defects) (h' : Reports ds' defects') :
    Reports (ds ++ ds') (defects ++ defects') := by
  refine ⟨fun f hf => ?_, ?_⟩
  · exact (List.mem_append.mp hf).elim (h.succeed f) (h'.succeed f)
  · rw [List.filterMap_append, h.report, h'.report]

/-- What a query asks for itself alone is no report. -/
theorem outlivesQuery (h : Reports ds defects) : Reports (ds.filter (·.outlivesQuery)) defects := by
  refine ⟨fun f hf => h.succeed f (List.mem_filter.mp hf).1, ?_⟩
  rw [← h.report, List.filterMap_filter]
  congr 1
  funext d
  cases d <;> rfl

theorem nameDemands (row : Row) (node : Path) : Reports (row.nameDemands node) [] := by
  cases row with
  | table a => exact nil
  | joined prior a => exact ⟨fun _ => by simp [Row.nameDemands], rfl⟩
  | grouped prior names into => exact ⟨fun _ => by simp [Row.nameDemands], rfl⟩

/-- The name of a row parameter is asked for without a report. -/
theorem named (h : Reports ds defects) (row : Row) (node : Path) :
    Reports (row.nameDemands node ++ ds) defects := (nameDemands row node).append h

theorem declareDemands (row : Row) (name : String) (p : Position) :
    Reports (row.declareDemands name p) (aliasDefects row.aliases name p) := by
  rw [Row.declareDemands, aliasDefects]
  split
  · exact single _
  · exact nil

theorem directionDemands (o : Option Direction) :
    Reports (match o with | some d => d.demands | none => []) (directionDefects o) := by
  cases o with
  | none => exact nil
  | some d =>
    by_cases h : d.word = "asc" ∨ d.word = "desc"
    · simpa [directionDefects, Direction.demands, h] using nil
    · simpa [directionDefects, Direction.demands, h] using single _

end Reports

/-! ## Places of an open query -/

/-- Where the expressions of an open query stand: off its rows, on a row, or after `groupby` on a
row of groups. The rows of one query are grouped at most once. -/
inductive Place.InQuery : Place → Bool → Prop
  | offRows {numbering : Numbering} (hopen : numbering ≠ .noQuery) :
    InQuery ⟨none, numbering⟩ false
  | onRow {numbering : Numbering} (hopen : numbering ≠ .noQuery) {row : Row}
    (h : row.isGrouped = false) : InQuery ⟨some row, numbering⟩ false
  | onGroup {numbering : Numbering} (hopen : numbering ≠ .noQuery) {prior : Row}
    {names : List String} {into : Option String} (h : prior.isGrouped = false) :
    InQuery ⟨some (.grouped prior names into), numbering⟩ true

theorem Place.InQuery.opened {place : Place} {grouped : Bool} (h : place.InQuery grouped) :
    place.numbering ≠ .noQuery := by
  cases h with
  | offRows hopen | onRow hopen | onGroup hopen => exact hopen

theorem afterJoins_ungrouped {row : Row} (h : row.isGrouped = false) (names : List String) :
    (row.afterJoins names).isGrouped = false := by
  induction names generalizing row with
  | nil => exact h
  | cons n names ih =>
    have hjoined : (row.joined n).isGrouped = false := rfl
    exact ih hjoined

theorem joinedRow_ungrouped (q : Query Expr) : q.joinedRow.isGrouped = false := by
  have htable : (Row.table q.table.name).isGrouped = false := rfl
  exact afterJoins_ungrouped htable _

/-- The clauses after `groupby` stand on a row of groups just if there is a `groupby`. -/
theorem Query.row_inQuery (q : Query Expr) {numbering : Numbering} (hopen : numbering ≠ .noQuery) :
    Place.InQuery ⟨some q.row, numbering⟩ q.grouping.isSome := by
  rw [Query.row]
  cases q.grouping with
  | none => exact .onRow hopen (joinedRow_ungrouped q)
  | some g => exact .onGroup hopen (joinedRow_ungrouped q)

/-! ## Expressions -/

section

variable {c : Config}

/-- Wherever the expression stands in an open query, what it asks for reports its defects. -/
def ReportsDefects (c : Config) (e : Expr) : Prop :=
  e.isFrontEnd = true → ∀ (place : Place) {grouped : Bool}, place.InQuery grouped →
    ∀ (path : Path) (bound : List String),
      Reports (e.demands c place path bound) (e.defects c.group grouped)

theorem reports_demandsAll {es : List Expr} (h : ∀ e ∈ es, ReportsDefects c e)
    (hes : allFrontEnd es = true) (place : Place) {grouped : Bool}
    (hplace : place.InQuery grouped) (path : Path)
    (bound : List String) (step : Nat → Step) (i : Nat) :
    Reports (demandsAll c place path bound step i es) (defectsAll c.group grouped es) := by
  induction es generalizing i with
  | nil => exact .nil
  | cons e es ih =>
    rw [allFrontEnd, Bool.and_eq_true] at hes
    rw [demandsAll, defectsAll]
    exact (h e List.mem_cons_self hes.1 place hplace _ bound).append
      (ih (fun e he => h e (List.mem_cons_of_mem _ he)) hes.2 (i + 1))

theorem reports_varDemands {place : Place} (hopen : place.numbering ≠ .noQuery)
    (bound : List String) (n : String) : Reports (place.varDemands c bound n) [] := by
  rw [Place.varDemands]
  split
  · exact .nil
  · split
    · cases hnumbering : place.numbering with
      | noQuery => exact absurd hnumbering hopen
      | plain => exact .nil
      | counted => exact ⟨fun _ => by simp, rfl⟩
    · exact .nil

/-- A call is an aggregate on the rows of a group only, and the rows before `groupby` are none. -/
theorem reduction?_cases {place : Place} {grouped : Bool} (hplace : place.InQuery grouped)
    (n : String) :
    (place.reduction? n = none ∧ (if grouped then Aggregate.ofName? n else none) = none) ∨
      ∃ a prior, place.reduction? n = some (a, prior) ∧
        (if grouped then Aggregate.ofName? n else none) = some a ∧
        Place.InQuery ⟨some prior, place.numbering⟩ false := by
  cases hplace with
  | offRows hopen => exact .inl ⟨rfl, rfl⟩
  | @onRow _ hopen row h =>
    cases row with
    | table a => exact .inl ⟨rfl, rfl⟩
    | joined prior a => exact .inl ⟨rfl, rfl⟩
    | grouped prior names into => cases h
  | @onGroup numbering hopen prior names into h =>
    have hreduction : Place.reduction? ⟨some (.grouped prior names into), numbering⟩ n =
        (Aggregate.ofName? n).map (·, prior) := rfl
    rw [hreduction]
    cases Aggregate.ofName? n with
    | none => exact .inl ⟨rfl, rfl⟩
    | some a => exact .inr ⟨a, prior, rfl, rfl, .onRow hopen h⟩

theorem reports_call {es : List Expr} (h : ∀ e ∈ es, ReportsDefects c e)
    (hes : allFrontEnd es = true) (place : Place) {grouped : Bool}
    (hplace : place.InQuery grouped) (path : Path)
    (bound : List String) (p : Position) (n : String) :
    Reports ((Expr.sequence p (.call n) es).demands c place path bound)
      ((Expr.sequence p (.call n) es).defects c.group grouped) := by
  have hplain := reports_demandsAll h hes place hplace path bound .part 0
  rw [Expr.demands, Expr.defects]
  rcases reduction?_cases hplace n with ⟨hreduction, hname⟩ | ⟨a, prior, hreduction, hname, hprior⟩
  · simp only [hreduction, hname]
    exact hplain
  · simp only [hreduction, hname]
    cases hrule : a.rule? es.length with
    | none => exact (Reports.single _).append hplain
    | some rule =>
      have hlength := Aggregate.rule?_some hrule
      cases rule with
      | allRows => exact .nil
      | eachRow =>
        obtain ⟨arg, rfl⟩ := List.length_eq_one_iff.mp hlength
        have harg := reports_demandsAll h hes _ hprior path [] .part 0
        have hselector : Reports
            (if arg.root? = some c.group then [.report ⟨.selectorOverGroup a, arg.pos⟩] else [])
            (selectorDefects c.group a [arg]) := by
          by_cases hroot : arg.root? = some c.group
          · simpa [selectorDefects, hroot] using Reports.single _
          · simpa [selectorDefects, hroot] using Reports.nil
        simpa [demandsAll] using hselector.append (harg.named prior (.part 0 :: path))
      | rowsAtOnce =>
        obtain ⟨arg, rfl⟩ := List.length_eq_one_iff.mp hlength
        simpa [demandsAll] using hplain

end

/-! ## Clauses -/

section

variable {c : Config} (path : Path)

theorem reports_matchDemands {o : Option Expr} (h : ∀ e ∈ o, ReportsDefects c e) {kind : JoinKind}
    (hfront : (kind = .cross || optionFrontEnd o) = true) (i : Nat) {row : Row}
    (hrow : row.isGrouped = false) (p : Position) :
    Reports (matchDemands c path i row kind p o) (matchDefects c.group kind p o) := by
  cases o with
  | none =>
    rw [matchDemands, matchDefects]
    split
    · exact .single _
    · exact .nil
  | some e =>
    by_cases hkind : kind = .cross
    · subst hkind
      exact .single _
    · have htakes := JoinKind.takesPredicate_iff.mpr hkind
      have hfront : e.isFrontEnd = true := by simpa [hkind, optionFrontEnd] using hfront
      rw [matchDemands, matchDefects, if_pos htakes, if_pos htakes]
      exact (h e rfl hfront ⟨some row, .plain⟩ (.onRow (by decide) hrow) _ _).named row _

theorem reports_joinsDemands {js : List (Join Expr)}
    (h : ∀ j ∈ js, ReportsDefects c j.source ∧ ∀ e ∈ j.on, ReportsDefects c e)
    (hfront : joinsFrontEnd js = true) (i : Nat) {row : Row} (hrow : row.isGrouped = false) :
    Reports (joinsDemands c path i row js) (joinsDefects c.group row.aliases js) := by
  induction js generalizing i row with
  | nil => exact .nil
  | cons j js ih =>
    obtain ⟨kind, name, source, on, p⟩ := j
    obtain ⟨hsource, hon⟩ := h _ List.mem_cons_self
    simp only [joinsFrontEnd, Bool.and_eq_true] at hfront
    obtain ⟨⟨hfsource, hfon⟩, hfjs⟩ := hfront
    have hjoined : (row.joined name).isGrouped = false := rfl
    rw [joinsDemands, joinsDefects]
    exact (((Reports.declareDemands row name p).append
      (hsource hfsource ⟨none, .plain⟩ (.offRows (by decide)) _ _)).append
        (reports_matchDemands path hon hfon i hrow p)).append
          (ih (fun j hj => h j (List.mem_cons_of_mem _ hj)) hfjs (i + 1) hjoined)

theorem reports_filterDemands {o : Option (Filter Expr)}
    (h : ∀ f ∈ o, ReportsDefects c f.predicate) (hfront : filterFrontEnd o = true) {row : Row}
    (hrow : row.isGrouped = false) :
    Reports (filterDemands c path row o) (filterDefects c.group o) := by
  cases o with
  | none => exact .nil
  | some f => exact (h f rfl hfront ⟨some row, .plain⟩ (.onRow (by decide) hrow) _ _).named row _

theorem reports_havingDemands {o : Option Expr} (h : ∀ e ∈ o, ReportsDefects c e)
    (hfront : optionFrontEnd o = true) {row : Row} (hrow : row.isGrouped = false)
    (names : List String) (into : Option String) :
    Reports (havingDemands c path (.grouped row names into) o) (havingDefects c.group o) := by
  cases o with
  | none => exact .nil
  | some e =>
    have hplace : Place.InQuery ⟨some (.grouped row names into), .plain⟩ true :=
      .onGroup (by decide) hrow
    exact (h e rfl hfront _ hplace _ _).named _ _

theorem reports_groupingDemands {o : Option (Grouping Expr)}
    (h : ∀ g ∈ o, (∀ e ∈ g.classifiers, ReportsDefects c e) ∧ ∀ e ∈ g.having, ReportsDefects c e)
    (hfront : groupingFrontEnd o = true) {row : Row} (hrow : row.isGrouped = false) :
    Reports (groupingDemands c path row o) (groupingDefects c.group row.aliases o) := by
  cases o with
  | none => exact .nil
  | some g =>
    obtain ⟨cs, into, having, p⟩ := g
    obtain ⟨hcs, hhaving⟩ := h _ rfl
    simp only [groupingFrontEnd, Bool.and_eq_true, Bool.not_eq_true'] at hfront
    obtain ⟨⟨hempty, hfcs⟩, hfhaving⟩ := hfront
    have hinto : Reports
        (match into with
          | some n => row.declareDemands n p
          | none => [])
        (into.elim [] fun n => aliasDefects row.aliases n p) := by
      cases into with
      | none => exact .nil
      | some n => exact .declareDemands row n p
    have hclassifiers := (reports_demandsAll hcs hfcs ⟨some row, .plain⟩ (.onRow (by decide) hrow)
      path [] (.slot ∘ .classifier) 0).named row (.slot (.classifier 0) :: path)
    have hclauses := (hinto.append hclassifiers).append
      (reports_havingDemands path hhaving hfhaving hrow (labels cs) into)
    cases into <;> simpa [groupingDemands, groupingDefects, hempty] using hclauses

theorem reports_termsDemands {ts : List (SortTerm Expr)} (h : ∀ t ∈ ts, ReportsDefects c t.key)
    (hfront : termsFrontEnd ts = true) {row : Row} {grouped : Bool}
    (hrow : Place.InQuery ⟨some row, .plain⟩ grouped) (i : Nat) :
    Reports (termsDemands c path row i ts) (termsDefects c.group grouped ts) := by
  induction ts generalizing i with
  | nil => exact .nil
  | cons t ts ih =>
    obtain ⟨key, direction⟩ := t
    rw [termsFrontEnd, Bool.and_eq_true] at hfront
    have hkey := (h _ List.mem_cons_self hfront.1 _ hrow (.slot (.orderKey i) :: path)
      []).named row (.slot (.orderKey i) :: path)
    have hterms := ((Reports.directionDemands direction).append hkey).append
      (ih (fun t ht => h t (List.mem_cons_of_mem _ ht)) hfront.2 (i + 1))
    cases direction <;> simpa [termsDemands, termsDefects] using hterms

theorem reports_sortingDemands {o : Option (Sorting Expr)}
    (h : ∀ s ∈ o, ∀ t ∈ s.terms, ReportsDefects c t.key) (hfront : sortingFrontEnd o = true)
    {row : Row} {grouped : Bool} (hrow : Place.InQuery ⟨some row, .plain⟩ grouped) :
    Reports (sortingDemands c path row o) (sortingDefects c.group grouped o) := by
  cases o with
  | none => exact .nil
  | some s => exact reports_termsDemands path (h s rfl) hfront hrow 0

theorem reports_limitDemands {o : Option (Limit Expr)}
    (h : ∀ l ∈ o, (∀ e ∈ l.offset, ReportsDefects c e) ∧ ReportsDefects c l.size)
    (hfront : limitFrontEnd o = true) :
    Reports (limitDemands c path o) (limitDefects c.group o) := by
  cases o with
  | none => exact .nil
  | some l =>
    obtain ⟨offset, size, p⟩ := l
    obtain ⟨hoffset, hsize⟩ := h _ rfl
    rw [limitFrontEnd, Bool.and_eq_true] at hfront
    have hplace : Place.InQuery ⟨none, .plain⟩ false := .offRows (by decide)
    have hbound := hsize hfront.2 _ hplace (.slot .size :: path) []
    cases offset with
    | none => exact hbound
    | some offset => exact (hoffset offset rfl hfront.1 _ hplace _ _).append hbound

theorem reports_projectionDemands {o : Option (Projection Expr)}
    (h : ∀ p ∈ o, ∀ e ∈ p.items, ReportsDefects c e) (hfront : projectionFrontEnd o = true)
    {row : Row} {grouped : Bool} (hrow : Place.InQuery ⟨some row, .counted⟩ grouped) :
    Reports (projectionDemands c path row o) (projectionDefects c.group grouped o) := by
  cases o with
  | none => exact .single _
  | some p =>
    obtain ⟨items, p⟩ := p
    rw [projectionDemands, projectionDefects]
    split
    · exact .single _
    · exact (reports_demandsAll (h _ rfl) hfront _ hrow path [] (.slot ∘ .item) 0).named row _

/-- A query reports the defects of its clauses. -/
theorem reports_queryDemands {q : Query Expr} (h : q.Each (ReportsDefects c))
    (hfront : queryFrontEnd q = true) :
    Reports (queryDemands c path q) (queryDefects c.group q) := by
  rw [queryFrontEnd] at hfront
  simp only [Bool.and_eq_true] at hfront
  obtain ⟨⟨⟨⟨⟨⟨hsource, hjoins⟩, hfilter⟩, hgrouping⟩, hsorting⟩, hlimit⟩, hprojection⟩ := hfront
  have htable : (Row.table q.table.name).isGrouped = false := rfl
  have hrow := joinedRow_ungrouped q
  have haliases : q.joinedRow.aliases = q.aliases := aliases_joinedRow q
  rw [queryDemands, queryDefects]
  refine .append (.append (.append (.append (.append (.append ?_ ?_) ?_) ?_) ?_) ?_) ?_
  · exact h.source hsource ⟨none, .plain⟩ (.offRows (by decide)) _ _
  · exact reports_joinsDemands path h.joins hjoins 0 htable
  · exact reports_filterDemands path h.filter hfilter hrow
  · exact haliases ▸ reports_groupingDemands path h.grouping hgrouping hrow
  · exact reports_sortingDemands path h.sorting hsorting (q.row_inQuery (by decide))
  · exact reports_limitDemands path h.limit hlimit
  · exact reports_projectionDemands path h.projection hprojection (q.row_inQuery (by decide))

end

theorem reportsDefects (c : Config) (e : Expr) : ReportsDefects c e := by
  induction e using Expr.written_induction with
  | literal p v => intro _ place _ hplace path bound; exact .nil
  | var p n => intro _ place _ hplace path bound; exact reports_varDemands hplace.opened bound n
  | unary p f e ih => intro hfront place _ hplace path bound; exact ih hfront place hplace _ _
  | binary p f l r ihl ihr =>
    intro hfront place _ hplace path bound
    rw [Expr.isFrontEnd, Bool.and_eq_true] at hfront
    exact (ihl hfront.1 place hplace _ _).append (ihr hfront.2 place hplace _ _)
  | sequence p f es ih =>
    intro hfront place _ hplace path bound
    cases f with
    | call n => exact reports_call ih hfront place hplace path bound p n
    | list | tuple | construct =>
      exact reports_demandsAll ih hfront place hplace path bound .part 0
  | method p r n es ihr ih =>
    intro hfront place _ hplace path bound
    rw [Expr.isFrontEnd, Bool.and_eq_true] at hfront
    exact (ihr hfront.1 place hplace _ _).append
      (reports_demandsAll ih hfront.2 place hplace path bound .part 1)
  | lambda p ps e ih => intro hfront place _ hplace path bound; exact ih hfront place hplace _ _
  | query p q hq =>
    intro hfront place _ hplace path bound
    exact (reports_queryDemands path hq hfront).outlivesQuery
  | letIn | record | postIncrement | subquery => intro hfront; cases hfront

/-! ## Runs -/

theorem outcome_reported {ds : List Demand} (h : ∀ f, .fail f ∉ ds) :
    (outcome ds).2 = ds.filterMap Demand.report? := by
  induction ds with
  | nil => rfl
  | cons d ds ih =>
    have hds := ih fun f hf => h f (List.mem_cons_of_mem _ hf)
    cases d with
    | report d => exact congrArg (d :: ·) hds
    | fail f => exact absurd List.mem_cons_self (h f)
    | _ => exact hds

namespace Context

/-- A run that fails nowhere adds what is reported to the mistakes. -/
theorem perform_reports {ds : List Demand} {defects : List Diagnostic} (h : Reports ds defects)
    (ctx : Context) :
    (ctx.perform ds).1 = .ok () ∧ (ctx.perform ds).2.mistakes = ctx.mistakes ++ defects := by
  obtain ⟨hresult, hmistakes⟩ := ctx.perform_outcome ds
  rw [outcome_ok.mpr h.succeed] at hresult
  rw [outcome_reported h.succeed, h.report] at hmistakes
  exact ⟨hresult, hmistakes⟩

theorem lower_reports {q : Query Expr} (h : queryFrontEnd q = true) (ctx : Context) (node : Path) :
    (∃ t, (ctx.lower node q).1 = .ok t) ∧
      (ctx.lower node q).2.mistakes = ctx.mistakes ++ queryDefects ctx.config.group q := by
  let opened := if ctx.frames.isEmpty then
      (ctx.reserve [ctx.config.table, ctx.config.counter]).reserve q.identifiers
    else ctx
  have hopened : opened.config = ctx.config ∧ opened.mistakes = ctx.mistakes := by
    simp only [opened]
    split <;> exact ⟨rfl, rfl⟩
  have hreports := (reports_queryDemands node (q.each_of_forall (reportsDefects opened.config))
    h).outlivesQuery
  obtain ⟨hok, hmistakes⟩ := perform_reports hreports opened
  rw [hopened.1, hopened.2] at hmistakes
  exact ⟨⟨_, congrArg (Except.map _) hok⟩, hopened.1 ▸ hmistakes⟩

end Context

/-- A query of the front end is lowered in every context. The run adds one mistake for each defect,
in order, and a query on its own is accepted just if it has none. -/
theorem lower_reports_defects {q : Query Expr} (h : queryFrontEnd q = true) :
    (∀ (ctx : Context) (node : Path),
      (∃ t, (ctx.lower node q).1 = .ok t) ∧
        (ctx.lower node q).2.mistakes = ctx.mistakes ++ queryDefects ctx.config.group q) ∧
      ∀ c : Config, c.fault? = none →
        ((∃ t, q.lower c = .ok t) ↔ queryDefects c.group q = []) := by
  refine ⟨fun ctx node => Context.lower_reports h ctx node, fun c hc => ?_⟩
  obtain ⟨⟨t, ht⟩, hmistakes⟩ := Context.lower_reports h (Context.new c) []
  have hlower : (Context.new c).lower [] q = (.ok t, ((Context.new c).lower [] q).2) :=
    Prod.ext ht rfl
  have hdefects : ((Context.new c).lower [] q).2.mistakes = queryDefects c.group q := hmistakes
  rw [Query.lower, hc, hlower]
  simp only [hdefects, List.isEmpty_iff]
  split
  · rename_i hnil
    exact ⟨fun _ => hnil, fun _ => ⟨t, rfl⟩⟩
  · rename_i hsome
    refine ⟨?_, fun hnil => absurd hnil hsome⟩
    rintro ⟨_, h⟩
    cases h

/-- `from a in as innerjoin a in bs groupby a.k having count(1, 2) orderby sum(_g.v) in up`. -/
def muddled : Query Expr where
  table := ⟨"a", Expr.name "as", ⟨1, 6⟩⟩
  joins := [⟨.inner, "a", Expr.name "bs", none, ⟨2, 1⟩⟩]
  filter := none
  grouping := some ⟨[(Expr.name "a").field "k"], none,
    some (.sequence ⟨4, 8⟩ (.call "count") [Expr.int 1, Expr.int 2]), ⟨3, 1⟩⟩
  sorting := some ⟨[⟨Expr.call "sum" [(Expr.var ⟨5, 13⟩ "_g").field "v"],
    some ⟨"up", ⟨5, 22⟩⟩⟩], ⟨5, 1⟩⟩
  limit := none
  projection := none
  pos := ⟨1, 1⟩

/-- Nearly every clause has a defect, and all are reported. -/
theorem lower_reports_defects_muddled :
    queryFrontEnd muddled = true ∧ Config.standard.fault? = none ∧
      ((Context.new .standard).lower [] muddled).2.mistakes =
        [⟨.aliasDeclared "a", ⟨2, 1⟩⟩, ⟨.predicateMissing .inner, ⟨2, 1⟩⟩,
          ⟨.argumentCount .count 2, ⟨4, 8⟩⟩, ⟨.unknownDirection "up", ⟨5, 22⟩⟩,
          ⟨.selectorOverGroup .sum, ⟨5, 13⟩⟩, ⟨.selectMissing, .nowhere⟩] ∧
      ¬∃ t, muddled.lower .standard = .ok t := by
  have hfront : queryFrontEnd muddled = true := rfl
  have hconfig : Config.standard.fault? = none := by decide
  obtain ⟨hrun, haccepted⟩ := lower_reports_defects hfront
  exact ⟨hfront, hconfig, (hrun (Context.new .standard) []).2.trans (by decide),
    fun h => nomatch (haccepted .standard hconfig).mp h⟩

end Comprehension
