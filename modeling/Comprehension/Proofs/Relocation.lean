import Comprehension.Demand
import Comprehension.Proofs.Induction

/-!
Where a query stands. What lowering asks for at one node is what it asks for at another, with the
nodes to name moved along: reports, failures and the counting of rows do not depend on the node. Nor
do they depend on the binding mode.
-/

namespace Comprehension

/-- The configuration with the given binding mode. -/
def Config.binding (c : Config) (inline : Bool) : Config := { c with inlinePaths := inline }

namespace Demand

/-- The demand as it is made when what stands at the root stands at the path. -/
def relocate (path : Path) : Demand → Demand
  | name node => name (node ++ path)
  | report d => report d
  | countRow => countRow
  | fail f => fail f

theorem outlivesQuery_relocate (path : Path) (d : Demand) :
    (d.relocate path).outlivesQuery = d.outlivesQuery := by
  cases d <;> rfl

end Demand

section

variable (path : Path)

theorem nameDemands_relocate (row : Row) (node : Path) :
    row.nameDemands (node ++ path) = (row.nameDemands node).map (Demand.relocate path) := by
  cases row <;> rfl

theorem declareDemands_relocate (row : Row) (name : String) (p : Position) :
    (row.declareDemands name p).map (Demand.relocate path) = row.declareDemands name p := by
  rw [Row.declareDemands]
  split <;> rfl

theorem directionDemands_relocate (d : Direction) :
    d.demands.map (Demand.relocate path) = d.demands := by
  rw [Direction.demands]
  split <;> rfl

theorem filter_relocate (ds : List Demand) :
    (ds.map (Demand.relocate path)).filter (·.outlivesQuery) =
      (ds.filter (·.outlivesQuery)).map (Demand.relocate path) := by
  rw [List.filter_map]
  congr 2
  funext d
  exact d.outlivesQuery_relocate path

end

/-! ## Demands -/

section

variable (c : Config) (inline : Bool) (path : Path)

/-- Wherever the expression stands, its demands below the path are those without the path, moved. -/
def Relocates (e : Expr) : Prop :=
  ∀ place node bound, e.demands (c.binding inline) place (node ++ path) bound =
    (e.demands c place node bound).map (Demand.relocate path)

variable {c inline path}

theorem demandsAll_relocate {es : List Expr} (h : ∀ e ∈ es, Relocates c inline path e)
    (place : Place) (node : Path) (bound : List String) (step : Nat → Step) (i : Nat) :
    demandsAll (c.binding inline) place (node ++ path) bound step i es =
      (demandsAll c place node bound step i es).map (Demand.relocate path) := by
  induction es generalizing i with
  | nil => rfl
  | cons e es ih =>
    rw [demandsAll, demandsAll, List.map_append, ← h e List.mem_cons_self,
      ih fun e he => h e (List.mem_cons_of_mem _ he)]
    rfl

/-- The name of a row parameter and what a function of the row asks for. -/
theorem namedDemands_relocate {e : Expr} (h : Relocates c inline path e) (row : Row)
    (place : Place) (node : Path) (bound : List String) :
    row.nameDemands (node ++ path) ++ e.demands (c.binding inline) place (node ++ path) bound =
      (row.nameDemands node ++ e.demands c place node bound).map (Demand.relocate path) := by
  rw [nameDemands_relocate, h, List.map_append]

theorem matchDemands_relocate {o : Option Expr} (h : ∀ e ∈ o, Relocates c inline path e)
    (node : Path) (i : Nat) (row : Row) (kind : JoinKind) (p : Position) :
    matchDemands (c.binding inline) (node ++ path) i row kind p o =
      (matchDemands c node i row kind p o).map (Demand.relocate path) := by
  cases o with
  | none =>
    rw [matchDemands, matchDemands]
    split <;> rfl
  | some e =>
    rw [matchDemands, matchDemands]
    split
    · exact namedDemands_relocate (h e rfl) row _ (.slot (.joinOn i) :: node) []
    · rfl

theorem joinsDemands_relocate {js : List (Join Expr)}
    (h : ∀ j ∈ js, Relocates c inline path j.source ∧ ∀ e ∈ j.on, Relocates c inline path e)
    (node : Path) (i : Nat) (row : Row) :
    joinsDemands (c.binding inline) (node ++ path) i row js =
      (joinsDemands c node i row js).map (Demand.relocate path) := by
  induction js generalizing i row with
  | nil => rfl
  | cons j js ih =>
    obtain ⟨hsource, hon⟩ := h j List.mem_cons_self
    have hjoined := hsource ⟨none, .plain⟩ (.slot (.joinSource i) :: node) []
    rw [joinsDemands, joinsDemands, matchDemands_relocate hon,
      ih fun j hj => h j (List.mem_cons_of_mem _ hj)]
    simp only [List.map_append, declareDemands_relocate, ← hjoined, List.cons_append]

theorem filterDemands_relocate {o : Option (Filter Expr)}
    (h : ∀ f ∈ o, Relocates c inline path f.predicate) (node : Path) (row : Row) :
    filterDemands (c.binding inline) (node ++ path) row o =
      (filterDemands c node row o).map (Demand.relocate path) := by
  cases o with
  | none => rfl
  | some f => exact namedDemands_relocate (h f rfl) row _ (.slot .predicate :: node) []

theorem havingDemands_relocate {o : Option Expr} (h : ∀ e ∈ o, Relocates c inline path e)
    (node : Path) (row : Row) :
    havingDemands (c.binding inline) (node ++ path) row o =
      (havingDemands c node row o).map (Demand.relocate path) := by
  cases o with
  | none => rfl
  | some e => exact namedDemands_relocate (h e rfl) row _ (.slot .having :: node) []

theorem groupingDemands_relocate {o : Option (Grouping Expr)}
    (h : ∀ g ∈ o, (∀ e ∈ g.classifiers, Relocates c inline path e) ∧
      ∀ e ∈ g.having, Relocates c inline path e) (node : Path) (row : Row) :
    groupingDemands (c.binding inline) (node ++ path) row o =
      (groupingDemands c node row o).map (Demand.relocate path) := by
  cases o with
  | none => rfl
  | some g =>
    obtain ⟨hcs, hhaving⟩ := h g rfl
    obtain ⟨cs, into, having, p⟩ := g
    have hname := nameDemands_relocate path row (.slot (.classifier 0) :: node)
    have hempty : (if cs.isEmpty then [Demand.fail emptyList] else []).map
        (Demand.relocate path) = if cs.isEmpty then [Demand.fail emptyList] else [] := by
      split <;> rfl
    cases into <;>
      simp only [groupingDemands, List.map_append, hempty, declareDemands_relocate, ← hname,
        demandsAll_relocate hcs, havingDemands_relocate hhaving, List.cons_append, List.map_nil]

theorem termsDemands_relocate {ts : List (SortTerm Expr)}
    (h : ∀ t ∈ ts, Relocates c inline path t.key) (node : Path) (row : Row) (i : Nat) :
    termsDemands (c.binding inline) (node ++ path) row i ts =
      (termsDemands c node row i ts).map (Demand.relocate path) := by
  induction ts generalizing i with
  | nil => rfl
  | cons t ts ih =>
    obtain ⟨key, direction⟩ := t
    have hname := nameDemands_relocate path row (.slot (.orderKey i) :: node)
    have hkey := h _ List.mem_cons_self ⟨some row, .plain⟩ (.slot (.orderKey i) :: node) []
    have hts := ih fun t ht => h t (List.mem_cons_of_mem _ ht)
    cases direction <;>
      simp only [termsDemands, List.map_append, directionDemands_relocate, ← hname, ← hkey, hts,
        List.cons_append, List.map_nil]

theorem sortingDemands_relocate {o : Option (Sorting Expr)}
    (h : ∀ s ∈ o, ∀ t ∈ s.terms, Relocates c inline path t.key) (node : Path) (row : Row) :
    sortingDemands (c.binding inline) (node ++ path) row o =
      (sortingDemands c node row o).map (Demand.relocate path) := by
  cases o with
  | none => rfl
  | some s => exact termsDemands_relocate (h s rfl) node row 0

theorem limitDemands_relocate {o : Option (Limit Expr)}
    (h : ∀ l ∈ o, (∀ e ∈ l.offset, Relocates c inline path e) ∧ Relocates c inline path l.size)
    (node : Path) :
    limitDemands (c.binding inline) (node ++ path) o =
      (limitDemands c node o).map (Demand.relocate path) := by
  obtain _ | ⟨_ | offset, size, p⟩ := o
  · rfl
  · exact (h _ rfl).2 _ (.slot .size :: node) []
  · obtain ⟨hoffset, hsize⟩ := h _ rfl
    rw [limitDemands, limitDemands, List.map_append, ← hoffset offset rfl, ← hsize]
    rfl

theorem projectionDemands_relocate {o : Option (Projection Expr)}
    (h : ∀ p ∈ o, ∀ e ∈ p.items, Relocates c inline path e) (node : Path) (row : Row) :
    projectionDemands (c.binding inline) (node ++ path) row o =
      (projectionDemands c node row o).map (Demand.relocate path) := by
  cases o with
  | none => rfl
  | some p =>
    have hname := nameDemands_relocate path row (.slot (.item 0) :: node)
    rw [projectionDemands, projectionDemands, demandsAll_relocate (h p rfl)]
    split
    · rfl
    · rw [List.map_append, ← hname]
      rfl

theorem queryDemands_relocate {q : Query Expr} (h : q.Each (Relocates c inline path))
    (node : Path) :
    queryDemands (c.binding inline) (node ++ path) q =
      (queryDemands c node q).map (Demand.relocate path) := by
  have hsource := h.source ⟨none, .plain⟩ (.slot .source :: node) []
  rw [queryDemands, queryDemands, joinsDemands_relocate h.joins, filterDemands_relocate h.filter,
    groupingDemands_relocate h.grouping, sortingDemands_relocate h.sorting,
    limitDemands_relocate h.limit, projectionDemands_relocate h.projection]
  simp only [List.map_append, ← hsource, List.cons_append]

end

theorem relocates (c : Config) (inline : Bool) (path : Path) (e : Expr) :
    Relocates c inline path e := by
  induction e using Expr.written_induction with
  | literal | letIn | record | postIncrement | subquery => intro place node bound; rfl
  | var p n =>
    intro place node bound
    have hvar : (place.varDemands c bound n).map (Demand.relocate path) =
        place.varDemands c bound n := by
      rw [Place.varDemands]
      split
      · rfl
      · split
        · cases place.numbering <;> rfl
        · rfl
    exact hvar.symm
  | unary p f e ih => intro place node bound; exact ih place (.part 0 :: node) bound
  | binary p f l r ihl ihr =>
    intro place node bound
    rw [Expr.demands, Expr.demands, List.map_append, ← ihl, ← ihr]
    rfl
  | sequence p f es ih =>
    intro place node bound
    cases f with
    | call n =>
      rw [Expr.demands, Expr.demands]
      split
      · exact demandsAll_relocate ih ..
      · split
        · rfl
        · rename_i a prior _ _ _ arg rest hr
          have harg := namedDemands_relocate (ih arg List.mem_cons_self) prior
            ⟨some prior, place.numbering⟩ (.part 0 :: node) []
          have hreport : (if arg.root? = some c.group then
              [Demand.report ⟨.selectorOverGroup a, arg.pos⟩] else []).map (Demand.relocate path) =
                if arg.root? = some c.group then [.report ⟨.selectorOverGroup a, arg.pos⟩]
                else [] := by
            split <;> rfl
          rw [List.append_assoc, List.append_assoc, List.map_append, hreport, ← harg]
          rfl
        · rename_i arg rest hr
          exact ih arg List.mem_cons_self place (.part 0 :: node) bound
        · rw [demandsAll_relocate ih]
          rfl
    | list | tuple | construct => exact demandsAll_relocate ih ..
  | method p r n es ihr ih =>
    intro place node bound
    rw [Expr.demands, Expr.demands, List.map_append, ← ihr, demandsAll_relocate ih]
    rfl
  | lambda p ps e ih => intro place node bound; exact ih place (.part 0 :: node) (ps ++ bound)
  | query p q hq =>
    intro place node bound
    rw [Expr.demands, Expr.demands, queryDemands_relocate hq, filter_relocate]

/-! ## Queries -/

/-- A query at a path asks for what it asks for at the root, in both binding modes. -/
theorem queryDemands_eq_map (c : Config) (inline : Bool) (path : Path) (q : Query Expr) :
    queryDemands (c.binding inline) path q =
      (queryDemands c [] q).map (Demand.relocate path) :=
  queryDemands_relocate (q.each_of_forall (relocates c inline path)) []

/-- The demands of a query at a path. -/
theorem queryDemands_path (c : Config) (path : Path) (q : Query Expr) :
    queryDemands c path q = (queryDemands c [] q).map (Demand.relocate path) :=
  queryDemands_eq_map c c.inlinePaths path q

theorem queryDemands_binding (c : Config) (inline : Bool) (path : Path) (q : Query Expr) :
    queryDemands (c.binding inline) path q = queryDemands c path q := by
  rw [queryDemands_eq_map, ← queryDemands_path]

/-- Whether a query counts rows does not depend on where it stands. -/
theorem countsRows_path (c : Config) (q : Query Expr) (path path' : Path) :
    countsRows c path q = countsRows c path' q := by
  have hroot (path : Path) :
      .countRow ∈ queryDemands c path q ↔ .countRow ∈ queryDemands c [] q := by
    rw [queryDemands_path, List.mem_map]
    constructor
    · rintro ⟨d, hd, heq⟩
      cases d with
      | countRow => exact hd
      | _ => cases heq
    · exact fun h => ⟨_, h, rfl⟩
  rw [countsRows, countsRows, Bool.eq_iff_iff, List.contains_iff_mem, List.contains_iff_mem, hroot,
    hroot path']

end Comprehension
