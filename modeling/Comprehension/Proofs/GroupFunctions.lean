import Comprehension.Proofs.Defects
import Comprehension.Proofs.NestedThunks

/-!
Functions of the rows of groups. After `groupby` the clauses of a query read rows that are groups:
`having`, the keys of `orderby` and the items of `select`. Each becomes one function in the thunk, and
so it does in the thunks of nested queries, where the paths that the functions around a thunk put in
place go into its functions too.
-/

namespace Comprehension

/-! ## Functions of a thunk -/

/-- The functions that a stage calls with the rows that reach it. -/
def Stage.functions : Stage → List (Lambda Expr)
  | .join _ _ on => on.toList
  | .filter f | .select f => [f]
  | .groupBy f _ => [f]
  | .orderBy specs => specs.map (·.key)
  | .limit _ _ => []

/-- The functions that stages call with groups: the one that selects among the groups where they are
made, and those of the stages after that. -/
def groupFunctions : List Stage → List (Lambda Expr)
  | [] => []
  | .groupBy _ having :: ss => having.toList ++ ss.flatMap Stage.functions
  | _ :: ss => groupFunctions ss

def Thunk.groupFunctions (t : Thunk) : List (Lambda Expr) :=
  Comprehension.groupFunctions t.pipeline.stages

/-! ## Clauses on groups -/

/-- The piece is a function of a row that is a group. -/
def Piece.onGroups? : Piece → Option RowFunction
  | .function f => if f.row.isGrouped then some f else none
  | .value _ _ => none

theorem Piece.eq_of_onGroups? {f f' : RowFunction} (h : (function f').onGroups? = some f) :
    f = f' := by
  simp only [onGroups?] at h
  split at h
  · exact (Option.some.inj h).symm
  · cases h

/-- The clauses of a query that read groups. -/
def Query.onGroups (q : Query Expr) : List RowFunction := q.pieces.filterMap Piece.onGroups?

/-- The function of a group that a clause becomes. It binds no path, since the row of a group has
none. -/
def RowFunction.onGroup (s : Naming) (path : Path) (f : RowFunction) : Lambda Expr :=
  let images := f.exprs.map (f.image s path)
  ⟨[f.param s path],
    match f.record with
    | some _ => NameList.selected.record s.config images (some (.name (f.param s path)))
    | none => images.headD (.literal .nowhere .null)⟩

section

variable {row : Row} (hrow : row.isGrouped = false)

include hrow

theorem onGroups_single (slot : Slot) (joined : Option String) (e : Expr) :
    [Piece.single slot row joined e].filterMap Piece.onGroups? = [] := by
  simp [Piece.single, Piece.onGroups?, hrow]

theorem onGroups_joinPieces (i : Nat) (js : List (Join Expr)) :
    (joinPieces i row js).filterMap Piece.onGroups? = [] := by
  induction js generalizing i row with
  | nil => rfl
  | cons j js ih =>
    have hmatch : (matchPieces i row j.kind j.name j.on).filterMap Piece.onGroups? = [] := by
      cases j.on with
      | none => rfl
      | some e =>
        rw [matchPieces]
        split
        · exact onGroups_single hrow _ _ e
        · rfl
    have hjs : (joinPieces (i + 1) (row.joined j.name) js).filterMap Piece.onGroups? = [] :=
      ih rfl (i + 1)
    rw [joinPieces, List.cons_append, List.filterMap_cons_none rfl, List.filterMap_append, hmatch,
      hjs]
    rfl

theorem onGroups_filterPieces (o : Option (Filter Expr)) :
    (filterPieces row o).filterMap Piece.onGroups? = [] := by
  cases o with
  | none => rfl
  | some f => exact onGroups_single hrow _ _ f.predicate

theorem onGroups_sortingPieces (o : Option (Sorting Expr)) :
    (sortingPieces row o).filterMap Piece.onGroups? = [] := by
  cases o with
  | none => rfl
  | some sorting =>
    obtain ⟨terms, p⟩ := sorting
    have hterms (i : Nat) : (termPieces row i terms).filterMap Piece.onGroups? = [] := by
      induction terms generalizing i with
      | nil => rfl
      | cons t ts ih =>
        rw [termPieces, ← List.singleton_append, List.filterMap_append, onGroups_single hrow, ih]
        rfl
    exact hterms 0

theorem onGroups_projectionPieces (o : Option (Projection Expr)) :
    (projectionPieces row o).filterMap Piece.onGroups? = [] := by
  obtain _ | ⟨_ | ⟨e, es⟩, p⟩ := o
  · rfl
  · rfl
  · simp [projectionPieces, Piece.onGroups?, hrow]

end

theorem onGroups_limitPieces (o : Option (Limit Expr)) :
    (limitPieces o).filterMap Piece.onGroups? = [] := by
  obtain _ | ⟨_ | offset, size, p⟩ := o <;> rfl

/-! ### Stages -/

section

variable (s : Naming) (path : Path)

theorem groupFunctions_append {ss : List Stage} (h : ∀ s ∈ ss, ∀ f having, s ≠ .groupBy f having)
    (ss' : List Stage) : groupFunctions (ss ++ ss') = groupFunctions ss' := by
  induction ss with
  | nil => rfl
  | cons s ss ih =>
    have hss := ih fun s hs => h s (List.mem_cons_of_mem _ hs)
    have hs := h s List.mem_cons_self
    cases s with
    | groupBy f having => exact absurd rfl (hs f having)
    | _ => exact hss

theorem ungrouping_joinsImage (i : Nat) (row : Row) (js : List (Join Expr)) :
    ∀ stage ∈ joinsImage s path i row js, ∀ f having, stage ≠ .groupBy f having := by
  induction js generalizing i row with
  | nil => exact List.forall_mem_nil _
  | cons j js ih =>
    rw [joinsImage]
    exact List.forall_mem_cons.mpr ⟨fun _ _ => Stage.noConfusion, ih (i + 1) _⟩

theorem ungrouping_filterImage (row : Row) (o : Option (Filter Expr)) :
    ∀ stage ∈ filterImage s path row o, ∀ f having, stage ≠ .groupBy f having := by
  cases o with
  | none => exact List.forall_mem_nil _
  | some f => exact List.forall_mem_singleton.mpr fun _ _ => Stage.noConfusion

/-- Without `groupby` no function is called with groups. -/
theorem groupFunctions_ungrouped (row : Row) (sorting : Option (Sorting Expr))
    (limit : Option (Limit Expr)) (projection : Option (Projection Expr)) :
    groupFunctions (sortingImage s path row sorting ++ (limitImage s path limit ++
      projectionImage s path row projection)) = [] := by
  rcases sorting with _ | sorting <;> rcases limit with _ | ⟨_ | offset, size, p⟩ <;>
    rcases projection with _ | ⟨_ | ⟨e, es⟩, p⟩ <;> rfl

/-! ### Clauses after grouping -/

variable (prior : Row) (names : List String) (into : Option String)

theorem functions_havingImage (o : Option Expr) :
    let row : Row := .grouped prior names into
    (havingImage s path row o).toList =
      ((havingPieces row o).filterMap Piece.onGroups?).map (RowFunction.onGroup s path) := by
  cases o <;> rfl

theorem functions_sortingImage (o : Option (Sorting Expr)) :
    let row : Row := .grouped prior names into
    (sortingImage s path row o).flatMap Stage.functions =
      ((sortingPieces row o).filterMap Piece.onGroups?).map (RowFunction.onGroup s path) := by
  intro row
  cases o with
  | none => rfl
  | some sorting =>
    obtain ⟨terms, p⟩ := sorting
    have hterms (i : Nat) : (termsImage s path row i terms).map (·.key) =
        ((termPieces row i terms).filterMap Piece.onGroups?).map (RowFunction.onGroup s path) := by
      induction terms generalizing i with
      | nil => rfl
      | cons t ts ih => exact congrArg (List.cons _) (ih (i + 1))
    rw [sortingImage, List.flatMap_singleton]
    exact hterms 0

theorem functions_limitImage (o : Option (Limit Expr)) :
    (limitImage s path o).flatMap Stage.functions = [] := by
  obtain _ | ⟨_ | offset, size, p⟩ := o <;> rfl

theorem functions_projectionImage (o : Option (Projection Expr)) :
    let row : Row := .grouped prior names into
    (projectionImage s path row o).flatMap Stage.functions =
      ((projectionPieces row o).filterMap Piece.onGroups?).map (RowFunction.onGroup s path) := by
  intro row
  obtain _ | ⟨_ | ⟨e, es⟩, p⟩ := o
  · rfl
  · rfl
  · let param := row.parameter s.name (.slot (.item 0) :: path)
    have himages := imageAll_eq_map s ⟨some row, .counted⟩ param path [] .item 0 (e :: es)
    rw [projectionImage, projectionPieces]
    cases hrecord : wantsRecord (e :: es) with
    | true =>
      rw [if_pos rfl, if_pos rfl]
      exact congrArg (fun images => [(⟨[param], NameList.selected.record s.config images
        (some (.name param))⟩ : Lambda Expr)]) himages
    | false =>
      -- A value without a record around it is the only one.
      cases es with
      | nil => rfl
      | cons e' es => cases hrecord

end

/-- The row that the clauses after `groupby` read. -/
def Query.groupRow (q : Query Expr) (g : Grouping Expr) : Row :=
  .grouped q.joinedRow (labels g.classifiers) g.into

theorem Query.row_of_grouping {q : Query Expr} {g : Grouping Expr} (h : q.grouping = some g) :
    q.row = q.groupRow g := by
  rw [Query.row, h, Query.groupRow]

/-- Without `groupby` no clause reads groups. -/
theorem Query.onGroups_ungrouped {q : Query Expr} (h : q.grouping = none) : q.onGroups = [] := by
  have hungrouped := joinedRow_ungrouped q
  have hrow : q.row = q.joinedRow := by rw [Query.row, h]
  have hjoins : (joinPieces 0 (.table q.table.name) q.joins).filterMap Piece.onGroups? = [] :=
    onGroups_joinPieces rfl 0 q.joins
  rw [Query.onGroups, Query.pieces, h, hrow, List.filterMap_cons_none rfl]
  simp only [List.filterMap_append, hjoins, onGroups_filterPieces hungrouped, groupingPieces,
    onGroups_sortingPieces hungrouped, onGroups_limitPieces, onGroups_projectionPieces hungrouped]
  rfl

theorem Query.onGroups_grouped {q : Query Expr} {g : Grouping Expr} (h : q.grouping = some g) :
    q.onGroups = (havingPieces (q.groupRow g) g.having ++ sortingPieces (q.groupRow g) q.sorting ++
      projectionPieces (q.groupRow g) q.projection).filterMap Piece.onGroups? := by
  have hungrouped := joinedRow_ungrouped q
  have hrow := q.row_of_grouping h
  have hjoins : (joinPieces 0 (.table q.table.name) q.joins).filterMap Piece.onGroups? = [] :=
    onGroups_joinPieces rfl 0 q.joins
  have hgrouping : (groupingPieces q.joinedRow (some g)).filterMap Piece.onGroups? =
      (havingPieces (q.groupRow g) g.having).filterMap Piece.onGroups? :=
    List.filterMap_cons_none (by simp [Piece.onGroups?, hungrouped])
  rw [Query.onGroups, Query.pieces, h, hrow, List.filterMap_cons_none rfl]
  simp only [List.filterMap_append, hjoins, onGroups_filterPieces hungrouped, hgrouping,
    onGroups_limitPieces, List.append_nil, List.nil_append]

/-- The functions of groups in the thunk of a query are those of its clauses on groups. -/
theorem groupFunctions_queryImage (s : Naming) (path : Path) (q : Query Expr) :
    (queryImage s path q).groupFunctions = q.onGroups.map (RowFunction.onGroup s path) := by
  have hbefore : ∀ stage ∈ joinsImage s path 0 (.table q.table.name) q.joins ++
      filterImage s path q.joinedRow q.filter, ∀ f having, stage ≠ .groupBy f having :=
    List.forall_mem_append.mpr
      ⟨ungrouping_joinsImage s path 0 _ q.joins, ungrouping_filterImage s path _ q.filter⟩
  have hstages : (queryImage s path q).pipeline.stages =
      (joinsImage s path 0 (.table q.table.name) q.joins ++
        filterImage s path q.joinedRow q.filter) ++
        (groupingImage s path q.joinedRow q.grouping ++ (sortingImage s path q.row q.sorting ++
          (limitImage s path q.limit ++ projectionImage s path q.row q.projection))) := by
    rw [queryImage]
    simp only [List.append_assoc]
  rw [Thunk.groupFunctions, hstages, groupFunctions_append hbefore]
  cases h : q.grouping with
  | none => rw [q.onGroups_ungrouped h, groupingImage, List.nil_append, groupFunctions_ungrouped,
      List.map_nil]
  | some g =>
    have hrow := q.row_of_grouping h
    have hhaving := functions_havingImage s path q.joinedRow (labels g.classifiers) g.into g.having
    rw [q.onGroups_grouped h, hrow, groupingImage, List.singleton_append, groupFunctions,
      List.flatMap_append, List.flatMap_append, hhaving, Query.groupRow, functions_sortingImage,
      functions_limitImage, functions_projectionImage, List.filterMap_append,
      List.filterMap_append, List.map_append, List.map_append, List.nil_append, List.append_assoc]

/-- A clause on groups reads the row that `groupby` makes. It is one expression, or a record. -/
theorem Query.onGroups_cases {q : Query Expr} {f : RowFunction} (h : f ∈ q.onGroups) :
    ∃ g, q.grouping = some g ∧ f.row = q.groupRow g ∧ f.joined = none ∧
      (f.record = some true ∨ f.record = none ∧ ∃ p, f.exprs = [p]) := by
  cases hgrouping : q.grouping with
  | none =>
    rw [q.onGroups_ungrouped hgrouping] at h
    cases h
  | some g =>
    refine ⟨g, rfl, ?_⟩
    rw [q.onGroups_grouped hgrouping] at h
    obtain ⟨p, hp, hf⟩ := List.mem_filterMap.mp h
    have hsingle {slot : Slot} {e : Expr} (hp : p = .single slot (q.groupRow g) none e) :
        f.row = q.groupRow g ∧ f.joined = none ∧
          (f.record = some true ∨ f.record = none ∧ ∃ p, f.exprs = [p]) := by
      subst hp
      rw [Piece.eq_of_onGroups? hf]
      exact ⟨rfl, rfl, .inr ⟨rfl, _, rfl⟩⟩
    rcases List.mem_append.mp hp with hp | hp
    · rcases List.mem_append.mp hp with hp | hp
      · cases hopt : g.having with
        | none =>
          rw [hopt] at hp
          cases hp
        | some e =>
          rw [hopt] at hp
          exact hsingle (List.mem_singleton.mp hp)
      · cases hopt : q.sorting with
        | none =>
          rw [hopt] at hp
          cases hp
        | some sorting =>
          rw [hopt] at hp
          have hterms (i : Nat) (ts : List (SortTerm Expr))
              (hp : p ∈ termPieces (q.groupRow g) i ts) :
              ∃ slot e, p = .single slot (q.groupRow g) none e := by
            induction ts generalizing i with
            | nil => cases hp
            | cons t ts ih =>
              rcases List.mem_cons.mp hp with hp | hp
              · exact ⟨_, _, hp⟩
              · exact ih (i + 1) hp
          obtain ⟨slot, e, hp⟩ := hterms 0 sorting.terms hp
          exact hsingle hp
    · rcases hopt : q.projection with _ | ⟨_ | ⟨e, es⟩, pos⟩
      · rw [hopt] at hp
        cases hp
      · rw [hopt] at hp
        cases hp
      · rw [hopt] at hp
        rw [List.mem_singleton.mp hp] at hf
        rw [Piece.eq_of_onGroups? hf]
        refine ⟨rfl, rfl, ?_⟩
        cases hrecord : wantsRecord (e :: es) with
        | true => exact .inl rfl
        | false =>
          cases es with
          | nil => exact .inr ⟨rfl, _, rfl⟩
          | cons e' es => cases hrecord

theorem Query.place_onGroups {q : Query Expr} {f : RowFunction} (h : f ∈ q.onGroups) :
    f.place = ⟨some q.row, f.numbering⟩ := by
  obtain ⟨g, hg, hrow, -⟩ := Query.onGroups_cases h
  rw [RowFunction.place, hrow, q.row_of_grouping hg]

/-- The row of a group goes by a made-up name. -/
theorem Query.param_onGroups {q : Query Expr} {f : RowFunction} (h : f ∈ q.onGroups) (s : Naming)
    (path : Path) : f.param s path = s.name (.slot f.slot :: path) := by
  obtain ⟨g, -, hrow, -⟩ := Query.onGroups_cases h
  rw [RowFunction.param, hrow]
  rfl

/-! ## Substitution -/

/-- The function with bindings put in place in its body. -/
def Lambda.substitute (f : Lambda Expr) (σ : List (Binding Expr)) : Lambda Expr :=
  ⟨f.params, f.body.substitute (without f.params σ)⟩

def Lambda.substituteEach (f : Lambda Expr) (σs : List (List (Binding Expr))) : Lambda Expr :=
  σs.foldl Lambda.substitute f

theorem functions_substitute (σ : List (Binding Expr)) (stage : Stage) :
    (stage.substitute σ).functions = stage.functions.map (Lambda.substitute · σ) := by
  cases stage with
  | join kind joined on => rcases on with _ | ⟨ps, e⟩ <;> rfl
  | groupBy f having => rcases having with _ | ⟨qs, h⟩ <;> rfl
  | orderBy specs =>
    rw [Stage.substitute, Stage.functions, Stage.functions]
    induction specs with
    | nil => rfl
    | cons spec specs ih => exact congrArg (List.cons _) ih
  | filter | select | limit => rfl

theorem groupFunctions_substituteStages (σ : List (Binding Expr)) (ss : List Stage) :
    groupFunctions (substituteStages σ ss) = (groupFunctions ss).map (Lambda.substitute · σ) := by
  have hfunctions (ss : List Stage) : (substituteStages σ ss).flatMap Stage.functions =
      (ss.flatMap Stage.functions).map (Lambda.substitute · σ) := by
    induction ss with
    | nil => rfl
    | cons s ss ih =>
      rw [substituteStages, List.flatMap_cons, List.flatMap_cons, List.map_append,
        functions_substitute, ih]
  induction ss with
  | nil => rfl
  | cons s ss ih =>
    cases s with
    | groupBy f having =>
      rcases having with _ | ⟨qs, h⟩ <;>
        (rw [substituteStages, Stage.substitute, groupFunctions, groupFunctions, List.map_append,
          hfunctions]
         rfl)
    | _ => exact ih

theorem Thunk.groupFunctions_substitute (σ : List (Binding Expr)) (t : Thunk) :
    (t.substitute σ).groupFunctions = t.groupFunctions.map (Lambda.substitute · σ) := by
  obtain ⟨ds, source, stages⟩ := t
  exact groupFunctions_substituteStages σ stages

/-- A list of a thunk that substitution goes into. -/
theorem Thunk.list_substituteEach {α : Type} {list : Thunk → List α}
    {put : α → List (Binding Expr) → α}
    (h : ∀ σ t, list (t.substitute σ) = (list t).map (put · σ))
    (σs : List (List (Binding Expr))) (t : Thunk) :
    list (t.substituteEach σs) = (list t).map fun a => σs.foldl put a := by
  induction σs generalizing t with
  | nil => exact (List.map_id _).symm
  | cons σ σs ih =>
    have hσs := ih (t.substitute σ)
    rw [h, List.map_map] at hσs
    exact hσs

theorem Thunk.groupFunctions_substituteEach (σs : List (List (Binding Expr))) (t : Thunk) :
    (t.substituteEach σs).groupFunctions = t.groupFunctions.map (Lambda.substituteEach · σs) :=
  list_substituteEach groupFunctions_substitute σs t

end Comprehension
