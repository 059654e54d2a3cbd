import Comprehension.Proofs.Arguments
import Comprehension.Proofs.ContextIndependence
import Comprehension.Proofs.GroupNames
import Comprehension.Proofs.Runs

/-!
The calls of a chain. Each clause of a query that is there becomes one call, in the order of the
clauses, and the clause alone decides which call it is and how many arguments it has. The functions
among the arguments take the row that reaches the clause. So it is in the thunks of nested queries at
every depth, also where mistakes are reported.
-/

namespace Comprehension

/-! ## Clauses -/

/-- A clause that becomes a call, with the row that reaches it. -/
inductive Clause where
  | join (row : Row) (join : Join Expr)
  | filter (row : Row) (filter : Filter Expr)
  | grouping (row : Row) (grouping : Grouping Expr)
  | sorting (row : Row) (sorting : Sorting Expr)
  | limit (limit : Limit Expr)
  | projection (row : Row) (items : List Expr)

/-- The row before a join is that of the joins before it. -/
def joinClauses (row : Row) : List (Join Expr) → List Clause
  | [] => []
  | j :: js => .join row j :: joinClauses (row.joined j.name) js

/-- The clauses of a query in their order. A projection without items becomes no call. -/
def Query.clauses (q : Query Expr) : List Clause :=
  joinClauses (.table q.table.name) q.joins ++ (q.filter.map (.filter q.joinedRow)).toList ++
    (q.grouping.map (.grouping q.joinedRow)).toList ++ (q.sorting.map (.sorting q.row)).toList ++
    (q.limit.map .limit).toList ++ (q.selection?.map (.projection q.row)).toList

/-- The name of the call and the number of its arguments. -/
def Clause.call : Clause → String × Nat
  | join _ j => (j.kind.callee, if j.kind ≠ .cross ∧ j.on.isSome then 2 else 1)
  | filter _ _ => ("where", 1)
  | grouping _ g => ("groupBy", if g.having.isSome then 2 else 1)
  | sorting _ s => ("orderBy", s.terms.length)
  | limit _ => ("limit", 2)
  | projection _ _ => ("select", 1)

/-! ## Functions of rows -/

/-- What a function calls the row: a table row goes by its alias, any other row by the name that
some node was given. -/
def Row.GoesBy (names : NameSupply) (n : String) : Row → Prop
  | .table a => n = a
  | .joined _ _ | .grouped _ _ _ => ∃ node, names.assigned? node = some n

/-- The function takes the row, and the joined value if there is one. -/
def Lambda.Takes (names : NameSupply) (row : Row) (joined : Option String) (f : Lambda Expr) :
    Prop :=
  ∃ n, row.GoesBy names n ∧ f.params = n :: joined.toList

/-- The key of an order term reads the row, and the order is turned round by one word only. -/
def SortTerm.Becomes (names : NameSupply) (row : Row) (term : SortTerm Expr)
    (spec : SortSpec Expr) : Prop :=
  spec.key.Takes names row none ∧
    (spec.ascending = false ↔ term.direction.map (·.word) = some "desc")

/-- The call that a clause becomes. A joined chain is `from` alone. -/
inductive Clause.Becomes (names : NameSupply) : Clause → Stage → Prop
  | matched {row j source f} (hkind : j.kind ≠ .cross) (hon : j.on.isSome)
      (hf : f.Takes names row (some j.name)) :
      Becomes names (.join row j) (.join j.kind ⟨source, []⟩ (some f))
  | unmatched {row j source} (hon : j.kind = .cross ∨ j.on = none) :
      Becomes names (.join row j) (.join j.kind ⟨source, []⟩ none)
  | filter {row c f} (hf : f.Takes names row none) : Becomes names (.filter row c) (.filter f)
  | grouping {row g f having} (hf : f.Takes names row none)
      (hsome : having.isSome = g.having.isSome)
      (hhaving : ∀ h ∈ having, h.Takes names (.grouped row (labels g.classifiers) g.into) none) :
      Becomes names (.grouping row g) (.groupBy f having)
  | sorting {row s specs} (hterms : List.Forall₂ (SortTerm.Becomes names row) s.terms specs) :
      Becomes names (.sorting row s) (.orderBy specs)
  | limit {l offset size} : Becomes names (.limit l) (.limit offset size)
  | projection {row es f} (hf : f.Takes names row none) :
      Becomes names (.projection row es) (.select f)

/-! ## Calls -/

/-- The last call of a chain. -/
def Pipeline.call (p : Pipeline) : String × Nat :=
  match p.stages.getLast? with
  | some s => (s.callee, s.arity)
  | none => ("from", 1)

/-- The chains that end after each call are called by the calls. -/
theorem Pipeline.map_call_initials (p : Pipeline) : p.initials.map Pipeline.call = p.calls := by
  obtain ⟨source, stages⟩ := p
  simp only [initials, calls, List.range_succ_eq_map, List.map_cons, List.map_map]
  congr 1
  refine List.ext_getElem (by simp) fun i hi hi' => ?_
  have hi : i < stages.length := by simpa using hi'
  simp [Function.comp_def, call, List.getLast?_take, hi]

theorem becomes_substituteSpecs {names : NameSupply} {row : Row} {terms : List (SortTerm Expr)}
    {specs : List (SortSpec Expr)} (h : List.Forall₂ (SortTerm.Becomes names row) terms specs)
    (σ : List (Binding Expr)) :
    List.Forall₂ (SortTerm.Becomes names row) terms (substituteSpecs σ specs) := by
  induction h with
  | nil => exact .nil
  | cons hterm _ ih => exact .cons hterm ih

namespace Clause.Becomes

variable {names : NameSupply} {clause : Clause} {stage : Stage}

theorem call (h : Becomes names clause stage) : (stage.callee, stage.arity) = clause.call := by
  cases h with
  | matched hkind hon => simp [Stage.callee, Stage.arity, Clause.call, hkind, hon]
  | unmatched hon =>
    rcases hon with hkind | hon
    · simp [Stage.callee, Stage.arity, Clause.call, hkind]
    · simp [Stage.callee, Stage.arity, Clause.call, hon]
  | @grouping row g f having _ hsome =>
    cases having <;> simp_all [Stage.callee, Stage.arity, Clause.call]
  | sorting hterms => simp [Stage.callee, Stage.arity, Clause.call, hterms.length_eq]
  | _ => rfl

/-- What is put in place leaves the parameters as they are. -/
theorem substitute (h : Becomes names clause stage) (σ : List (Binding Expr)) :
    Becomes names clause (stage.substitute σ) := by
  cases h with
  | matched hkind hon hf => exact .matched hkind hon hf
  | unmatched hon => exact .unmatched hon
  | filter hf => exact .filter hf
  | @grouping row g f having hf hsome hhaving =>
    cases having with
    | none => exact .grouping hf hsome nofun
    | some f' =>
      refine .grouping hf hsome fun h hh => ?_
      cases hh
      exact hhaving f' rfl
  | sorting hterms => exact .sorting (becomes_substituteSpecs hterms σ)
  | limit => exact .limit
  | projection hf => exact .projection hf

end Clause.Becomes

/-! ## Calls of an image -/

/-- The nodes that ask have the names of the naming. -/
def Names (names : NameSupply) (s : Naming) (ds : List Demand) : Prop :=
  ∀ node, .name node ∈ ds → names.assigned? node = some (s.name node)

theorem names_append {names : NameSupply} {s : Naming} {ds ds' : List Demand} :
    Names names s (ds ++ ds') ↔ Names names s ds ∧ Names names s ds' := by
  simp [Names, or_imp, forall_and]

section

variable {names : NameSupply} {s : Naming} (path : Path)

theorem goesBy_parameter {row : Row} {node : Path} (h : Names names s (row.nameDemands node)) :
    row.GoesBy names (row.parameter s.name node) := by
  cases row with
  | table a => rfl
  | joined prior a => exact ⟨node, h node List.mem_cons_self⟩
  | grouped prior ns into => exact ⟨node, h node List.mem_cons_self⟩

/-- The function of a row that lowering makes. -/
theorem takes_closeOver {row : Row} {node : Path} (h : Names names s (row.nameDemands node))
    (joined : Option String) (es : List Expr) (body : Expr) :
    let param := row.parameter s.name node
    (row.closeOver s.config (param :: joined.toList) param es body).Takes names row joined :=
  ⟨_, goesBy_parameter h, rfl⟩

theorem becomes_joinsImage {i : Nat} {row : Row} {js : List (Join Expr)}
    (h : Names names s (joinsDemands s.config path i row js)) :
    List.Forall₂ (Clause.Becomes names) (joinClauses row js) (joinsImage s path i row js) := by
  induction js generalizing i row with
  | nil => exact .nil
  | cons j js ih =>
    obtain ⟨kind, name, source, on, p⟩ := j
    simp only [joinsDemands, names_append] at h
    obtain ⟨⟨-, hmatch⟩, hjs⟩ := h
    refine .cons ?_ (ih hjs)
    cases on with
    | none => exact .unmatched (Or.inr rfl)
    | some e =>
      rw [matchDemands] at hmatch
      rw [matchImage]
      by_cases hkind : kind = .cross
      · subst hkind
        exact .unmatched (Or.inl rfl)
      · have htakes : kind.takesPredicate = true := by cases kind <;> trivial
        rw [if_pos htakes, names_append] at hmatch
        rw [if_pos htakes]
        exact .matched hkind rfl (takes_closeOver hmatch.1 (some name) [e] _)

theorem becomes_filterImage {row : Row} {o : Option (Filter Expr)}
    (h : Names names s (filterDemands s.config path row o)) :
    List.Forall₂ (Clause.Becomes names) (o.map (.filter row)).toList (filterImage s path row o) := by
  cases o with
  | none => exact .nil
  | some f => exact .cons (.filter (takes_closeOver (names_append.mp h).1 none _ _)) .nil

theorem becomes_groupingImage {row : Row} {o : Option (Grouping Expr)}
    (h : Names names s (groupingDemands s.config path row o)) :
    List.Forall₂ (Clause.Becomes names) (o.map (.grouping row)).toList
      (groupingImage s path row o) := by
  cases o with
  | none => exact .nil
  | some g =>
    obtain ⟨cs, into, having, p⟩ := g
    simp only [groupingDemands, names_append] at h
    obtain ⟨⟨⟨-, hkey⟩, -⟩, hhaving⟩ := h
    refine .cons (.grouping (takes_closeOver hkey none _ _) ?_ fun f hf => ?_) .nil
    · cases having <;> rfl
    · cases having with
      | none => cases hf
      | some e =>
        cases hf
        exact takes_closeOver (names_append.mp hhaving).1 none _ _

theorem becomes_termsImage {row : Row} {i : Nat} {ts : List (SortTerm Expr)}
    (h : Names names s (termsDemands s.config path row i ts)) :
    List.Forall₂ (SortTerm.Becomes names row) ts (termsImage s path row i ts) := by
  induction ts generalizing i with
  | nil => exact .nil
  | cons t ts ih =>
    simp only [termsDemands, names_append] at h
    obtain ⟨⟨⟨-, hkey⟩, -⟩, hts⟩ := h
    refine .cons ⟨takes_closeOver hkey none _ _, ?_⟩ (ih hts)
    simp [Direction.ascends]

theorem becomes_sortingImage {row : Row} {o : Option (Sorting Expr)}
    (h : Names names s (sortingDemands s.config path row o)) :
    List.Forall₂ (Clause.Becomes names) (o.map (.sorting row)).toList
      (sortingImage s path row o) := by
  cases o with
  | none => exact .nil
  | some sorting => exact .cons (.sorting (becomes_termsImage path h)) .nil

theorem becomes_limitImage (o : Option (Limit Expr)) :
    List.Forall₂ (Clause.Becomes names) (o.map .limit).toList (limitImage s path o) := by
  rcases o with _ | ⟨_ | offset, size, p⟩
  · exact .nil
  · exact .cons .limit .nil
  · exact .cons .limit .nil

theorem becomes_projection {q : Query Expr}
    (h : Names names s (projectionDemands s.config path q.row q.projection)) :
    List.Forall₂ (Clause.Becomes names) (q.selection?.map (.projection q.row)).toList
      (projectionImage s path q.row q.projection) := by
  rw [Query.selection?]
  rcases hprojection : q.projection with _ | ⟨_ | ⟨e, es⟩, p⟩
  · exact .nil
  · exact .nil
  · rw [hprojection] at h
    exact .cons (.projection (takes_closeOver (names_append.mp h).1 none _ _)) .nil

theorem becomes_queryImage {q : Query Expr} (h : Names names s (queryDemands s.config path q)) :
    List.Forall₂ (Clause.Becomes names) q.clauses (queryImage s path q).pipeline.stages := by
  rw [queryDemands] at h
  simp only [names_append] at h
  obtain ⟨⟨⟨⟨⟨⟨-, hjoins⟩, hfilter⟩, hgrouping⟩, hsorting⟩, -⟩, hprojection⟩ := h
  rw [queryImage, Query.clauses]
  exact List.rel_append (List.rel_append (List.rel_append (List.rel_append (List.rel_append
    (becomes_joinsImage path hjoins) (becomes_filterImage path hfilter))
    (becomes_groupingImage path hgrouping)) (becomes_sortingImage path hsorting))
    (becomes_limitImage path q.limit)) (becomes_projection path hprojection)

end

/-! ## Complete chains -/

/-- A join has the arguments of its kind: all but a crossjoin have a predicate. -/
def Stage.Matched : Stage → Prop
  | s@(.join kind _ _) => s.arity = if kind = .cross then 1 else 2
  | _ => True

/-- All joins have the arguments of their kinds, and the chain ends in `select`. -/
structure Pipeline.Complete (p : Pipeline) : Prop where
  joins : ∀ s ∈ p.stages, s.Matched
  select : ∃ f, p.stages.getLast? = some (.select f)

/-- A join without a predicate is a crossjoin. -/
def Clause.Matched : Clause → Prop
  | join _ j => j.kind ≠ .cross → j.on.isSome
  | _ => True

theorem Clause.Becomes.matched_stage {names : NameSupply} {clause : Clause} {stage : Stage}
    (h : Becomes names clause stage) (hmatched : clause.Matched) : stage.Matched := by
  cases h with
  | matched hkind => exact (if_neg hkind).symm
  | unmatched hon =>
    refine (if_pos (hon.elim id fun hon => ?_)).symm
    by_contra hkind
    simpa [hon] using hmatched hkind
  | _ => trivial

theorem matched_joinClauses {c : Config} {path : Path} {i : Nat} {row : Row} {js : List (Join Expr)}
    (h : Unreported (joinsDemands c path i row js)) :
    ∀ clause ∈ joinClauses row js, clause.Matched := by
  induction js generalizing i row with
  | nil => exact List.forall_mem_nil _
  | cons j js ih =>
    obtain ⟨kind, name, source, on, p⟩ := j
    simp only [joinsDemands, unreported_append] at h
    obtain ⟨⟨-, hmatch⟩, hjs⟩ := h
    refine List.forall_mem_cons.mpr ⟨fun hkind => ?_, ih hjs⟩
    have htakes : kind.takesPredicate = true := by cases kind <;> trivial
    cases on with
    | some e => rfl
    | none =>
      rw [matchDemands, if_pos htakes] at hmatch
      exact absurd List.mem_cons_self (hmatch _)

section

variable {c : Config} {path : Path} {q : Query Expr} (h : Unreported (queryDemands c path q))

include h

theorem Query.matched_clauses : ∀ clause ∈ q.clauses, clause.Matched := by
  rw [queryDemands] at h
  simp only [unreported_append] at h
  obtain ⟨⟨⟨⟨⟨⟨-, hjoins⟩, -⟩, -⟩, -⟩, -⟩, -⟩ := h
  have hother {o : Option Clause} (hmatched : ∀ clause ∈ o, clause.Matched) :
      ∀ clause ∈ o.toList, clause.Matched :=
    fun clause hclause => hmatched clause (Option.mem_toList.mp hclause)
  simp only [Query.clauses, List.forall_mem_append]
  exact ⟨⟨⟨⟨⟨matched_joinClauses hjoins, hother (by simp [Clause.Matched])⟩,
    hother (by simp [Clause.Matched])⟩, hother (by simp [Clause.Matched])⟩,
    hother (by simp [Clause.Matched])⟩, hother (by simp [Clause.Matched])⟩

/-- Where nothing is reported, something is selected. -/
theorem Query.exists_selection : ∃ es, q.selection? = some es := by
  rw [queryDemands] at h
  simp only [unreported_append] at h
  rw [Query.selection?]
  rcases hprojection : q.projection with _ | ⟨_ | ⟨e, es⟩, p⟩
  · rw [hprojection] at h
    exact absurd List.mem_cons_self (h.2 _)
  · rw [hprojection] at h
    exact absurd List.mem_cons_self (h.2 _)
  · exact ⟨e :: es, rfl⟩

theorem complete_of_unreported {names : NameSupply} {p : Pipeline}
    (hp : List.Forall₂ (Clause.Becomes names) q.clauses p.stages) : p.Complete := by
  constructor
  · have hmatched := (List.forall₂_and_left _ _).mpr ⟨Query.matched_clauses h, hp⟩
    have hstages := hmatched.imp fun clause stage hclause => hclause.2.matched_stage hclause.1
    intro s hs
    obtain ⟨i, hi, rfl⟩ := List.mem_iff_getElem.mp hs
    exact hstages.get (by rwa [hp.length_eq]) hi
  · obtain ⟨es, hes⟩ := Query.exists_selection h
    rw [Query.clauses, hes, Option.map_some, Option.toList_some] at hp
    have hlast := List.rel_reverse hp
    rw [List.reverse_append, List.reverse_singleton, List.singleton_append,
      List.forall₂_cons_left_iff] at hlast
    obtain ⟨s, ss, hs, -, hstages⟩ := hlast
    rw [← List.head?_reverse, hstages]
    cases hs with
    | projection => exact ⟨_, rfl⟩

end

/-! ## Calls of lowered queries -/

theorem Context.lower_names {ctx ctx' : Context} {node : Path} {q : Query Expr} {t : Thunk}
    (h : ctx.lower node q = (.ok t, ctx')) :
    Names ctx'.names ctx'.naming (queryDemands ctx'.config node q) := by
  have hinside {ctx : Context} (h : ctx.lowerInside node q = (.ok t, ctx')) :
      Names ctx'.names ctx'.naming (queryDemands ctx'.config node q) := by
    obtain ⟨hperform, -⟩ := lowerInside_ok h
    obtain ⟨-, hnamed⟩ := Context.perform_ok (congrArg Prod.fst hperform)
    obtain rfl : (ctx.perform _).2 = ctx' := congrArg Prod.snd hperform
    intro m hm
    rw [ctx.perform_config] at hm
    obtain ⟨n, hn⟩ := hnamed m (List.mem_filter.mpr ⟨hm, rfl⟩)
    rw [hn, Lowered.naming_of_assigned hn]
  rw [Context.lower] at h
  split at h <;> exact hinside h

/-- Each call of a chain is that of its clause. -/
structure FollowsClauses (names : NameSupply) (q : Query Expr) (p : Pipeline) : Prop where
  stages : List.Forall₂ (Clause.Becomes names) q.clauses p.stages
  calls : p.initials.map Pipeline.call = ("from", 1) :: q.clauses.map Clause.call

theorem followsClauses {names : NameSupply} {q : Query Expr} {p : Pipeline}
    (h : List.Forall₂ (Clause.Becomes names) q.clauses p.stages) : FollowsClauses names q p := by
  refine ⟨h, ?_⟩
  have hcalls : List.Forall₂ Eq (q.clauses.map Clause.call)
      (p.stages.map fun s => (s.callee, s.arity)) := by
    rw [List.forall₂_map_left_iff, List.forall₂_map_right_iff]
    exact h.imp fun clause stage hclause => hclause.call.symm
  rw [List.forall₂_eq_eq_eq] at hcalls
  rw [p.map_call_initials, Pipeline.calls, hcalls]

theorem LoweredIn.followsClauses {names : NameSupply} {s : Naming} {ds : List Demand}
    {ns : List String} {q : Query Expr} {t : Thunk} (h : LoweredIn s ds ns q t)
    (hnames : Names names s ds) : FollowsClauses names q t.pipeline := by
  obtain ⟨node, σs, rfl, -, hdemands, -⟩ := h
  have hstages : List.Forall₂ (Clause.Becomes names) q.clauses
      (queryImage s node q).pipeline.stages :=
    becomes_queryImage node fun m hm => hnames m (hdemands _ hm rfl)
  refine Comprehension.followsClauses ?_
  generalize queryImage s node q = t at hstages ⊢
  induction σs generalizing t with
  | nil => exact hstages
  | cons σ σs ih =>
    refine ih (t.substitute σ) ?_
    rw [Thunk.stages_substitute]
    exact List.forall₂_map_right_iff.mpr (hstages.imp fun clause stage h => h.substitute σ)

/-- Whatever the context holds and whatever mistakes are reported, each clause of a lowered query and
of the queries in it becomes one call of the chain, in the order of the clauses. In an accepted query
all joins have the arguments of their kinds, and every chain ends in `select`. -/
theorem calls_follow_clauses (q : Query Expr) :
    (∀ node ctx ctx' t, Run.lower node q ctx = (.ok t, ctx') →
      List.Forall₂ (fun q' t' => FollowsClauses ctx'.names q' t'.pipeline) (q :: queryNested q)
        (t :: t.thunks)) ∧
      ∀ c t, q.lower c = .ok t → ∀ t' ∈ t :: t.thunks, t'.pipeline.Complete := by
  have hlowered {node : Path} {ctx ctx' : Context} {t : Thunk}
      (h : ctx.lower node q = (.ok t, ctx')) :
      List.Forall₂ (LoweredIn ctx'.naming (queryDemands ctx'.config node q) (querySpelled q))
        (q :: queryNested q) (t :: t.thunks) := by
    obtain ⟨-, rfl⟩ := Context.lower_image h
    exact nests_self node q
  constructor
  · intro node ctx ctx' t h
    have h := Run.lower_ok h
    exact (hlowered h).imp fun q' t' hin => hin.followsClauses (Context.lower_names h)
  · intro c t h
    obtain ⟨ctx', hctx⟩ := Query.lower_ok h
    have hconfig : ctx'.config = c := (Context.lower_image hctx).1
    refine Nests.forall_thunks (hlowered hctx) fun q' t' hin => ?_
    have hfollows := hin.followsClauses (Context.lower_names hctx)
    obtain ⟨node, -, -, -, hdemands, -⟩ := hin
    have hunreported : Unreported (queryDemands ctx'.config node q') :=
      fun d hd => Query.unreported h d (hconfig ▸ hdemands _ hd rfl)
    exact complete_of_unreported hunreported hfollows.stages

/-- The join of `muddled` lacks its predicate, and nothing is selected. -/
theorem calls_follow_clauses_muddled :
    (∃ t ctx', Run.lower [] muddled (.new .standard) = (.ok t, ctx') ∧
      t.pipeline.initials.map Pipeline.call =
        [("from", 1), ("innerJoin", 1), ("groupBy", 2), ("orderBy", 1)]) ∧
      ∃ t, outerRows.lower .standard = .ok t ∧ t.thunks.length = 1 ∧
        ∀ t' ∈ t :: t.thunks, t'.pipeline.Complete := by
  obtain ⟨t, ctx', ht⟩ : ∃ t ctx', Run.lower [] muddled (.new .standard) = (.ok t, ctx') :=
    ⟨_, _, rfl⟩
  obtain ⟨t', ht', hthunks⟩ : ∃ t, outerRows.lower .standard = .ok t ∧ t.thunks.length = 1 :=
    ⟨_, rfl, rfl⟩
  obtain ⟨hmuddled, -⟩ := List.forall₂_cons.mp ((calls_follow_clauses muddled).1 _ _ _ _ ht)
  exact ⟨⟨t, ctx', ht, hmuddled.calls⟩, t', ht', hthunks,
    (calls_follow_clauses outerRows).2 _ _ ht'⟩

end Comprehension
