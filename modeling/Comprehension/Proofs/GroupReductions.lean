import Comprehension.Proofs.Reductions

/-!
Aggregates on groups. A function that is called with groups sends each aggregate of its clause to the
rows of its group, and sends nothing else to them but the request to be shown under the aliases. A
selector is a function of the row before grouping: there and in nested queries nothing is sent to the
rows of the group.
-/

namespace Comprehension

/-! ## Parts of thunks -/

def Argument.parts : Argument → List Expr
  | value e => e.parts
  | lambda f => f.body.parts

mutual
theorem Stage.parts_eq : (stage : Stage) → stage.parts = stage.arguments.flatMap Argument.parts
  | .join _ joined none => by simp [Stage.parts, Stage.arguments, joined.parts_eq]
  | .join _ joined (some f) => by
    simp [Stage.parts, Stage.arguments, joined.parts_eq, Argument.parts]
  | .filter f => by simp [Stage.parts, Stage.arguments, Argument.parts]
  | .groupBy f none => by simp [Stage.parts, Stage.arguments, Argument.parts]
  | .groupBy f (some having) => by simp [Stage.parts, Stage.arguments, Argument.parts]
  | .orderBy specs => partsSpecs_eq specs
  | .limit offset size => by simp [Stage.parts, Stage.arguments, Argument.parts]
  | .select f => by simp [Stage.parts, Stage.arguments, Argument.parts]
termination_by structural x => x

theorem Pipeline.parts_eq : (p : Pipeline) → p.parts = p.arguments.flatMap Argument.parts
  | ⟨source, stages⟩ => by
    rw [Pipeline.parts, Pipeline.arguments, List.flatMap_cons, partsStages_eq stages]
    rfl
termination_by structural x => x

theorem partsStages_eq : (stages : List Stage) →
    partsStages stages = (stageArguments stages).flatMap Argument.parts
  | [] => rfl
  | stage :: stages => by
    rw [partsStages, stageArguments, List.flatMap_append, stage.parts_eq, partsStages_eq stages]
termination_by structural x => x

theorem partsSpecs_eq : (specs : List (SortSpec Expr)) →
    partsSpecs specs = (specs.map fun s => Argument.lambda s.key).flatMap Argument.parts
  | [] => rfl
  | ⟨⟨_, e⟩, _⟩ :: specs => congrArg (e.parts ++ ·) (partsSpecs_eq specs)
termination_by structural x => x
end

theorem Thunk.parts_eq (t : Thunk) : t.parts = t.pipeline.arguments.flatMap Argument.parts := by
  obtain ⟨declarations, pipeline⟩ := t
  exact pipeline.parts_eq

/-! ## Parts of images -/

theorem Quiet.access {param table : String} {l : NameList} : Quiet param (l.access table).parts :=
  .cons rfl ((Quiet.path (e := Expr.name table) rfl).append (.cons rfl .nil))

section

variable {s : Naming} {g : String} {place : Place} {param : String} {path : Path}
  {bound : List String} {searched : Bool}

/-- The row at the place has no alias that is the name, and no node below the path has it. -/
structure Foreign (s : Naming) (g : String) (place : Place) (path : Path) : Prop where
  aliases : ∀ row ∈ place.row, g ∉ row.aliases
  below : ∀ node : Path, path.length < node.length → s.name node ≠ g

namespace Foreign

theorem deeper (h : Foreign s g place path) (step : Step) : Foreign s g place (step :: path) :=
  ⟨h.aliases, fun node hnode => h.below node (Nat.lt_of_succ_lt hnode)⟩

theorem offRows (h : ∀ node : Path, path.length < node.length → s.name node ≠ g) :
    Foreign s g ⟨none, .plain⟩ path :=
  ⟨fun _ hrow => (Option.not_mem_none _ hrow).elim, h⟩

theorem prior (h : Foreign s g place path) {prior : Row} {ns : List String} {into : Option String}
    (hrow : place.row = some (.grouped prior ns into)) (numbering : Numbering) :
    Foreign s g ⟨some prior, numbering⟩ path := by
  refine ⟨fun row hprior => ?_, h.below⟩
  obtain rfl : prior = row := Option.some.inj hprior
  exact h.aliases (.grouped prior ns into) hrow

end Foreign

/-! ### Calls of aggregates -/

variable {names : NameSupply}

section

variable {ds ds' : List Demand}

variable (s names) in
/-- Nothing is reported, and each node that asks has its name. -/
structure Granted (ds : List Demand) : Prop where
  unreported : Unreported ds
  names : Names names s ds

theorem Granted.mono (h : Granted s names ds) (hds : ds' ⊆ ds) : Granted s names ds' :=
  ⟨fun d hd => h.unreported d (hds hd), fun m hm => h.names m (hds hm)⟩

end

theorem isRows_rows_iff : (GroupView.rows param).isRows g = true ↔ param = g := by
  simp [GroupView.rows, Expr.field, Expr.name, Expr.isRows]

/-- A call that is sent to the rows of the group at the place. -/
theorem Sends.call {prior : Row} {ns : List String} {into : Option String}
    (hrow : place.row = some (.grouped prior ns into)) {call : AggregateCall}
    {calls : List AggregateCall} (hcall : call ∈ calls) {p : Position} {n : String}
    {args : List Expr}
    (hreduces : param = g → Reduces s names prior place.numbering g call ⟨p, true, n, args⟩)
    (h : Sends s names g place param calls (partsAll args)) :
    Sends s names g place param calls (Expr.method p (GroupView.rows param) n args).parts := by
  have hrows : Quiet g (GroupView.rows param).parts := .path rfl
  refine List.forall_mem_cons.mpr ⟨fun r hr => ?_, Sends.append (.ofQuiet hrows) h⟩
  obtain ⟨p', rows, n', args', heq, hrows, -, rfl⟩ := Expr.sent?_iff.mp hr
  cases heq
  have hparam := isRows_rows_iff.mp hrows
  exact ⟨hparam, prior, ns, into, hrow, call, hcall, hreduces hparam⟩

/-- The aggregates that a clause calls. -/
def RowFunction.aggregates (f : RowFunction) : List AggregateCall :=
  f.exprs.flatMap (·.2.aggregates)

variable {prior : Row} {ns : List String} {into : Option String}

section

variable (hrow : place.row = some (.grouped prior ns into))

include hrow

end

end

/-! ## Functions of groups -/

/-- The function is called with a group. Whatever it sends to the rows of the group, wherever in the
function that stands, is what became of an aggregate that the clause calls; outside of thunks and
selectors the aggregates of the clause are sent there in their order, and none is left. -/
structure Lambda.ReducesGroup (f : Lambda Expr) (s : Naming) (names : NameSupply) (prior : Row)
    (clause : RowFunction) (param : String) : Prop where
  params : f.params = [param]
  inOrder : List.Forall₂ (Reduces s names prior clause.numbering param) clause.aggregates
    (f.body.reductions param)
  sent : ∀ e ∈ f.body.parts, ∀ r, e.sent? param = some r →
    ∃ call ∈ clause.aggregates, Reduces s names prior clause.numbering param call r

section

variable {s : Naming} {names : NameSupply} {prior : Row} {param : String}

theorem Reduces.putIn {numbering : Numbering} {calls : List AggregateCall} {rs rs' : List Reduction}
    (h : List.Forall₂ (Reduces s names prior numbering param) calls rs)
    (hinline : s.config.inlinePaths = true) {σ : List (Binding Expr)}
    (hput : PutIn Reduction.substitute σ rs rs') :
    List.Forall₂ (Reduces s names prior numbering param) calls rs' := by
  induction h generalizing rs' with
  | nil =>
    cases hput
    exact .nil
  | cons hreduces _ ih =>
    obtain _ | ⟨⟨σ', -, rfl⟩, hrest⟩ := hput
    exact .cons (hreduces.substitute hinline σ') (ih hrest)

/-- Paths of other rows that are put in place from outside. -/
theorem Lambda.ReducesGroup.substituteEach {f : Lambda Expr} {clause : RowFunction}
    (h : f.ReducesGroup s names prior clause param) {σs : List (List (Binding Expr))}
    (hσs : ∀ σ ∈ σs, s.config.inlinePaths = true ∧ Misses param σ) :
    (f.substituteEach σs).ReducesGroup s names prior clause param := by
  induction σs generalizing f with
  | nil => exact h
  | cons σ σs ih =>
    obtain ⟨⟨hinline, hσ⟩, hσs⟩ := List.forall_mem_cons.mp hσs
    have hσ := hσ.without f.params
    have hspares : Spares param (without f.params σ) := by
      -- The parameter shields its name.
      refine ⟨hσ, fun b hb heq => ?_⟩
      have hkept := (List.mem_filter.mp hb).2
      rw [h.params, heq] at hkept
      simp at hkept
    refine ih ⟨h.params, ?_, fun e he r hr => ?_⟩ hσs
    · exact Reduces.putIn h.inOrder hinline (reductions_substitute _ hspares f.body)
    · obtain ⟨e₀, he₀, r₀, hr₀, σ', rfl⟩ := hσ.sent?_of_mem_parts he hr
      obtain ⟨call, hcall, hreduces⟩ := h.sent e₀ he₀ r₀ hr₀
      exact ⟨call, hcall, hreduces.substitute hinline σ'⟩

variable {q : Query Expr} {f : RowFunction} (hf : f ∈ q.onGroups) (path : Path)

include hf

end

end Comprehension
