import Comprehension.Proofs.ContextIndependence
import Comprehension.Proofs.Defects
import Comprehension.Proofs.RowCounters
import Comprehension.Proofs.Runs

/-!
Clauses that give their rows on. The clauses after `where`, `orderby` and `limit` read the same rows
with and without them, so nothing that one of these clauses leaves in the context is read by another
clause. Without it the query loses one call and the mistakes of the clause. All else stays, up to the
names that are made up later on.
-/

namespace Comprehension

/-- A clause that gives its rows on as they are. -/
inductive RowClause where
  | filter
  | sorting
  | limit

namespace RowClause

def callee : RowClause → String
  | filter => "where"
  | sorting => "orderBy"
  | limit => "limit"

def isIn (q : Query Expr) : RowClause → Bool
  | filter => q.filter.isSome
  | sorting => q.sorting.isSome
  | limit => q.limit.isSome

/-- The query without the clause. -/
def removeFrom (q : Query Expr) : RowClause → Query Expr
  | filter => { q with filter := none }
  | sorting => { q with sorting := none }
  | limit => { q with limit := none }

/-- The part of the run of a query that lowers the clause. -/
def run (node : Path) (q : Query Expr) : RowClause → Run (List Stage)
  | filter => filterRun node q.joinedRow q.filter
  | sorting => sortingRun node q.row q.sorting
  | limit => limitRun node q.limit

def demands (c : Config) (node : Path) (q : Query Expr) : RowClause → List Demand
  | filter => filterDemands c node q.joinedRow q.filter
  | sorting => sortingDemands c node q.row q.sorting
  | limit => limitDemands c node q.limit

def image (s : Naming) (node : Path) (q : Query Expr) : RowClause → List Stage
  | filter => filterImage s node q.joinedRow q.filter
  | sorting => sortingImage s node q.row q.sorting
  | limit => limitImage s node q.limit

def defects (group : String) (q : Query Expr) : RowClause → List Diagnostic
  | filter => filterDefects group q.filter
  | sorting => sortingDefects group q.grouping.isSome q.sorting
  | limit => limitDefects group q.limit

end RowClause

/-! ## Lists without a part -/

/-- The second list is the first one without the part. -/
def Loses {α : Type} (part xs ys : List α) : Prop :=
  ∃ before after, xs = before ++ part ++ after ∧ ys = before ++ after

namespace Loses

variable {α : Type} {part xs ys : List α}

theorem last (xs part : List α) : Loses part (xs ++ part) (xs ++ []) :=
  ⟨xs, [], (List.append_nil _).symm, rfl⟩

theorem append (h : Loses part xs ys) (zs : List α) : Loses part (xs ++ zs) (ys ++ zs) := by
  obtain ⟨before, after, rfl, rfl⟩ := h
  exact ⟨before, after ++ zs, by simp, by simp⟩

theorem subset (h : Loses part xs ys) : ys ⊆ xs := by
  obtain ⟨before, after, rfl, rfl⟩ := h
  intro a ha
  simp only [List.mem_append] at ha ⊢
  exact ha.imp_left Or.inl

end Loses

/-! ## The query without the clause -/

namespace RowClause

section

variable (clause : RowClause) (q : Query Expr)

theorem demands_removeFrom (c : Config) (node : Path) :
    Loses (clause.demands c node q) (queryDemands c node q)
      (queryDemands c node (clause.removeFrom q)) := by
  cases clause with
  | filter =>
    rw [queryDemands, queryDemands]
    exact ((((Loses.last _ _).append _).append _).append _).append _
  | sorting =>
    rw [queryDemands, queryDemands]
    exact ((Loses.last _ _).append _).append _
  | limit =>
    rw [queryDemands, queryDemands]
    exact (Loses.last _ _).append _

theorem defects_removeFrom (group : String) :
    Loses (clause.defects group q) (queryDefects group q)
      (queryDefects group (clause.removeFrom q)) := by
  cases clause with
  | filter =>
    rw [queryDefects, queryDefects]
    exact ((((Loses.last _ _).append _).append _).append _).append _
  | sorting =>
    rw [queryDefects, queryDefects]
    exact ((Loses.last _ _).append _).append _
  | limit =>
    rw [queryDefects, queryDefects]
    exact (Loses.last _ _).append _

theorem stages_removeFrom (s : Naming) (node : Path) :
    Loses (clause.image s node q) (queryImage s node q).pipeline.stages
      (queryImage s node (clause.removeFrom q)).pipeline.stages := by
  cases clause with
  | filter =>
    rw [queryImage, queryImage]
    exact ((((Loses.last _ _).append _).append _).append _).append _
  | sorting =>
    rw [queryImage, queryImage]
    exact ((Loses.last _ _).append _).append _
  | limit =>
    rw [queryImage, queryImage]
    exact (Loses.last _ _).append _

theorem spelled_removeFrom : ∀ n ∈ querySpelled (clause.removeFrom q), n ∈ querySpelled q := by
  intro n hn
  cases clause <;> simp only [mem_querySpelled, removeFrom] at hn ⊢ <;> tauto

/-- Rows are counted in the selected values alone, and these read the same rows. -/
theorem declarations_removeFrom (s : Naming) (node : Path) :
    (queryImage s node (clause.removeFrom q)).declarations =
      (queryImage s node q).declarations := by
  have hprojector : (clause.removeFrom q).projector? = q.projector? := by cases clause <;> rfl
  have htable : (clause.removeFrom q).nameTable = q.nameTable := by cases clause <;> rfl
  have hcounts : countsRows s.config node (clause.removeFrom q) = countsRows s.config node q := by
    rw [countsRows, countsRows, Bool.eq_iff_iff, List.contains_iff_mem, List.contains_iff_mem,
      countRow_mem_queryDemands, countRow_mem_queryDemands, hprojector]
  rw [declarations_queryImage, declarations_queryImage, htable, hcounts]

theorem queryImage_removeFrom (s : Naming) (node : Path) :
    ∃ kept, Loses (clause.image s node q) (queryImage s node q).pipeline.stages kept ∧
      queryImage s node (clause.removeFrom q) =
        ⟨(queryImage s node q).declarations, (queryImage s node q).pipeline.source, kept⟩ := by
  refine ⟨_, clause.stages_removeFrom q s node, ?_⟩
  have hsource : (queryImage s node (clause.removeFrom q)).pipeline.source =
      (queryImage s node q).pipeline.source := by
    cases clause <;> rw [queryImage, queryImage] <;> rfl
  rw [← clause.declarations_removeFrom q s node, ← hsource]
  cases queryImage s node (clause.removeFrom q) with
  | mk declarations pipeline => cases pipeline; rfl

variable {q}

theorem frontEnd_removeFrom (h : queryFrontEnd q = true) :
    queryFrontEnd (clause.removeFrom q) = true := by
  obtain ⟨table, joins, filter, grouping, sorting, limit, projection, p⟩ := q
  cases clause <;>
    simp_all [removeFrom, queryFrontEnd, filterFrontEnd, sortingFrontEnd, limitFrontEnd]

end

/-! ## The call of the clause -/

section

variable {s : Naming} {node : Path} {q : Query Expr} {clause : RowClause}

variable (s node) in
/-- A clause that is there becomes one call. -/
theorem exists_stage (h : clause.isIn q = true) :
    ∃ stage, clause.image s node q = [stage] ∧ stage.callee = clause.callee := by
  cases clause with
  | filter =>
    obtain ⟨f, hf⟩ := Option.isSome_iff_exists.mp h
    exact ⟨_, by rw [image, hf, filterImage], rfl⟩
  | sorting =>
    obtain ⟨x, hx⟩ := Option.isSome_iff_exists.mp h
    exact ⟨_, by rw [image, hx, sortingImage], rfl⟩
  | limit =>
    obtain ⟨⟨_ | offset, size, p⟩, hl⟩ := Option.isSome_iff_exists.mp h
    · exact ⟨_, by rw [image, hl, limitImage], rfl⟩
    · exact ⟨_, by rw [image, hl, limitImage], rfl⟩

theorem callee_joinsImage {i : Nat} {row : Row} {js : List (Join Expr)} :
    ∀ stage ∈ joinsImage s node i row js, stage.callee ≠ clause.callee := by
  induction js generalizing i row with
  | nil => exact List.forall_mem_nil _
  | cons j js ih =>
    refine List.forall_mem_cons.mpr ⟨?_, ih⟩
    show j.kind.callee ≠ clause.callee
    cases j.kind <;> cases clause <;> decide

theorem callee_image (clause : RowClause) :
    ∀ stage ∈ clause.image s node q, clause.isIn q = true ∧ stage.callee = clause.callee := by
  intro stage hstage
  cases hclause : clause.isIn q with
  | true =>
    obtain ⟨own, himage, hcallee⟩ := exists_stage s node hclause
    rw [himage, List.mem_singleton] at hstage
    exact ⟨rfl, hstage ▸ hcallee⟩
  | false =>
    have himage : clause.image s node q = [] := by
      cases clause <;> simp only [isIn, Option.isSome_eq_false_iff, Option.isNone_iff_eq_none]
        at hclause <;> rw [image, hclause] <;> rfl
    rw [himage] at hstage
    cases hstage

variable (s node) in
/-- No other clause becomes such a call. -/
theorem callee_ne_of_not_isIn (h : clause.isIn q = false) :
    ∀ stage ∈ (queryImage s node q).pipeline.stages, stage.callee ≠ clause.callee := by
  have hrow (other : RowClause) :
      ∀ stage ∈ other.image s node q, stage.callee ≠ clause.callee := by
    intro stage hstage
    obtain ⟨hother, hcallee⟩ := callee_image other stage hstage
    rw [hcallee]
    cases clause <;> cases other <;> first | decide | cases h.symm.trans hother
  rw [queryImage]
  simp only [List.forall_mem_append]
  refine ⟨⟨⟨⟨⟨callee_joinsImage, hrow .filter⟩, ?_⟩, hrow .sorting⟩, hrow .limit⟩, ?_⟩
  · cases q.grouping with
    | none => exact List.forall_mem_nil _
    | some g =>
      refine List.forall_mem_singleton.mpr ?_
      show "groupBy" ≠ clause.callee
      cases clause <;> decide
  · rcases q.projection with _ | ⟨_ | ⟨e, es⟩, p⟩
    · exact List.forall_mem_nil _
    · exact List.forall_mem_nil _
    · refine List.forall_mem_singleton.mpr ?_
      show "select" ≠ clause.callee
      cases clause <;> decide

end

/-! ## Mistakes of the clause -/

/-- In an open query, wherever it stands, the run of the clause succeeds and reports the defects of
the clause. -/
theorem run_reports {q : Query Expr} (h : queryFrontEnd q = true) (clause : RowClause) (node : Path)
    {ctx : Context} (hctx : ctx.numbering = .plain) :
    (∃ stages, (clause.run node q ctx).1 = .ok stages) ∧
      (clause.run node q ctx).2.mistakes =
        ctx.mistakes ++ clause.defects ctx.config.group q := by
  have hpasses (s : Naming) :
      Performs s .plain (clause.run node q) (clause.demands s.config node q)
        (clause.image s node q) := by
    have heach := q.each_of_forall (passes s)
    cases clause with
    | filter => exact passes_filterRun node heach.filter q.joinedRow
    | sorting => exact passes_sortingRun node heach.sorting q.row
    | limit => exact passes_limitRun node heach.limit
  have hreports : Reports (clause.demands ctx.config node q) (clause.defects ctx.config.group q) := by
    have heach := q.each_of_forall (reportsDefects ctx.config)
    rw [queryFrontEnd] at h
    simp only [Bool.and_eq_true] at h
    obtain ⟨⟨⟨⟨⟨⟨-, -⟩, hfilter⟩, -⟩, hsorting⟩, hlimit⟩, -⟩ := h
    cases clause with
    | filter => exact reports_filterDemands node heach.filter hfilter (joinedRow_ungrouped q)
    | sorting => exact reports_sortingDemands node heach.sorting hsorting (q.row_inQuery (by decide))
    | limit => exact reports_limitDemands node heach.limit hlimit
  have hrun : clause.run node q ctx = Run.given
      (ctx.answer (clause.demands ctx.config node q) fun s => clause.image s node q) := by
    refine Performs.given fun s hs => ?_
    rw [hctx, ← hs]
    exact hpasses s
  obtain ⟨hok, hmistakes⟩ := Context.perform_reports hreports ctx
  rw [hrun, Run.given, Context.answer]
  simp only [hok]
  exact ⟨⟨_, rfl⟩, hmistakes⟩

end RowClause

/-! ## Independence -/

theorem Context.untouched_new (c : Config) (node : Path) (q : Query Expr) :
    (Context.new c).Untouched node q :=
  ⟨rfl, fun _ _ => rfl⟩

/-- In a context of its own a query of the front end is lowered to its image, and its defects are
reported. -/
theorem Run.lower_new {q : Query Expr} (h : queryFrontEnd q = true) (c : Config) (node : Path) :
    ∃ s ctx, Run.lower node q (.new c) = (.ok (queryImage s node q), ctx) ∧ s.config = c ∧
      NamesApart (.new c.stem) s node q ∧ ctx.mistakes = queryDefects c.group q := by
  obtain ⟨⟨t, ht⟩, hmistakes⟩ := Context.lower_reports h (.new c) node
  have huntouched := Context.untouched_new c node q
  obtain ⟨hok, rfl⟩ := huntouched.of_lower ht
  refine ⟨_, _, ?_, huntouched.naming_config, huntouched.namesApart hok, hmistakes⟩
  rw [Run.lower_eq, Run.given, ht]
  rfl

/-- A query of the front end without one of its `where`, `orderby` and `limit` clauses is lowered to
the same thunk without the one call of the clause. What is declared and the other calls stay, up to
a renaming of made-up names. The mistakes are the same, in the same order, but for those that the run
of the clause reports wherever the query is open. -/
theorem rowClause_independent {q : Query Expr} (h : queryFrontEnd q = true) {clause : RowClause}
    (hclause : clause.isIn q = true) (c : Config) (node node' : Path) :
    ∃ t ctx t' ctx', Run.lower node q (.new c) = (.ok t, ctx) ∧
      Run.lower node' (clause.removeFrom q) (.new c) = (.ok t', ctx') ∧
      t'.declarations = t.declarations ∧
      (∃ stage kept, Loses [stage] t.pipeline.stages kept ∧ stage.callee = clause.callee ∧
        (∀ other ∈ kept, other.callee ≠ clause.callee) ∧
        ∃ ρ, RenamesMadeUp (.new c.stem) (.new c.stem) ((clause.removeFrom q).avoided c) ρ ∧
          t' = Thunk.rename ρ ⟨t.declarations, t.pipeline.source, kept⟩) ∧
      ∃ own, Loses own ctx.mistakes ctx'.mistakes ∧
        ∀ inside : Context, inside.config = c → inside.numbering = .plain →
          (∃ stages, (clause.run node q inside).1 = .ok stages) ∧
            (clause.run node q inside).2.mistakes = inside.mistakes ++ own := by
  obtain ⟨s, ctx, hlower, rfl, hnames, hmistakes⟩ := Run.lower_new h c node
  obtain ⟨s', ctx', hlower', hconfig, hnames', hmistakes'⟩ :=
    Run.lower_new (clause.frontEnd_removeFrom h) s.config node'
  obtain ⟨kept, hkept, himage⟩ := clause.queryImage_removeFrom q s node
  obtain ⟨stage, hstage, hcallee⟩ := RowClause.exists_stage s node hclause
  have hothers : ∀ other ∈ kept, other.callee ≠ clause.callee := by
    have hout : clause.isIn (clause.removeFrom q) = false := by cases clause <;> rfl
    have hstages := RowClause.callee_ne_of_not_isIn s node hout
    rwa [himage] at hstages
  have hwithout : NamesApart (.new s.config.stem) s node (clause.removeFrom q) :=
    hnames.nested (fun d hd _ => (clause.demands_removeFrom q s.config node).subset hd)
      (clause.spelled_removeFrom q)
  obtain ⟨ρ, hρ, hrename⟩ := hwithout.image_rename hnames' hconfig
  refine ⟨_, ctx, _, ctx', hlower, hlower', ?_, ⟨stage, kept, hstage ▸ hkept, hcallee, hothers, ρ, hρ,
    ?_⟩, clause.defects s.config.group q, ?_, ?_⟩
  · rw [← clause.declarations_removeFrom q s node, declarations_queryImage,
      declarations_queryImage, hconfig, countsRows_path _ _ node' node]
  · rw [hrename, himage]
  · rw [hmistakes, hmistakes']
    exact clause.defects_removeFrom q s.config.group
  · rintro inside hinside hopen
    exact hinside ▸ RowClause.run_reports h clause node hopen

/-- `from a in as crossjoin b in bs where b.v orderby b.w in up limit 3 select b.v`. -/
def orderedCross : Query Expr where
  table := ⟨"a", Expr.name "as", .nowhere⟩
  joins := [⟨.cross, "b", Expr.name "bs", none, .nowhere⟩]
  filter := some ⟨(Expr.name "b").field "v", .nowhere⟩
  grouping := none
  sorting := some ⟨[⟨(Expr.name "b").field "w", some ⟨"up", ⟨1, 54⟩⟩⟩], .nowhere⟩
  limit := some ⟨none, Expr.int 3, .nowhere⟩
  projection := some ⟨[(Expr.name "b").field "v"], .nowhere⟩
  pos := .nowhere

/-- Without `orderby` the row of `select` gets the name that the row of the key had. -/
theorem rowClause_independent_orderedCross :
    queryFrontEnd orderedCross = true ∧ RowClause.sorting.isIn orderedCross = true ∧
      ∃ t ctx t' ctx', Run.lower [] orderedCross (.new .standard) = (.ok t, ctx) ∧
        Run.lower [] (RowClause.sorting.removeFrom orderedCross) (.new .standard) = (.ok t', ctx') ∧
        functions t.walk = [["__t_0"], ["__t_1"], ["__t_2"]] ∧
        functions t'.walk = [["__t_0"], ["__t_1"]] ∧
        ctx.mistakes = [⟨.unknownDirection "up", ⟨1, 54⟩⟩] ∧ ctx'.mistakes = [] ∧
        ∃ stage kept, Loses [stage] t.pipeline.stages kept ∧ stage.callee = "orderBy" ∧
          ∃ ρ : Equiv.Perm String,
            t' = Thunk.rename ρ ⟨t.declarations, t.pipeline.source, kept⟩ := by
  have hfront : queryFrontEnd orderedCross = true := rfl
  have hclause : RowClause.sorting.isIn orderedCross = true := rfl
  let run := Run.lower [] orderedCross (.new .standard)
  let run' := Run.lower [] (RowClause.sorting.removeFrom orderedCross) (.new .standard)
  have hnames : run.1.toOption.map (functions ·.walk) = some [["__t_0"], ["__t_1"], ["__t_2"]] ∧
      run'.1.toOption.map (functions ·.walk) = some [["__t_0"], ["__t_1"]] := by decide +kernel
  have hmistakes : run.2.mistakes = [⟨.unknownDirection "up", ⟨1, 54⟩⟩] ∧ run'.2.mistakes = [] := by
    decide +kernel
  obtain ⟨t, ctx, t', ctx', h, h', -, ⟨stage, kept, hkept, hcallee, -, ρ, -, hrename⟩, -⟩ :=
    rowClause_independent hfront hclause .standard [] []
  simp only [run, run', h, h'] at hnames hmistakes
  exact ⟨hfront, hclause, t, ctx, t', ctx', h, h', Option.some.inj hnames.1,
    Option.some.inj hnames.2, hmistakes.1, hmistakes.2, stage, kept, hkept, hcallee, ρ, hrename⟩

end Comprehension
