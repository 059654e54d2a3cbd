import Comprehension.Proofs.Faults

/-!
Expressions where nothing is grouped: on the row of a table or of joins, and off rows. The pass
leaves such an expression as it is written, positions included, but that it puts a thunk for each
query and, inside `select`, an increment of the counter for each row number. Queries are lowered from
left to right, each in the context that the one before it leaves.
-/

namespace Comprehension

/-! ## What is written and what is made of it -/

/-- The name counts rows: it is the row number, no lambda takes it, and the open query is selecting.
-/
structure Context.Counts (ctx : Context) (bound : List String) (n : String) : Prop where
  rowNumber : n = ctx.config.rowNumber
  notTable : n ≠ ctx.config.table
  unbound : n ∉ bound
  selecting : ctx.numbering = .counted

/-- What stands on the right is searched. -/
def Binary.searches : Binary → Bool
  | .operator .isIn | .operator .notIn => true
  | _ => false

/-- Operands of the node at the path, each with its own path, the first of them the `i`-th part. -/
def operands (path : Path) (i : Nat) (es : List Expr) : List (Path × Expr) :=
  (es.zipIdx i).map fun x => (.part x.2 :: path, x.1)

mutual
/-- The written expression stands at the path, under lambdas that take the bound names. From the
first context it becomes the other expression and leaves the second context. -/
inductive Rewritten : List String → Path → Bool → Context → Expr → Context → Expr → Prop
  | literal {bound path searched ctx} (p : Position) (v : Literal) :
    Rewritten bound path searched ctx (.literal p v) ctx (.literal p v)
  | name {bound path searched ctx n} (p : Position) (h : ¬ctx.Counts bound n) :
    Rewritten bound path searched ctx (.var p n) ctx (.var p n)
  | rowNumber {bound path searched ctx n} (p : Position) (h : ctx.Counts bound n) :
    Rewritten bound path searched ctx (.var p n) ctx.countRow (.postIncrement p ctx.config.counter)
  | unary {bound path searched ctx ctx' e e'} (p : Position) (f : Unary)
    (operand : Rewritten bound (.part 0 :: path) false ctx e ctx' e') :
    Rewritten bound path searched ctx (.unary p f e) ctx' (.unary p f e')
  | binary {bound path searched ctx ctx₁ ctx' l l' r r'} (p : Position) (f : Binary)
    (left : Rewritten bound (.part 0 :: path) false ctx l ctx₁ l')
    (right : Rewritten bound (.part 1 :: path) f.searches ctx₁ r ctx' r') :
    Rewritten bound path searched ctx (.binary p f l r) ctx' (.binary p f l' r')
  | sequence {bound path searched ctx ctx' es es'} (p : Position) (f : Sequence)
    (items : RewrittenAll bound ctx (operands path 0 es) ctx' es') :
    Rewritten bound path searched ctx (.sequence p f es) ctx' (.sequence p f es')
  | method {bound path searched ctx ctx₁ ctx' r r' es es'} (p : Position) (n : String)
    (receiver : Rewritten bound (.part 0 :: path) false ctx r ctx₁ r')
    (args : RewrittenAll bound ctx₁ (operands path 1 es) ctx' es') :
    Rewritten bound path searched ctx (.method p r n es) ctx' (.method p r' n es')
  | lambda {bound path searched ctx ctx' e e'} (p : Position) (params : List String)
    (body : Rewritten (params ++ bound) (.part 0 :: path) false ctx e ctx' e') :
    Rewritten bound path searched ctx (.lambda p ⟨params, e⟩) ctx' (.lambda p ⟨params, e'⟩)
  | query {bound path ctx ctx' q t} (p : Position) (h : queryRun path q ctx = (.ok t, ctx')) :
    Rewritten bound path false ctx (.query p q) ctx' (.subquery p t)
  | searchedQuery {bound path ctx ctx' q t} (p : Position)
    (h : queryRun path q ctx = (.ok t, ctx')) :
    Rewritten bound path true ctx (.query p q) ctx' (.method p (.subquery p t) "toList" [])

/-- So too for expressions in turn, each at its own path. -/
inductive RewrittenAll : List String → Context → List (Path × Expr) → Context → List Expr → Prop
  | nil {bound ctx} : RewrittenAll bound ctx [] ctx []
  | cons {bound node ctx ctx₁ ctx' e e' nodes es'}
    (head : Rewritten bound node false ctx e ctx₁ e')
    (tail : RewrittenAll bound ctx₁ nodes ctx' es') :
    RewrittenAll bound ctx ((node, e) :: nodes) ctx' (e' :: es')
end

/-! ## The pass -/

section

variable {row : Option Row} {param : String} {bound : List String} {path : Path} {searched : Bool}
  {ctx ctx' : Context}

theorem group?_of_ungrouped (hrow : ∀ r ∈ row, r.isGrouped = false) (numbering : Numbering) :
    (Place.mk row numbering).group? = none := by
  cases row with
  | none => rfl
  | some r =>
    have hr : r.group? = none := by simpa [Row.isGrouped] using hrow r rfl
    simp [Place.group?, hr]

theorem read?_of_ungrouped (hrow : ∀ r ∈ row, r.isGrouped = false) (c : Config) (n : String) :
    (Place.mk row .plain).read? c param n = none := by
  rw [Place.read?, group?_of_ungrouped hrow]

theorem attach_of_ungrouped (hrow : ∀ r ∈ row, r.isGrouped = false) (c : Config)
    (free : List String) (e : Expr) :
    (Place.mk row .plain).attach c param bound free e = e := by
  have hreads : (Place.mk row .plain).readsOfGroup c param bound free = [] := by
    simp [Place.readsOfGroup, read?_of_ungrouped hrow]
  rw [Place.attach, hreads]
  rfl

theorem frame_eq_ok {ctx₁ : Context} {f : Frame} (h : Run.frame ctx = (.ok f, ctx₁)) :
    ctx₁ = ctx ∧ (ctx.numbering = .counted ↔ f.selecting = true) := by
  obtain ⟨config, mistakes, names, _ | ⟨frame, frames⟩⟩ := ctx
  · cases h
  · cases h
    refine ⟨rfl, ?_⟩
    change (if f.selecting then Numbering.counted else .plain) = .counted ↔ _
    split <;> simp [*]

theorem countRow_of_eq_ok {u : Unit}
    (h : Run.modifyFrame ({ · with countsRows := true }) ctx = (.ok u, ctx')) :
    ctx' = ctx.countRow := by
  obtain ⟨config, mistakes, names, _ | ⟨frame, frames⟩⟩ := ctx
  · cases h
  · cases h
    rfl

theorem rewritten_var (hrow : ∀ r ∈ row, r.isGrouped = false) {p : Position} {n : String} {e' : Expr}
    (h : Run.var row param bound p n ctx = (.ok e', ctx')) :
    Rewritten bound path searched ctx (.var p n) ctx' e' := by
  have hread : Run.var.onRows ctx.config row param p n = .var p n := by
    rw [Run.var.onRows, read?_of_ungrouped hrow]
  have hconfig : Run.config ctx = (.ok ctx.config, ctx) := rfl
  rw [Run.var, Run.bind_ok hconfig] at h
  simp only [hread] at h
  split at h
  · rename_i hkept
    cases h
    exact .name p fun hcounts => hkept.elim hcounts.unbound hcounts.notTable
  · rename_i hkept
    obtain ⟨hunbound, hnotTable⟩ := not_or.mp hkept
    split at h
    · rename_i hrowNumber
      obtain ⟨f, ctx₁, hframe, h⟩ := Run.bind_eq_ok.mp h
      obtain ⟨rfl, hselecting⟩ := frame_eq_ok hframe
      split at h
      · rename_i hf
        obtain ⟨u, ctx₂, hcount, h⟩ := Run.bind_eq_ok.mp h
        cases h
        rw [countRow_of_eq_ok hcount]
        exact .rowNumber p ⟨hrowNumber, hnotTable, hunbound, hselecting.mpr hf⟩
      · rename_i hf
        cases h
        exact .name p fun hcounts => hf (hselecting.mp hcounts.selecting)
    · rename_i hrowNumber
      cases h
      exact .name p fun hcounts => hrowNumber hcounts.rowNumber

theorem run_binary (p : Position) (f : Binary) (l r : Expr) :
    (Expr.binary p f l r).run row param path bound searched = do
      let l ← l.run row param (.part 0 :: path) bound false
      let r ← r.run row param (.part 1 :: path) bound f.searches
      return .binary p f l r := by
  cases f with
  | operator op => cases op <;> rfl
  | index | computedField => rfl

theorem run_sequence (hrow : ∀ r ∈ row, r.isGrouped = false) (p : Position) (f : Sequence)
    (es : List Expr) :
    (Expr.sequence p f es).run row param path bound searched = do
      return .sequence p f (← runAll row param path bound .part 0 es) := by
  have hgrouped : row.filter (·.isGrouped) = none := by simpa [Option.filter_eq_none_iff] using hrow
  cases f with
  | call n => rw [Expr.run, hgrouped]
  | list | tuple | construct => rfl

/-- What the pass makes of the expression is what is written, but for queries and row numbers. -/
def Expr.RunsRewritten (row : Option Row) (param : String) (e : Expr) : Prop :=
  ∀ {bound path searched ctx ctx' e'},
    e.run row param path bound searched ctx = (.ok e', ctx') →
      Rewritten bound path searched ctx e ctx' e'

theorem rewritten_runAll {es : List Expr} (hes : ∀ e ∈ es, e.RunsRewritten row param) {i : Nat}
    {es' : List Expr} (h : runAll row param path bound .part i es ctx = (.ok es', ctx')) :
    RewrittenAll bound ctx (operands path i es) ctx' es' := by
  induction es generalizing i ctx es' with
  | nil =>
    cases h
    exact .nil
  | cons e es ih =>
    obtain ⟨he, hes⟩ := List.forall_mem_cons.mp hes
    rw [runAll] at h
    obtain ⟨e', ctx₁, hhead, h⟩ := Run.bind_eq_ok.mp h
    obtain ⟨es', ctx₂, htail, h⟩ := Run.bind_eq_ok.mp h
    cases h
    exact .cons (he hhead) (ih hes htail)

theorem rewritten_run (hrow : ∀ r ∈ row, r.isGrouped = false) (e : Expr) :
    e.RunsRewritten row param := by
  induction e using Expr.written_induction with
  | literal p v =>
    intro _ _ _ _ _ _ h
    cases h
    exact .literal p v
  | var p n => exact rewritten_var hrow
  | unary p f e ih =>
    intro _ _ _ _ _ _ h
    rw [Expr.run] at h
    obtain ⟨e', ctx₁, hoperand, h⟩ := Run.bind_eq_ok.mp h
    cases h
    exact .unary p f (ih hoperand)
  | binary p f l r ihl ihr =>
    intro _ _ _ _ _ _ h
    rw [run_binary] at h
    obtain ⟨l', ctx₁, hleft, h⟩ := Run.bind_eq_ok.mp h
    obtain ⟨r', ctx₂, hright, h⟩ := Run.bind_eq_ok.mp h
    cases h
    exact .binary p f (ihl hleft) (ihr hright)
  | sequence p f es ih =>
    intro _ _ _ _ _ _ h
    rw [run_sequence hrow] at h
    obtain ⟨es', ctx₁, hitems, h⟩ := Run.bind_eq_ok.mp h
    cases h
    exact .sequence p f (rewritten_runAll ih hitems)
  | method p r n es ihr ih =>
    intro _ _ _ _ _ _ h
    rw [Expr.run] at h
    obtain ⟨r', ctx₁, hreceiver, h⟩ := Run.bind_eq_ok.mp h
    obtain ⟨es', ctx₂, hargs, h⟩ := Run.bind_eq_ok.mp h
    cases h
    exact .method p n (ihr hreceiver) (rewritten_runAll ih hargs)
  | lambda p params body ih =>
    intro _ _ _ _ _ _ h
    rw [Expr.run] at h
    obtain ⟨body', ctx₁, hbody, h⟩ := Run.bind_eq_ok.mp h
    cases h
    exact .lambda p params (ih hbody)
  | query p q =>
    intro _ _ searched _ _ _ h
    rw [Expr.run] at h
    obtain ⟨t, ctx₁, hquery, h⟩ := Run.bind_eq_ok.mp h
    obtain ⟨c, ctx₂, hconfig, h⟩ := Run.bind_eq_ok.mp h
    rw [attach_of_ungrouped hrow] at h
    cases hconfig
    cases h
    cases searched with
    | false => exact .query p hquery
    | true => exact .searchedQuery p hquery
  | letIn | record | postIncrement | subquery =>
    intro _ _ _ _ _ _ h
    cases h

theorem rewritten_mapM (hrow : ∀ r ∈ row, r.isGrouped = false) {nodes : List (Path × Expr)}
    {es' : List Expr}
    (h : (nodes.mapM' fun n : Path × Expr => n.2.run row param n.1 [] false) ctx =
      (.ok es', ctx')) :
    RewrittenAll [] ctx nodes ctx' es' := by
  induction nodes generalizing ctx es' with
  | nil =>
    cases h
    exact .nil
  | cons n nodes ih =>
    rw [List.mapM'_cons] at h
    obtain ⟨e', ctx₁, hhead, h⟩ := Run.bind_eq_ok.mp h
    obtain ⟨es', ctx₂, htail, h⟩ := Run.bind_eq_ok.mp h
    cases h
    exact .cons (rewritten_run hrow n.2 hhead) (ih htail)

end

/-! ## Where the pass comes through -/

theorem Faults.outcome_ok_iff {ds : List Demand} {sites : List Site} (h : Faults ds sites) :
    (outcome ds).1 = .ok () ↔ Flawless sites = true := by
  have hnone : (∀ f, .fail f ∉ ds) ↔ ds.filterMap Demand.failure? = [] := by
    rw [List.filterMap_eq_nil_iff]
    constructor
    · intro hds d hd
      cases d with
      | fail f => exact absurd hd (hds f)
      | _ => rfl
    · exact fun hds f hf => nomatch hds _ hf
  rw [outcome_ok, hnone, h, List.filterMap_eq_nil_iff]
  simp [Flawless, Site.failure?]

/-- A run comes through just if there is no fault among its sites. -/
theorem Faults.comesThrough {α : Type} {ds : List Demand} {sites : List Site} (h : Faults ds sites)
    (ctx : Context) (image : Naming → α) :
    Flawless sites = true ↔ ∃ a ctx', Run.given (ctx.answer ds image) = (.ok a, ctx') := by
  have hresult : (ctx.answer ds image).1 = (outcome ds).1.map fun _ =>
      image (ctx.perform ds).2.naming := by
    rw [← (ctx.perform_outcome ds).1]
    rfl
  rw [← h.outcome_ok_iff, Run.given, hresult]
  cases (outcome ds).1 with
  | ok u => exact ⟨fun _ => ⟨_, _, rfl⟩, fun _ => rfl⟩
  | error f =>
    constructor
    · intro h
      cases h
    · rintro ⟨_, _, h⟩
      cases h

/-- While a query is open, an expression that stands on no grouped row is lowered just if it is of
the front end, and then it stays as it is written but for its queries and row numbers. The name of
the row, where it needs one, is given first. -/
theorem rewritten_off_groups {ctx : Context} (hopen : ctx.frames ≠ []) :
    (∀ node e,
      (e.isFrontEnd = true ↔ ∃ e' ctx', Run.resolveValue node e ctx = (.ok e', ctx')) ∧
        ∀ e' ctx', Run.resolveValue node e ctx = (.ok e', ctx') →
          Rewritten [] node false ctx e ctx' e') ∧
      ∀ row : Row, row.isGrouped = false → ∀ n nodes,
        ((∀ m ∈ n :: nodes, m.2.isFrontEnd = true) ↔
            ∃ r ctx', Run.resolveAll row (n :: nodes) ctx = (.ok r, ctx')) ∧
          ∀ r ctx', Run.resolveAll row (n :: nodes) ctx = (.ok r, ctx') →
            ∃ ctx₁, Run.parameter n.1 row ctx = (.ok r.param, ctx₁) ∧
              RewrittenAll [] ctx₁ (n :: nodes) ctx' r.exprs := by
  have hnumbering : ctx.numbering ≠ .noQuery := by
    obtain ⟨config, mistakes, names, _ | ⟨f, fs⟩⟩ := ctx
    · exact absurd rfl hopen
    · change (if f.selecting then Numbering.counted else .plain) ≠ .noQuery
      split <;> simp
  have hfaults (row : Option Row) (node : Path) (e : Expr) :
      Faults (e.demands ctx.config ⟨row, ctx.numbering⟩ node []) e.sites :=
    failsAtFaults ctx.config e ⟨row, ctx.numbering⟩ hnumbering node []
  refine ⟨fun node e => ⟨?_, fun e' ctx' => rewritten_run (by simp) e⟩,
    fun row hrow n nodes => ⟨?_, ?_⟩⟩
  · rw [Run.resolveValue_eq, isFrontEnd_eq_flawless]
    exact (hfaults none node e).comesThrough ctx _
  · have hnodes : Faults
        (row.nameDemands n.1 ++
          (n :: nodes).flatMap fun n => n.2.demands ctx.config ⟨some row, ctx.numbering⟩ n.1 [])
        ((n :: nodes).flatMap (·.2.sites)) := by
      refine Faults.named ?_ row n.1
      induction n :: nodes with
      | nil => rfl
      | cons m ms ih => exact (hfaults (some row) m.1 m.2).append ih
    have hflawless : Flawless ((n :: nodes).flatMap (·.2.sites)) = true ↔
        ∀ m ∈ n :: nodes, m.2.isFrontEnd = true := by
      simp only [isFrontEnd_eq_flawless, Flawless, List.all_flatMap, List.all_eq_true]
    rw [Run.resolveAll_eq, ← hflawless]
    exact hnodes.comesThrough ctx _
  · intro r ctx' h
    obtain ⟨param, ctx₁, hparam, h⟩ := Run.bind_eq_ok.mp h
    obtain ⟨bs, ctx₂, hbindings, h⟩ := Run.bind_eq_ok.mp h
    obtain ⟨es', ctx₃, hes, h⟩ := Run.bind_eq_ok.mp h
    cases h
    rw [Run.ofExcept_eq] at hbindings
    obtain rfl : ctx₁ = ctx₂ := (Prod.mk.inj hbindings).2
    have hungrouped : ∀ r ∈ some row, r.isGrouped = false := by simpa using hrow
    exact ⟨ctx₁, hparam, rewritten_mapM hungrouped hes⟩

/-- `_rn in (from z in zs limit _rn select z)`, where both rows and a query are met. -/
def numberAmongRows : Expr :=
  .binary .nowhere (.operator .isIn) (.name "_rn")
    (.query .nowhere
      { table := ⟨"z", .name "zs", .nowhere⟩
        joins := []
        filter := none
        grouping := none
        sorting := none
        limit := some ⟨none, .name "_rn", .nowhere⟩
        projection := some ⟨[.name "z"], .nowhere⟩
        pos := .nowhere })

theorem rewritten_off_groups_selecting :
    let ctx := (Context.new .standard).push ⟨.new, true, false⟩
    let row := (Row.table "x").joined "y"
    let rewritten (t : Thunk) : Expr :=
      .binary .nowhere (.operator .isIn) (.postIncrement .nowhere "__rowNumber")
        (.method .nowhere (.subquery .nowhere t) "toList" [])
    ctx.frames ≠ [] ∧ row.isGrouped = false ∧
      (∃ t ctx', Run.resolveValue [] numberAmongRows ctx = (.ok (rewritten t), ctx') ∧
        Rewritten [] [] false ctx numberAmongRows ctx' (rewritten t)) ∧
      ∃ r ctx₁ ctx', Run.resolve row [] numberAmongRows ctx = (.ok r, ctx') ∧
        Run.parameter [] row ctx = (.ok r.param, ctx₁) ∧
        RewrittenAll [] ctx₁ [([], numberAmongRows)] ctx' r.exprs := by
  intro ctx row rewritten
  have hopen : ctx.frames ≠ [] := List.cons_ne_nil _ _
  have hrow : row.isGrouped = false := rfl
  obtain ⟨hvalue, hrows⟩ := rewritten_off_groups hopen
  obtain ⟨hvalue, hvalue'⟩ := hvalue [] numberAmongRows
  obtain ⟨hrows, hrows'⟩ := hrows _ hrow ([], numberAmongRows) []
  obtain ⟨e', ctx₁, he'⟩ := hvalue.mp rfl
  have hrewritten := hvalue' e' ctx₁ he'
  obtain ⟨t, rfl⟩ : ∃ t, e' = rewritten t := by
    cases hrewritten with
    | binary p f left right =>
      have hcounts : ctx.Counts [] "_rn" := ⟨rfl, by decide, List.not_mem_nil, rfl⟩
      cases left with
      | name p h => exact absurd hcounts h
      | rowNumber p h =>
        cases right with
        | searchedQuery p h => exact ⟨_, rfl⟩
  obtain ⟨r, ctx₂, hr⟩ := hrows.mp (List.forall_mem_singleton.mpr rfl)
  obtain ⟨ctx₃, hparam, hexprs⟩ := hrows' r ctx₂ hr
  exact ⟨hopen, hrow, ⟨t, ctx₁, he', hrewritten⟩, r, ctx₃, ctx₂, hr, hparam, hexprs⟩

end Comprehension
