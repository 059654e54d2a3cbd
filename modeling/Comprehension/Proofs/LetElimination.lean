import Comprehension.Proofs.Plain

/-!
Let elimination. `dropLets` puts every `let` block of a lowered expression in place, the inner ones
first, and keeps a block only where its values consult the name table. On what lowering makes, it
turns paths that are bound into paths that are put in place.
-/

namespace Comprehension

/-- A block after elimination inside it: kept where its values consult the table. -/
def settle (table : String) (p : Position) (bs : List (Binding Expr)) (body : Expr) : Expr :=
  if bs.all (table ∈ ·.value.free) then .letIn p bs body else body.substitute bs

mutual
def Expr.dropLets (table : String) : Expr → Expr
  | .literal p v => .literal p v
  | .var p n => .var p n
  | .unary p f e => .unary p f (e.dropLets table)
  | .binary p f l r => .binary p f (l.dropLets table) (r.dropLets table)
  | .sequence p f es => .sequence p f (dropLetsAll table es)
  | .method p r n es => .method p (r.dropLets table) n (dropLetsAll table es)
  | .lambda p ⟨ps, e⟩ => .lambda p ⟨ps, e.dropLets table⟩
  | .query p q => .query p q
  | .letIn p bs e => settle table p (dropLetsLocals table bs) (e.dropLets table)
  | .record p vs ns as row =>
    .record p (dropLetsAll table vs) (ns.dropLets table) (as.dropLets table)
      (match row with
        | some r => some (r.dropLets table)
        | none => none)
  | .postIncrement p n => .postIncrement p n
  | .subquery p t => .subquery p (t.dropLets table)
termination_by structural x => x

def dropLetsAll (table : String) : List Expr → List Expr
  | [] => []
  | e :: es => e.dropLets table :: dropLetsAll table es
termination_by structural x => x

def dropLetsLocals (table : String) : List (Binding Expr) → List (Binding Expr)
  | [] => []
  | ⟨n, e⟩ :: bs => ⟨n, e.dropLets table⟩ :: dropLetsLocals table bs
termination_by structural x => x

def Thunk.dropLets (table : String) : Thunk → Thunk
  | ⟨declarations, pipeline⟩ => ⟨declarations, pipeline.dropLets table⟩
termination_by structural x => x

def Pipeline.dropLets (table : String) : Pipeline → Pipeline
  | ⟨source, stages⟩ => ⟨source.dropLets table, dropLetsStages table stages⟩
termination_by structural x => x

def dropLetsStages (table : String) : List Stage → List Stage
  | [] => []
  | s :: ss => s.dropLets table :: dropLetsStages table ss
termination_by structural x => x

def Stage.dropLets (table : String) : Stage → Stage
  | .join kind joined on =>
    .join kind (joined.dropLets table)
      (match on with
        | some ⟨ps, e⟩ => some ⟨ps, e.dropLets table⟩
        | none => none)
  | .filter ⟨ps, e⟩ => .filter ⟨ps, e.dropLets table⟩
  | .groupBy ⟨ps, e⟩ having =>
    .groupBy ⟨ps, e.dropLets table⟩
      (match having with
        | some ⟨qs, h⟩ => some ⟨qs, h.dropLets table⟩
        | none => none)
  | .orderBy specs => .orderBy (dropLetsSpecs table specs)
  | .limit offset size => .limit (offset.dropLets table) (size.dropLets table)
  | .select ⟨ps, e⟩ => .select ⟨ps, e.dropLets table⟩
termination_by structural x => x

def dropLetsSpecs (table : String) : List (SortSpec Expr) → List (SortSpec Expr)
  | [] => []
  | ⟨⟨ps, e⟩, ascending⟩ :: ss =>
    ⟨⟨ps, e.dropLets table⟩, ascending⟩ :: dropLetsSpecs table ss
termination_by structural x => x
end

/-- Elimination in the body of a function. -/
def Lambda.dropLets (table : String) (f : Lambda Expr) : Lambda Expr :=
  ⟨f.params, f.body.dropLets table⟩

variable {table : String}

theorem dropLetsStages_append (ss ss' : List Stage) :
    dropLetsStages table (ss ++ ss') = dropLetsStages table ss ++ dropLetsStages table ss' := by
  induction ss with
  | nil => rfl
  | cons s ss ih => rw [List.cons_append, dropLetsStages, ih, dropLetsStages, List.cons_append]

/-! ## Positions and heads -/

namespace Expr

theorem pos_substitute (σ : List (Binding Expr)) (e : Expr) : (e.substitute σ).pos = e.pos := by
  cases e with
  | var p n =>
    rw [substitute]
    cases valueOf? n σ with
    | none => rfl
    | some v => exact pos_withPos p v
  | record p vs ns as row => cases row <;> rfl
  | _ => rfl

end Expr

theorem pos_bind (bs : List (Binding Expr)) (e : Expr) (inline : Bool) :
    (bind bs e inline).pos = e.pos := by
  rw [bind]
  split
  · rfl
  · split
    · exact Expr.pos_substitute bs e
    · rfl

/-! ## Blocks -/

/-- Elimination leaves the values of a block as they are. -/
def Settled (table : String) (bs : List (Binding Expr)) : Prop :=
  ∀ b ∈ bs, b.value.dropLets table = b.value

theorem dropLetsLocals_eq_self {bs : List (Binding Expr)} (h : Settled table bs) :
    dropLetsLocals table bs = bs := by
  induction bs with
  | nil => rfl
  | cons b bs ih =>
    have hb : b.value.dropLets table = b.value := h b List.mem_cons_self
    rw [dropLetsLocals, ih fun b' hb' => h b' (List.mem_cons_of_mem _ hb'), hb]

/-- A block that does not consult the table is put in place. -/
theorem dropLets_bind_of_not_mem {bs : List (Binding Expr)} (h : Settled table bs)
    (hfree : ∀ b ∈ bs, table ∉ b.value.free) (body : Expr) :
    (bind bs body false).dropLets table = bind bs (body.dropLets table) true := by
  cases bs with
  | nil => rfl
  | cons b bs =>
    have hb : ¬((b :: bs).all fun b => decide (table ∈ b.value.free)) = true := by
      simp [hfree b List.mem_cons_self]
    change settle table _ (dropLetsLocals table (b :: bs)) _ = _
    rw [dropLetsLocals_eq_self h, settle, if_neg hb]
    rfl

/-- A block that consults the table stays. -/
theorem dropLets_bind_of_mem {bs : List (Binding Expr)} (h : Settled table bs)
    (hfree : ∀ b ∈ bs, table ∈ b.value.free) {body body' : Expr}
    (hbody : body.dropLets table = body') (hpos : body'.pos = body.pos) :
    (bind bs body false).dropLets table = bind bs body' false := by
  cases bs with
  | nil => exact hbody
  | cons b bs =>
    have hall : ((b :: bs).all fun b => decide (table ∈ b.value.free)) = true := by
      simpa using hfree
    change settle table _ (dropLetsLocals table (b :: bs)) _ = Expr.letIn body'.pos (b :: bs) body'
    rw [dropLetsLocals_eq_self h, settle, if_pos hall, hbody, hpos]

/-! ## Paths -/

theorem PairPath.dropLets_read (path : PairPath) {e : Expr} (he : e.dropLets table = e) :
    (path.read e).dropLets table = path.read e := by
  induction path generalizing e with
  | nil => exact he
  | cons h path ih => exact ih (congrArg (Expr.unary e.pos (.field h.name)) he)

theorem Row.bindings_settled (r : Row) (param : String) (es : List Expr) :
    Settled table (r.bindings param es) := by
  intro b hb
  simp only [Row.bindings, List.mem_map] at hb
  obtain ⟨p, -, rfl⟩ := hb
  exact PairPath.dropLets_read p.2 rfl

/-- Paths start at the parameter of the row. A row that goes by its alias has none. -/
theorem Row.bindings_free (r : Row) {name : Path → String} {node : Path} {es : List Expr}
    {b : Binding Expr} (hb : b ∈ r.bindings (r.parameter name node) es) :
    b.value.free = [name node] := by
  cases r with
  | table a => simp [Row.bindings, Row.paths] at hb
  | joined prior a =>
    simp only [Row.bindings, List.mem_map] at hb
    obtain ⟨p, -, rfl⟩ := hb
    exact PairPath.read_free p.2 _
  | grouped prior names into => simp [Row.bindings, Row.paths] at hb

end Comprehension
