import Comprehension.Context

/-! Lowering: single expressions on a row, and whole queries to thunks. -/

namespace Comprehension

/-! ## Expressions on a row -/

/-- Expressions lowered together on one row: the parameter that is the row, the bindings that the
expressions need, and their images. -/
structure RowImage where
  param : String
  bindings : List (Binding Expr)
  exprs : List Expr

namespace RowImage

/-- The function of a row with the given body. -/
def close (r : RowImage) (body : Expr) (inline : Bool) : Lambda Expr :=
  ⟨[r.param], bind r.bindings body inline⟩

/-- The image of the first expression; there always is one. -/
def expr (r : RowImage) : Expr := r.exprs.headD (Expr.name r.param)

/-- The function of a row that the first expression is. -/
def lambda (r : RowImage) (inline : Bool) : Lambda Expr := r.close r.expr inline

end RowImage

namespace Context

/-- The name of the row parameter of a node. -/
def parameter (ctx : Context) (row : Row) (node : Path) : Except Failure String × Context :=
  ctx.answer (row.nameDemands node) fun s => row.parameter s.name node

/-- Lowers expressions, each with its node, that share one row. The first one gives the row its
name. -/
def imageOnRow (ctx : Context) (row : Row) :
    List (Path × Expr) → Except Failure RowImage × Context
  | [] => ctx.answer [.fail emptyList] fun _ => ⟨"", [], []⟩
  | (node, e) :: rest =>
    let nodes := (node, e) :: rest
    let place : Place := ⟨some row, ctx.numbering⟩
    ctx.answer
      (row.nameDemands node ++ nodes.flatMap fun n => n.2.demands ctx.config place n.1 [])
      fun s =>
        let param := row.parameter s.name node
        ⟨param, row.bindings param (nodes.map (·.2)),
          nodes.map fun n => n.2.image s place param n.1 [] false⟩

/-- Lowers an expression that is computed once, outside of any row. -/
def imageOffRow (ctx : Context) (node : Path) (e : Expr) : Except Failure Expr × Context :=
  let place : Place := ⟨none, ctx.numbering⟩
  ctx.answer (e.demands ctx.config place node []) fun s => e.image s place "" node [] false

/-- Lowers an expression on a row whose parameter has the given name, under names that are bound. -/
def imageUnder (ctx : Context) (row : Row) (param : String) (bound : List String) (node : Path)
    (e : Expr) : Except Failure Expr × Context :=
  let place : Place := ⟨some row, ctx.numbering⟩
  ctx.answer (e.demands ctx.config place node bound) fun s => e.image s place param node bound false

/-- Lowers a call of an aggregate, which has a meaning on the rows of a group only. -/
def imageOfAggregate (ctx : Context) (row : Row) (param : String) (bound : List String)
    (node : Path) (e : Expr) : Except Failure Expr × Context :=
  if row.isGrouped then ctx.imageUnder row param bound node e
  else ctx.answer [.fail (.impossibleNode e.text)] fun _ => e

/-- Makes a record of the values and notes their names in the table of the current query. -/
def noteRecord (ctx : Context) (l : NameList) (written values : List Expr) (row : Option Expr) :
    Except Failure (Expr × Context) :=
  (ctx.modifyFrame fun f => { f with table := f.table.set l (labels written) }).map
    (recordOf ctx.config.table l values row, ·)

/-! ## Queries -/

/-- Lowers a query in a frame of its own. Nothing of the frames that are open changes. -/
def lowerInside (ctx : Context) (node : Path) (q : Query Expr) : Except Failure Thunk × Context :=
  ctx.answer ((queryDemands ctx.config node q).filter (·.outlivesQuery)) fun s =>
    queryImage s node q

/-- Lowers a query. Where none is open yet, the names that it spells are reserved first. -/
def lower (ctx : Context) (node : Path) (q : Query Expr) : Except Failure Thunk × Context :=
  (if ctx.frames.isEmpty then
      (ctx.reserve [ctx.config.table, ctx.config.counter]).reserve q.identifiers
    else ctx).lowerInside node q

end Context

/-- Lowers a query on its own. Any mistake in it fails the whole. -/
def Query.lower (q : Query Expr) (c : Config) : Except Failure Thunk :=
  match c.fault? with
  | some f => .error (.config f)
  | none =>
    match (Context.new c).lower [] q with
    | (.error f, _) => .error f
    | (.ok thunk, ctx) =>
      if ctx.mistakes.isEmpty then .ok thunk else .error (.mistakes ctx.mistakes)

end Comprehension
