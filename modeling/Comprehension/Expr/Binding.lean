import Comprehension.Expr

/-!
Bringing local names to an expression: either a `let` block before it, or each name replaced by its
value wherever it stands free.
-/

namespace Comprehension

/-- The value bound to a name, the first one if there are several. -/
def valueOf? (n : String) : List (Binding Expr) → Option Expr
  | [] => none
  | b :: bs => if b.name = n then some b.value else valueOf? n bs

/-- The bindings that are still in force under binders of the given names. -/
def without (names : List String) (bs : List (Binding Expr)) : List (Binding Expr) :=
  bs.filter (·.name ∉ names)

/-! ## Substitution

Lambdas, lets and the lambdas of a thunk hide the names they bind. A query that is not lowered yet
stays as it is. A value takes the position of the variable it replaces. -/

mutual
def Expr.substitute (σ : List (Binding Expr)) : Expr → Expr
  | .literal p v => .literal p v
  | .var p n =>
    match valueOf? n σ with
    | some e => e.withPos p
    | none => .var p n
  | .unary p f e => .unary p f (e.substitute σ)
  | .binary p f l r => .binary p f (l.substitute σ) (r.substitute σ)
  | .sequence p f es => .sequence p f (substituteAll σ es)
  | .method p r n es => .method p (r.substitute σ) n (substituteAll σ es)
  | .lambda p ⟨ps, body⟩ => .lambda p ⟨ps, body.substitute (without ps σ)⟩
  | .query p q => .query p q
  | .letIn p bs e =>
    .letIn p (substituteLocals σ bs) (e.substitute (without (bs.map (·.name)) σ))
  | .record p vs ns as row =>
    .record p (substituteAll σ vs) (ns.substitute σ) (as.substitute σ)
      (match row with
        | some r => some (r.substitute σ)
        | none => none)
  | .postIncrement p n => .postIncrement p n
  | .subquery p t => .subquery p (t.substitute σ)
termination_by structural x => x

def substituteAll (σ : List (Binding Expr)) : List Expr → List Expr
  | [] => []
  | e :: es => e.substitute σ :: substituteAll σ es
termination_by structural x => x

/-- A local name is hidden in what follows it. -/
def substituteLocals (σ : List (Binding Expr)) : List (Binding Expr) → List (Binding Expr)
  | [] => []
  | ⟨n, e⟩ :: bs => ⟨n, e.substitute σ⟩ :: substituteLocals (without [n] σ) bs
termination_by structural x => x

def Thunk.substitute (σ : List (Binding Expr)) : Thunk → Thunk
  | ⟨declarations, pipeline⟩ => ⟨declarations, pipeline.substitute σ⟩
termination_by structural x => x

def Pipeline.substitute (σ : List (Binding Expr)) : Pipeline → Pipeline
  | ⟨source, stages⟩ => ⟨source.substitute σ, substituteStages σ stages⟩
termination_by structural x => x

def substituteStages (σ : List (Binding Expr)) : List Stage → List Stage
  | [] => []
  | s :: ss => s.substitute σ :: substituteStages σ ss
termination_by structural x => x

def Stage.substitute (σ : List (Binding Expr)) : Stage → Stage
  | .join kind joined on =>
    .join kind (joined.substitute σ)
      (match on with
        | some ⟨ps, e⟩ => some ⟨ps, e.substitute (without ps σ)⟩
        | none => none)
  | .filter ⟨ps, e⟩ => .filter ⟨ps, e.substitute (without ps σ)⟩
  | .groupBy ⟨ps, e⟩ having =>
    .groupBy ⟨ps, e.substitute (without ps σ)⟩
      (match having with
        | some ⟨qs, h⟩ => some ⟨qs, h.substitute (without qs σ)⟩
        | none => none)
  | .orderBy specs => .orderBy (substituteSpecs σ specs)
  | .limit offset size => .limit (offset.substitute σ) (size.substitute σ)
  | .select ⟨ps, e⟩ => .select ⟨ps, e.substitute (without ps σ)⟩
termination_by structural x => x

def substituteSpecs (σ : List (Binding Expr)) : List (SortSpec Expr) → List (SortSpec Expr)
  | [] => []
  | ⟨⟨ps, e⟩, ascending⟩ :: ss =>
    ⟨⟨ps, e.substitute (without ps σ)⟩, ascending⟩ :: substituteSpecs σ ss
termination_by structural x => x
end

/-! ## Binding -/

/-- Brings the bindings to `body`, as a `let` block or by substitution. -/
def bind (bs : List (Binding Expr)) (body : Expr) (inline : Bool) : Expr :=
  if bs.isEmpty then body
  else if inline then body.substitute bs
  else .letIn body.pos bs body

end Comprehension
