import Comprehension.Expr.Names

/-!
Values of expressions, once every form has a meaning. An interpretation gives these meanings and knows
pairs only through their two fields, so that what holds of all interpretations holds of any engine
that runs a query.
-/

namespace Comprehension

/-- A value for each name. -/
abbrev Env (V : Type) := String → V

namespace Env

variable {V : Type}

def set (env : Env V) (n : String) (v : V) : Env V := fun m => if m = n then v else env m

/-- The names take their values from `ρ`. -/
def merge (env : Env V) (names : List String) (ρ : Env V) : Env V :=
  fun m => if m ∈ names then ρ m else env m

/-- Parameters take the arguments in order. -/
def assign (env : Env V) : List String → List V → Env V
  | p :: ps, v :: vs => (env.set p v).assign ps vs
  | _, _ => env

end Env

/-- What each form means. A lambda is given its body as a function of the values of its parameters;
`source` and what follows it are the calls of a chain. -/
structure Meanings (V : Type) where
  literal : Literal → V
  unary : Unary → V → V
  binary : Binary → V → V → V
  sequence : Sequence → List V → V
  method : V → String → List V → V
  lambda : List String → (Env V → V) → V
  query : Query Expr → Env V → V
  record : List V → V → V → Option V → V
  increment : V → V
  table : NameTable → V
  zero : V
  source : V → V
  join : JoinKind → V → V → Option V → V
  filter : V → V → V
  groupBy : V → V → Option V → V
  orderBy : V → List (V × Bool) → V
  limit : V → V → V → V
  select : V → V → V

/-- Meanings and pairs, which the fields `first` and `second` take apart. -/
structure Interpretation (V : Type) extends Meanings V where
  pair : V → V → V
  first_pair (a b : V) : unary (.field "first") (pair a b) = a
  second_pair (a b : V) : unary (.field "second") (pair a b) = b

def Declaration.declare {V : Type} (M : Meanings V) (env : Env V) : Declaration → Env V
  | .table n names => env.set n (M.table names)
  | .counter n => env.set n M.zero

mutual
def Expr.meaning {V : Type} (M : Meanings V) (env : Env V) : Expr → V
  | .literal _ v => M.literal v
  | .var _ n => env n
  | .unary _ f e => M.unary f (e.meaning M env)
  | .binary _ f l r => M.binary f (l.meaning M env) (r.meaning M env)
  | .sequence _ f es => M.sequence f (meaningAll M env es)
  | .method _ r n es => M.method (r.meaning M env) n (meaningAll M env es)
  | .lambda _ ⟨ps, body⟩ => M.lambda ps fun ρ => body.meaning M (env.merge ps ρ)
  | .query _ q => M.query q env
  | .letIn _ bs e => e.meaning M (meaningLocals M env bs)
  | .record _ vs ns as row =>
    M.record (meaningAll M env vs) (ns.meaning M env) (as.meaning M env)
      (match row with
        | some r => some (r.meaning M env)
        | none => none)
  | .postIncrement _ n => M.increment (env n)
  | .subquery _ t => t.meaning M env

def meaningAll {V : Type} (M : Meanings V) (env : Env V) : List Expr → List V
  | [] => []
  | e :: es => e.meaning M env :: meaningAll M env es

/-- Locals are computed one after the other, each with those before it. -/
def meaningLocals {V : Type} (M : Meanings V) (env : Env V) : List (Binding Expr) → Env V
  | [] => env
  | ⟨n, e⟩ :: bs => meaningLocals M (env.set n (e.meaning M env)) bs

/-- The value of the chain, once the declarations are made. -/
def Thunk.meaning {V : Type} (M : Meanings V) (env : Env V) : Thunk → V
  | ⟨ds, pipeline⟩ => pipeline.meaning M (ds.foldl (Declaration.declare M) env)

def Pipeline.meaning {V : Type} (M : Meanings V) (env : Env V) : Pipeline → V
  | ⟨source, stages⟩ => meaningStages M env (M.source (source.meaning M env)) stages

def meaningStages {V : Type} (M : Meanings V) (env : Env V) (input : V) : List Stage → V
  | [] => input
  | s :: ss => meaningStages M env (s.meaning M env input) ss

def Stage.meaning {V : Type} (M : Meanings V) (env : Env V) (input : V) : Stage → V
  | .join kind joined on =>
    M.join kind input (joined.meaning M env)
      (match on with
        | some ⟨ps, e⟩ => some (M.lambda ps fun ρ => e.meaning M (env.merge ps ρ))
        | none => none)
  | .filter ⟨ps, e⟩ => M.filter input (M.lambda ps fun ρ => e.meaning M (env.merge ps ρ))
  | .groupBy ⟨ps, e⟩ having =>
    M.groupBy input (M.lambda ps fun ρ => e.meaning M (env.merge ps ρ))
      (match having with
        | some ⟨qs, h⟩ => some (M.lambda qs fun ρ => h.meaning M (env.merge qs ρ))
        | none => none)
  | .orderBy specs => M.orderBy input (meaningSpecs M env specs)
  | .limit offset size => M.limit input (offset.meaning M env) (size.meaning M env)
  | .select ⟨ps, e⟩ => M.select input (M.lambda ps fun ρ => e.meaning M (env.merge ps ρ))

def meaningSpecs {V : Type} (M : Meanings V) (env : Env V) :
    List (SortSpec Expr) → List (V × Bool)
  | [] => []
  | ⟨⟨ps, e⟩, ascending⟩ :: ss =>
    (M.lambda ps fun ρ => e.meaning M (env.merge ps ρ), ascending) :: meaningSpecs M env ss
end

/-- The value under an interpretation. -/
def Expr.eval {V : Type} (I : Interpretation V) (env : Env V) (e : Expr) : V :=
  e.meaning I.toMeanings env

/-- The value of the body for the given arguments. -/
def Lambda.run {V : Type} (I : Interpretation V) (env : Env V) (f : Lambda Expr)
    (args : List V) : V :=
  f.body.eval I (env.assign f.params args)

end Comprehension
