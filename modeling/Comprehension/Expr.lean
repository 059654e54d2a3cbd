import Comprehension.Literal
import Comprehension.NameTable
import Comprehension.Query

/-!
Expressions. Lowering takes an expression to an expression, so one type holds both sides: queries
stand only in what is written, while `letIn`, `record`, `postIncrement` and `subquery` stand only in
what is lowered. A thunk is a lowered query: declarations and a chain of calls.
-/

namespace Comprehension

/-- `params -> body`. -/
structure Lambda (ε : Type) where
  params : List String
  body : ε

/-- A local `name = value`. -/
structure Binding (ε : Type) where
  name : String
  value : ε

structure SortSpec (ε : Type) where
  key : Lambda ε
  ascending : Bool

/-- What a thunk sets up before its chain runs. The counter starts at zero. -/
inductive Declaration where
  | table (name : String) (names : NameTable)
  | counter (name : String)
  deriving DecidableEq

mutual
inductive Expr where
  | literal (pos : Position) (value : Literal)
  | var (pos : Position) (name : String)
  | unary (pos : Position) (form : Unary) (operand : Expr)
  | binary (pos : Position) (form : Binary) (left right : Expr)
  | sequence (pos : Position) (form : Sequence) (items : List Expr)
  | method (pos : Position) (receiver : Expr) (name : String) (args : List Expr)
  | lambda (pos : Position) (fn : Lambda Expr)
  | query (pos : Position) (query : Query Expr)
  | letIn (pos : Position) (bindings : List (Binding Expr)) (body : Expr)
  | record (pos : Position) (values : List Expr) (names aliases : Expr) (row : Option Expr)
  | postIncrement (pos : Position) (counter : String)
  | subquery (pos : Position) (thunk : Thunk)

/-- One call of a chain. -/
inductive Stage where
  | join (kind : JoinKind) (joined : Pipeline) (on : Option (Lambda Expr))
  | filter (predicate : Lambda Expr)
  | groupBy (classifier : Lambda Expr) (having : Option (Lambda Expr))
  | orderBy (specs : List (SortSpec Expr))
  | limit (offset size : Expr)
  | select (projector : Lambda Expr)

/-- A chain of calls: `from(source)` and the stages after it, in call order. -/
structure Pipeline where
  source : Expr
  stages : List Stage

structure Thunk where
  declarations : List Declaration
  pipeline : Pipeline
end

namespace Expr

/-! ## Positions -/

def pos : Expr → Position
  | literal p _ | var p _ | unary p _ _ | binary p _ _ _ | sequence p _ _ | method p _ _ _
  | lambda p _ | query p _ | letIn p _ _ | record p _ _ _ _ | postIncrement p _ | subquery p _ => p

def withPos (p : Position) : Expr → Expr
  | literal _ v => literal p v
  | var _ n => var p n
  | unary _ f e => unary p f e
  | binary _ f l r => binary p f l r
  | sequence _ f es => sequence p f es
  | method _ r n es => method p r n es
  | lambda _ f => lambda p f
  | query _ q => query p q
  | letIn _ bs e => letIn p bs e
  | record _ vs ns as r => record p vs ns as r
  | postIncrement _ n => postIncrement p n
  | subquery _ t => subquery p t

@[simp] theorem pos_withPos (p : Position) (e : Expr) : (e.withPos p).pos = p := by
  cases e <;> rfl

theorem withPos_pos (e : Expr) : e.withPos e.pos = e := by
  cases e <;> rfl

/-! ## Builders

A built node stands where its first operand stands, or nowhere. -/

def name (n : String) : Expr := var .nowhere n

def int (i : Int) : Expr := literal .nowhere (.int i)

def string (s : String) : Expr := literal .nowhere (.string s)

def field (object : Expr) (n : String) : Expr := unary object.pos (.field n) object

def computedField (object n : Expr) : Expr := binary object.pos .computedField object n

def index (target i : Expr) : Expr := binary target.pos .index target i

def call (n : String) (args : List Expr) : Expr := sequence .nowhere (.call n) args

def send (receiver : Expr) (n : String) (args : List Expr) : Expr :=
  method receiver.pos receiver n args

def list (items : List Expr) : Expr := sequence .nowhere .list items

/-! ## Parts -/

def var? : Expr → Option String
  | var _ n => some n
  | _ => none

/-- The direct parts of a node. A query and a thunk have none: they are looked into as a whole. -/
def children : Expr → List Expr
  | unary _ _ e => [e]
  | binary _ _ l r => [l, r]
  | sequence _ _ es => es
  | method _ r _ es => r :: es
  | lambda _ f => [f.body]
  | letIn _ bs e => bs.map (·.value) ++ [e]
  | record _ vs ns as r => vs ++ [ns, as] ++ r.toList
  | _ => []

/-- The variable that a chain of accesses, calls and renames starts from. -/
def root? : Expr → Option String
  | var _ n => some n
  | unary _ (.field _) e | unary _ (.rename _) e => root? e
  | binary _ .index e _ | binary _ .computedField e _ => root? e
  | method _ r _ _ => root? r
  | _ => none

end Expr

/-! ## Stages -/

namespace Stage

def callee : Stage → String
  | join k _ _ => k.callee
  | filter _ => "where"
  | groupBy _ _ => "groupBy"
  | orderBy _ => "orderBy"
  | limit _ _ => "limit"
  | select _ => "select"

/-- The number of arguments of the call. -/
def arity : Stage → Nat
  | join _ _ on => 1 + on.toList.length
  | filter _ | select _ => 1
  | groupBy _ having => 1 + having.toList.length
  | orderBy specs => specs.length
  | limit _ _ => 2

end Stage

/-- What an argument of a call holds: a value computed once, or a function of a row. -/
inductive Argument where
  | value (e : Expr)
  | lambda (f : Lambda Expr)

mutual
/-- The arguments of a stage, those of a joined chain first. -/
def Stage.arguments : Stage → List Argument
  | .join _ joined on => joined.arguments ++ (on.map Argument.lambda).toList
  | .filter f | .select f => [.lambda f]
  | .groupBy f having => .lambda f :: (having.map Argument.lambda).toList
  | .orderBy specs => specs.map fun s => .lambda s.key
  | .limit a b => [.value a, .value b]

/-- The arguments of all calls of a chain, in call order. -/
def Pipeline.arguments : Pipeline → List Argument
  | ⟨source, stages⟩ => .value source :: stageArguments stages

def stageArguments : List Stage → List Argument
  | [] => []
  | s :: ss => s.arguments ++ stageArguments ss
end

namespace Pipeline

/-- The name and the number of arguments of each call. -/
def calls (p : Pipeline) : List (String × Nat) :=
  ("from", 1) :: p.stages.map fun s => (s.callee, s.arity)

/-- The chains that end after each call, the shortest first. -/
def initials (p : Pipeline) : List Pipeline :=
  (List.range (p.stages.length + 1)).map fun n => ⟨p.source, p.stages.take n⟩

/-- The chain before the last call. -/
def input? (p : Pipeline) : Option Pipeline :=
  if p.stages.isEmpty then none else some ⟨p.source, p.stages.dropLast⟩

end Pipeline

namespace Thunk

/-- The first name table that the thunk declares. -/
def table? (t : Thunk) : Option NameTable :=
  t.declarations.findSome? fun
    | .table _ names => some names
    | .counter _ => none

def hasCounter (t : Thunk) : Bool :=
  t.declarations.any fun
    | .table _ _ => false
    | .counter _ => true

end Thunk
end Comprehension
