import Comprehension.Image

/-!
The context of a run: configuration, mistakes found so far, made-up names, and a frame for each
query that is open. A run performs demands in order and stops at the first failure; what came before
it stays done.
-/

namespace Comprehension

/-- What is kept for a query while it is open. -/
structure Frame where
  table : NameTable
  selecting : Bool
  countsRows : Bool
  deriving DecidableEq

def Frame.new : Frame := ⟨.new, false, false⟩

/-- The frames stand with that of the innermost query first. -/
structure Context where
  config : Config
  mistakes : List Diagnostic
  names : NameSupply
  frames : List Frame
  deriving DecidableEq

namespace Context

def new (c : Config) : Context := ⟨c, [], .new c.stem, []⟩

/-! ## Frames -/

def depth (ctx : Context) : Nat := ctx.frames.length

def openFrame (ctx : Context) : Context := { ctx with frames := .new :: ctx.frames }

def frame? (ctx : Context) : Except Failure Frame :=
  match ctx.frames with
  | f :: _ => .ok f
  | [] => .error .noQueryFrame

def closeFrame (ctx : Context) : Except Failure (Frame × Context) :=
  match ctx.frames with
  | f :: fs => .ok (f, { ctx with frames := fs })
  | [] => .error .noQueryFrame

def modifyFrame (ctx : Context) (g : Frame → Frame) : Except Failure Context :=
  match ctx.frames with
  | f :: fs => .ok { ctx with frames := g f :: fs }
  | [] => .error .noQueryFrame

/-- How the row number is read by an expression that the context lowers next. -/
def numbering (ctx : Context) : Numbering :=
  match ctx.frames with
  | [] => .noQuery
  | f :: _ => if f.selecting then .counted else .plain

/-! ## Mistakes and names -/

def report (ctx : Context) (d : Diagnostic) : Context :=
  { ctx with mistakes := ctx.mistakes ++ [d] }

def clearMistakes (ctx : Context) : List Diagnostic × Context :=
  (ctx.mistakes, { ctx with mistakes := [] })

def reserve (ctx : Context) (names : List String) : Context :=
  { ctx with names := ctx.names.reserve names }

def fresh (ctx : Context) : String × Context :=
  let (n, s) := ctx.names.fresh
  (n, { ctx with names := s })

def nameOf (ctx : Context) (node : Path) : String × Context :=
  let (n, s) := ctx.names.nameOf node
  (n, { ctx with names := s })

/-- The names of the nodes: the one given, or the one that the node would get next. -/
def naming (ctx : Context) : Naming := ⟨ctx.config, fun node => (ctx.names.nameOf node).1⟩

/-! ## Demands -/

/-- A row counter that no query is there to need is not needed. -/
def countRow (ctx : Context) : Context :=
  match ctx.frames with
  | f :: fs => { ctx with frames := { f with countsRows := true } :: fs }
  | [] => ctx

/-- Does what is asked, up to the first failure. -/
def perform (ctx : Context) : List Demand → Except Failure Unit × Context
  | [] => (.ok (), ctx)
  | .name node :: ds => (ctx.nameOf node).2.perform ds
  | .report d :: ds => (ctx.report d).perform ds
  | .countRow :: ds => ctx.countRow.perform ds
  | .fail f :: _ => (.error f, ctx)

/-- Performs the demands and then answers from the names that were given. -/
def answer {α : Type} (ctx : Context) (ds : List Demand) (image : Naming → α) :
    Except Failure α × Context :=
  let (r, ctx) := ctx.perform ds
  (r.map fun _ => image ctx.naming, ctx)

end Context
end Comprehension
