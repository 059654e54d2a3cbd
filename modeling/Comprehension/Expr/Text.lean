import Comprehension.Expr

/-!
The text of expressions, queries, chains and thunks. Operands stand in brackets only where their
strength asks for it.
-/

namespace Comprehension

namespace Expr

/-! ## Strength -/

/-- The strength of everything that needs no brackets. -/
def atomStrength : Nat := 8

/-- The strength of `!` and of the sign. -/
def signStrength : Nat := 7

/-- How strongly the outermost form of a node holds its operands. -/
def strength : Expr → Nat
  | binary _ (.operator op) _ _ => op.strength
  | lambda _ _ | unary _ (.rename _) _ => 0
  | unary _ .not _ | unary _ .negate _ => signStrength
  | _ => atomStrength

/-- A literal that is written with a sign; a second sign must not touch it. -/
def isSigned : Expr → Bool
  | literal _ v => v.isSigned
  | _ => false

/-- The operand of `!` or of a sign needs brackets. -/
def looseUnderSign (e : Expr) : Bool := e.isSigned || e.strength ≤ signStrength

end Expr

/-! ## Pieces -/

def bracketed (loose : Bool) (s : String) : String := if loose then "(" ++ s ++ ")" else s

def commas (ss : List String) : String := ", ".intercalate ss

def lambdaText (params : List String) (body : String) : String :=
  match params with
  | [p] => p ++ " -> " ++ body
  | ps => "(" ++ commas ps ++ ") -> " ++ body

def Sequence.text (items : List String) : Sequence → String
  | .list => "[" ++ commas items ++ "]"
  | .tuple => "(" ++ commas items ++ ")"
  | .construct t => "new " ++ t ++ "(" ++ commas items ++ ")"
  | .call n => n ++ "(" ++ commas items ++ ")"

def Declaration.text : Declaration → String
  | .table n t => n ++ " = " ++ t.text
  | .counter n => n ++ " = 0"

/-- `label body`, or nothing when the clause is absent. -/
def clauseText (label : String) : Option String → String
  | some body => label ++ body
  | none => ""

/-! ## Rendering -/

mutual
def Expr.text : Expr → String
  | .literal _ v => v.text
  | .var _ n => n
  | .unary _ .not e => "!" ++ bracketed e.looseUnderSign e.text
  | .unary _ .negate e => "-" ++ bracketed e.looseUnderSign e.text
  | .unary _ (.field n) e => bracketed (e.strength < Expr.atomStrength) e.text ++ "." ++ n
  | .unary _ (.rename a) e => bracketed (e.strength == 0) e.text ++ " as " ++ a
  | .binary _ (.operator op) l r =>
    bracketed (l.strength < op.strength) l.text ++ " " ++ op.symbol ++ " " ++
      bracketed (r.strength ≤ op.strength) r.text
  | .binary _ .index e i =>
    bracketed (e.strength < Expr.atomStrength) e.text ++ "[" ++ i.text ++ "]"
  | .binary _ .computedField e n =>
    bracketed (e.strength < Expr.atomStrength) e.text ++ ".(" ++ n.text ++ ")"
  | .sequence _ form es => form.text (textAll es)
  | .method _ r n es =>
    bracketed (r.strength < Expr.atomStrength) r.text ++ "." ++ n ++
      "(" ++ commas (textAll es) ++ ")"
  | .lambda _ ⟨ps, body⟩ => lambdaText ps body.text
  | .query _ q => "(" ++ queryText q ++ ")"
  | .letIn _ bs e => "\x7b " ++ bindingsText bs ++ e.text ++ " \x7d"
  | .record _ vs ns as row =>
    "NamedRecord([" ++ commas (textAll vs) ++ "], names=" ++ ns.text ++ ", aliases=" ++ as.text ++
      (match row with
        | some r => ", row=" ++ r.text
        | none => "") ++ ")"
  | .postIncrement _ n => n ++ "++"
  | .subquery _ t => "(" ++ t.text ++ ")()"

def textAll : List Expr → List String
  | [] => []
  | e :: es => e.text :: textAll es

def bindingsText : List (Binding Expr) → String
  | [] => ""
  | ⟨n, e⟩ :: bs => n ++ " = " ++ e.text ++ "; " ++ bindingsText bs

/-- A query as it is written: the clauses in order, one blank between two words. -/
def queryText : Query Expr → String
  | ⟨⟨name, source, _⟩, joins, filter, grouping, sorting, limit, projection, _⟩ =>
    "from " ++ name ++ " in " ++ source.text ++ joinsText joins ++
      (match filter with
        | some ⟨p, _⟩ => " where " ++ p.text
        | none => "") ++
      (match grouping with
        | some ⟨cs, into, having, _⟩ =>
          " groupby " ++ commas (textAll cs) ++ clauseText " into " into ++
            (match having with
              | some h => " having " ++ h.text
              | none => "")
        | none => "") ++
      (match sorting with
        | some ⟨terms, _⟩ => " orderby " ++ commas (termTexts terms)
        | none => "") ++
      (match limit with
        | some ⟨some offset, size, _⟩ => " limit " ++ offset.text ++ ", " ++ size.text
        | some ⟨none, size, _⟩ => " limit " ++ size.text
        | none => "") ++
      (match projection with
        | some ⟨items, _⟩ => " select " ++ commas (textAll items)
        | none => "")

def joinsText : List (Join Expr) → String
  | [] => ""
  | ⟨kind, name, source, on, _⟩ :: js =>
    " " ++ kind.keyword ++ " " ++ name ++ " in " ++ source.text ++
      (match on with
        | some e => " on " ++ e.text
        | none => "") ++ joinsText js

def termTexts : List (SortTerm Expr) → List String
  | [] => []
  | ⟨key, direction⟩ :: ts =>
    (key.text ++ clauseText " in " (direction.map (·.word))) :: termTexts ts

def Thunk.text : Thunk → String
  | ⟨declarations, pipeline⟩ =>
    "() -> \x7b " ++ "".intercalate (declarations.map fun d => d.text ++ "; ") ++
      "return " ++ pipeline.text ++ " \x7d"

def Pipeline.text : Pipeline → String
  | ⟨source, stages⟩ => "from(" ++ source.text ++ ")" ++ stagesText stages

def stagesText : List Stage → String
  | [] => ""
  | s :: ss => "." ++ s.text ++ stagesText ss

def Stage.text : Stage → String
  | .join kind joined on =>
    kind.callee ++ "(" ++ joined.text ++
      (match on with
        | some ⟨ps, e⟩ => ", " ++ lambdaText ps e.text
        | none => "") ++ ")"
  | .filter ⟨ps, e⟩ => "where(" ++ lambdaText ps e.text ++ ")"
  | .groupBy ⟨ps, e⟩ having =>
    "groupBy(" ++ lambdaText ps e.text ++
      (match having with
        | some ⟨qs, h⟩ => ", " ++ lambdaText qs h.text
        | none => "") ++ ")"
  | .orderBy specs => "orderBy(" ++ commas (specTexts specs) ++ ")"
  | .limit offset size => "limit(" ++ offset.text ++ ", " ++ size.text ++ ")"
  | .select ⟨ps, e⟩ => "select(" ++ lambdaText ps e.text ++ ")"

def specTexts : List (SortSpec Expr) → List String
  | [] => []
  | ⟨⟨ps, e⟩, ascending⟩ :: ss =>
    ("Order(" ++ lambdaText ps e.text ++ ", " ++ (if ascending then "true" else "false") ++ ")") ::
      specTexts ss
end

def Lambda.text (f : Lambda Expr) : String := lambdaText f.params f.body.text

end Comprehension
