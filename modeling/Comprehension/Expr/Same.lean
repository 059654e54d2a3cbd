import Comprehension.Expr

/-!
Equality of expressions. An expression is written down as a list of marks, each part after the mark
that says how many parts follow, so equal lists come from equal expressions. Numbers are compared by
value and name tables as tables, whatever the order of their keys.
-/

namespace Comprehension

inductive Mark where
  | node (kind : String) (pos : Position) (parts : Nat)
  | literal (key : Literal)
  | unary (form : Unary)
  | binary (form : Binary)
  | sequence (form : Sequence)
  | names (ns : List String)
  | table (lists : List (Option (List String)))
  | flag (b : Bool)
  deriving DecidableEq

def NameTable.mark (t : NameTable) : Mark :=
  .table (NameList.all.map fun l => Assoc.get? l t.entries)

def Declaration.marks : Declaration → List Mark
  | .table n t => [.flag true, .names [n], t.mark]
  | .counter n => [.flag false, .names [n]]

mutual
def Expr.marks : Expr → List Mark
  | .literal p v => [.node "literal" p 0, .literal v.valueKey]
  | .var p n => [.node "var" p 0, .names [n]]
  | .unary p f e => .node "unary" p 1 :: .unary f :: e.marks
  | .binary p f l r => .node "binary" p 2 :: .binary f :: l.marks ++ r.marks
  | .sequence p f es => .node "sequence" p es.length :: .sequence f :: marksAll es
  | .method p r n es => .node "method" p es.length :: .names [n] :: r.marks ++ marksAll es
  | .lambda p ⟨ps, body⟩ => .node "lambda" p 1 :: .names ps :: body.marks
  | .query p q => .node "query" p 1 :: queryMarks q
  | .letIn p bs e =>
    .node "let" p bs.length :: .names (bs.map (·.name)) :: valuesMarks bs ++ e.marks
  | .record p vs ns as row =>
    .node "record" p vs.length :: marksAll vs ++ ns.marks ++ as.marks ++
      (match row with
        | some r => .flag true :: r.marks
        | none => [.flag false])
  | .postIncrement p n => [.node "postIncrement" p 0, .names [n]]
  | .subquery p t => .node "subquery" p 1 :: t.marks

def marksAll : List Expr → List Mark
  | [] => []
  | e :: es => e.marks ++ marksAll es

def valuesMarks : List (Binding Expr) → List Mark
  | [] => []
  | ⟨_, e⟩ :: bs => e.marks ++ valuesMarks bs

def queryMarks : Query Expr → List Mark
  | ⟨⟨name, source, tp⟩, joins, filter, grouping, sorting, limit, projection, p⟩ =>
    .node "from" tp joins.length :: .names [name] :: source.marks ++ joinsMarks joins ++
      (match filter with
        | some ⟨e, p⟩ => .node "where" p 1 :: e.marks
        | none => [.flag false]) ++
      (match grouping with
        | some ⟨cs, into, having, p⟩ =>
          .node "groupby" p cs.length :: .names into.toList :: marksAll cs ++
            (match having with
              | some h => .flag true :: h.marks
              | none => [.flag false])
        | none => [.flag false]) ++
      (match sorting with
        | some ⟨terms, p⟩ => .node "orderby" p terms.length :: termsMarks terms
        | none => [.flag false]) ++
      (match limit with
        | some ⟨offset, size, p⟩ =>
          .node "limit" p 1 ::
            (match offset with
              | some e => .flag true :: e.marks
              | none => [.flag false]) ++ size.marks
        | none => [.flag false]) ++
      (match projection with
        | some ⟨items, p⟩ => .node "select" p items.length :: marksAll items
        | none => [.flag false]) ++
      [.node "end" p 0]

def joinsMarks : List (Join Expr) → List Mark
  | [] => []
  | ⟨kind, name, source, on, p⟩ :: js =>
    .node kind.keyword p 1 :: .names [name] :: source.marks ++
      (match on with
        | some e => .flag true :: e.marks
        | none => [.flag false]) ++ joinsMarks js

def termsMarks : List (SortTerm Expr) → List Mark
  | [] => []
  | ⟨key, direction⟩ :: ts =>
    key.marks ++
      (match direction with
        | some d => [.node d.word d.pos 0]
        | none => [.flag false]) ++ termsMarks ts

def Thunk.marks : Thunk → List Mark
  | ⟨declarations, pipeline⟩ =>
    .node "thunk" .nowhere declarations.length :: declarations.flatMap (·.marks) ++ pipeline.marks

def Pipeline.marks : Pipeline → List Mark
  | ⟨source, stages⟩ => .node "chain" .nowhere stages.length :: source.marks ++ stagesMarks stages

def stagesMarks : List Stage → List Mark
  | [] => []
  | s :: ss => s.marks ++ stagesMarks ss

def Stage.marks : Stage → List Mark
  | .join kind joined on =>
    .node kind.callee .nowhere 1 :: joined.marks ++
      (match on with
        | some ⟨ps, e⟩ => .flag true :: .names ps :: e.marks
        | none => [.flag false])
  | .filter ⟨ps, e⟩ => .node "where" .nowhere 1 :: .names ps :: e.marks
  | .groupBy ⟨ps, e⟩ having =>
    .node "groupBy" .nowhere 1 :: .names ps :: e.marks ++
      (match having with
        | some ⟨qs, h⟩ => .flag true :: .names qs :: h.marks
        | none => [.flag false])
  | .orderBy specs => .node "orderBy" .nowhere specs.length :: specsMarks specs
  | .limit offset size => .node "limit" .nowhere 2 :: offset.marks ++ size.marks
  | .select ⟨ps, e⟩ => .node "select" .nowhere 1 :: .names ps :: e.marks

def specsMarks : List (SortSpec Expr) → List Mark
  | [] => []
  | ⟨⟨ps, e⟩, ascending⟩ :: ss => .flag ascending :: .names ps :: e.marks ++ specsMarks ss
end

/-- The two expressions are equal, positions included. -/
def Expr.same (a b : Expr) : Bool := a.marks == b.marks

end Comprehension
