import Comprehension.Aggregate
import Comprehension.Position

/-! Mistakes in a query that its author can mend, each with its place. -/

namespace Comprehension

inductive Mistake where
  | aliasDeclared (name : String)
  | predicateMissing (kind : JoinKind)
  | predicateOnCross
  | unknownDirection (word : String)
  | selectMissing
  | selectEmpty
  | argumentCount (a : Aggregate) (got : Nat)
  | selectorOverGroup (a : Aggregate)
  | stated (message : String)
  deriving DecidableEq, Repr

def Mistake.message : Mistake → String
  | aliasDeclared a => "alias '" ++ a ++ "' is already declared"
  | predicateMissing k => k.keyword ++ " requires an 'on' predicate"
  | predicateOnCross => "crossjoin does not take an 'on' predicate"
  | unknownDirection w => "invalid order direction '" ++ w ++ "', expected asc or desc"
  | selectMissing => "select clause missing"
  | selectEmpty => "select clause has no projections"
  | argumentCount a got =>
    a.name ++ "() takes " ++ a.countsText ++ " argument(s), got " ++ toString got
  | selectorOverGroup a =>
    a.name ++ "() takes a per-row selector; use agg() to reduce the whole group"
  | stated m => m

structure Diagnostic where
  mistake : Mistake
  pos : Position
  deriving DecidableEq, Repr

def Diagnostic.text (d : Diagnostic) : String :=
  "SyntaxError: " ++ d.mistake.message ++ "\n  at [" ++ d.pos.text ++ "]"

end Comprehension
