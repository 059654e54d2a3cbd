import Comprehension.Operator
import Comprehension.Position

/-!
Queries: one slot for each kind of clause, in their fixed order. The clauses are written over the
type of the expressions they hold.
-/

namespace Comprehension

/-- `from alias in source`. -/
structure Table (ε : Type) where
  name : String
  source : ε
  pos : Position

structure Join (ε : Type) where
  kind : JoinKind
  name : String
  source : ε
  on : Option ε
  pos : Position

structure Filter (ε : Type) where
  predicate : ε
  pos : Position

/-- `groupby classifiers into alias having condition`. -/
structure Grouping (ε : Type) where
  classifiers : List ε
  into : Option String
  having : Option ε
  pos : Position

/-- The word after the `in` of an order term, as it was written. -/
structure Direction where
  word : String
  pos : Position
  deriving DecidableEq, Repr

structure SortTerm (ε : Type) where
  key : ε
  direction : Option Direction

structure Sorting (ε : Type) where
  terms : List (SortTerm ε)
  pos : Position

structure Limit (ε : Type) where
  offset : Option ε
  size : ε
  pos : Position

structure Projection (ε : Type) where
  items : List ε
  pos : Position

structure Query (ε : Type) where
  table : Table ε
  joins : List (Join ε)
  filter : Option (Filter ε)
  grouping : Option (Grouping ε)
  sorting : Option (Sorting ε)
  limit : Option (Limit ε)
  projection : Option (Projection ε)
  pos : Position

/-- Where in a query an expression stands. -/
inductive Slot where
  | source
  | joinSource (i : Nat)
  | joinOn (i : Nat)
  | predicate
  | classifier (i : Nat)
  | having
  | orderKey (i : Nat)
  | offset
  | size
  | item (i : Nat)
  deriving DecidableEq, Repr

namespace Query

variable {ε : Type}

/-- The aliases in the order of their declaration. -/
def aliases (q : Query ε) : List String := q.table.name :: q.joins.map (·.name)

/-- The name of the whole group key. -/
def into? (q : Query ε) : Option String := q.grouping.bind (·.into)

/-- Every name that the query declares for its own clauses. -/
def declared (q : Query ε) : List String := q.aliases ++ q.into?.toList

/-- Every expression of the query in the order of the clauses, with its slot. -/
def slots (q : Query ε) : List (Slot × ε) :=
  (.source, q.table.source) ::
    ((q.joins.mapIdx fun i j =>
        (Slot.joinSource i, j.source) :: (j.on.map (Slot.joinOn i, ·)).toList).flatten ++
      (q.filter.map fun f => (Slot.predicate, f.predicate)).toList ++
      (match q.grouping with
        | some g => g.classifiers.mapIdx (fun i e => (Slot.classifier i, e)) ++
            (g.having.map (Slot.having, ·)).toList
        | none => []) ++
      (match q.sorting with
        | some s => s.terms.mapIdx fun i t => (Slot.orderKey i, t.key)
        | none => []) ++
      (match q.limit with
        | some l => (l.offset.map (Slot.offset, ·)).toList ++ [(Slot.size, l.size)]
        | none => []) ++
      (match q.projection with
        | some p => p.items.mapIdx fun i e => (Slot.item i, e)
        | none => []))

def exprs (q : Query ε) : List ε := q.slots.map (·.2)

end Query
end Comprehension
