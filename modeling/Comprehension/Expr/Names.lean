import Comprehension.Expr

/-!
Names in expressions. `Expr.free` lists the names that an expression reads from outside,
`Expr.spelled` every name that is written in it. Both keep the order of reading and may repeat a
name; `distinct` keeps the first of each.
-/

namespace Comprehension

/-! ## Lists of names -/

/-- The names in the order in which they first come. -/
def distinct : List String → List String
  | [] => []
  | n :: ns => n :: (distinct ns).filter (· ≠ n)

/-- The names that are not among the bound ones. -/
def unbound (bound ns : List String) : List String := ns.filter (· ∉ bound)

@[simp] theorem mem_distinct {n : String} {ns : List String} : n ∈ distinct ns ↔ n ∈ ns := by
  induction ns with
  | nil => simp [distinct]
  | cons m ns ih => by_cases h : n = m <;> simp [distinct, ih, h]

/-- A name at the end comes for the first time, or not at all. -/
theorem distinct_append_singleton (ns : List String) (n : String) :
    distinct (ns ++ [n]) = if n ∈ ns then distinct ns else distinct ns ++ [n] := by
  induction ns with
  | nil => simp [distinct]
  | cons m ns ih =>
    rw [List.cons_append, distinct, ih]
    split <;> by_cases hm : n = m <;> simp_all [distinct]

@[simp] theorem mem_unbound {n : String} {bound ns : List String} :
    n ∈ unbound bound ns ↔ n ∈ ns ∧ n ∉ bound := by
  simp [unbound]

/-! ## Free names

The sources of a query are read where the query stands, all else inside, where the names that the
query declares are bound. Each expression is looked into once, so that the list stays as short as
the query, however deep queries nest. -/

mutual
/-- The names that the expression reads from outside. Lambdas, lets and queries bind; thunks and
counters are closed to the view. -/
def Expr.free : Expr → List String
  | .literal _ _ => []
  | .var _ n => [n]
  | .unary _ _ e => e.free
  | .binary _ _ l r => l.free ++ r.free
  | .sequence _ _ es => freeAll es
  | .method _ r _ es => r.free ++ freeAll es
  | .lambda _ ⟨ps, body⟩ => unbound ps body.free
  | .query _ q => queryFree q
  | .letIn _ bs e => letFree e.free bs
  | .record _ vs ns as row =>
    freeAll vs ++ ns.free ++ as.free ++
      (match row with
        | some r => r.free
        | none => [])
  | .postIncrement _ _ => []
  | .subquery _ _ => []

def freeAll : List Expr → List String
  | [] => []
  | e :: es => e.free ++ freeAll es

/-- A local name is bound in what follows it. -/
def letFree (body : List String) : List (Binding Expr) → List String
  | [] => body
  | ⟨n, e⟩ :: bs => e.free ++ unbound [n] (letFree body bs)

def queryFree : Query Expr → List String
  | q@⟨⟨_, source, _⟩, joins, filter, grouping, sorting, limit, projection, _⟩ =>
    source.free ++ joinSourcesFree joins ++
      unbound q.declared
        (predicatesFree joins ++ filterFree filter ++ groupingFree grouping ++
          sortingFree sorting ++ limitFree limit ++ projectionFree projection)

def joinSourcesFree : List (Join Expr) → List String
  | [] => []
  | ⟨_, _, source, _, _⟩ :: js => source.free ++ joinSourcesFree js

def predicatesFree : List (Join Expr) → List String
  | [] => []
  | ⟨_, _, _, some on, _⟩ :: js => on.free ++ predicatesFree js
  | ⟨_, _, _, none, _⟩ :: js => predicatesFree js

def filterFree : Option (Filter Expr) → List String
  | some ⟨e, _⟩ => e.free
  | none => []

def groupingFree : Option (Grouping Expr) → List String
  | some ⟨cs, _, some having, _⟩ => freeAll cs ++ having.free
  | some ⟨cs, _, none, _⟩ => freeAll cs
  | none => []

def sortingFree : Option (Sorting Expr) → List String
  | some ⟨terms, _⟩ => termsFree terms
  | none => []

def termsFree : List (SortTerm Expr) → List String
  | [] => []
  | ⟨key, _⟩ :: ts => key.free ++ termsFree ts

def limitFree : Option (Limit Expr) → List String
  | some ⟨some offset, size, _⟩ => offset.free ++ size.free
  | some ⟨none, size, _⟩ => size.free
  | none => []

def projectionFree : Option (Projection Expr) → List String
  | some ⟨items, _⟩ => freeAll items
  | none => []
end

/-- The aliases that some of the expressions read, in the order of the aliases. -/
def referenced (aliases : List String) (es : List Expr) : List String :=
  aliases.filter (· ∈ freeAll es)

/-! ## Spelled names -/

mutual
/-- Every variable, lambda parameter, local name and declared name in the expression. -/
def Expr.spelled : Expr → List String
  | .literal _ _ => []
  | .var _ n => [n]
  | .unary _ _ e => e.spelled
  | .binary _ _ l r => l.spelled ++ r.spelled
  | .sequence _ _ es => spelledAll es
  | .method _ r _ es => r.spelled ++ spelledAll es
  | .lambda _ ⟨ps, body⟩ => ps ++ body.spelled
  | .query _ q => querySpelled q
  | .letIn _ bs e => bs.map (·.name) ++ valuesSpelled bs ++ e.spelled
  | .record _ vs ns as row =>
    spelledAll vs ++ ns.spelled ++ as.spelled ++
      (match row with
        | some r => r.spelled
        | none => [])
  | .postIncrement _ _ => []
  | .subquery _ _ => []

def spelledAll : List Expr → List String
  | [] => []
  | e :: es => e.spelled ++ spelledAll es

def valuesSpelled : List (Binding Expr) → List String
  | [] => []
  | ⟨_, e⟩ :: bs => e.spelled ++ valuesSpelled bs

def querySpelled : Query Expr → List String
  | q@⟨⟨_, source, _⟩, joins, filter, grouping, sorting, limit, projection, _⟩ =>
    q.declared ++ source.spelled ++ joinsSpelled joins ++ filterSpelled filter ++
      groupingSpelled grouping ++ sortingSpelled sorting ++ limitSpelled limit ++
      projectionSpelled projection

def joinsSpelled : List (Join Expr) → List String
  | [] => []
  | ⟨_, _, source, some on, _⟩ :: js => source.spelled ++ on.spelled ++ joinsSpelled js
  | ⟨_, _, source, none, _⟩ :: js => source.spelled ++ joinsSpelled js

def filterSpelled : Option (Filter Expr) → List String
  | some ⟨e, _⟩ => e.spelled
  | none => []

def groupingSpelled : Option (Grouping Expr) → List String
  | some ⟨cs, _, some having, _⟩ => spelledAll cs ++ having.spelled
  | some ⟨cs, _, none, _⟩ => spelledAll cs
  | none => []

def sortingSpelled : Option (Sorting Expr) → List String
  | some ⟨terms, _⟩ => termsSpelled terms
  | none => []

def termsSpelled : List (SortTerm Expr) → List String
  | [] => []
  | ⟨key, _⟩ :: ts => key.spelled ++ termsSpelled ts

def limitSpelled : Option (Limit Expr) → List String
  | some ⟨some offset, size, _⟩ => offset.spelled ++ size.spelled
  | some ⟨none, size, _⟩ => size.spelled
  | none => []

def projectionSpelled : Option (Projection Expr) → List String
  | some ⟨items, _⟩ => spelledAll items
  | none => []
end

/-- The identifiers of a query, each once, in the order of their first place. -/
def Query.identifiers (q : Query Expr) : List String := distinct (querySpelled q)

end Comprehension
