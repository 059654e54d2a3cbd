import Comprehension.Proofs.Pieces

/-!
Names that a query spells: those of its expressions and of its rows, and all names that it reads
from outside.
-/

namespace Comprehension

theorem mem_querySpelled {n : String} {q : Query Expr} :
    n ∈ querySpelled q ↔ n ∈ q.declared ∨ n ∈ q.table.source.spelled ∨ n ∈ joinsSpelled q.joins ∨
      n ∈ filterSpelled q.filter ∨ n ∈ groupingSpelled q.grouping ∨ n ∈ sortingSpelled q.sorting ∨
      n ∈ limitSpelled q.limit ∨ n ∈ projectionSpelled q.projection := by
  rw [querySpelled]
  simp only [List.mem_append, or_assoc]

theorem declared_spelled {q : Query Expr} {n : String} (h : n ∈ q.declared) :
    n ∈ querySpelled q :=
  mem_querySpelled.mpr (Or.inl h)

theorem spelledAll_append (es es' : List Expr) :
    spelledAll (es ++ es') = spelledAll es ++ spelledAll es' := by
  induction es with
  | nil => rfl
  | cons e es ih => simp [spelledAll, ih]

theorem joinsSpelled_eq (js : List (Join Expr)) :
    joinsSpelled js = spelledAll (js.flatMap fun j => j.source :: j.on.toList) := by
  induction js with
  | nil => rfl
  | cons j js ih =>
    obtain ⟨kind, name, source, on, p⟩ := j
    cases on <;> simp [joinsSpelled, spelledAll, ih]

theorem termsSpelled_eq (ts : List (SortTerm Expr)) :
    termsSpelled ts = spelledAll (ts.map (·.key)) := by
  induction ts with
  | nil => rfl
  | cons t ts ih => simp [termsSpelled, spelledAll, ih]

/-- A query spells its own names and those of its expressions, in the order of the clauses. -/
theorem querySpelled_eq (q : Query Expr) :
    querySpelled q = q.declared ++ spelledAll q.exprs := by
  have hfilter : filterSpelled q.filter = spelledAll (q.filter.toList.map (·.predicate)) := by
    cases q.filter <;> simp [filterSpelled, spelledAll]
  have hgrouping : groupingSpelled q.grouping =
      spelledAll (q.grouping.toList.flatMap fun g => g.classifiers ++ g.having.toList) := by
    obtain _ | ⟨cs, into, _ | having, p⟩ := q.grouping <;>
      simp [groupingSpelled, spelledAll, spelledAll_append]
  have hsorting : sortingSpelled q.sorting =
      spelledAll (q.sorting.toList.flatMap fun s => s.terms.map (·.key)) := by
    cases q.sorting <;> simp [sortingSpelled, spelledAll, termsSpelled_eq]
  have hlimit : limitSpelled q.limit =
      spelledAll (q.limit.toList.flatMap fun l => l.offset.toList ++ [l.size]) := by
    obtain _ | ⟨_ | offset, size, p⟩ := q.limit <;> simp [limitSpelled, spelledAll]
  have hprojection : projectionSpelled q.projection =
      spelledAll (q.projection.toList.flatMap (·.items)) := by
    cases q.projection <;> simp [projectionSpelled, spelledAll]
  rw [querySpelled, Query.exprs_eq, joinsSpelled_eq, hfilter, hgrouping, hsorting, hlimit,
    hprojection]
  simp only [spelledAll, spelledAll_append, List.append_assoc]

/-- The query spells what its expressions spell. -/
theorem each_spelled (q : Query Expr) :
    q.Each fun e => ∀ n ∈ e.spelled, n ∈ querySpelled q := by
  refine Query.each_iff.mpr fun e he n hn => ?_
  rw [querySpelled_eq]
  exact List.mem_append_right _ (mem_spelledAll.mpr ⟨e, he, hn⟩)

/-- A piece spells nothing that its query does not spell, be it in its expressions or its rows. -/
theorem spelled_pieces {q : Query Expr} {p : Piece} (hp : p ∈ q.pieces) {n : String}
    (hn : n ∉ querySpelled q) : (∀ e ∈ p.exprs, n ∉ e.spelled) ∧ n ∉ p.rowNames := by
  refine ⟨fun e he h => hn ((each_spelled q).pieces p hp e he n h), fun h => hn ?_⟩
  exact declared_spelled (List.mem_append_left _ (q.rowNames_pieces p hp n h))

/-! ## Names that are read

What is read from outside is spelled, in whatever expression: those that only lowering makes stand
in a query too, where no lowering looks. -/

theorem unbound_subset {bound ns ms : List String} (h : ns ⊆ ms) : unbound bound ns ⊆ ms :=
  fun _ hn => h (mem_unbound.mp hn).1

theorem append_subset_append {ns ms ns' ms' : List String} (h : ns ⊆ ms) (h' : ns' ⊆ ms') :
    ns ++ ns' ⊆ ms ++ ms' := by
  intro n hn
  exact List.mem_append.mpr ((List.mem_append.mp hn).imp (@h n) (@h' n))

mutual
/-- A name that is read from outside is written somewhere in the expression. -/
theorem Expr.free_subset_spelled : (e : Expr) → e.free ⊆ e.spelled
  | .literal _ _ => List.nil_subset _
  | .var _ _ => List.Subset.refl _
  | .unary _ _ e => e.free_subset_spelled
  | .binary _ _ l r => append_subset_append l.free_subset_spelled r.free_subset_spelled
  | .sequence _ _ es => freeAll_subset_spelled es
  | .method _ r _ es => append_subset_append r.free_subset_spelled (freeAll_subset_spelled es)
  | .lambda _ ⟨ps, e⟩ => fun _ hn =>
    List.mem_append_right _ (unbound_subset e.free_subset_spelled hn)
  | .query _ q => queryFree_subset_spelled q
  | .letIn _ bs e => fun _ hn => by
    have hbs := letFree_subset_spelled e.free_subset_spelled bs hn
    rw [Expr.spelled, List.append_assoc]
    exact List.mem_append_right _ hbs
  | .record _ vs ns as none =>
    append_subset_append (append_subset_append (append_subset_append (freeAll_subset_spelled vs)
      ns.free_subset_spelled) as.free_subset_spelled) (List.nil_subset _)
  | .record _ vs ns as (some r) =>
    append_subset_append (append_subset_append (append_subset_append (freeAll_subset_spelled vs)
      ns.free_subset_spelled) as.free_subset_spelled) r.free_subset_spelled
  | .postIncrement _ _ => List.nil_subset _
  | .subquery _ _ => List.nil_subset _
termination_by structural x => x

theorem freeAll_subset_spelled : (es : List Expr) → freeAll es ⊆ spelledAll es
  | [] => List.nil_subset _
  | e :: es => append_subset_append e.free_subset_spelled (freeAll_subset_spelled es)
termination_by structural x => x

theorem letFree_subset_spelled {body ns : List String} (h : body ⊆ ns) :
    (bs : List (Binding Expr)) → letFree body bs ⊆ valuesSpelled bs ++ ns
  | [] => h
  | ⟨_, e⟩ :: bs => by
    rw [letFree, valuesSpelled, List.append_assoc]
    exact append_subset_append e.free_subset_spelled
      (unbound_subset (letFree_subset_spelled h bs))
termination_by structural x => x

theorem queryFree_subset_spelled : (q : Query Expr) → queryFree q ⊆ querySpelled q
  | ⟨⟨name, source, tp⟩, joins, filter, grouping, sorting, limit, projection, p⟩ => by
    intro n hn
    have hjoins := joinsFree_subset_spelled joins
    rw [queryFree] at hn
    simp only [List.mem_append, mem_unbound] at hn
    rw [mem_querySpelled]
    rcases hn with (hn | hn) | ⟨((((hn | hn) | hn) | hn) | hn) | hn, -⟩
    · exact .inr (.inl (source.free_subset_spelled hn))
    · exact .inr (.inr (.inl (hjoins.1 hn)))
    · exact .inr (.inr (.inl (hjoins.2 hn)))
    · exact .inr (.inr (.inr (.inl (filterFree_subset_spelled filter hn))))
    · exact .inr (.inr (.inr (.inr (.inl (groupingFree_subset_spelled grouping hn)))))
    · exact .inr (.inr (.inr (.inr (.inr (.inl (sortingFree_subset_spelled sorting hn))))))
    · exact .inr (.inr (.inr (.inr (.inr (.inr (.inl (limitFree_subset_spelled limit hn)))))))
    · exact .inr (.inr (.inr (.inr (.inr (.inr (.inr
        (projectionFree_subset_spelled projection hn)))))))
termination_by structural x => x

theorem joinsFree_subset_spelled : (js : List (Join Expr)) →
    joinSourcesFree js ⊆ joinsSpelled js ∧ predicatesFree js ⊆ joinsSpelled js
  | [] => ⟨List.nil_subset _, List.nil_subset _⟩
  | ⟨_, _, source, none, _⟩ :: js => by
    obtain ⟨hsources, hpredicates⟩ := joinsFree_subset_spelled js
    exact ⟨append_subset_append source.free_subset_spelled hsources,
      List.subset_append_of_subset_right _ hpredicates⟩
  | ⟨_, _, source, some on, _⟩ :: js => by
    obtain ⟨hsources, hpredicates⟩ := joinsFree_subset_spelled js
    rw [joinSourcesFree, predicatesFree, joinsSpelled]
    exact ⟨append_subset_append (List.subset_append_of_subset_left _ source.free_subset_spelled)
      hsources, append_subset_append
        (List.subset_append_of_subset_right _ on.free_subset_spelled) hpredicates⟩
termination_by structural x => x

theorem filterFree_subset_spelled : (o : Option (Filter Expr)) → filterFree o ⊆ filterSpelled o
  | none => List.nil_subset _
  | some ⟨e, _⟩ => e.free_subset_spelled
termination_by structural x => x

theorem groupingFree_subset_spelled :
    (o : Option (Grouping Expr)) → groupingFree o ⊆ groupingSpelled o
  | none => List.nil_subset _
  | some ⟨cs, _, none, _⟩ => freeAll_subset_spelled cs
  | some ⟨cs, _, some having, _⟩ =>
    append_subset_append (freeAll_subset_spelled cs) having.free_subset_spelled
termination_by structural x => x

theorem sortingFree_subset_spelled : (o : Option (Sorting Expr)) → sortingFree o ⊆ sortingSpelled o
  | none => List.nil_subset _
  | some ⟨terms, _⟩ => termsFree_subset_spelled terms
termination_by structural x => x

theorem termsFree_subset_spelled : (ts : List (SortTerm Expr)) → termsFree ts ⊆ termsSpelled ts
  | [] => List.nil_subset _
  | ⟨key, _⟩ :: ts => append_subset_append key.free_subset_spelled (termsFree_subset_spelled ts)
termination_by structural x => x

theorem limitFree_subset_spelled : (o : Option (Limit Expr)) → limitFree o ⊆ limitSpelled o
  | none => List.nil_subset _
  | some ⟨none, size, _⟩ => size.free_subset_spelled
  | some ⟨some offset, size, _⟩ =>
    append_subset_append offset.free_subset_spelled size.free_subset_spelled
termination_by structural x => x

theorem projectionFree_subset_spelled :
    (o : Option (Projection Expr)) → projectionFree o ⊆ projectionSpelled o
  | none => List.nil_subset _
  | some ⟨items, _⟩ => freeAll_subset_spelled items
termination_by structural x => x
end

end Comprehension
