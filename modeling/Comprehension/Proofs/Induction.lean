import Comprehension.Expr

/-!
Induction over written expressions. `Query.Each` says that a property holds of every expression of
a query, so that one hypothesis stands for all clauses.
-/

namespace Comprehension

/-- The property holds of every expression that stands directly in the query. -/
structure Query.Each {ε : Type} (P : ε → Prop) (q : Query ε) : Prop where
  source : P q.table.source
  joins : ∀ j ∈ q.joins, P j.source ∧ ∀ e ∈ j.on, P e
  filter : ∀ f ∈ q.filter, P f.predicate
  grouping : ∀ g ∈ q.grouping, (∀ e ∈ g.classifiers, P e) ∧ ∀ e ∈ g.having, P e
  sorting : ∀ s ∈ q.sorting, ∀ t ∈ s.terms, P t.key
  limit : ∀ l ∈ q.limit, (∀ e ∈ l.offset, P e) ∧ P l.size
  projection : ∀ p ∈ q.projection, ∀ e ∈ p.items, P e

private theorem map_mapIdx {α β γ : Type} {f : Nat → α → β} {g : β → γ} {k : α → γ}
    (h : ∀ i a, g (f i a) = k a) (l : List α) : (l.mapIdx f).map g = l.map k := by
  refine List.ext_getElem? fun i => ?_
  simp [Function.comp_def, h]

theorem Query.exprs_eq {ε : Type} (q : Query ε) :
    q.exprs =
      q.table.source ::
        (q.joins.flatMap (fun j => j.source :: j.on.toList) ++
          q.filter.toList.map (·.predicate) ++
          q.grouping.toList.flatMap (fun g => g.classifiers ++ g.having.toList) ++
          q.sorting.toList.flatMap (fun s => s.terms.map (·.key)) ++
          q.limit.toList.flatMap (fun l => l.offset.toList ++ [l.size]) ++
          q.projection.toList.flatMap (·.items)) := by
  have hlist {α : Type} (slot : Nat → Slot) (e : α → ε) (l : List α) :
      (l.mapIdx fun i a => (slot i, e a)).map (·.2) = l.map e :=
    map_mapIdx (g := fun p : Slot × ε => p.2) (k := e) (fun _ _ => rfl) l
  have hoption (slot : Slot) (o : Option ε) : (o.map (slot, ·)).toList.map (·.2) = o.toList := by
    cases o <;> rfl
  have hjoins :
      (q.joins.mapIdx fun i j =>
        (Slot.joinSource i, j.source) :: (j.on.map (Slot.joinOn i, ·)).toList).map
          (List.map fun p => p.2) = q.joins.map fun j => j.source :: j.on.toList := by
    refine map_mapIdx (fun i j => ?_) q.joins
    rw [List.map_cons, hoption]
  simp only [Query.exprs, Query.slots, List.map_cons, List.map_append, List.map_flatten, hjoins,
    List.flatMap]
  cases q.filter <;> cases q.grouping <;> cases q.sorting <;> cases q.limit <;>
    cases q.projection <;> simp [hlist, hoption]

/-- The clauses hold all expressions of a query, and none besides. -/
theorem Query.each_iff {ε : Type} {P : ε → Prop} {q : Query ε} : q.Each P ↔ ∀ e ∈ q.exprs, P e := by
  rw [exprs_eq]
  simp only [List.mem_cons, List.mem_append, List.mem_flatMap, List.mem_map, Option.mem_toList,
    List.not_mem_nil, or_false]
  constructor
  · rintro h e (rfl | (((((⟨j, hj, rfl | he⟩ | ⟨f, hf, rfl⟩) | ⟨g, hg, he | he⟩) | ⟨s, hs, t, ht, rfl⟩) |
      ⟨l, hl, he | rfl⟩) | ⟨p, hp, he⟩))
    · exact h.source
    · exact (h.joins j hj).1
    · exact (h.joins j hj).2 e he
    · exact h.filter f hf
    · exact (h.grouping g hg).1 e he
    · exact (h.grouping g hg).2 e he
    · exact h.sorting s hs t ht
    · exact (h.limit l hl).1 e he
    · exact (h.limit l hl).2
    · exact h.projection p hp e he
  · intro h
    constructor <;> grind [Option.mem_def]

theorem Query.each_of_forall {ε : Type} {P : ε → Prop} (h : ∀ e, P e) (q : Query ε) : q.Each P :=
  each_iff.mpr fun e _ => h e

theorem Query.Each.and {ε : Type} {P P' R : ε → Prop} {q : Query ε} (h : q.Each P)
    (h' : q.Each P') (himp : ∀ e, P e → P' e → R e) : q.Each R :=
  each_iff.mpr fun e he => himp e (each_iff.mp h e he) (each_iff.mp h' e he)

/-- What an induction has to show. Queries are looked into; nodes that only lowering makes are taken
as they stand. -/
structure Expr.Steps (P : Expr → Prop) : Prop where
  literal : ∀ p v, P (.literal p v)
  var : ∀ p n, P (.var p n)
  unary : ∀ p f e, P e → P (.unary p f e)
  binary : ∀ p f l r, P l → P r → P (.binary p f l r)
  sequence : ∀ p f es, (∀ e ∈ es, P e) → P (.sequence p f es)
  method : ∀ p r n es, P r → (∀ e ∈ es, P e) → P (.method p r n es)
  lambda : ∀ p ps e, P e → P (.lambda p ⟨ps, e⟩)
  query : ∀ p q, q.Each P → P (.query p q)
  letIn : ∀ p bs e, P (.letIn p bs e)
  record : ∀ p vs ns as row, P (.record p vs ns as row)
  postIncrement : ∀ p n, P (.postIncrement p n)
  subquery : ∀ p t, P (.subquery p t)

namespace Expr.Steps

private theorem ofSome {α : Type} {p : α → Prop} {a : α} (h : p a) : ∀ x ∈ some a, p x := by
  intro x hx
  cases hx
  exact h

mutual
theorem all {P : Expr → Prop} (h : Steps P) : (e : Expr) → P e
  | .literal p v => h.literal p v
  | .var p n => h.var p n
  | .unary p f e => h.unary p f e (h.all e)
  | .binary p f l r => h.binary p f l r (h.all l) (h.all r)
  | .sequence p f es => h.sequence p f es (h.list es)
  | .method p r n es => h.method p r n es (h.all r) (h.list es)
  | .lambda p ⟨ps, e⟩ => h.lambda p ps e (h.all e)
  | .query p q => h.query p q (h.each q)
  | .letIn p bs e => h.letIn p bs e
  | .record p vs ns as row => h.record p vs ns as row
  | .postIncrement p n => h.postIncrement p n
  | .subquery p t => h.subquery p t

theorem list {P : Expr → Prop} (h : Steps P) : (es : List Expr) → ∀ e ∈ es, P e
  | [] => List.forall_mem_nil _
  | e :: es => List.forall_mem_cons.mpr ⟨h.all e, h.list es⟩

theorem option {P : Expr → Prop} (h : Steps P) : (o : Option Expr) → ∀ e ∈ o, P e
  | none => fun _ hx => nomatch hx
  | some e => ofSome (h.all e)

theorem joins {P : Expr → Prop} (h : Steps P) :
    (js : List (Join Expr)) → ∀ j ∈ js, P j.source ∧ ∀ e ∈ j.on, P e
  | [] => List.forall_mem_nil _
  | ⟨_, _, source, on, _⟩ :: js =>
    List.forall_mem_cons.mpr ⟨⟨h.all source, h.option on⟩, h.joins js⟩

theorem terms {P : Expr → Prop} (h : Steps P) : (ts : List (SortTerm Expr)) → ∀ t ∈ ts, P t.key
  | [] => List.forall_mem_nil _
  | ⟨key, _⟩ :: ts => List.forall_mem_cons.mpr ⟨h.all key, h.terms ts⟩

theorem filter {P : Expr → Prop} (h : Steps P) :
    (o : Option (Filter Expr)) → ∀ f ∈ o, P f.predicate
  | none => fun _ hx => nomatch hx
  | some ⟨e, _⟩ => ofSome (h.all e)

theorem grouping {P : Expr → Prop} (h : Steps P) :
    (o : Option (Grouping Expr)) → ∀ g ∈ o, (∀ e ∈ g.classifiers, P e) ∧ ∀ e ∈ g.having, P e
  | none => fun _ hx => nomatch hx
  | some ⟨cs, _, having, _⟩ => ofSome ⟨h.list cs, h.option having⟩

theorem sorting {P : Expr → Prop} (h : Steps P) :
    (o : Option (Sorting Expr)) → ∀ s ∈ o, ∀ t ∈ s.terms, P t.key
  | none => fun _ hx => nomatch hx
  | some ⟨terms, _⟩ => ofSome (h.terms terms)

theorem limit {P : Expr → Prop} (h : Steps P) :
    (o : Option (Limit Expr)) → ∀ l ∈ o, (∀ e ∈ l.offset, P e) ∧ P l.size
  | none => fun _ hx => nomatch hx
  | some ⟨offset, size, _⟩ => ofSome ⟨h.option offset, h.all size⟩

theorem projection {P : Expr → Prop} (h : Steps P) :
    (o : Option (Projection Expr)) → ∀ p ∈ o, ∀ e ∈ p.items, P e
  | none => fun _ hx => nomatch hx
  | some ⟨items, _⟩ => ofSome (h.list items)

theorem each {P : Expr → Prop} (h : Steps P) : (q : Query Expr) → q.Each P
  | ⟨⟨_, source, _⟩, joins, filter, grouping, sorting, limit, projection, _⟩ =>
    ⟨h.all source, h.joins joins, h.filter filter, h.grouping grouping, h.sorting sorting,
      h.limit limit, h.projection projection⟩
end

end Expr.Steps

/-- Induction on an expression, down through the clauses of its queries. -/
@[elab_as_elim]
theorem Expr.written_induction {P : Expr → Prop} (e : Expr)
    (literal : ∀ p v, P (.literal p v))
    (var : ∀ p n, P (.var p n))
    (unary : ∀ p f e, P e → P (.unary p f e))
    (binary : ∀ p f l r, P l → P r → P (.binary p f l r))
    (sequence : ∀ p f es, (∀ e ∈ es, P e) → P (.sequence p f es))
    (method : ∀ p r n es, P r → (∀ e ∈ es, P e) → P (.method p r n es))
    (lambda : ∀ p ps e, P e → P (.lambda p ⟨ps, e⟩))
    (query : ∀ p q, q.Each P → P (.query p q))
    (letIn : ∀ p bs e, P (.letIn p bs e))
    (record : ∀ p vs ns as row, P (.record p vs ns as row))
    (postIncrement : ∀ p n, P (.postIncrement p n))
    (subquery : ∀ p t, P (.subquery p t)) : P e :=
  Expr.Steps.all
    ⟨literal, var, unary, binary, sequence, method, lambda, query, letIn, record, postIncrement,
      subquery⟩ e

end Comprehension
