import Mathlib.Logic.Relation
import Comprehension.Proofs.Faults
import Comprehension.Proofs.SpelledNames

/-!
The names that are reserved for a query. A name that is made up must differ from every name written in
the query, also where lowering never looks, so the identifiers of a query have to be exact. What stands
in an expression is told here place by place, without the lists of its children and of the expressions of
a query, and a name occurs in a query if some expression in it, at whatever depth, spells it. The
identifiers of a written query are just the names that occur in it, and what is read from outside is
among them.
-/

namespace Comprehension

/-! ## What stands in an expression -/

/-- The expression is written in a clause of the query, if only as the predicate of a crossjoin. -/
inductive Query.Writes (q : Query Expr) : Expr → Prop
  | held {e : Expr} (h : q.Holds e) : q.Writes e
  | matched {j : Join Expr} {e : Expr} (hj : j ∈ q.joins) (he : e ∈ j.on) : q.Writes e

namespace Expr

/-- The second expression stands directly in the first, which is none that only lowering makes. -/
inductive HasPart : Expr → Expr → Prop
  | operand {p : Position} {f : Unary} {e : Expr} : HasPart (.unary p f e) e
  | left {p : Position} {f : Binary} {l r : Expr} : HasPart (.binary p f l r) l
  | right {p : Position} {f : Binary} {l r : Expr} : HasPart (.binary p f l r) r
  | item {p : Position} {f : Sequence} {es : List Expr} {e : Expr} (he : e ∈ es) :
    HasPart (.sequence p f es) e
  | receiver {p : Position} {r : Expr} {m : String} {es : List Expr} : HasPart (.method p r m es) r
  | argument {p : Position} {r : Expr} {m : String} {es : List Expr} {e : Expr} (he : e ∈ es) :
    HasPart (.method p r m es) e
  | body {p : Position} {ps : List String} {e : Expr} : HasPart (.lambda p ⟨ps, e⟩) e
  | clause {p : Position} {q : Query Expr} {e : Expr} (he : q.Writes e) : HasPart (.query p q) e

/-- The second expression stands in the first at any depth, or is the first. -/
def Contains : Expr → Expr → Prop := Relation.ReflTransGen HasPart

/-- No node in the expression is one that only lowering makes. -/
def IsWritten (e : Expr) : Prop := ∀ d, e.Contains d → d.isMade = false

theorem IsWritten.part {e d : Expr} (h : e.IsWritten) (hpart : e.HasPart d) : d.IsWritten :=
  fun c hc => h c (.head hpart hc)

theorem IsWritten.of_parts {e : Expr} (h : e.isMade = false)
    (hparts : ∀ d, e.HasPart d → d.IsWritten) : e.IsWritten := by
  intro d hd
  rcases hd.cases_head with rfl | ⟨c, hpart, hc⟩
  · exact h
  · exact hparts c hpart d hc

end Expr

/-! ## Names that occur -/

/-- The query has the name for an alias, or for its group key. -/
inductive Query.Declares (q : Query Expr) (n : String) : Prop
  | table (h : q.table.name = n)
  | joined {j : Join Expr} (hj : j ∈ q.joins) (h : j.name = n)
  | into {g : Grouping Expr} (hg : g ∈ q.grouping) (h : n ∈ g.into)

namespace Expr

/-- The expression itself, and no part of it, spells the name. -/
inductive Spells (n : String) : Expr → Prop
  | var {p : Position} : Spells n (.var p n)
  | parameter {p : Position} {ps : List String} {e : Expr} (h : n ∈ ps) :
    Spells n (.lambda p ⟨ps, e⟩)
  | declared {p : Position} {q : Query Expr} (h : q.Declares n) : Spells n (.query p q)

/-- The name occurs in the expression, at whatever depth. -/
def Mentions (e : Expr) (n : String) : Prop := ∃ d, e.Contains d ∧ d.Spells n

theorem Spells.mentions {e : Expr} {n : String} (h : e.Spells n) : e.Mentions n := ⟨e, .refl, h⟩

theorem Mentions.of_part {e d : Expr} {n : String} (h : d.Mentions n) (hpart : e.HasPart d) :
    e.Mentions n := by
  obtain ⟨c, hc, hspells⟩ := h
  exact ⟨c, .head hpart hc, hspells⟩

end Expr

namespace Query

/-- The expression stands in the query at any depth, or is the query itself. -/
def Contains (q : Query Expr) : Expr → Prop := (Expr.query q.pos q).Contains

/-- No node in the query is one that only lowering makes. -/
def IsWritten (q : Query Expr) : Prop := (Expr.query q.pos q).IsWritten

/-- The name occurs in the query as an alias, as the name of a group key, as a variable or as the
parameter of a lambda, at whatever depth. -/
def Mentions (q : Query Expr) (n : String) : Prop := (Expr.query q.pos q).Mentions n

end Query

/-! ## The names of the clauses -/

theorem Query.mem_exprs_iff_writes {q : Query Expr} {e : Expr} : e ∈ q.exprs ↔ q.Writes e := by
  rw [mem_exprs]
  constructor
  · rintro (h | ⟨j, hj, -, he⟩)
    · exact .held h
    · exact .matched hj he
  · intro h
    cases h with
    | held h => exact .inl h
    | @matched j _ hj he =>
      by_cases hkind : j.kind = .cross
      · exact .inr ⟨j, hj, hkind, he⟩
      · exact .inl (.joinOn hj hkind he)

theorem Query.Each.writes {P : Expr → Prop} {q : Query Expr} (h : q.Each P) {e : Expr}
    (he : q.Writes e) : P e := each_iff.mp h e (mem_exprs_iff_writes.mpr he)

theorem Query.mem_declared_iff {q : Query Expr} {n : String} : n ∈ q.declared ↔ q.Declares n := by
  simp only [declared, aliases, into?, List.mem_append, List.mem_cons, List.mem_map,
    Option.mem_toList, Option.bind_eq_some_iff]
  constructor
  · rintro ((rfl | ⟨j, hj, h⟩) | ⟨g, hg, h⟩)
    · exact .table rfl
    · exact .joined hj h
    · exact .into hg h
  · rintro (h | ⟨hj, h⟩ | ⟨hg, h⟩)
    · exact .inl (.inl h.symm)
    · exact .inl (.inr ⟨_, hj, h⟩)
    · exact .inr ⟨_, hg, h⟩

theorem mem_querySpelled_iff_writes {q : Query Expr} {n : String} :
    n ∈ querySpelled q ↔ q.Declares n ∨ ∃ e, q.Writes e ∧ n ∈ e.spelled := by
  simp only [querySpelled_eq, List.mem_append, Query.mem_declared_iff, mem_spelledAll,
    Query.mem_exprs_iff_writes]

/-! ## The names of an expression -/

namespace Expr

theorem Spells.mem_spelled {e : Expr} {n : String} (h : e.Spells n) : n ∈ e.spelled := by
  cases h with
  | var => exact List.mem_singleton_self n
  | parameter h => exact List.mem_append_left _ h
  | declared h => exact mem_querySpelled_iff_writes.mpr (.inl h)

theorem HasPart.spelled_subset {e d : Expr} (h : e.HasPart d) : d.spelled ⊆ e.spelled := by
  cases h with
  | operand => exact List.Subset.refl _
  | left => exact List.subset_append_left _ _
  | right => exact List.subset_append_right _ _
  | item he => exact fun _ hn => mem_spelledAll.mpr ⟨d, he, hn⟩
  | receiver => exact List.subset_append_left _ _
  | argument he => exact fun _ hn => List.mem_append_right _ (mem_spelledAll.mpr ⟨d, he, hn⟩)
  | body => exact List.subset_append_right _ _
  | clause he => exact fun _ hn => mem_querySpelled_iff_writes.mpr (.inr ⟨d, he, hn⟩)

theorem Contains.spelled_subset {e d : Expr} (h : e.Contains d) : d.spelled ⊆ e.spelled := by
  induction h with
  | refl => exact List.Subset.refl _
  | tail _ hpart ih => exact List.Subset.trans hpart.spelled_subset ih

/-- Each name in the list comes from a node that spells it. -/
theorem IsWritten.mentions {e : Expr} (he : e.IsWritten) {n : String} (hn : n ∈ e.spelled) :
    e.Mentions n := by
  induction e using Expr.written_induction with
  | literal p v => cases hn
  | var p m =>
    obtain rfl := List.mem_singleton.mp hn
    exact Spells.var.mentions
  | unary p f e ih => exact (ih (he.part .operand) hn).of_part .operand
  | binary p f l r ihl ihr =>
    rcases List.mem_append.mp hn with hn | hn
    · exact (ihl (he.part .left) hn).of_part .left
    · exact (ihr (he.part .right) hn).of_part .right
  | sequence p f es ih =>
    obtain ⟨d, hd, hn⟩ := mem_spelledAll.mp hn
    exact (ih d hd (he.part (.item hd)) hn).of_part (.item hd)
  | method p r m es ihr ih =>
    rcases List.mem_append.mp hn with hn | hn
    · exact (ihr (he.part .receiver) hn).of_part .receiver
    · obtain ⟨d, hd, hn⟩ := mem_spelledAll.mp hn
      exact (ih d hd (he.part (.argument hd)) hn).of_part (.argument hd)
  | lambda p ps e ih =>
    rcases List.mem_append.mp hn with hn | hn
    · exact (Spells.parameter hn).mentions
    · exact (ih (he.part .body) hn).of_part .body
  | query p q hq =>
    rcases mem_querySpelled_iff_writes.mp hn with hn | ⟨d, hd, hn⟩
    · exact (Spells.declared hn).mentions
    · exact (hq.writes hd (he.part (.clause hd)) hn).of_part (.clause hd)
  -- the list may hold local names too, but no node that brings them is written
  | letIn | record | postIncrement | subquery => cases he _ .refl

theorem mem_spelled_iff {e : Expr} (he : e.IsWritten) {n : String} :
    n ∈ e.spelled ↔ e.Mentions n := by
  refine ⟨he.mentions, ?_⟩
  rintro ⟨d, hd, hspells⟩
  exact hd.spelled_subset hspells.mem_spelled

end Expr

/-! ## Identifiers -/

/-- The identifiers of a written query are just the names that occur in it, and what any expression in
it reads from outside is among them, the query itself counted. -/
theorem identifiers_exact {q : Query Expr} (hq : q.IsWritten) (n : String) :
    (n ∈ q.identifiers ↔ q.Mentions n) ∧
      ∀ e, q.Contains e → n ∈ e.free → n ∈ q.identifiers := by
  have hspelled : n ∈ q.identifiers ↔ n ∈ querySpelled q := mem_distinct
  refine ⟨hspelled.trans (Expr.mem_spelled_iff hq), fun e he hn => ?_⟩
  exact hspelled.mpr (he.spelled_subset (e.free_subset_spelled hn))

/-- `from y in g select y.v`. -/
def memberValues : Query Expr where
  table := ⟨"y", Expr.name "g", .nowhere⟩
  joins := []
  filter := none
  grouping := none
  sorting := none
  limit := none
  projection := some ⟨[(Expr.name "y").field "v"], .nowhere⟩
  pos := .nowhere

/-- `from a in as crossjoin b in bs on c -> a.(c) groupby a.k into g select (from y in g select y.v)`.
-/
def keyedCross : Query Expr where
  table := ⟨"a", Expr.name "as", .nowhere⟩
  joins := [⟨.cross, "b", Expr.name "bs",
    some (.lambda .nowhere ⟨["c"], (Expr.name "a").computedField (Expr.name "c")⟩), .nowhere⟩]
  filter := none
  grouping := some ⟨[(Expr.name "a").field "k"], some "g", none, .nowhere⟩
  sorting := none
  limit := none
  projection := some ⟨[.query .nowhere memberValues], .nowhere⟩
  pos := .nowhere

/-- The parameter in a predicate that lowering refuses is among the names, and a field is not. The
nested query reads the group key from outside. -/
theorem identifiers_exact_keyedCross :
    keyedCross.IsWritten ∧ keyedCross.Mentions "c" ∧ keyedCross.Mentions "y" ∧
      ¬keyedCross.Mentions "v" ∧ "g" ∈ (Expr.query .nowhere memberValues).free ∧
      "g" ∈ keyedCross.identifiers := by
  have hname (n : String) : (Expr.name n).IsWritten := .of_parts rfl nofun
  have hfield (a f : String) : ((Expr.name a).field f).IsWritten := .of_parts rfl fun
    | _, .operand => hname a
  have hon : (Expr.lambda .nowhere ⟨["c"], (Expr.name "a").computedField (.name "c")⟩).IsWritten :=
    .of_parts rfl fun
    | _, .body => .of_parts rfl fun
      | _, .left => hname "a"
      | _, .right => hname "c"
  have hquery {p : Position} {q : Query Expr} (h : q.Each Expr.IsWritten) :
      (Expr.query p q).IsWritten := .of_parts rfl fun
    | _, .clause he => h.writes he
  have hvalues : memberValues.Each Expr.IsWritten :=
    ⟨hname "g", List.forall_mem_nil _, nofun, nofun, nofun, nofun, by simp [memberValues, hfield]⟩
  have hwritten : keyedCross.IsWritten := hquery
    ⟨hname "as", by simp [keyedCross, hname, hon], nofun, by simp [keyedCross, hfield], nofun, nofun,
      by simp [keyedCross, hquery hvalues]⟩
  have hmem (n : String) := (identifiers_exact hwritten n).1
  have hnested : keyedCross.Contains (.query .nowhere memberValues) :=
    .single (.clause (.held (.item rfl (List.mem_singleton_self _))))
  have hread : "g" ∈ (Expr.query .nowhere memberValues).free := by decide
  refine ⟨hwritten, (hmem "c").mp (by decide), (hmem "y").mp (by decide), fun h => ?_, hread,
    (identifiers_exact hwritten "g").2 _ hnested hread⟩
  exact absurd ((hmem "v").mpr h) (by decide)

end Comprehension
