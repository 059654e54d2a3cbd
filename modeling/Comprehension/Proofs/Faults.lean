import Comprehension.Proofs.Defects
import Comprehension.Proofs.Runs

/-!
The faults of a tree. Lowering visits the nodes of a query in one order, and the lists of classifiers
with them. It stops at the first node that only lowering makes, or at the first `groupby` without a
classifier, and at nothing else: in no context is a frame or a path missing, or an element taken from
an empty list.
-/

namespace Comprehension

/-! ## Sites -/

/-- What lowering comes to: a node, or the classifiers of a `groupby` as a whole. -/
inductive Site where
  | node (e : Expr)
  | key (classifiers : List Expr)

/-- The node is one that only lowering makes. -/
def Expr.isMade : Expr → Bool
  | .letIn _ _ _ | .record _ _ _ _ _ | .postIncrement _ _ | .subquery _ _ => true
  | _ => false

/-- What is told of a site at which lowering stops. -/
def Site.fault? : Site → Option String
  | node e => if e.isMade then some e.text else none
  | key cs => if cs.isEmpty then some "empty expression list" else none

mutual
/-- The sites in the expression in the order of lowering. Nothing looks into a node that only
lowering makes, nor into the predicate of a crossjoin. -/
def Expr.sites : Expr → List Site
  | e@(.literal _ _) | e@(.var _ _) => [.node e]
  | e@(.unary _ _ operand) => .node e :: operand.sites
  | e@(.binary _ _ l r) => .node e :: (l.sites ++ r.sites)
  | e@(.sequence _ _ es) => .node e :: allSites es
  | e@(.method _ r _ es) => .node e :: (r.sites ++ allSites es)
  | e@(.lambda _ ⟨_, body⟩) => .node e :: body.sites
  | e@(.query _ q) => .node e :: querySites q
  | e@(.letIn _ _ _) | e@(.record _ _ _ _ _) | e@(.postIncrement _ _) | e@(.subquery _ _) => [.node e]

def allSites : List Expr → List Site
  | [] => []
  | e :: es => e.sites ++ allSites es

def querySites : Query Expr → List Site
  | ⟨⟨_, source, _⟩, joins, filter, grouping, sorting, limit, projection, _⟩ =>
    source.sites ++ joinsSites joins ++ filterSites filter ++ groupingSites grouping ++
      sortingSites sorting ++ limitSites limit ++ projectionSites projection

def joinsSites : List (Join Expr) → List Site
  | [] => []
  | ⟨kind, _, source, on, _⟩ :: js =>
    source.sites ++ (if kind = .cross then [] else optionSites on) ++ joinsSites js

def optionSites : Option Expr → List Site
  | some e => e.sites
  | none => []

def filterSites : Option (Filter Expr) → List Site
  | some ⟨e, _⟩ => e.sites
  | none => []

def groupingSites : Option (Grouping Expr) → List Site
  | some ⟨cs, _, having, _⟩ => .key cs :: (allSites cs ++ optionSites having)
  | none => []

def sortingSites : Option (Sorting Expr) → List Site
  | some ⟨terms, _⟩ => termsSites terms
  | none => []

def termsSites : List (SortTerm Expr) → List Site
  | [] => []
  | ⟨key, _⟩ :: ts => key.sites ++ termsSites ts

def limitSites : Option (Limit Expr) → List Site
  | some ⟨offset, size, _⟩ => optionSites offset ++ size.sites
  | none => []

def projectionSites : Option (Projection Expr) → List Site
  | some ⟨items, _⟩ => allSites items
  | none => []
end

/-! ## Positions -/

/-- The expression stands in a clause of the query, and not as the predicate of a crossjoin. -/
inductive Query.Holds {ε : Type} (q : Query ε) : ε → Prop
  | source : q.Holds q.table.source
  | joinSource {j : Join ε} (h : j ∈ q.joins) : q.Holds j.source
  | joinOn {j : Join ε} {e : ε} (h : j ∈ q.joins) (hkind : j.kind ≠ .cross) (he : e ∈ j.on) :
    q.Holds e
  | predicate {f : Filter ε} (h : f ∈ q.filter) : q.Holds f.predicate
  | classifier {g : Grouping ε} {e : ε} (h : g ∈ q.grouping) (he : e ∈ g.classifiers) : q.Holds e
  | having {g : Grouping ε} {e : ε} (h : g ∈ q.grouping) (he : e ∈ g.having) : q.Holds e
  | orderKey {s : Sorting ε} {t : SortTerm ε} (h : s ∈ q.sorting) (ht : t ∈ s.terms) : q.Holds t.key
  | offset {l : Limit ε} {e : ε} (h : l ∈ q.limit) (he : e ∈ l.offset) : q.Holds e
  | size {l : Limit ε} (h : l ∈ q.limit) : q.Holds l.size
  | item {p : Projection ε} {e : ε} (h : p ∈ q.projection) (he : e ∈ p.items) : q.Holds e

/-- The expressions of a query are those it holds and the predicates of crossjoins. -/
theorem Query.mem_exprs {ε : Type} {q : Query ε} {e : ε} :
    e ∈ q.exprs ↔ q.Holds e ∨ ∃ j ∈ q.joins, j.kind = .cross ∧ e ∈ j.on := by
  rw [exprs_eq]
  simp only [List.mem_cons, List.mem_append, List.mem_flatMap, List.mem_map, Option.mem_toList,
    List.not_mem_nil, or_false]
  constructor
  · rintro (rfl | (((((⟨j, hj, rfl | he⟩ | ⟨f, hf, rfl⟩) | ⟨g, hg, he | he⟩) | ⟨s, hs, t, ht, rfl⟩) |
      ⟨l, hl, he | rfl⟩) | ⟨p, hp, he⟩))
    · exact .inl .source
    · exact .inl (.joinSource hj)
    · by_cases hkind : j.kind = .cross
      · exact .inr ⟨j, hj, hkind, he⟩
      · exact .inl (.joinOn hj hkind he)
    · exact .inl (.predicate hf)
    · exact .inl (.classifier hg he)
    · exact .inl (.having hg he)
    · exact .inl (.orderKey hs ht)
    · exact .inl (.offset hl he)
    · exact .inl (.size hl)
    · exact .inl (.item hp he)
  · rintro (h | ⟨j, hj, -, he⟩)
    · cases h <;> grind [Option.mem_def]
    · grind [Option.mem_def]

theorem Query.Each.holds {ε : Type} {P : ε → Prop} {q : Query ε} (h : q.Each P) {e : ε}
    (he : q.Holds e) : P e := each_iff.mp h e (mem_exprs.mpr (.inl he))

/-- Lowering comes to the site from the expression, if nothing stops it before. -/
inductive Expr.Reaches (site : Site) : Expr → Prop
  | here {e : Expr} (h : site = .node e) : e.Reaches site
  | part {e child : Expr} (hwritten : e.isMade = false) (hchild : child ∈ e.children)
    (h : child.Reaches site) : e.Reaches site
  | inner {p : Position} {q : Query Expr} {e : Expr} (he : q.Holds e) (h : e.Reaches site) :
    Expr.Reaches site (.query p q)
  | key {p : Position} {q : Query Expr} {g : Grouping Expr} (hg : g ∈ q.grouping)
    (h : site = .key g.classifiers) : Expr.Reaches site (.query p q)

/-- Lowering comes to the site from the query. -/
def Query.Reaches (q : Query Expr) (site : Site) : Prop :=
  (∃ e, q.Holds e ∧ e.Reaches site) ∨ ∃ g ∈ q.grouping, site = .key g.classifiers

/-! ## The sites are all that is reached -/

section

variable {site : Site}

theorem mem_allSites {es : List Expr} : site ∈ allSites es ↔ ∃ e ∈ es, site ∈ e.sites := by
  induction es with
  | nil => simp [allSites]
  | cons e es ih => simp [allSites, ih]

theorem mem_optionSites {o : Option Expr} : site ∈ optionSites o ↔ ∃ e ∈ o, site ∈ e.sites := by
  cases o <;> simp [optionSites]

theorem mem_joinsSites {js : List (Join Expr)} :
    site ∈ joinsSites js ↔
      ∃ j ∈ js, site ∈ j.source.sites ∨ j.kind ≠ .cross ∧ ∃ e ∈ j.on, site ∈ e.sites := by
  induction js with
  | nil => simp [joinsSites]
  | cons j js ih =>
    have hon : site ∈ (if j.kind = .cross then [] else optionSites j.on) ↔
        j.kind ≠ .cross ∧ ∃ e ∈ j.on, site ∈ e.sites := by
      split <;> simp_all [mem_optionSites]
    simp only [joinsSites, List.mem_append, hon, ih, List.mem_cons, exists_eq_or_imp]

theorem mem_termsSites {ts : List (SortTerm Expr)} :
    site ∈ termsSites ts ↔ ∃ t ∈ ts, site ∈ t.key.sites := by
  induction ts with
  | nil => simp [termsSites]
  | cons t ts ih => simp [termsSites, ih]

theorem mem_filterSites {o : Option (Filter Expr)} :
    site ∈ filterSites o ↔ ∃ f ∈ o, site ∈ f.predicate.sites := by
  cases o <;> simp [filterSites]

theorem mem_groupingSites {o : Option (Grouping Expr)} :
    site ∈ groupingSites o ↔
      ∃ g ∈ o, site = .key g.classifiers ∨ (∃ e ∈ g.classifiers, site ∈ e.sites) ∨
        ∃ e ∈ g.having, site ∈ e.sites := by
  cases o <;> simp [groupingSites, mem_allSites, mem_optionSites]

theorem mem_sortingSites {o : Option (Sorting Expr)} :
    site ∈ sortingSites o ↔ ∃ s ∈ o, ∃ t ∈ s.terms, site ∈ t.key.sites := by
  cases o <;> simp [sortingSites, mem_termsSites]

theorem mem_limitSites {o : Option (Limit Expr)} :
    site ∈ limitSites o ↔ ∃ l ∈ o, (∃ e ∈ l.offset, site ∈ e.sites) ∨ site ∈ l.size.sites := by
  cases o <;> simp [limitSites, mem_optionSites]

theorem mem_projectionSites {o : Option (Projection Expr)} :
    site ∈ projectionSites o ↔ ∃ p ∈ o, ∃ e ∈ p.items, site ∈ e.sites := by
  cases o <;> simp [projectionSites, mem_allSites]

theorem mem_querySites {q : Query Expr} :
    site ∈ querySites q ↔
      (∃ e, q.Holds e ∧ site ∈ e.sites) ∨ ∃ g ∈ q.grouping, site = .key g.classifiers := by
  rw [querySites]
  simp only [List.mem_append, mem_joinsSites, mem_filterSites, mem_groupingSites, mem_sortingSites,
    mem_limitSites, mem_projectionSites]
  constructor
  · rintro ((((((h | ⟨j, hj, h | ⟨hkind, e, he, h⟩⟩) | ⟨f, hf, h⟩) | ⟨g, hg, h | ⟨e, he, h⟩ |
      ⟨e, he, h⟩⟩) | ⟨s, hs, t, ht, h⟩) | ⟨l, hl, ⟨e, he, h⟩ | h⟩) | ⟨p, hp, e, he, h⟩)
    · exact .inl ⟨_, .source, h⟩
    · exact .inl ⟨_, .joinSource hj, h⟩
    · exact .inl ⟨_, .joinOn hj hkind he, h⟩
    · exact .inl ⟨_, .predicate hf, h⟩
    · exact .inr ⟨g, hg, h⟩
    · exact .inl ⟨_, .classifier hg he, h⟩
    · exact .inl ⟨_, .having hg he, h⟩
    · exact .inl ⟨_, .orderKey hs ht, h⟩
    · exact .inl ⟨_, .offset hl he, h⟩
    · exact .inl ⟨_, .size hl, h⟩
    · exact .inl ⟨_, .item hp he, h⟩
  · rintro (⟨e, hholds, h⟩ | ⟨g, hg, h⟩)
    · cases hholds <;> grind
    · grind

/-- From an expression lowering comes to the expression itself, and on from its parts. -/
theorem Expr.reaches_iff {e : Expr} :
    e.Reaches site ↔ site = .node e ∨
      (e.isMade = false ∧ ∃ child ∈ e.children, child.Reaches site) ∨
      ∃ p q, e = .query p q ∧ q.Reaches site := by
  constructor
  · intro h
    cases h with
    | here h => exact .inl h
    | part hwritten hchild h => exact .inr (.inl ⟨hwritten, _, hchild, h⟩)
    | inner he h => exact .inr (.inr ⟨_, _, rfl, .inl ⟨_, he, h⟩⟩)
    | key hg h => exact .inr (.inr ⟨_, _, rfl, .inr ⟨_, hg, h⟩⟩)
  · rintro (h | ⟨hwritten, child, hchild, h⟩ | ⟨p, q, rfl, ⟨e, he, h⟩ | ⟨g, hg, h⟩⟩)
    · exact .here h
    · exact .part hwritten hchild h
    · exact .inner he h
    · exact .key hg h

theorem mem_allSites_reaches {es : List Expr} (h : ∀ e ∈ es, site ∈ e.sites ↔ e.Reaches site) :
    site ∈ allSites es ↔ ∃ e ∈ es, e.Reaches site :=
  mem_allSites.trans (exists_congr fun e => and_congr_right (h e))

theorem mem_querySites_reaches {q : Query Expr}
    (h : q.Each fun e => site ∈ e.sites ↔ e.Reaches site) :
    site ∈ querySites q ↔ q.Reaches site :=
  mem_querySites.trans (or_congr_left (exists_congr fun _ => and_congr_right h.holds))

/-- The sites of an expression are those that lowering can come to. -/
theorem mem_sites (e : Expr) : site ∈ e.sites ↔ e.Reaches site := by
  induction e using Expr.written_induction with
  | literal | var | letIn | record | postIncrement | subquery =>
    rw [Expr.reaches_iff]
    simp [Expr.sites, Expr.isMade, Expr.children]
  | unary p f e ih | lambda p f e ih =>
    rw [Expr.reaches_iff]
    simp [Expr.sites, Expr.isMade, Expr.children, ih]
  | binary p f l r ihl ihr =>
    rw [Expr.reaches_iff]
    simp [Expr.sites, Expr.isMade, Expr.children, ihl, ihr]
  | sequence p f es ih =>
    rw [Expr.reaches_iff]
    simp [Expr.sites, Expr.isMade, Expr.children, mem_allSites_reaches ih]
  | method p r n es ihr ih =>
    rw [Expr.reaches_iff]
    simp [Expr.sites, Expr.isMade, Expr.children, ihr, mem_allSites_reaches ih]
  | query p q hq =>
    rw [Expr.reaches_iff]
    simp [Expr.sites, Expr.children, mem_querySites_reaches hq, and_assoc]

end

/-! ## Failures -/

/-- What a demand fails with. -/
def Demand.failure? : Demand → Option Failure
  | fail f => some f
  | name _ | report _ | countRow => none

/-- How lowering ends where it stops at the site. -/
def Site.failure? (site : Site) : Option Failure := site.fault?.map .impossibleNode

/-- The demands fail where the sites have a fault, in the same order. -/
def Faults (ds : List Demand) (sites : List Site) : Prop :=
  ds.filterMap Demand.failure? = sites.filterMap Site.failure?

namespace Faults

variable {ds ds' : List Demand} {sites sites' : List Site}

theorem append (h : Faults ds sites) (h' : Faults ds' sites') :
    Faults (ds ++ ds') (sites ++ sites') := by
  rw [Faults, List.filterMap_append, List.filterMap_append, h, h']

theorem node (h : Faults ds sites) {e : Expr} (hwritten : e.isMade = false) :
    Faults ds (.node e :: sites) := by
  have he : Site.failure? (.node e) = none := by simp [Site.failure?, Site.fault?, hwritten]
  rw [Faults, List.filterMap_cons, he, h]

theorem made {e : Expr} (hmade : e.isMade = true) :
    Faults [.fail (.impossibleNode e.text)] [.node e] := by
  simp [Faults, Demand.failure?, Site.failure?, Site.fault?, hmade]

/-- What fails nowhere comes before. -/
theorem after (h : Faults ds sites) (hds' : ds'.filterMap Demand.failure? = []) :
    Faults (ds' ++ ds) sites := by
  rw [Faults, List.filterMap_append, hds', List.nil_append, h]

theorem named (h : Faults ds sites) (row : Row) (node : Path) :
    Faults (row.nameDemands node ++ ds) sites := by
  refine h.after ?_
  cases row <;> rfl

theorem outlivesQuery (h : Faults ds sites) : Faults (ds.filter (·.outlivesQuery)) sites := by
  rw [Faults, ← h, List.filterMap_filter]
  congr 1
  funext d
  cases d <;> rfl

end Faults

theorem declareDemands_failure? (row : Row) (name : String) (p : Position) :
    (row.declareDemands name p).filterMap Demand.failure? = [] := by
  rw [Row.declareDemands]
  split <;> rfl

theorem directionDemands_failure? (d : Direction) : d.demands.filterMap Demand.failure? = [] := by
  rw [Direction.demands]
  split <;> rfl

/-! ## Expressions -/

section

variable {c : Config}

/-- Wherever the expression stands while a query is open, what it asks for fails at its faults. -/
def Expr.FailsAtFaults (c : Config) (e : Expr) : Prop :=
  ∀ place : Place, place.numbering ≠ .noQuery → ∀ (path : Path) (bound : List String),
    Faults (e.demands c place path bound) e.sites

theorem faults_demandsAll {es : List Expr} (h : ∀ e ∈ es, e.FailsAtFaults c) (place : Place)
    (hopen : place.numbering ≠ .noQuery) (path : Path) (bound : List String) (step : Nat → Step)
    (i : Nat) : Faults (demandsAll c place path bound step i es) (allSites es) := by
  induction es generalizing i with
  | nil => exact rfl
  | cons e es ih =>
    obtain ⟨he, hes⟩ := List.forall_mem_cons.mp h
    exact (he place hopen _ bound).append (ih hes (i + 1))

theorem faults_varDemands {place : Place} (hopen : place.numbering ≠ .noQuery)
    (bound : List String) (n : String) : Faults (place.varDemands c bound n) [] := by
  rw [Place.varDemands]
  split
  · rfl
  · split
    · cases hnumbering : place.numbering with
      | noQuery => exact absurd hnumbering hopen
      | plain | counted => rfl
    · rfl

/-- Each argument of a call is looked into, be the call an aggregate or not. -/
theorem faults_call {es : List Expr} (h : ∀ e ∈ es, e.FailsAtFaults c) (place : Place)
    (hopen : place.numbering ≠ .noQuery) (path : Path) (bound : List String) (p : Position)
    (n : String) :
    Faults ((Expr.sequence p (.call n) es).demands c place path bound) (allSites es) := by
  have hplain := faults_demandsAll h place hopen path bound .part 0
  rw [Expr.demands]
  cases place.reduction? n with
  | none => exact hplain
  | some reduction =>
    obtain ⟨a, prior⟩ := reduction
    have hreport (d : Diagnostic) : [Demand.report d].filterMap Demand.failure? = [] := rfl
    cases hrule : a.rule? es.length with
    | none =>
      simp only [hrule]
      exact hplain.after (hreport _)
    | some rule =>
      have hlength := Aggregate.rule?_some hrule
      cases rule with
      | allRows =>
        obtain rfl := List.length_eq_zero_iff.mp hlength
        simp only [hrule]
        exact hplain
      | eachRow =>
        obtain ⟨arg, rfl⟩ := List.length_eq_one_iff.mp hlength
        have harg : Faults _ (allSites [arg]) := faults_demandsAll h ⟨some prior, place.numbering⟩
          hopen path [] .part 0
        simp only [demandsAll, List.append_nil] at harg
        simp only [hrule]
        rw [List.append_assoc]
        refine (harg.named prior (.part 0 :: path)).after ?_
        split <;> rfl
      | rowsAtOnce =>
        obtain ⟨arg, rfl⟩ := List.length_eq_one_iff.mp hlength
        simp only [demandsAll, List.append_nil] at hplain
        simp only [hrule]
        exact hplain

/-! ## Clauses -/

variable (path : Path)

theorem Expr.FailsAtFaults.onRow {e : Expr} (h : e.FailsAtFaults c) (slot : Slot) (row : Row) :
    Faults (row.nameDemands (.slot slot :: path) ++
      e.demands c ⟨some row, .plain⟩ (.slot slot :: path) []) e.sites :=
  (h ⟨some row, .plain⟩ nofun _ _).named row _

theorem Expr.FailsAtFaults.offRow {e : Expr} (h : e.FailsAtFaults c) (slot : Slot) :
    Faults (e.demands c ⟨none, .plain⟩ (.slot slot :: path) []) e.sites :=
  h ⟨none, .plain⟩ nofun _ _

theorem faults_matchDemands {o : Option Expr} (h : ∀ e ∈ o, e.FailsAtFaults c) (i : Nat) (row : Row)
    (kind : JoinKind) (p : Position) :
    Faults (matchDemands c path i row kind p o)
      (if kind = .cross then [] else optionSites o) := by
  by_cases hkind : kind = .cross
  · subst hkind
    cases o <;> rfl
  · have htakes := JoinKind.takesPredicate_iff.mpr hkind
    rw [if_neg hkind]
    cases o with
    | none =>
      rw [matchDemands, if_pos htakes]
      rfl
    | some e =>
      rw [matchDemands, if_pos htakes]
      exact (h e rfl).onRow path (.joinOn i) row

theorem faults_joinsDemands {js : List (Join Expr)}
    (h : ∀ j ∈ js, j.source.FailsAtFaults c ∧ ∀ e ∈ j.on, e.FailsAtFaults c) (i : Nat)
    (row : Row) : Faults (joinsDemands c path i row js) (joinsSites js) := by
  induction js generalizing i row with
  | nil => rfl
  | cons j js ih =>
    obtain ⟨kind, name, source, on, p⟩ := j
    obtain ⟨⟨hsource, hon⟩, hjs⟩ := List.forall_mem_cons.mp h
    have hdeclared := (hsource.offRow path (.joinSource i)).after
      (declareDemands_failure? row name p)
    exact (hdeclared.append (faults_matchDemands path hon i row kind p)).append
      (ih hjs (i + 1) (row.joined name))

theorem faults_filterDemands {o : Option (Filter Expr)} (h : ∀ f ∈ o, f.predicate.FailsAtFaults c)
    (row : Row) : Faults (filterDemands c path row o) (filterSites o) := by
  cases o with
  | none => rfl
  | some f => exact (h f rfl).onRow path .predicate row

theorem faults_havingDemands {o : Option Expr} (h : ∀ e ∈ o, e.FailsAtFaults c) (row : Row) :
    Faults (havingDemands c path row o) (optionSites o) := by
  cases o with
  | none => rfl
  | some e => exact (h e rfl).onRow path .having row

/-- A missing classifier is met before the classifiers are. -/
theorem faults_groupingDemands {o : Option (Grouping Expr)}
    (h : ∀ g ∈ o, (∀ e ∈ g.classifiers, e.FailsAtFaults c) ∧ ∀ e ∈ g.having, e.FailsAtFaults c)
    (row : Row) : Faults (groupingDemands c path row o) (groupingSites o) := by
  obtain _ | ⟨cs, into, having, p⟩ := o
  · rfl
  · obtain ⟨hcs, hhaving⟩ := h _ rfl
    have hkey : Faults (if cs.isEmpty then [.fail emptyList] else []) [.key cs] := by
      cases hempty : cs.isEmpty <;> simp [Faults, Demand.failure?, Site.failure?, Site.fault?, hempty,
        emptyList]
    have hclassifiers := (faults_demandsAll hcs ⟨some row, .plain⟩ nofun path []
      (.slot ∘ .classifier) 0).named row (.slot (.classifier 0) :: path)
    have hclauses := hkey.append (hclassifiers.append
      (faults_havingDemands path hhaving (.grouped row (labels cs) into)))
    cases into with
    | none => simpa [groupingDemands, groupingSites] using hclauses
    | some n => simpa [groupingDemands, groupingSites] using
        hclauses.after (declareDemands_failure? row n p)

theorem faults_termsDemands {ts : List (SortTerm Expr)} (h : ∀ t ∈ ts, t.key.FailsAtFaults c)
    (row : Row) (i : Nat) : Faults (termsDemands c path row i ts) (termsSites ts) := by
  induction ts generalizing i with
  | nil => rfl
  | cons t ts ih =>
    obtain ⟨key, direction⟩ := t
    obtain ⟨hkey, hts⟩ := List.forall_mem_cons.mp h
    have hterms := (hkey.onRow path (.orderKey i) row).append (ih hts (i + 1))
    cases direction with
    | none => simpa [termsDemands, termsSites] using hterms
    | some d => simpa [termsDemands, termsSites] using hterms.after (directionDemands_failure? d)

theorem faults_sortingDemands {o : Option (Sorting Expr)}
    (h : ∀ s ∈ o, ∀ t ∈ s.terms, t.key.FailsAtFaults c) (row : Row) :
    Faults (sortingDemands c path row o) (sortingSites o) := by
  cases o with
  | none => rfl
  | some s => exact faults_termsDemands path (h s rfl) row 0

theorem faults_limitDemands {o : Option (Limit Expr)}
    (h : ∀ l ∈ o, (∀ e ∈ l.offset, e.FailsAtFaults c) ∧ l.size.FailsAtFaults c) :
    Faults (limitDemands c path o) (limitSites o) := by
  obtain _ | ⟨_ | offset, size, p⟩ := o
  · rfl
  · exact (h _ rfl).2.offRow path .size
  · obtain ⟨hoffset, hsize⟩ := h _ rfl
    exact ((hoffset offset rfl).offRow path .offset).append (hsize.offRow path .size)

theorem faults_projectionDemands {o : Option (Projection Expr)}
    (h : ∀ p ∈ o, ∀ e ∈ p.items, e.FailsAtFaults c) (row : Row) :
    Faults (projectionDemands c path row o) (projectionSites o) := by
  obtain _ | ⟨_ | ⟨e, es⟩, p⟩ := o
  · rfl
  · rfl
  · exact (faults_demandsAll (h _ rfl) ⟨some row, .counted⟩ nofun path []
      (.slot ∘ .item) 0).named row _

theorem faults_queryDemands {q : Query Expr} (h : q.Each (Expr.FailsAtFaults c)) :
    Faults (queryDemands c path q) (querySites q) := by
  rw [queryDemands, querySites]
  refine .append (.append (.append (.append (.append (.append ?_ ?_) ?_) ?_) ?_) ?_) ?_
  · exact h.source.offRow path .source
  · exact faults_joinsDemands path h.joins 0 _
  · exact faults_filterDemands path h.filter _
  · exact faults_groupingDemands path h.grouping _
  · exact faults_sortingDemands path h.sorting _
  · exact faults_limitDemands path h.limit
  · exact faults_projectionDemands path h.projection _

end

theorem failsAtFaults (c : Config) (e : Expr) : e.FailsAtFaults c := by
  induction e using Expr.written_induction with
  | literal p v => exact fun _ _ _ _ => rfl
  | var p n => exact fun place hopen _ bound => (faults_varDemands hopen bound n).node rfl
  | unary p f e ih => exact fun place hopen path bound => (ih place hopen _ bound).node rfl
  | binary p f l r ihl ihr =>
    exact fun place hopen path bound =>
      ((ihl place hopen _ bound).append (ihr place hopen _ bound)).node rfl
  | sequence p f es ih =>
    intro place hopen path bound
    cases f with
    | call n => exact (faults_call ih place hopen path bound p n).node rfl
    | list | tuple | construct =>
      exact (faults_demandsAll ih place hopen path bound .part 0).node rfl
  | method p r n es ihr ih =>
    exact fun place hopen path bound =>
      ((ihr place hopen _ bound).append (faults_demandsAll ih place hopen path bound .part 1)).node rfl
  | lambda p ps e ih => exact fun place hopen path bound => (ih place hopen _ _).node rfl
  | query p q hq => exact fun _ _ path _ => (faults_queryDemands path hq).outlivesQuery.node rfl
  | letIn | record | postIncrement | subquery => exact fun _ _ _ _ => .made rfl

/-! ## Queries of the front end -/

/-- The sites have no fault. -/
def Flawless (sites : List Site) : Bool := sites.all (·.fault?.isNone)

theorem flawless_append (sites sites' : List Site) :
    Flawless (sites ++ sites') = (Flawless sites && Flawless sites') := List.all_append

theorem flawless_node {e : Expr} (hwritten : e.isMade = false) (sites : List Site) :
    Flawless (.node e :: sites) = Flawless sites := by
  simp [Flawless, Site.fault?, hwritten]

section

theorem flawless_allSites {es : List Expr} (h : ∀ e ∈ es, e.isFrontEnd = Flawless e.sites) :
    allFrontEnd es = Flawless (allSites es) := by
  induction es with
  | nil => rfl
  | cons e es ih =>
    obtain ⟨he, hes⟩ := List.forall_mem_cons.mp h
    rw [allFrontEnd, allSites, flawless_append, he, ih hes]

theorem flawless_optionSites {o : Option Expr} (h : ∀ e ∈ o, e.isFrontEnd = Flawless e.sites) :
    optionFrontEnd o = Flawless (optionSites o) := by
  cases o with
  | none => rfl
  | some e => exact h e rfl

theorem flawless_joinsSites {js : List (Join Expr)}
    (h : ∀ j ∈ js, j.source.isFrontEnd = Flawless j.source.sites ∧
      ∀ e ∈ j.on, e.isFrontEnd = Flawless e.sites) :
    joinsFrontEnd js = Flawless (joinsSites js) := by
  induction js with
  | nil => rfl
  | cons j js ih =>
    obtain ⟨kind, name, source, on, p⟩ := j
    obtain ⟨⟨hsource, hon⟩, hjs⟩ := List.forall_mem_cons.mp h
    have hmatch : (kind = .cross || optionFrontEnd on) =
        Flawless (if kind = .cross then [] else optionSites on) := by
      by_cases hkind : kind = .cross
      · simp [hkind, Flawless]
      · simpa [hkind] using flawless_optionSites hon
    rw [joinsFrontEnd, joinsSites, flawless_append, flawless_append, ← hmatch, ← ih hjs, hsource]

theorem flawless_termsSites {ts : List (SortTerm Expr)}
    (h : ∀ t ∈ ts, t.key.isFrontEnd = Flawless t.key.sites) :
    termsFrontEnd ts = Flawless (termsSites ts) := by
  induction ts with
  | nil => rfl
  | cons t ts ih =>
    obtain ⟨ht, hts⟩ := List.forall_mem_cons.mp h
    rw [termsFrontEnd, termsSites, flawless_append, ht, ih hts]

theorem flawless_groupingSites {o : Option (Grouping Expr)}
    (h : ∀ g ∈ o, (∀ e ∈ g.classifiers, e.isFrontEnd = Flawless e.sites) ∧
      ∀ e ∈ g.having, e.isFrontEnd = Flawless e.sites) :
    groupingFrontEnd o = Flawless (groupingSites o) := by
  cases o with
  | none => rfl
  | some g =>
    obtain ⟨hcs, hhaving⟩ := h g rfl
    have hkey : Flawless [.key g.classifiers] = !g.classifiers.isEmpty := by
      cases g.classifiers <;> simp [Flawless, Site.fault?]
    rw [groupingFrontEnd, groupingSites, ← List.singleton_append, flawless_append, flawless_append,
      hkey, flawless_allSites hcs, flawless_optionSites hhaving, Bool.and_assoc]

theorem flawless_querySites {q : Query Expr} (h : q.Each fun e => e.isFrontEnd = Flawless e.sites) :
    queryFrontEnd q = Flawless (querySites q) := by
  have hfilter : filterFrontEnd q.filter = Flawless (filterSites q.filter) := by
    cases hf : q.filter with
    | none => rfl
    | some f => exact h.filter f hf
  have hsorting : sortingFrontEnd q.sorting = Flawless (sortingSites q.sorting) := by
    cases hs : q.sorting with
    | none => rfl
    | some s => exact flawless_termsSites (h.sorting s hs)
  have hlimit : limitFrontEnd q.limit = Flawless (limitSites q.limit) := by
    cases hl : q.limit with
    | none => rfl
    | some l =>
      obtain ⟨hoffset, hsize⟩ := h.limit l hl
      rw [limitFrontEnd, limitSites, flawless_append, flawless_optionSites hoffset, hsize]
  have hprojection : projectionFrontEnd q.projection = Flawless (projectionSites q.projection) := by
    cases hp : q.projection with
    | none => rfl
    | some p => exact flawless_allSites (h.projection p hp)
  rw [queryFrontEnd, querySites]
  simp only [flawless_append]
  rw [h.source, flawless_joinsSites h.joins, hfilter, flawless_groupingSites h.grouping, hsorting,
    hlimit, hprojection]

end

/-- A query is of the front end just if lowering comes to no fault in it. -/
theorem isFrontEnd_eq_flawless (e : Expr) : e.isFrontEnd = Flawless e.sites := by
  induction e using Expr.written_induction with
  | literal | var | letIn | record | postIncrement | subquery => rfl
  | unary p f e ih => exact ih.trans (flawless_node rfl _).symm
  | lambda p ps e ih => exact ih.trans (flawless_node rfl _).symm
  | binary p f l r ihl ihr =>
    rw [Expr.isFrontEnd, Expr.sites, flawless_node rfl, flawless_append, ihl, ihr]
  | sequence p f es ih => exact (flawless_allSites ih).trans (flawless_node rfl _).symm
  | method p r n es ihr ih =>
    rw [Expr.isFrontEnd, Expr.sites, flawless_node rfl, flawless_append, ihr, flawless_allSites ih]
  | query p q hq => exact (flawless_querySites hq).trans (flawless_node rfl _).symm

/-! ## Runs -/

theorem outcome_fails (ds : List Demand) :
    (outcome ds).1 =
      match (ds.filterMap Demand.failure?).head? with
      | some f => .error f
      | none => .ok () := by
  induction ds with
  | nil => rfl
  | cons d ds ih =>
    cases d with
    | fail f => rfl
    | _ => exact ih

/-- What lowering a query tells of the first fault that it comes to. -/
def Query.firstFault? (q : Query Expr) : Option String := (querySites q).findSome? Site.fault?

theorem Query.head_failure? (q : Query Expr) :
    ((querySites q).filterMap Site.failure?).head? = q.firstFault?.map .impossibleNode := by
  rw [List.head?_filterMap, firstFault?]
  induction querySites q with
  | nil => rfl
  | cons site sites ih =>
    rw [List.findSome?_cons, List.findSome?_cons, ih, Site.failure?]
    cases site.fault? <;> rfl

theorem Query.firstFault?_eq_none {q : Query Expr} :
    q.firstFault? = none ↔ queryFrontEnd q = true := by
  rw [flawless_querySites (q.each_of_forall isFrontEnd_eq_flawless), firstFault?, Flawless]
  simp

/-- How lowering a query ends does not depend on the context. -/
theorem Context.lower_fails (ctx : Context) (node : Path) (q : Query Expr) :
    match q.firstFault? with
    | some text => (ctx.lower node q).1 = .error (.impossibleNode text)
    | none => ∃ t, (ctx.lower node q).1 = .ok t := by
  let opened := if ctx.frames.isEmpty then
      (ctx.reserve [ctx.config.table, ctx.config.counter]).reserve q.identifiers
    else ctx
  let ds := (queryDemands opened.config node q).filter (·.outlivesQuery)
  have hfaults : Faults ds (querySites q) :=
    (faults_queryDemands node (q.each_of_forall (failsAtFaults opened.config))).outlivesQuery
  have hresult := (opened.perform_outcome ds).1
  rw [outcome_fails, hfaults, q.head_failure?] at hresult
  have hlower : (ctx.lower node q).1 =
      (opened.perform ds).1.map fun _ => queryImage (opened.perform ds).2.naming node q := rfl
  rw [hlower]
  cases hfault : q.firstFault? with
  | some text =>
    rw [hfault] at hresult
    rw [hresult]
    rfl
  | none =>
    rw [hfault] at hresult
    rw [hresult]
    exact ⟨_, rfl⟩

/-- In whatever context, lowering a query ends with the first fault that it comes to, and where
there is none it gives a thunk. It comes to all of the query but the predicates of crossjoins, so
that a query of the front end has none. -/
theorem lower_fails_at_first_fault (ctx : Context) (node : Path) (q : Query Expr) :
    (match q.firstFault? with
      | some text => (Run.lower node q ctx).1 = .error (.failure (.impossibleNode text))
      | none => ∃ t, (Run.lower node q ctx).1 = .ok t) ∧
      (∀ site, site ∈ querySites q ↔ q.Reaches site) ∧
      (∀ e, e ∈ q.exprs ↔
        q.Holds e ∨ ∃ j ∈ q.joins, j.kind = .cross ∧ e ∈ j.on) ∧
      ((∃ t, (Run.lower node q ctx).1 = .ok t) ↔ queryFrontEnd q = true) := by
  have hrun : (Run.lower node q ctx).1 = (ctx.lower node q).1.mapError .failure :=
    congrArg Prod.fst (Run.lower_eq node q ctx)
  have hlower := ctx.lower_fails node q
  have hreached (site : Site) : site ∈ querySites q ↔ q.Reaches site :=
    mem_querySites_reaches (q.each_of_forall fun e => mem_sites e)
  rw [hrun, ← Query.firstFault?_eq_none]
  cases hfault : q.firstFault? with
  | some text =>
    rw [hfault] at hlower
    have hlower : (ctx.lower node q).1 = .error (.impossibleNode text) := hlower
    rw [hlower]
    exact ⟨rfl, hreached, fun e => Query.mem_exprs, ⟨nofun, nofun⟩⟩
  | none =>
    rw [hfault] at hlower
    obtain ⟨t, hlower⟩ : ∃ t, (ctx.lower node q).1 = .ok t := hlower
    rw [hlower]
    exact ⟨⟨t, rfl⟩, hreached, fun e => Query.mem_exprs, ⟨fun _ => rfl, fun _ => ⟨t, rfl⟩⟩⟩

end Comprehension
