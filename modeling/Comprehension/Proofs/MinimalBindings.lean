import Comprehension.Proofs.AliasPaths
import Comprehension.Proofs.Faults
import Comprehension.Proofs.GroupNames
import Comprehension.Proofs.RowNumbers

/-!
Minimal bindings. Expressions on a joined row bind the aliases that occur free in them. Whether the
lowered expressions still read such an alias depends on the queries nested in them: a nested query gives
names a meaning of their own, those of its group fields for one, and does not bind them in the written
expression. An alias that no nested query has for such a name is read. One that only nested queries have
is bound all the same, and nothing reads it.
-/

namespace Comprehension

/-- The lowered expression reads the name from outside. -/
def Expr.Reads (e : Expr) (n : String) : Prop := ∃ sc, (sc, .read n) ∈ e.walk ∧ ¬Scope.Binds sc n

/-- The names that have a meaning of their own in the lowered query, those that it declares apart. -/
def Query.ownNames (c : Config) (q : Query Expr) : List String :=
  c.table :: c.counter :: c.rowNumber ::
    match q.grouping with
    | some g => c.group :: labels g.classifiers
    | none => []

/-- No join of the query has a predicate that it cannot take. -/
def Query.Matched (q : Query Expr) : Prop :=
  ∀ j ∈ q.joins, j.on.isSome = true → j.kind ≠ .cross

/-! ## Bound aliases -/

theorem located_eq (row : Row) (es : List Expr) :
    row.located es = (Assoc.keys row.paths).filter (· ∈ freeAll es) := by
  rw [Row.located, Row.bindings, Assoc.keys, List.filter_map, List.map_map]
  rfl

/-- On a joined row each alias is bound at most once, in the order of the joins. -/
theorem located_joined (prior : Row) (a : String) (es : List Expr) :
    ((prior.joined a).located es).Nodup ∧
      ((prior.joined a).located es).Sublist (prior.joined a).aliases ∧
      (prior.isChain = true →
        (prior.joined a).located es = (distinct (prior.joined a).aliases).filter (· ∈ freeAll es)) := by
  rw [located_eq]
  refine ⟨(Row.nodup_keys_paths _).filter _, ?_, fun hprior => ?_⟩
  · exact List.filter_sublist.trans (Row.keys_addPaths_sublist (prior.joined a) [])
  · have hchain : (prior.joined a).isChain = true := hprior
    rw [← Row.keys_addPaths hchain []]
    rfl

/-! ## Free names of a query -/

/-- The names that the piece reads, where the declared names are bound in functions. -/
def Piece.free (declared : List String) : Piece → List String
  | value _ e => e.free
  | function f => unbound declared (freeAll (f.exprs.map (·.2)))

section

variable {n : String} {declared : List String}

theorem free_joinSources {js : List (Join Expr)} (h : n ∈ joinSourcesFree js) (i : Nat) (row : Row) :
    n ∈ (joinPieces i row js).flatMap (Piece.free declared) := by
  induction js generalizing i row with
  | nil => cases h
  | cons j js ih =>
    rw [joinPieces, List.cons_append, List.flatMap_cons, List.flatMap_append]
    rcases List.mem_append.mp h with h | h
    · exact List.mem_append_left _ h
    · exact List.mem_append_right _ (List.mem_append_right _ (ih h (i + 1) _))

theorem free_limit {o : Option (Limit Expr)} (h : n ∈ limitFree o) :
    n ∈ (limitPieces o).flatMap (Piece.free declared) := by
  obtain _ | ⟨_ | offset, size, pos⟩ := o
  · cases h
  · simpa [limitFree, limitPieces, Piece.free] using h
  · simpa [limitFree, limitPieces, Piece.free] using h

variable (hn : n ∉ declared)

include hn

theorem free_single {e : Expr} (h : n ∈ e.free) (slot : Slot) (row : Row) (joined : Option String) :
    n ∈ (Piece.single slot row joined e).free declared := by
  simp [Piece.single, Piece.free, freeAll, h, hn]

theorem free_predicates {js : List (Join Expr)}
    (hjs : ∀ j ∈ js, j.on.isSome = true → j.kind ≠ .cross)
    (h : n ∈ predicatesFree js) (i : Nat) (row : Row) :
    n ∈ (joinPieces i row js).flatMap (Piece.free declared) := by
  induction js generalizing i row with
  | nil => cases h
  | cons j js ih =>
    obtain ⟨kind, name, source, _ | on, pos⟩ := j <;>
      obtain ⟨hj, hjs⟩ := List.forall_mem_cons.mp hjs
    · rw [joinPieces, List.flatMap_append]
      exact List.mem_append_right _ (ih hjs h (i + 1) _)
    · have hkind : kind.takesPredicate = true := JoinKind.takesPredicate_iff.mpr (hj rfl)
      rw [joinPieces, matchPieces, if_pos hkind, List.flatMap_append]
      rcases List.mem_append.mp h with h | h
      · exact List.mem_append_left _ (by simp [free_single hn h])
      · exact List.mem_append_right _ (ih hjs h (i + 1) _)

theorem free_filter {o : Option (Filter Expr)} (h : n ∈ filterFree o) (row : Row) :
    n ∈ (filterPieces row o).flatMap (Piece.free declared) := by
  cases o with
  | none => cases h
  | some f => simp [filterPieces, free_single hn h]

theorem free_grouping {o : Option (Grouping Expr)} (h : n ∈ groupingFree o) (row : Row) :
    n ∈ (groupingPieces row o).flatMap (Piece.free declared) := by
  obtain _ | ⟨cs, into, having, pos⟩ := o
  · cases h
  · cases having with
    | none =>
      simpa [groupingPieces, havingPieces, Piece.free, numbered_exprs, hn, groupingFree] using h
    | some e =>
      simp only [groupingPieces, havingPieces, List.flatMap_cons, List.mem_append]
      rcases List.mem_append.mp h with h | h
      · exact .inl (by simp [Piece.free, numbered_exprs, h, hn])
      · exact .inr (.inl (free_single hn h _ _ _))

theorem free_terms {ts : List (SortTerm Expr)} (h : n ∈ termsFree ts) (i : Nat) (row : Row) :
    n ∈ (termPieces row i ts).flatMap (Piece.free declared) := by
  induction ts generalizing i with
  | nil => cases h
  | cons t ts ih =>
    rw [termPieces, List.flatMap_cons]
    rcases List.mem_append.mp h with h | h
    · exact List.mem_append_left _ (free_single hn h _ _ _)
    · exact List.mem_append_right _ (ih h (i + 1))

theorem free_projection {o : Option (Projection Expr)} (h : n ∈ projectionFree o) (row : Row) :
    n ∈ (projectionPieces row o).flatMap (Piece.free declared) := by
  obtain _ | ⟨_ | ⟨e, es⟩, pos⟩ := o
  · cases h
  · cases h
  · simpa [projectionPieces, Piece.free, numbered_exprs, hn, projectionFree] using h

end

/-- What is free in a query is free in one of its pieces. -/
theorem free_pieces {q : Query Expr} (hq : q.Matched) {n : String} (h : n ∈ queryFree q) :
    ∃ p ∈ q.pieces, n ∈ p.free q.declared := by
  have hsorting (hn : n ∉ q.declared) (h : n ∈ sortingFree q.sorting) :
      n ∈ (sortingPieces q.row q.sorting).flatMap (Piece.free q.declared) := by
    cases hs : q.sorting with
    | none => simp [hs, sortingFree] at h
    | some s =>
      rw [hs] at h
      exact free_terms hn h 0 q.row
  rw [← List.mem_flatMap]
  simp only [Query.pieces, List.flatMap_cons, List.flatMap_append, List.mem_append]
  obtain ⟨⟨name, source, _⟩, joins, filter, grouping, sorting, limit, projection, _⟩ := q
  simp only [queryFree, List.mem_append, mem_unbound] at h
  rcases h with (h | h) | ⟨(((((h | h) | h) | h) | h) | h), hn⟩
  · exact .inl h
  · simp [free_joinSources h]
  · simp [free_predicates hn hq h]
  · simp [free_filter hn h]
  · simp [free_grouping hn h]
  · simp [hsorting hn h]
  · simp [free_limit h]
  · simp [free_projection hn h]

/-! ## Nested queries of a query -/

theorem mem_nestedAll {q : Query Expr} {es : List Expr} :
    q ∈ nestedAll es ↔ ∃ e ∈ es, q ∈ e.nested := by
  induction es with
  | nil => simp [nestedAll]
  | cons e es ih => simp [nestedAll, ih]

/-- The queries in a query are those in its pieces. -/
theorem queryNested_eq (q : Query Expr) :
    queryNested q = q.pieces.flatMap fun p => nestedAll p.exprs := by
  have hsingle (slot : Slot) (row : Row) (joined : Option String) (e : Expr) :
      nestedAll (Piece.single slot row joined e).exprs = e.nested := List.append_nil _
  have hjoins (i : Nat) (row : Row) (js : List (Join Expr)) :
      joinsNested js = (joinPieces i row js).flatMap fun p => nestedAll p.exprs := by
    induction js generalizing i row with
    | nil => rfl
    | cons j js ih =>
      have hmatch : matchNested j.kind j.on =
          (matchPieces i row j.kind j.name j.on).flatMap fun p => nestedAll p.exprs := by
        cases j.on with
        | none => rfl
        | some e => by_cases hk : j.kind.takesPredicate <;> simp [matchNested, matchPieces, hk, hsingle]
      simp [joinsNested, joinPieces, hmatch, ih (i + 1) (row.joined j.name), Piece.exprs, nestedAll]
  have hterms (i : Nat) (row : Row) (ts : List (SortTerm Expr)) :
      termsNested ts = (termPieces row i ts).flatMap fun p => nestedAll p.exprs := by
    induction ts generalizing i with
    | nil => rfl
    | cons t ts ih => simp [termsNested, termPieces, ih (i + 1), hsingle]
  have hfilter : filterNested q.filter =
      (filterPieces q.joinedRow q.filter).flatMap fun p => nestedAll p.exprs := by
    cases q.filter <;> simp [filterNested, filterPieces, hsingle]
  have hgrouping : groupingNested q.grouping =
      (groupingPieces q.joinedRow q.grouping).flatMap fun p => nestedAll p.exprs := by
    obtain _ | ⟨cs, into, _ | e, pos⟩ := q.grouping
    · rfl
    · simp [groupingNested, groupingPieces, havingNested, havingPieces, Piece.exprs, numbered_exprs]
    · simp only [groupingNested, groupingPieces, havingNested, havingPieces, List.flatMap_cons,
        List.flatMap_nil, List.append_nil, hsingle]
      simp [Piece.exprs, numbered_exprs]
  have hsorting : sortingNested q.sorting =
      (sortingPieces q.row q.sorting).flatMap fun p => nestedAll p.exprs := by
    cases q.sorting with
    | none => rfl
    | some s => exact hterms 0 q.row s.terms
  have hlimit : limitNested q.limit = (limitPieces q.limit).flatMap fun p => nestedAll p.exprs := by
    obtain _ | ⟨_ | offset, size, pos⟩ := q.limit <;>
      simp [limitNested, limitPieces, Piece.exprs, nestedAll]
  have hprojection : projectionNested q.projection =
      (projectionPieces q.row q.projection).flatMap fun p => nestedAll p.exprs := by
    obtain _ | ⟨_ | ⟨e, es⟩, pos⟩ := q.projection <;>
      simp [projectionNested, projectionPieces, Piece.exprs, numbered_exprs, nestedAll]
  simp only [Query.pieces, List.flatMap_cons, List.flatMap_append]
  rw [← hjoins, ← hfilter, ← hgrouping, ← hsorting, ← hlimit, ← hprojection]
  obtain ⟨⟨name, source, _⟩, joins, filter, grouping, sorting, limit, projection, _⟩ := q
  simp [queryNested, Piece.exprs, nestedAll]

/-! ## Front-end expressions of a query -/

theorem allFrontEnd_iff {es : List Expr} :
    allFrontEnd es = true ↔ ∀ e ∈ es, e.isFrontEnd = true := by
  induction es with
  | nil => simp [allFrontEnd]
  | cons e es ih => simp [allFrontEnd, ih]

theorem Query.Matched.each_holds {q : Query Expr} (h : q.Matched) : q.Each q.Holds where
  source := .source
  joins j hj := ⟨.joinSource hj, fun e he => .joinOn hj (h j hj (by simp_all)) he⟩
  filter f hf := .predicate hf
  grouping g hg := ⟨fun e he => .classifier hg he, fun e he => .having hg he⟩
  sorting s hs t ht := .orderKey hs ht
  limit l hl := ⟨fun e he => .offset hl he, .size hl⟩
  projection p hp e he := .item hp he

theorem frontEnd_of_holds {q : Query Expr} (h : queryFrontEnd q = true) {e : Expr} (he : q.Holds e) :
    e.isFrontEnd = true := by
  have hquery : Flawless (Expr.query .nowhere q).sites = true :=
    (isFrontEnd_eq_flawless (.query .nowhere q)).symm.trans h
  rw [isFrontEnd_eq_flawless, Flawless, List.all_eq_true]
  intro site hsite
  exact List.all_eq_true.mp hquery site ((mem_sites _).mpr (.inner he ((mem_sites e).mp hsite)))

/-! ## Names that are left alone -/

/-- The name means nothing special to the query, and none of its predicates is passed over. -/
structure Query.Leaves (c : Config) (n : String) (q : Query Expr) : Prop where
  own : n ∉ q.ownNames c
  matched : q.Matched

/-- At the place the name means what it means outside. -/
structure Place.Leaves (c : Config) (n : String) (place : Place) : Prop where
  uncounted : place.numbering = .counted → n ≠ c.rowNumber
  ofGroup : ∀ prior names into, place.row = some (.grouped prior names into) →
    prior.isGrouped = false ∧ n ∉ prior.aliases ∧ n ≠ c.group ∧ n ∉ names ∧ into ≠ some n

namespace Place.Leaves

variable {c : Config} {n : String} {place : Place}

theorem read? (h : place.Leaves c n) (param : String) : place.read? c param n = none := by
  obtain ⟨_ | row, numbering⟩ := place
  · rfl
  · cases row with
    | table | joined => rfl
    | grouped prior names into =>
      obtain ⟨-, halias, hgroup, hnames, hinto⟩ := h.ofGroup prior names into rfl
      simp [Place.read?, Place.group?, Row.group?, GroupView.read?, GroupView.hasField,
        GroupView.namesKey, halias, hgroup, hnames, hinto]

theorem outerReads (h : place.Leaves c n) (bound : List String) :
    n ∈ place.outerReads c bound n := by
  have hcounted : ¬(n = c.rowNumber ∧ place.numbering = .counted) :=
    fun hn => h.uncounted hn.2 hn.1
  simp [Place.outerReads, hcounted, h.read?]

theorem not_mem_groupNames (h : place.Leaves c n) (bound free : List String) :
    n ∉ place.groupNames c bound free := by
  simp [Place.groupNames, h.read?]

/-- The row before grouping is no group. -/
theorem prior (h : place.Leaves c n) {prior : Row} {names : List String} {into : Option String}
    (hrow : place.row = some (.grouped prior names into)) :
    Place.Leaves c n ⟨some prior, place.numbering⟩ := by
  refine ⟨h.uncounted, fun prior' names' into' hprior => ?_⟩
  have hgrouped := (h.ofGroup prior names into hrow).1
  cases hprior
  cases hgrouped

end Place.Leaves

theorem leaves_offRows (c : Config) (n : String) : Place.Leaves c n ⟨none, .plain⟩ :=
  ⟨nofun, nofun⟩

theorem leaves_joined (c : Config) (n : String) (prior : Row) (a : String) :
    Place.Leaves c n ⟨some (prior.joined a), .plain⟩ :=
  ⟨nofun, nofun⟩

theorem secluded_joined {c : Config} {n param : String} (prior : Row) (a : String) :
    Secluded c n ⟨some (prior.joined a), .plain⟩ param := nofun

/-- A name that the query leaves and does not declare is left at the places of its functions. -/
theorem Query.Leaves.place {c : Config} {n : String} {q : Query Expr} (h : q.Leaves c n)
    (hn : n ∉ q.declared) {f : RowFunction} (hf : .function f ∈ q.pieces) :
    f.place.Leaves c n := by
  have hown := h.own
  simp only [Query.ownNames, List.mem_cons, not_or] at hown
  obtain ⟨-, -, hrowNumber, hgrouping⟩ := hown
  refine ⟨fun _ => hrowNumber, fun prior names into hrow => ?_⟩
  have hrow : f.row = .grouped prior names into := Option.some.inj hrow
  have honGroups : f ∈ q.onGroups :=
    List.mem_filterMap.mpr ⟨_, hf, by simp [Piece.onGroups?, hrow, Row.isGrouped, Row.group?]⟩
  obtain ⟨g, hg, hgroupRow, -⟩ := Query.onGroups_cases honGroups
  rw [hrow, Query.groupRow] at hgroupRow
  cases hgroupRow
  simp only [hg, List.mem_cons, not_or] at hgrouping
  simp only [Query.declared, Query.into?, hg, List.mem_append, not_or] at hn
  refine ⟨joinedRow_ungrouped q, aliases_joinedRow q ▸ hn.1, hgrouping.1, hgrouping.2, ?_⟩
  intro hinto
  simp [hinto] at hn

/-! ## Names that are read -/

section

variable (c : Config) (n : String)

/-- Where the name is left alone, by the queries in the expression too, a free name is read. -/
def ReadsFree (e : Expr) : Prop :=
  n ∈ e.free → e.isFrontEnd = true → (∀ q ∈ e.nested, q.Leaves c n) →
    ∀ (place : Place) masked bound, place.Leaves c n → .outer n ∈ e.readings c masked place bound

variable {c n}

theorem readsFree_all {es : List Expr} (h : ∀ e ∈ es, ReadsFree c n e) (hn : n ∈ freeAll es)
    (hfront : allFrontEnd es = true) (hnested : ∀ q ∈ nestedAll es, q.Leaves c n) {place : Place}
    (hplace : place.Leaves c n) (masked bound : List String) :
    .outer n ∈ readingsAll c masked place bound es := by
  obtain ⟨e, he, hn⟩ := mem_freeAll.mp hn
  have hnested : ∀ q ∈ e.nested, q.Leaves c n :=
    fun q hq => hnested q (mem_nestedAll.mpr ⟨e, he, hq⟩)
  rw [readingsAll_eq_flatMap, List.mem_flatMap]
  exact ⟨e, he, h e he hn (allFrontEnd_iff.mp hfront e he) hnested place _ _ hplace⟩

theorem readsFree_call {es : List Expr} (h : ∀ e ∈ es, ReadsFree c n e) (p : Position) (m : String) :
    ReadsFree c n (.sequence p (.call m) es) := by
  intro hn hfront hnested place masked bound hplace
  have hargs := place.callCase_args m es.length
  have hform := callForm ⟨c, fun _ => ""⟩ place "" [] bound false p m es
  have hall := readsFree_all h hn hfront hnested hplace masked bound
  rw [Expr.readings]
  generalize (Expr.sequence p (.call m) es).image _ place "" [] bound false = e at hform
  generalize (Expr.sequence p (.call m) es).demands _ place [] bound = ds at hform
  cases hform with
  | plain ds es _ hcase =>
    rw [hcase]
    exact hall
  | allRows es prior names into _ hcase =>
    rw [hcase, List.length_eq_zero_iff] at hargs
    subst hargs
    exact absurd hn List.not_mem_nil
  | eachRow ds arg rest prior names into hrow _ hcase =>
    rw [List.length_cons, hcase, Nat.add_eq_right, List.length_eq_zero_iff] at hargs
    subst hargs
    have hprior := hplace.prior hrow
    have hnames : n ∉ prior.written none ++ prior.located [arg] :=
      Row.names_not_mem (hplace.ofGroup prior names into hrow).2.1 List.not_mem_nil [arg]
    have hread := readsFree_all h hn hfront hnested hprior (prior.masks c masked none [arg]) []
    rw [readingsAll, readingsAll, List.append_nil] at hread
    rw [List.length_cons, hcase]
    exact Reading.outer_mem_function.mpr ⟨hread, hnames⟩
  | rowsAtOnce arg rest prior names into _ hcase =>
    rw [List.length_cons, hcase, Nat.add_eq_right, List.length_eq_zero_iff] at hargs
    subst hargs
    rw [readingsAll, readingsAll, List.append_nil] at hall
    rw [List.length_cons, hcase]
    exact hall

theorem readsFree_piece {q : Query Expr} (hq : q.Leaves c n) {p : Piece} (hp : p ∈ q.pieces)
    (h : ∀ e ∈ p.exprs, ReadsFree c n e) (hfront : queryFrontEnd q = true)
    (hnested : ∀ q' ∈ queryNested q, q'.Leaves c n) (hn : n ∈ p.free q.declared)
    (masked : List String) : .outer n ∈ p.readings c masked := by
  have hread (e : Expr) (he : e ∈ p.exprs) (hn : n ∈ e.free) {place : Place}
      (hplace : place.Leaves c n) (masked : List String) :
      .outer n ∈ e.readings c masked place [] := by
    refine h e he hn (frontEnd_of_holds hfront (hq.matched.each_holds.pieces p hp e he))
      (fun q' hq' => hnested q' ?_) place masked [] hplace
    rw [queryNested_eq, List.mem_flatMap]
    exact ⟨p, hp, mem_nestedAll.mpr ⟨e, he, hq'⟩⟩
  cases p with
  | value slot e => exact hread e List.mem_cons_self hn (leaves_offRows c n) masked
  | function f =>
    obtain ⟨hn, hdeclared⟩ := mem_unbound.mp hn
    obtain ⟨e, he, hn⟩ := mem_freeAll.mp hn
    obtain ⟨p, hpexprs, rfl⟩ := List.mem_map.mp he
    have hrow : n ∉ f.row.aliases ++ f.joined.toList :=
      fun hmem => hdeclared (List.mem_append_left _ (q.rowNames_pieces _ hp n hmem))
    rw [List.mem_append, not_or] at hrow
    have hnames := Row.names_not_mem hrow.1 hrow.2 (f.exprs.map (·.2))
    refine Reading.outer_mem_function.mpr ⟨List.mem_append_left _ ?_, hnames⟩
    exact List.mem_flatMap.mpr ⟨p, hpexprs, hread p.2 he hn (hq.place hdeclared hp) _⟩

theorem readsFree_query {q : Query Expr} (h : q.Each (ReadsFree c n)) (p : Position) :
    ReadsFree c n (.query p q) := by
  intro hn hfront hnested place masked bound hplace
  obtain ⟨hq, hnested⟩ := List.forall_mem_cons.mp hnested
  obtain ⟨piece, hpiece, hfree⟩ := free_pieces hq.matched hn
  have hdeclared : n ∉ c.table :: if countsRows c [] q then [c.counter] else [] := by
    have hown := hq.own
    simp only [Query.ownNames, List.mem_cons, not_or] at hown
    split <;> simp [hown]
  have hquery (masked : List String) : .outer n ∈ queryReadings c masked q := by
    rw [queryReadings_eq, Reading.outer_mem_within, List.mem_flatMap]
    have hread := readsFree_piece hq hpiece (h.pieces piece hpiece) hfront hnested hfree masked
    exact ⟨⟨piece, hpiece, hread⟩, hdeclared⟩
  rw [Expr.readings, Place.readings, List.mem_append, Reading.outer_mem_within]
  exact .inr ⟨hquery _, hplace.not_mem_groupNames bound _⟩

theorem readsFree (e : Expr) : ReadsFree c n e := by
  induction e using Expr.written_induction with
  | literal => exact fun hn => absurd hn List.not_mem_nil
  | letIn | record | postIncrement | subquery => exact fun _ hfront => nomatch hfront
  | var p m =>
    intro hn _ _ place masked bound hplace
    obtain rfl := List.mem_singleton.mp hn
    exact List.mem_map_of_mem (hplace.outerReads bound)
  | unary p f e ih => exact ih
  | binary p f l r ihl ihr =>
    intro hn hfront hnested place masked bound hplace
    obtain ⟨hl, hr⟩ := List.forall_mem_append.mp hnested
    rw [Expr.isFrontEnd, Bool.and_eq_true] at hfront
    rw [Expr.readings]
    rcases List.mem_append.mp hn with hn | hn
    · exact List.mem_append_left _ (ihl hn hfront.1 hl place masked bound hplace)
    · exact List.mem_append_right _ (ihr hn hfront.2 hr place masked bound hplace)
  | sequence p f es ih =>
    cases f with
    | call m => exact readsFree_call ih p m
    | list | tuple | construct =>
      exact fun hn hfront hnested place masked bound hplace =>
        readsFree_all ih hn hfront hnested hplace masked bound
  | method p r m es ihr ih =>
    intro hn hfront hnested place masked bound hplace
    obtain ⟨hr, hes⟩ := List.forall_mem_append.mp hnested
    rw [Expr.isFrontEnd, Bool.and_eq_true] at hfront
    rw [Expr.readings]
    rcases List.mem_append.mp hn with hn | hn
    · exact List.mem_append_left _ (ihr hn hfront.1 hr place masked bound hplace)
    · exact List.mem_append_right _ (readsFree_all ih hn hfront.2 hes hplace masked bound)
  | lambda p ps e ih =>
    intro hn hfront hnested place masked bound hplace
    obtain ⟨hn, hps⟩ := mem_unbound.mp hn
    exact Reading.outer_mem_within.mpr ⟨ih hn hfront hnested place _ _ hplace, hps⟩
  | query p q hq => exact readsFree_query hq p

end

/-! ## Predicates of crossjoins -/

theorem matched_of_unreported {c : Config} {path : Path} {q : Query Expr}
    (h : Unreported (queryDemands c path q)) : q.Matched := by
  have hjoins (i : Nat) (row : Row) (js : List (Join Expr))
      (h : Unreported (joinsDemands c path i row js)) :
      ∀ j ∈ js, j.on.isSome = true → j.kind ≠ .cross := by
    induction js generalizing i row with
    | nil => exact List.forall_mem_nil _
    | cons j js ih =>
      simp only [joinsDemands, unreported_append] at h
      obtain ⟨⟨-, hmatch⟩, hrest⟩ := h
      refine List.forall_mem_cons.mpr ⟨fun hon hkind => ?_, ih _ _ hrest⟩
      obtain ⟨e, he⟩ := Option.isSome_iff_exists.mp hon
      rw [he, hkind] at hmatch
      exact hmatch ⟨.predicateOnCross, e.pos⟩ List.mem_cons_self
  obtain ⟨⟨name, source, _⟩, joins, filter, grouping, sorting, limit, projection, _⟩ := q
  simp only [queryDemands, unreported_append] at h
  exact hjoins 0 _ joins h.1.1.1.1.1.2

/-- Where nothing is reported, the predicates of nested queries are taken too. -/
theorem nested_matched {c : Config} {place : Place} {path : Path} {bound : List String} {e : Expr}
    (h : Unreported (e.demands c place path bound)) : ∀ q ∈ e.nested, q.Matched := by
  let s : Naming := ⟨c, fun _ => ""⟩
  have hplace : place.MakesUp s "" path := fun _ _ _ _ => ⟨[], Nat.zero_le _, rfl⟩
  have hnests := (nestsThunks e).2 place "" path bound false hplace
  refine ((List.forall₂_and_left _ _).mp (hnests.imp fun q t hlowered => ⟨?_, hlowered⟩)).1
  obtain ⟨node, -, -, -, hdemands, -⟩ := hlowered
  exact matched_of_unreported fun d hd => h d (hdemands _ hd rfl)

/-! ## Expressions on a joined row -/

theorem reports_flatMap {α : Type} {as : List α} {ds : α → List Demand}
    {defects : α → List Diagnostic} (h : ∀ a ∈ as, Reports (ds a) (defects a)) :
    Reports (as.flatMap ds) (as.flatMap defects) := by
  induction as with
  | nil => exact .nil
  | cons a as ih =>
    obtain ⟨ha, has⟩ := List.forall_mem_cons.mp h
    exact ha.append (ih has)

/-- Front-end expressions on a joined row are lowered, and bind each alias at most once, in the order of
the joins; on a base table and its joins, all the aliases that are free in them. The lowered expressions
read just the bound aliases that are among their readings. Where nothing is reported, an alias is among
them unless a nested query has the name for its own. -/
theorem bindings_minimal {ctx : Context} (hplain : ctx.numbering = .plain) {prior : Row} {a : String}
    (hnames : ctx.names.Clear (ctx.config.table :: (prior.joined a).aliases)) {n : Path × Expr}
    {nodes : List (Path × Expr)} (hfront : ∀ m ∈ n :: nodes, m.2.isFrontEnd = true) :
    let row := prior.joined a
    let es := (n :: nodes).map (·.2)
    ∃ r ctx', ctx.imageOnRow row (n :: nodes) = (.ok r, ctx') ∧
      ((r.bindings.map (·.name)).Nodup ∧ (r.bindings.map (·.name)).Sublist row.aliases ∧
        (prior.isChain = true →
          r.bindings.map (·.name) = (distinct row.aliases).filter (· ∈ freeAll es))) ∧
      ∀ b ∈ r.bindings,
        ((∃ e ∈ r.exprs, e.Reads b.name) ↔
          .outer b.name ∈ readingsAll ctx.config [] ⟨some row, .plain⟩ [] es) ∧
        (ctx'.mistakes = ctx.mistakes → (∀ q ∈ nestedAll es, b.name ∉ q.ownNames ctx.config) →
          ∃ e ∈ r.exprs, e.Reads b.name) := by
  intro row es
  let place : Place := ⟨some row, .plain⟩
  let ds := row.nameDemands n.1 ++
    (n :: nodes).flatMap fun m => m.2.demands ctx.config place m.1 []
  let ctx' := (ctx.perform ds).2
  let s := ctx'.naming
  have hreports : Reports ds
      ((n :: nodes).flatMap fun m => m.2.defects ctx.config.group false) := by
    have hplace : place.InQuery false := .onRow (by decide) rfl
    refine Reports.named (reports_flatMap fun m hm => ?_) row n.1
    exact reportsDefects ctx.config m.2 (hfront m hm) place hplace m.1 []
  obtain ⟨hok, hmistakes⟩ := ctx.perform_reports hreports
  have hconfig : s.config = ctx.config := ctx.perform_config ds
  have hclear := ctx.perform_clear hnames ds
  let r : RowImage := ⟨row.parameter s.name n.1, row.bindings (row.parameter s.name n.1) es,
    (n :: nodes).map fun m => m.2.image s place (row.parameter s.name n.1) m.1 [] false⟩
  have himage : ctx.imageOnRow row (n :: nodes) = (.ok r, ctx') := by
    rw [Context.imageOnRow, Context.answer, hplain]
    show ((ctx.perform ds).1.map _, ctx') = _
    rw [hok]
    rfl
  have hlocated : r.bindings.map (·.name) = row.located es := row.names_bindings _ es
  have hbound := located_joined prior a es
  rw [← hlocated] at hbound
  refine ⟨r, ctx', himage, hbound, fun b hb => ?_⟩
  have hname : b.name ∈ row.aliases ∧ b.name ∈ freeAll es := by
    have hmem : b.name ∈ r.bindings.map (·.name) := List.mem_map_of_mem hb
    refine ⟨hbound.2.1.subset hmem, ?_⟩
    rw [hlocated, located_eq] at hmem
    simpa using (List.mem_filter.mp hmem).2
  have hreads : (∃ e ∈ r.exprs, e.Reads b.name) ↔
      .outer b.name ∈ readingsAll ctx.config [] place [] es := by
    have hmadeUp (node : Path) : s.name node ∉ ctx.config.table :: row.aliases :=
      hclear.nameOf_not_mem node
    have hne (node : Path) : s.name node ≠ b.name := by
      intro heq
      exact hmadeUp node (heq ▸ List.mem_cons_of_mem _ hname.1)
    have htable (node : Path) : s.name node ≠ s.config.table := by
      intro heq
      exact hmadeUp node (by rw [heq, hconfig]; exact List.mem_cons_self)
    have hagrees (m : Path × Expr) :
        (m.2.image s place (row.parameter s.name n.1) m.1 [] false).Reads b.name ↔
          .outer b.name ∈ m.2.readings s.config [] place [] :=
      (agreeing hne htable m.2 place _ m.1 [] false [] (secluded_joined prior a)).outer.symm
    rw [readingsAll_eq_flatMap, ← hconfig, List.flatMap_map, List.mem_flatMap]
    simp only [r, List.mem_map, exists_exists_and_eq_and, hagrees]
  refine ⟨hreads, fun hsame hown => hreads.mpr ?_⟩
  have hunreported : Unreported ds := by
    intro d hd
    have hnone := hmistakes.symm.trans hsame
    rw [List.append_right_eq_self, ← hreports.report, List.filterMap_eq_nil_iff] at hnone
    exact Option.some_ne_none d (hnone _ hd)
  have hleaves : ∀ q ∈ nestedAll es, q.Leaves ctx.config b.name := by
    intro q hq
    refine ⟨hown q hq, ?_⟩
    obtain ⟨e, he, hq⟩ := mem_nestedAll.mp hq
    obtain ⟨m, hm, rfl⟩ := List.mem_map.mp he
    have hm : Unreported (m.2.demands ctx.config place m.1 []) := fun d hd =>
      hunreported d (List.mem_append_right _ (List.mem_flatMap.mpr ⟨m, hm, hd⟩))
    exact nested_matched hm q hq
  have hfront : allFrontEnd es = true := allFrontEnd_iff.mpr fun e he => by
    obtain ⟨m, hm, rfl⟩ := List.mem_map.mp he
    exact hfront m hm
  exact readsFree_all (fun e _ => readsFree e) hname.2 hfront hleaves
    (leaves_joined ctx.config b.name prior a) [] []

/-- `b.k in (from x in xs groupby x.k select k)`. -/
def amongKeys : Expr :=
  .binary .nowhere (.operator .isIn) ((Expr.name "b").field "k")
    (.query .nowhere (groupedSelect none (Expr.name "k")))

/-- In a query over the aliases `k` and `b`. -/
def overKeys : Context := ((Context.new .standard).reserve ["__metaDataMap", "k", "b"]).openFrame

/-- Both aliases are bound, and `b` is read. -/
theorem bindings_minimal_amongKeys :
    let row := (Row.table "k").joined "b"
    overKeys.numbering = .plain ∧
      overKeys.names.Clear (overKeys.config.table :: row.aliases) ∧ amongKeys.isFrontEnd = true ∧
      ∃ r ctx', overKeys.imageOnRow row [([], amongKeys)] = (.ok r, ctx') ∧
        r.bindings.map (·.name) = ["k", "b"] ∧ ∃ e ∈ r.exprs, e.Reads "b" := by
  have hplain : overKeys.numbering = .plain := rfl
  have hnames : overKeys.names.Clear
      (overKeys.config.table :: ((Row.table "k").joined "b").aliases) :=
    ⟨by decide, List.forall_mem_nil _, List.forall_mem_nil _, List.nodup_nil⟩
  have hfront : ∀ m ∈ [(([] : Path), amongKeys)], m.2.isFrontEnd = true :=
    List.forall_mem_singleton.mpr rfl
  obtain ⟨r, ctx', himage, ⟨-, -, hbound⟩, hreads⟩ := bindings_minimal hplain hnames hfront
  have hkeys : r.bindings.map (·.name) = ["k", "b"] := (hbound rfl).trans (by decide)
  obtain ⟨b, hb, hname⟩ := List.mem_map.mp (show "b" ∈ r.bindings.map (·.name) by simp [hkeys])
  have hread := (hreads b hb).1
  rw [hname] at hread
  exact ⟨hplain, hnames, hfront _ List.mem_cons_self, r, ctx', himage, hkeys,
    hread.mpr (by decide)⟩

/-- The alias `k` is bound, though `k` is only the group field of the nested query, and nothing reads it.
-/
theorem bindings_unread :
    ∃ r ctx', overKeys.imageOnRow ((Row.table "k").joined "b") [([], amongKeys)] = (.ok r, ctx') ∧
      ctx'.mistakes = [] ∧ "k" ∈ r.bindings.map (·.name) ∧ ¬∃ e ∈ r.exprs, e.Reads "k" := by
  refine ⟨_, _, rfl, rfl, by decide, ?_⟩
  suffices hnone : ∀ e ∈ RowImage.exprs _, ∀ f ∈ e.walk, f.2 ≠ .read "k" from
    fun ⟨e, he, sc, hread, _⟩ => hnone e he _ hread rfl
  decide

end Comprehension
