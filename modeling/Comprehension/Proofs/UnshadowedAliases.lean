import Comprehension.Proofs.MinimalBindings

/-!
Aliases that do not dangle. A row function binds the aliases that occur free in its expressions. What
the lowered function reads occurs free in it, but where a query inside declares the name once more. So
nothing dangles in a query of which no alias is declared again by a query inside, and none is spelled
like the name table.
-/

namespace Comprehension

/-! ## Free names -/

theorem freeAll_append (es es' : List Expr) : freeAll (es ++ es') = freeAll es ++ freeAll es' := by
  induction es with
  | nil => rfl
  | cons e es ih => simp [freeAll, ih]

theorem mem_joinsFree {n : String} {js : List (Join Expr)} :
    n ∈ joinSourcesFree js ∨ n ∈ predicatesFree js ↔
      n ∈ freeAll (js.flatMap fun j => j.source :: j.on.toList) := by
  induction js with
  | nil => simp [joinSourcesFree, predicatesFree, freeAll]
  | cons j js ih =>
    obtain ⟨kind, name, source, on, p⟩ := j
    cases on <;> simp [joinSourcesFree, predicatesFree, freeAll, ← ih, or_assoc, or_left_comm]

theorem termsFree_eq (ts : List (SortTerm Expr)) : termsFree ts = freeAll (ts.map (·.key)) := by
  induction ts with
  | nil => rfl
  | cons t ts ih => simp [termsFree, freeAll, ih]

/-- A name that a query does not declare is free in it just if it is free in its expressions. -/
theorem mem_queryFree {q : Query Expr} {n : String} (hn : n ∉ q.declared) :
    n ∈ queryFree q ↔ n ∈ freeAll q.exprs := by
  have hfilter : filterFree q.filter = freeAll (q.filter.toList.map (·.predicate)) := by
    cases q.filter <;> simp [filterFree, freeAll]
  have hgrouping : groupingFree q.grouping =
      freeAll (q.grouping.toList.flatMap fun g => g.classifiers ++ g.having.toList) := by
    obtain _ | ⟨cs, into, _ | having, p⟩ := q.grouping <;>
      simp [groupingFree, freeAll, freeAll_append]
  have hsorting : sortingFree q.sorting =
      freeAll (q.sorting.toList.flatMap fun s => s.terms.map (·.key)) := by
    cases q.sorting <;> simp [sortingFree, freeAll, termsFree_eq]
  have hlimit : limitFree q.limit =
      freeAll (q.limit.toList.flatMap fun l => l.offset.toList ++ [l.size]) := by
    obtain _ | ⟨_ | offset, size, p⟩ := q.limit <;> simp [limitFree, freeAll]
  have hprojection : projectionFree q.projection =
      freeAll (q.projection.toList.flatMap (·.items)) := by
    cases q.projection <;> simp [projectionFree, freeAll]
  rw [queryFree, Query.exprs_eq]
  simp only [freeAll, freeAll_append, List.mem_append, mem_unbound, and_iff_left hn,
    ← mem_joinsFree, hfilter, hgrouping, hsorting, hlimit, hprojection, or_assoc]

theorem each_free {q : Query Expr} {n : String} (hn : n ∉ q.declared) :
    q.Each fun e => n ∈ e.free → n ∈ queryFree q :=
  Query.each_iff.mpr fun e he h => (mem_queryFree hn).mpr (mem_freeAll.mpr ⟨e, he, h⟩)

/-! ## Rows -/

/-- Each alias of the chain is the parameter of the row, or there is a path to it. -/
def Row.Locates (row : Row) : Prop :=
  ∀ n ∈ row.chain, n ∈ row.written none ∨ n ∈ Assoc.keys row.paths

theorem Row.locates_of_isChain {row : Row} (h : row.isChain = true) : row.Locates := by
  intro n hn
  cases row with
  | table a => exact .inl hn
  | joined prior a => exact .inr ((mem_keys_addPaths h [] [] n).mpr (.inl hn))
  | grouped prior names into => cases hn

theorem Row.locates_grouped (prior : Row) (names : List String) (into : Option String) :
    (Row.grouped prior names into).Locates := List.forall_mem_nil _

def Piece.Locates : Piece → Prop
  | value _ _ => True
  | function f => f.row.Locates

theorem locates_joinPieces {row : Row} (h : row.isChain = true) (i : Nat) (js : List (Join Expr)) :
    ∀ p ∈ joinPieces i row js, p.Locates := by
  induction js generalizing i row with
  | nil => exact List.forall_mem_nil _
  | cons j js ih =>
    obtain ⟨kind, name, source, on, p⟩ := j
    have hjoined : (row.joined name).isChain = true := h
    rw [joinPieces, List.cons_append]
    refine List.forall_mem_cons.mpr ⟨trivial, List.forall_mem_append.mpr ⟨?_, ih hjoined (i + 1)⟩⟩
    cases on with
    | none => exact List.forall_mem_nil _
    | some e =>
      rw [matchPieces]
      split
      · exact List.forall_mem_singleton.mpr (Row.locates_of_isChain h)
      · exact List.forall_mem_nil _

theorem locates_termPieces {row : Row} (h : row.Locates) (i : Nat) (ts : List (SortTerm Expr)) :
    ∀ p ∈ termPieces row i ts, p.Locates := by
  induction ts generalizing i with
  | nil => exact List.forall_mem_nil _
  | cons t ts ih => exact List.forall_mem_cons.mpr ⟨h, ih (i + 1)⟩

/-- The functions of a query stand on chains of joins and on groups. -/
theorem Query.locates_pieces (q : Query Expr) : ∀ p ∈ q.pieces, p.Locates := by
  have hjoined : q.joinedRow.Locates := Row.locates_of_isChain (Row.isChain_afterJoins ..)
  have hrow : q.row.Locates := by
    rw [Query.row]
    cases q.grouping with
    | none => exact hjoined
    | some g => exact Row.locates_grouped _ _ _
  rw [Query.pieces]
  simp only [List.forall_mem_cons, List.forall_mem_append]
  refine ⟨trivial, ⟨⟨⟨⟨locates_joinPieces rfl 0 _, ?_⟩, ?_⟩, ?_⟩, ?_⟩, ?_⟩
  · cases q.filter with
    | none => exact List.forall_mem_nil _
    | some f => exact List.forall_mem_singleton.mpr hjoined
  · obtain _ | ⟨cs, into, _ | having, p⟩ := q.grouping
    · exact List.forall_mem_nil _
    · exact List.forall_mem_singleton.mpr hjoined
    · exact List.forall_mem_cons.mpr ⟨hjoined,
        List.forall_mem_singleton.mpr (Row.locates_grouped _ _ _)⟩
  · cases q.sorting with
    | none => exact List.forall_mem_nil _
    | some s => exact locates_termPieces hrow 0 s.terms
  · rcases q.limit with _ | ⟨_ | offset, size, p⟩ <;> simp [limitPieces, Piece.Locates]
  · rcases q.projection with _ | ⟨_ | ⟨e, es⟩, p⟩
    · exact List.forall_mem_nil _
    · exact List.forall_mem_nil _
    · exact List.forall_mem_singleton.mpr hrow

/-! ## Names that are read -/

section

variable {c : Config} {n : String}

variable (c n) in
/-- Unless a query in the expression declares the name, it is read only where it is free. -/
def ReadsOnlyFree (e : Expr) : Prop :=
  (∀ q ∈ e.nested, n ∉ q.declared) → ∀ (place : Place) masked bound,
    .outer n ∈ e.readings c masked place bound → n ∈ e.free

theorem free_of_readsAll {es : List Expr} (h : ∀ e ∈ es, ReadsOnlyFree c n e)
    (hnested : ∀ q ∈ nestedAll es, n ∉ q.declared) {place : Place} {masked bound : List String}
    (hread : .outer n ∈ readingsAll c masked place bound es) : n ∈ freeAll es := by
  rw [readingsAll_eq_flatMap, List.mem_flatMap] at hread
  obtain ⟨e, he, hread⟩ := hread
  have hnested : ∀ q ∈ e.nested, n ∉ q.declared :=
    fun q hq => hnested q (mem_nestedAll.mpr ⟨e, he, hq⟩)
  exact mem_freeAll.mpr ⟨e, he, h e he hnested place masked bound hread⟩

theorem readingsFirst_subset (masked : List String) (place : Place) (bound : List String)
    (es : List Expr) :
    readingsFirst c masked place bound es ⊆ readingsAll c masked place bound es := by
  cases es with
  | nil => exact List.Subset.refl _
  | cons e es => exact List.subset_append_left ..

theorem written_subset (row : Row) (joined : Option String) :
    row.written none ⊆ row.written joined := by
  cases row with
  | table a => exact List.cons_subset_cons _ (List.nil_subset _)
  | _ => exact List.nil_subset _

theorem extraReadings_cases {f : RowFunction} {r : Reading} (h : r ∈ f.extraReadings c) :
    ∃ m, r = .outer m ∧ (m = c.table ∨ m ∈ f.row.written f.joined) := by
  rw [RowFunction.extraReadings] at h
  cases hrecord : f.record with
  | none =>
    rw [hrecord] at h
    cases h
  | some keeps =>
    rw [hrecord] at h
    obtain ⟨m, hm, rfl⟩ := List.mem_map.mp h
    refine ⟨m, rfl, (List.mem_cons.mp hm).imp_right fun hm => ?_⟩
    cases keeps with
    | true => exact written_subset f.row f.joined hm
    | false => cases hm

/-- The readings of the body of a function. -/
def RowFunction.bodyReadings (c : Config) (masked : List String) (f : RowFunction) : List Reading :=
  (f.exprs.flatMap fun p =>
    p.2.readings c (f.row.masks c masked f.joined (f.exprs.map (·.2))) f.place []) ++
      f.extraReadings c

variable {q : Query Expr} {masked : List String}

/-- What the body reads and the function has no parameter for is free in the expressions. -/
theorem free_of_bodyReadings (hn : n ≠ c.table) {f : RowFunction}
    (h : ∀ e ∈ (Piece.function f).exprs, ReadsOnlyFree c n e)
    (hnested : ∀ q ∈ nestedAll (Piece.function f).exprs, n ∉ q.declared)
    (hread : .outer n ∈ f.bodyReadings c masked) (hparams : n ∉ f.row.written f.joined) :
    n ∈ freeAll (Piece.function f).exprs := by
  rcases List.mem_append.mp hread with hread | hread
  · have hall : .outer n ∈ readingsAll c (f.row.masks c masked f.joined (f.exprs.map (·.2)))
        f.place [] (Piece.function f).exprs := by
      rwa [readingsAll_eq_flatMap, Piece.exprs, List.flatMap_map]
    exact free_of_readsAll h hnested hall
  · obtain ⟨m, hm, hcase⟩ := extraReadings_cases hread
    cases hm
    exact absurd hcase (not_or.mpr ⟨hn, hparams⟩)

theorem free_of_pieceReadings (hn : n ≠ c.table) {p : Piece} (hp : p ∈ q.pieces)
    (h : ∀ e ∈ p.exprs, ReadsOnlyFree c n e) (hnested : ∀ q' ∈ queryNested q, n ∉ q'.declared)
    (hread : .outer n ∈ p.readings c masked) : n ∈ freeAll p.exprs := by
  have hnested : ∀ q' ∈ nestedAll p.exprs, n ∉ q'.declared := by
    intro q' hq'
    refine hnested q' ?_
    rw [queryNested_eq]
    exact List.mem_flatMap.mpr ⟨p, hp, hq'⟩
  cases p with
  | value slot e =>
    have hall : .outer n ∈ readingsAll c masked ⟨none, .plain⟩ [] [e] :=
      List.mem_append_left _ hread
    exact free_of_readsAll h hnested hall
  | function f =>
    obtain ⟨hread, hnames⟩ := Reading.outer_mem_function.mp hread
    exact free_of_bodyReadings hn h hnested hread fun hmem =>
      hnames (List.mem_append_left _ hmem)

theorem free_of_queryReadings (hn : n ≠ c.table) (h : q.Each (ReadsOnlyFree c n))
    (hdeclared : n ∉ q.declared) (hnested : ∀ q' ∈ queryNested q, n ∉ q'.declared)
    (hread : .outer n ∈ queryReadings c masked q) : n ∈ queryFree q := by
  rw [queryReadings_eq, Reading.outer_mem_within, List.mem_flatMap] at hread
  obtain ⟨⟨p, hp, hread⟩, -⟩ := hread
  have hfree := free_of_pieceReadings hn hp (h.pieces p hp) hnested hread
  obtain ⟨e, he, hfree⟩ := mem_freeAll.mp hfree
  exact (each_free hdeclared).pieces p hp e he hfree

theorem free_of_outerReads (hn : n ≠ c.table) {place : Place} {bound : List String} {m : String}
    (h : n ∈ place.outerReads c bound m) : n = m := by
  rw [Place.outerReads] at h
  split at h
  · exact List.mem_singleton.mp h
  · split at h
    · cases h
    · split at h
      · exact List.mem_singleton.mp h
      · split at h
        · exact absurd (List.mem_singleton.mp h) hn
        · cases h

theorem readsOnlyFree_call {es : List Expr} (h : ∀ e ∈ es, ReadsOnlyFree c n e) (p : Position)
    (m : String) : ReadsOnlyFree c n (.sequence p (.call m) es) := by
  intro hnested place masked bound hread
  rw [Expr.readings] at hread
  have hfirst {place : Place} {masked bound : List String}
      (hread : .outer n ∈ readingsFirst c masked place bound es) : n ∈ freeAll es :=
    free_of_readsAll h hnested (readingsFirst_subset masked place bound es hread)
  cases hcase : place.callCase m es.length with
  | plain =>
    rw [hcase] at hread
    exact free_of_readsAll h hnested hread
  | allRows =>
    rw [hcase] at hread
    cases hread
  | eachRow prior =>
    rw [hcase] at hread
    exact hfirst (Reading.outer_mem_function.mp hread).1
  | rowsAtOnce =>
    rw [hcase] at hread
    exact hfirst hread

theorem readsOnlyFree (hn : n ≠ c.table) (e : Expr) : ReadsOnlyFree c n e := by
  induction e using Expr.written_induction with
  | literal | letIn | record | postIncrement | subquery =>
    intro _ _ _ _ hread
    cases hread
  | var p m =>
    intro _ place masked bound hread
    obtain ⟨k, hk, hread⟩ := List.mem_map.mp hread
    cases hread
    exact List.mem_singleton.mpr (free_of_outerReads hn hk)
  | unary p f e ih => exact ih
  | binary p f l r ihl ihr =>
    intro hnested place masked bound hread
    obtain ⟨hl, hr⟩ := List.forall_mem_append.mp hnested
    rw [Expr.readings] at hread
    exact List.mem_append.mpr ((List.mem_append.mp hread).imp (ihl hl place masked bound)
      (ihr hr place masked bound))
  | sequence p f es ih =>
    cases f with
    | call m => exact readsOnlyFree_call ih p m
    | list | tuple | construct =>
      exact fun hnested place masked bound hread => free_of_readsAll ih hnested hread
  | method p r m es ihr ih =>
    intro hnested place masked bound hread
    obtain ⟨hr, hes⟩ := List.forall_mem_append.mp hnested
    rw [Expr.readings] at hread
    exact List.mem_append.mpr ((List.mem_append.mp hread).imp (ihr hr place masked bound)
      (free_of_readsAll ih hes))
  | lambda p ps e ih =>
    intro hnested place masked bound hread
    obtain ⟨hread, hps⟩ := Reading.outer_mem_within.mp hread
    exact mem_unbound.mpr ⟨ih hnested place _ _ hread, hps⟩
  | query p q hq =>
    intro hnested place masked bound hread
    obtain ⟨hdeclared, hnested⟩ := List.forall_mem_cons.mp hnested
    rw [Expr.readings, Place.readings, List.mem_append] at hread
    rcases hread with hread | hread
    · split at hread
      · cases List.mem_singleton.mp hread
        exact absurd rfl hn
      · cases hread
    · exact free_of_queryReadings hn hq hdeclared hnested (Reading.outer_mem_within.mp hread).1

end

/-! ## Aliases that stray -/

/-- An alias of the query is not spelled like the name table, and no query inside declares it. -/
def Query.Keeps (c : Config) (n : String) (q : Query Expr) : Prop :=
  n ∈ q.aliases → n ≠ c.table ∧ ∀ q' ∈ queryNested q, n ∉ q'.declared

section

variable {c : Config} {n : String}

variable (c n) in
/-- Where the queries in the expression keep the alias, it does not stray. -/
def NeverStrays (e : Expr) : Prop :=
  (∀ q ∈ e.nested, q.Keeps c n) → ∀ (place : Place) masked bound,
    .stray n ∉ e.readings c masked place bound

theorem not_stray_all {es : List Expr} (h : ∀ e ∈ es, NeverStrays c n e)
    (hnested : ∀ q ∈ nestedAll es, q.Keeps c n) (place : Place) (masked bound : List String) :
    .stray n ∉ readingsAll c masked place bound es := by
  rw [readingsAll_eq_flatMap, List.mem_flatMap]
  rintro ⟨e, he, hread⟩
  exact h e he (fun q hq => hnested q (mem_nestedAll.mpr ⟨e, he, hq⟩)) place masked bound hread

theorem not_stray_piece {q : Query Expr} {masked : List String} {p : Piece} (hp : p ∈ q.pieces)
    (h : ∀ e ∈ p.exprs, NeverStrays c n e) (hq : q.Keeps c n)
    (hnested : ∀ q' ∈ queryNested q, q'.Keeps c n) : .stray n ∉ p.readings c masked := by
  have hinside {q' : Query Expr} (hq' : q' ∈ nestedAll p.exprs) : q' ∈ queryNested q := by
    rw [queryNested_eq]
    exact List.mem_flatMap.mpr ⟨p, hp, hq'⟩
  have hall (place : Place) (masked : List String) :
      .stray n ∉ readingsAll c masked place [] p.exprs :=
    not_stray_all h (fun q' hq' => hnested q' (hinside hq')) place masked []
  cases p with
  | value slot e =>
    exact fun hread => hall ⟨none, .plain⟩ masked (List.mem_append_left _ hread)
  | function f =>
    intro hread
    rcases Reading.stray_mem_function.mp hread with hread | ⟨hchain, hnames, -, hread⟩
    · rcases List.mem_append.mp hread with hread | hread
      · refine hall f.place (f.row.masks c masked f.joined (f.exprs.map (·.2))) ?_
        rwa [readingsAll_eq_flatMap, Piece.exprs, List.flatMap_map]
      · obtain ⟨m, hm, -⟩ := extraReadings_cases hread
        cases hm
    · -- The function binds an alias of its chain that is free in its expressions.
      rw [List.mem_append, not_or] at hnames
      obtain ⟨hparams, hlocated⟩ := hnames
      have halias : n ∈ q.aliases :=
        q.rowNames_pieces _ hp n (List.mem_append_left _ (chain_subset_aliases f.row n hchain))
      obtain ⟨hn, hdeclared⟩ := hq halias
      have hfree : n ∈ freeAll (f.exprs.map (·.2)) :=
        free_of_bodyReadings hn (fun e _ => readsOnlyFree hn e)
          (fun q' hq' => hdeclared q' (hinside hq')) hread hparams
      rcases q.locates_pieces _ hp n hchain with hwritten | hkey
      · exact hparams (written_subset f.row f.joined hwritten)
      · rw [located_eq, List.mem_filter, decide_eq_true_eq] at hlocated
        exact hlocated ⟨hkey, hfree⟩

theorem not_stray_query {q : Query Expr} {masked : List String} (h : q.Each (NeverStrays c n))
    (hq : q.Keeps c n) (hnested : ∀ q' ∈ queryNested q, q'.Keeps c n) :
    .stray n ∉ queryReadings c masked q := by
  rw [queryReadings_eq, Reading.stray_mem_within, List.mem_flatMap]
  rintro ⟨p, hp, hread⟩
  exact not_stray_piece hp (h.pieces p hp) hq hnested hread

theorem neverStrays_call {es : List Expr} (h : ∀ e ∈ es, NeverStrays c n e) (p : Position)
    (m : String) : NeverStrays c n (.sequence p (.call m) es) := by
  intro hnested place masked bound
  have hall := not_stray_all h hnested
  rw [Expr.readings]
  cases place.callCase m es.length with
  | plain => exact hall place masked bound
  | allRows => exact List.not_mem_nil
  | eachRow prior =>
    intro hread
    rcases Reading.stray_mem_function.mp hread with hread | ⟨hchain, -⟩
    · exact hall _ _ _ (readingsFirst_subset _ _ _ _ hread)
    · cases hchain
  | rowsAtOnce => exact fun hread => hall _ _ _ (readingsFirst_subset _ _ _ _ hread)

theorem neverStrays (e : Expr) : NeverStrays c n e := by
  induction e using Expr.written_induction with
  | literal | letIn | record | postIncrement | subquery =>
    exact fun _ _ _ _ => List.not_mem_nil
  | var p m =>
    intro _ place masked bound hread
    obtain ⟨k, -, hread⟩ := List.mem_map.mp hread
    cases hread
  | unary p f e ih => exact ih
  | binary p f l r ihl ihr =>
    intro hnested place masked bound
    obtain ⟨hl, hr⟩ := List.forall_mem_append.mp hnested
    rw [Expr.readings, List.mem_append, not_or]
    exact ⟨ihl hl place masked bound, ihr hr place masked bound⟩
  | sequence p f es ih =>
    cases f with
    | call m => exact neverStrays_call ih p m
    | list | tuple | construct => exact not_stray_all ih
  | method p r m es ihr ih =>
    intro hnested place masked bound
    obtain ⟨hr, hes⟩ := List.forall_mem_append.mp hnested
    rw [Expr.readings, List.mem_append, not_or]
    exact ⟨ihr hr place masked bound, not_stray_all ih hes place masked bound⟩
  | lambda p ps e ih =>
    intro hnested place masked bound hread
    exact ih hnested place _ _ (Reading.stray_mem_within.mp hread)
  | query p q hq =>
    intro hnested place masked bound
    obtain ⟨hkeeps, hnested⟩ := List.forall_mem_cons.mp hnested
    rw [Expr.readings, Place.readings, List.mem_append, Reading.stray_mem_within, not_or]
    refine ⟨?_, not_stray_query hq hkeeps hnested⟩
    split <;> simp

end

theorem not_dangles_of_keeps {q : Query Expr} {c : Config} {t : Thunk} (h : q.lower c = .ok t)
    {a : String} (ha : ∀ q' ∈ q :: queryNested q, q'.Keeps c a) : ¬t.Dangles a := by
  obtain ⟨hq, hnested⟩ := List.forall_mem_cons.mp ha
  obtain ⟨ctx, hctx⟩ := Query.lower_ok h
  rw [(Lowered.ofLower hctx).dangles_iff, mem_strays]
  exact not_stray_query (q.each_of_forall neverStrays) hq hnested

/-- Nothing dangles where no query has an alias that is spelled like the name table, or that a query
inside declares again. -/
theorem nothing_dangles {q : Query Expr} {c : Config} {t : Thunk} (h : q.lower c = .ok t)
    (htable : ∀ q' ∈ q :: queryNested q, c.table ∉ q'.aliases)
    (hdeclared : ∀ q' ∈ q :: queryNested q, ∀ a ∈ q'.aliases, ∀ q'' ∈ queryNested q',
      a ∉ q''.declared) (a : String) : ¬t.Dangles a :=
  not_dangles_of_keeps h fun q' hq' ha =>
    ⟨fun heq => htable q' hq' (heq ▸ ha), hdeclared q' hq' a ha⟩

end Comprehension
