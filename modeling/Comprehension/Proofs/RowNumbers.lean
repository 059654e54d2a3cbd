import Comprehension.Proofs.GroupNames
import Comprehension.Proofs.RowCounters

/-!
Row numbers. Among the selected values of a query an occurrence of the row number increments the
counter that the thunk declares, in the arguments of aggregates too. A nested query counts its own
rows in its own `select`. What its other clauses have of the row number is left there, unless the
group around it has something under the name: the function of the selected values reads the row number
from outside just if some nested query is left to read it.
-/

namespace Comprehension

/-- What becomes of the row number where it occurs among selected values. -/
inductive Tally where
  /-- A counter is incremented. -/
  | counted (pos : Position)
  /-- The nested query reads it from the group. -/
  | attached (pos : Position)
  /-- The nested query reads it from outside. -/
  | left (pos : Position)
  deriving DecidableEq, Repr

mutual
/-- What becomes of the row number in an expression that stands where rows are counted. Parameters
that go by its name hide it. -/
def Expr.tallies (c : Config) (place : Place) : Expr → List Tally
  | .literal _ _ => []
  | .var p n => if n = c.rowNumber then [.counted p] else []
  | .unary _ _ e => e.tallies c place
  | .binary _ _ l r => l.tallies c place ++ r.tallies c place
  | .sequence _ (.call n) es =>
    match place.callCase n es.length with
    | .plain => talliesAll c place es
    | .allRows => []
    | .eachRow prior => talliesFirst c ⟨some prior, place.numbering⟩ es
    | .rowsAtOnce => talliesFirst c place es
  | .sequence _ _ es => talliesAll c place es
  | .method _ r _ es => r.tallies c place ++ talliesAll c place es
  | .lambda _ ⟨ps, e⟩ => if c.rowNumber ∈ ps then [] else e.tallies c place
  | .query p q =>
    if .outer c.rowNumber ∈ queryReadings c [] q then
      [if c.rowNumber ∈ place.groupNames c [] (queryFree q) then .attached p else .left p]
    else []
  | .letIn _ _ _ | .record _ _ _ _ _ | .postIncrement _ _ | .subquery _ _ => []

def talliesAll (c : Config) (place : Place) : List Expr → List Tally
  | [] => []
  | e :: es => e.tallies c place ++ talliesAll c place es

def talliesFirst (c : Config) (place : Place) : List Expr → List Tally
  | [] => []
  | e :: _ => e.tallies c place
end

theorem mem_talliesAll {c : Config} {place : Place} {es : List Expr} {t : Tally} :
    t ∈ talliesAll c place es ↔ ∃ e ∈ es, t ∈ e.tallies c place := by
  induction es with
  | nil => simp [talliesAll]
  | cons e es ih => simp [talliesAll, ih]

/-- Some nested query is left to read the row number from outside. -/
def AnyUncounted (ts : List Tally) : Prop := ∃ p, .left p ∈ ts

@[simp] theorem not_anyUncounted_nil : ¬AnyUncounted [] := by
  simp [AnyUncounted]

@[simp] theorem anyUncounted_append {ts ts' : List Tally} :
    AnyUncounted (ts ++ ts') ↔ AnyUncounted ts ∨ AnyUncounted ts' := by
  simp [AnyUncounted, exists_or]

theorem anyUncounted_talliesAll {c : Config} {place : Place} {es : List Expr} :
    AnyUncounted (talliesAll c place es) ↔ ∃ e ∈ es, AnyUncounted (e.tallies c place) := by
  simp only [AnyUncounted, mem_talliesAll]
  constructor
  · rintro ⟨p, e, he, hp⟩
    exact ⟨e, he, p, hp⟩
  · rintro ⟨e, he, p, hp⟩
    exact ⟨p, e, he, hp⟩

/-! ## Places where rows are counted -/

/-- The place counts rows, and no alias of its row goes by the row number. -/
structure Place.Counts (c : Config) (place : Place) : Prop where
  numbering : place.numbering = .counted
  aliases : ∀ row ∈ place.row, c.rowNumber ∉ row.aliases

/-- Rows are counted in the arguments of aggregates too. -/
theorem Place.Counts.prior {c : Config} {place : Place} (h : place.Counts c) {prior : Row}
    {names : List String} {into : Option String}
    (hrow : place.row = some (.grouped prior names into)) :
    Place.Counts c ⟨some prior, place.numbering⟩ := by
  refine ⟨h.numbering, fun row hmem => ?_⟩
  obtain rfl : prior = row := Option.some.inj hmem
  exact h.aliases (.grouped prior names into) hrow

/-- The names that a function of a row binds are aliases, made-up names apart. -/
theorem Row.names_not_mem {row : Row} {joined : Option String} {n : String} (h : n ∉ row.aliases)
    (hjoined : n ∉ joined.toList) (es : List Expr) :
    n ∉ row.written joined ++ row.located es := by
  refine List.not_mem_append ?_ fun hmem => h ?_
  · cases row with
    | table a =>
      have ha : n ≠ a := fun heq => h (List.mem_singleton.mpr heq)
      exact List.not_mem_cons_of_ne_of_not_mem ha hjoined
    | _ => exact hjoined
  · have hnamed : named (row.bindings "" es) n = true := by
      rw [named, Option.isSome_iff_ne_none, ne_eq, valueOf?_eq_none, not_not]
      exact hmem
    exact named_bindings hnamed

section

variable {s : Naming} (hn : ∀ node, s.name node ≠ s.config.rowNumber)
  (hmadeUp : ∀ node, s.name node ≠ s.config.table) (htable : s.config.rowNumber ≠ s.config.table)

variable (s) in
/-- Wherever rows are counted, the expression reads the row number from outside just if it is left.
-/
def ReadsIfUncounted (e : Expr) : Prop :=
  ∀ (place : Place) masked bound, place.Counts s.config → s.config.rowNumber ∉ bound →
    (.outer s.config.rowNumber ∈ e.readings s.config masked place bound ↔
      AnyUncounted (e.tallies s.config place))

theorem readsIfUncounted_all {es : List Expr} (h : ∀ e ∈ es, ReadsIfUncounted s e) {place : Place}
    (hplace : place.Counts s.config) (masked : List String) {bound : List String}
    (hbound : s.config.rowNumber ∉ bound) :
    .outer s.config.rowNumber ∈ readingsAll s.config masked place bound es ↔
      AnyUncounted (talliesAll s.config place es) := by
  rw [readingsAll_eq_flatMap, List.mem_flatMap, anyUncounted_talliesAll]
  exact exists_congr fun e => and_congr_right fun he => h e he place masked bound hplace hbound

include htable in
theorem readsIfUncounted_var (p : Position) (m : String) : ReadsIfUncounted s (.var p m) := by
  intro place masked bound hplace hbound
  have hreads : s.config.rowNumber ∉ place.outerReads s.config bound m := by
    rw [Place.outerReads]
    split
    · rename_i hm
      rintro hmem
      obtain rfl := List.mem_singleton.mp hmem
      exact hm.elim hbound htable
    · split
      · exact List.not_mem_nil
      · rename_i hcounted
        have hne : s.config.rowNumber ≠ m := fun heq => hcounted ⟨heq.symm, hplace.numbering⟩
        split
        · simp [hne]
        · split <;> simp [htable]
  rw [Expr.readings, Expr.tallies]
  refine iff_of_false (by simpa using hreads) ?_
  split <;> simp [AnyUncounted]

include hn hmadeUp htable in
theorem readsIfUncounted_query (p : Position) (q : Query Expr) :
    ReadsIfUncounted s (.query p q) := by
  intro place masked bound hplace hbound
  have hreads (masked : List String) :
      .outer s.config.rowNumber ∈ queryReadings s.config masked q ↔
        .outer s.config.rowNumber ∈ queryReadings s.config [] q :=
    (outer_mem_queryReadings hn hmadeUp q [] masked).trans
      (outer_mem_queryReadings hn hmadeUp q [] []).symm
  have hnames : s.config.rowNumber ∈ place.groupNames s.config bound (queryFree q) ↔
      s.config.rowNumber ∈ place.groupNames s.config [] (queryFree q) := by
    simp [Place.groupNames, hbound]
  have htableName : Reading.outer s.config.rowNumber ∉
      if s.config.group ∈ place.groupNames s.config bound (queryFree q) then
        [Reading.outer s.config.table] else [] := by
    split <;> simp [htable]
  rw [Expr.readings, Place.readings, List.mem_append, or_iff_right htableName,
    Reading.outer_mem_within, hreads, hnames, Expr.tallies]
  by_cases hread : .outer s.config.rowNumber ∈ queryReadings s.config [] q
  · rw [if_pos hread]
    split <;> simp_all [AnyUncounted]
  · simp [hread]

include hn hmadeUp htable in
theorem readsIfUncounted (e : Expr) : ReadsIfUncounted s e := by
  induction e using Expr.written_induction with
  | literal | letIn | record | postIncrement | subquery =>
    intro place masked bound hplace hbound
    simp [Expr.readings, Expr.tallies]
  | var p m => exact readsIfUncounted_var htable p m
  | unary p f e ih => exact ih
  | binary p f l r ihl ihr =>
    intro place masked bound hplace hbound
    rw [Expr.readings, List.mem_append, Expr.tallies, anyUncounted_append,
      ihl place masked bound hplace hbound, ihr place masked bound hplace hbound]
  | sequence p f es ih =>
    intro place masked bound hplace hbound
    have hes := readsIfUncounted_all ih hplace masked hbound
    cases f with
    | call m =>
      have hform := callForm s place "" [] bound false p m es
      rw [Expr.readings, Expr.tallies]
      generalize (Expr.sequence p (.call m) es).image s place "" [] bound false = e at hform
      generalize (Expr.sequence p (.call m) es).demands s.config place [] bound = ds at hform
      cases hform with
      | plain ds es h hcase =>
        rw [hcase]
        exact hes
      | allRows es prior names into h hcase =>
        rw [hcase]
        exact iff_of_false List.not_mem_nil not_anyUncounted_nil
      | eachRow ds arg rest prior names into h hds hcase =>
        have hprior := hplace.prior h
        have hnames : s.config.rowNumber ∉ prior.written none ++ prior.located [arg] :=
          Row.names_not_mem (hprior.aliases prior rfl) List.not_mem_nil [arg]
        rw [List.length_cons, hcase]
        exact (Reading.outer_mem_function.trans (and_iff_left hnames)).trans
          (ih arg List.mem_cons_self _ _ [] hprior List.not_mem_nil)
      | rowsAtOnce arg rest prior names into h hcase =>
        rw [List.length_cons, hcase]
        exact ih arg List.mem_cons_self place masked bound hplace hbound
    | list | tuple | construct => exact hes
  | method p r m es ihr ih =>
    intro place masked bound hplace hbound
    rw [Expr.readings, List.mem_append, Expr.tallies, anyUncounted_append,
      ihr place masked bound hplace hbound, readsIfUncounted_all ih hplace masked hbound]
  | lambda p ps e ih =>
    intro place masked bound hplace hbound
    rw [Expr.readings, Reading.outer_mem_within, Expr.tallies]
    by_cases hps : s.config.rowNumber ∈ ps
    · simp [hps]
    · have hinner : s.config.rowNumber ∉ ps ++ bound := List.not_mem_append hps hbound
      rw [if_neg hps, ih place (unbound ps masked) (ps ++ bound) hplace hinner]
      exact and_iff_left hps
  | query p q hq => exact readsIfUncounted_query hn hmadeUp htable p q

end

/-! ## Counted occurrences -/

section

variable {s : Naming} (htable : s.config.rowNumber ≠ s.config.table)

variable (s) in
/-- Wherever rows are counted, a counted occurrence becomes an increment of the counter. -/
def IncrementsCounted (e : Expr) : Prop :=
  ∀ (place : Place) param path bound searched, place.numbering = .counted →
    s.config.rowNumber ∉ bound → ∀ p, .counted p ∈ e.tallies s.config place →
      (p, s.config.counter) ∈ (e.image s place param path bound searched).increments

theorem incrementsCounted_all {es : List Expr} (h : ∀ e ∈ es, IncrementsCounted s e)
    {place : Place} (hplace : place.numbering = .counted) {bound : List String}
    (hbound : s.config.rowNumber ∉ bound) (param : String) (path : Path) (step : Nat → Step)
    (i : Nat) {p : Position} (hp : .counted p ∈ talliesAll s.config place es) :
    (p, s.config.counter) ∈
      (imageAll s place param path bound step i es).flatMap Expr.increments := by
  induction es generalizing i with
  | nil => cases hp
  | cons e es ih =>
    obtain ⟨he, hes⟩ := List.forall_mem_cons.mp h
    rw [imageAll, List.flatMap_cons]
    rcases List.mem_append.mp hp with hp | hp
    · exact List.mem_append_left _ (he place _ _ bound false hplace hbound p hp)
    · exact List.mem_append_right _ (ih hes (i + 1) hp)

theorem incrementsCounted_call {es : List Expr} (h : ∀ e ∈ es, IncrementsCounted s e)
    (q : Position) (m : String) : IncrementsCounted s (.sequence q (.call m) es) := by
  intro place param path bound searched hplace hbound p hp
  have hform := callForm s place param path bound searched q m es
  rw [Expr.tallies] at hp
  generalize (Expr.sequence q (.call m) es).image s place param path bound searched = e
    at hform ⊢
  generalize (Expr.sequence q (.call m) es).demands s.config place path bound = ds at hform
  cases hform with
  | plain ds es _ hcase =>
    rw [hcase] at hp
    rw [Expr.increments_sequence]
    exact incrementsCounted_all h hplace hbound param path .part 0 hp
  | allRows es prior names into _ hcase =>
    rw [hcase] at hp
    cases hp
  | eachRow ds arg rest prior names into _ _ hcase =>
    rw [List.length_cons, hcase] at hp
    rw [Expr.increments_method, List.flatMap_singleton]
    refine List.mem_append_right _ ((increments_bind (increments_bindings prior _ _)).mpr ?_)
    exact h arg List.mem_cons_self ⟨some prior, place.numbering⟩ _ _ [] false hplace
      List.not_mem_nil p hp
  | rowsAtOnce arg rest prior names into _ hcase =>
    rw [List.length_cons, hcase] at hp
    rw [Expr.increments_method, List.flatMap_singleton]
    exact List.mem_append_right _ (h arg List.mem_cons_self place _ _ bound false hplace hbound p hp)

include htable in
theorem incrementsCounted (e : Expr) : IncrementsCounted s e := by
  induction e using Expr.written_induction with
  | literal | letIn | record | postIncrement | subquery =>
    intro place param path bound searched hplace hbound p hp
    simp [Expr.tallies] at hp
  | var q m =>
    intro place param path bound searched hplace hbound p hp
    rw [Expr.tallies] at hp
    split at hp
    · rename_i hm
      cases List.mem_singleton.mp hp
      have hfree : ¬(m ∈ bound ∨ m = s.config.table) := by
        rw [hm]
        exact not_or.mpr ⟨hbound, htable⟩
      rw [Expr.image, Place.varImage, if_neg hfree, if_pos ⟨hm, hplace⟩]
      exact List.mem_singleton_self _
    · cases hp
  | unary q f e ih =>
    intro place param path bound searched hplace hbound p hp
    exact ih place param _ bound false hplace hbound p hp
  | binary q f l r ihl ihr =>
    intro place param path bound searched hplace hbound p hp
    have hincrements (searched : Bool) : (p, s.config.counter) ∈
        (l.image s place param (.part 0 :: path) bound false).increments ++
          (r.image s place param (.part 1 :: path) bound searched).increments := by
      rw [Expr.tallies] at hp
      rcases List.mem_append.mp hp with hp | hp
      · exact List.mem_append_left _ (ihl place param _ bound false hplace hbound p hp)
      · exact List.mem_append_right _ (ihr place param _ bound searched hplace hbound p hp)
    cases f <;>
      (simp only [Expr.image, Expr.increments_binary]
       exact hincrements _)
  | sequence q f es ih =>
    cases f with
    | call m => exact incrementsCounted_call ih q m
    | list | tuple | construct =>
      intro place param path bound searched hplace hbound p hp
      have hes := incrementsCounted_all ih hplace hbound param path .part 0 hp
      rw [← Expr.increments_sequence q] at hes
      exact hes
  | method q r m es ihr ih =>
    intro place param path bound searched hplace hbound p hp
    rw [Expr.image, Expr.increments_method]
    rw [Expr.tallies] at hp
    rcases List.mem_append.mp hp with hp | hp
    · exact List.mem_append_left _ (ihr place param _ bound false hplace hbound p hp)
    · exact List.mem_append_right _ (incrementsCounted_all ih hplace hbound param path .part 1 hp)
  | lambda q ps e ih =>
    intro place param path bound searched hplace hbound p hp
    rw [Expr.tallies] at hp
    split at hp
    · cases hp
    · rename_i hps
      exact ih place param _ (ps ++ bound) false hplace (List.not_mem_append hps hbound) p hp
  | query q query hq =>
    intro place param path bound searched hplace hbound p hp
    rw [Expr.tallies] at hp
    split at hp
    · split at hp <;> cases List.mem_singleton.mp hp
    · cases hp

end

/-! ## Functions of the selected values -/

section

variable {s : Naming} {n : String}

/-- A function of a row reads from outside what its readings say. -/
theorem reads_lambda (hn : ∀ node, s.name node ≠ n) (htable : ∀ node, s.name node ≠ s.config.table)
    {f : RowFunction} (h : f.WellFormed) (path : Path) :
    (f.lambda s path).Reads n ↔ .outer n ∈ f.readings s.config [] := by
  have hagrees := agrees_rowFunction hn htable (f := f) (fun p _ => agreeing hn htable p.2) path []
  have hwalk : walkFunction f.row.chain (f.lambda s path).params (f.lambda s path).body.walk =
      f.walk s path := walk_closeOver s path f (f.walk_value s path h)
  rw [hagrees.outer, ← hwalk, shows_walkFunction, shows_under_outer, Binder.names]
  exact and_comm

variable (hn : ∀ node, s.name node ≠ s.config.rowNumber)
  (hmadeUp : ∀ node, s.name node ≠ s.config.table) (htable : s.config.rowNumber ≠ s.config.table)

include htable

/-- Besides its expressions the function of the selected values reads the name table and the row. -/
theorem rowNumber_not_mem_extraReadings {row : Row} (hrow : s.config.rowNumber ∉ row.aliases)
    (es : List Expr) :
    .outer s.config.rowNumber ∉ (selectFunction row es).extraReadings s.config := by
  have hwritten : s.config.rowNumber ∉ row.written none :=
    fun hmem => Row.names_not_mem hrow List.not_mem_nil es (List.mem_append_left _ hmem)
  rw [RowFunction.extraReadings, selectFunction]
  cases wantsRecord es with
  | false => exact List.not_mem_nil
  | true => simp [recordReadings, htable, hwritten]

include hn hmadeUp

theorem reads_selectFunction {row : Row} (hrow : s.config.rowNumber ∉ row.aliases) (es : List Expr)
    (path : Path) :
    ((selectFunction row es).lambda s path).Reads s.config.rowNumber ↔
      AnyUncounted (talliesAll s.config ⟨some row, .counted⟩ es) := by
  have hplace : Place.Counts s.config ⟨some row, .counted⟩ :=
    ⟨rfl, fun row' hrow' => Option.some.inj hrow' ▸ hrow⟩
  have hexprs : (selectFunction row es).exprs.map (·.2) = es := numbered_exprs ..
  have hnames : s.config.rowNumber ∉ row.written none ++ row.located es :=
    Row.names_not_mem hrow List.not_mem_nil es
  have hextras := rowNumber_not_mem_extraReadings htable hrow es
  have hreadings (masked : List String) :
      .outer s.config.rowNumber ∈ (selectFunction row es).exprs.flatMap (fun p =>
          p.2.readings s.config masked (selectFunction row es).place []) ↔
        AnyUncounted (talliesAll s.config ⟨some row, .counted⟩ es) := by
    rw [selectFunction, readings_numbered]
    exact readsIfUncounted_all (fun e _ => readsIfUncounted hn hmadeUp htable e) hplace masked
      List.not_mem_nil
  rw [reads_lambda hn hmadeUp (wellFormed_selectFunction row es), RowFunction.readings, hexprs]
  refine (Reading.outer_mem_function.trans (and_iff_left hnames)).trans ?_
  rw [List.mem_append, or_iff_left hextras, hreadings]

omit hn hmadeUp in
/-- The function of the selected values increments the counter for each counted occurrence. -/
theorem increments_selectFunction (row : Row) (es : List Expr) (path : Path) {p : Position}
    (hp : .counted p ∈ talliesAll s.config ⟨some row, .counted⟩ es) :
    (p, s.config.counter) ∈ ((selectFunction row es).lambda s path).body.increments := by
  obtain ⟨e, he, hp⟩ := mem_talliesAll.mp hp
  have hexprs : (selectFunction row es).exprs.map (·.2) = es := numbered_exprs ..
  rw [← hexprs] at he
  obtain ⟨slot, hslot, rfl⟩ := List.mem_map.mp he
  refine (increments_lambda s path (wellFormed_selectFunction row es) _).mpr ⟨slot, hslot, ?_⟩
  exact incrementsCounted htable slot.2 _ _ _ [] false rfl List.not_mem_nil p hp

end

/-! ## Accepted queries -/

/-- The function increments the counter for each counted occurrence. It reads the row number from
outside just if a nested query is left to; where paths are put in place, what is left may have been
replaced from outside. -/
structure Lambda.Numbers (f : Lambda Expr) (c : Config) (ts : List Tally) : Prop where
  counted : ∀ p, .counted p ∈ ts → .postIncrement p c.counter ∈ f.body.own
  left : f.Reads c.rowNumber → AnyUncounted ts
  read : c.inlinePaths = false → AnyUncounted ts → f.Reads c.rowNumber

section

variable {s : Naming} {ds : List Demand} {ns : List String} {q : Query Expr} {t : Thunk}

/-- The functions of the selected values in the thunk of a query. -/
theorem LoweredIn.projectors (h : LoweredIn s ds ns q t) :
    ∃ node σs, (∀ σ ∈ σs, s.config.inlinePaths = true ∧ Supplied s ns σ) ∧
      t.projectors = q.selection?.toList.map fun es =>
        ((selectFunction q.row es).lambda s node).substituteEach σs := by
  obtain ⟨node, σs, rfl, hσs, -⟩ := h
  refine ⟨node, σs, hσs, ?_⟩
  rw [Thunk.projectors_substituteEach, projectors_queryImage, Query.projector?]
  cases q.selection? <;> rfl

variable (hn : ∀ node, s.name node ≠ s.config.rowNumber)
  (hmadeUp : ∀ node, s.name node ≠ s.config.table) (htable : s.config.rowNumber ≠ s.config.table)
  {σs : List (List (Binding Expr))}
  (hσs : ∀ σ ∈ σs, s.config.inlinePaths = true ∧ Supplied s ns σ)

include hn hmadeUp htable hσs

theorem numbers_selectFunction {row : Row} (hrow : s.config.rowNumber ∉ row.aliases)
    (es : List Expr) (node : Path) :
    (((selectFunction row es).lambda s node).substituteEach σs).Numbers s.config
      (talliesAll s.config ⟨some row, .counted⟩ es) := by
  have hreads := reads_selectFunction hn hmadeUp htable hrow es node
  have hcountless : ∀ σ ∈ σs, Countless σ := fun σ hσ => (hσs σ hσ).2.countless
  refine ⟨fun p hp => ?_, fun hread => ?_, fun hmode hleft => ?_⟩
  · have hcounted := increments_selectFunction htable row es node hp
    have hkept := (Argument.increments_substituteEach hcountless (.lambda _) _).mpr hcounted
    rw [Argument.substituteEach_lambda] at hkept
    exact mem_increments.mp hkept
  · exact hreads.mp (Lambda.reads_of_substituteEach hn (fun σ hσ => (hσs σ hσ).2) hread)
  · rw [eq_nil_of_not_inlinePaths hσs hmode]
    exact hreads.mpr hleft

end

/-- In an accepted query and in the queries in it, the functions of the selected values count the
occurrences of the row number, and the thunk declares the counter. They read the row number from
outside just if a nested query, in another clause than its own `select`, is left to read it. -/
theorem rowNumber_counted {q : Query Expr} {c : Config} {t : Thunk} (h : q.lower c = .ok t)
    (hspelled : c.rowNumber ∈ querySpelled q) (htable : c.rowNumber ≠ c.table) :
    List.Forall₂
      (fun q' t' =>
        c.rowNumber ∉ q'.aliases →
          List.Forall₂
            (fun es f =>
              let tallies := talliesAll c ⟨some q'.row, .counted⟩ es
              f.Numbers c tallies ∧
                ((∃ p, .counted p ∈ tallies) → .counter c.counter ∈ t'.declarations))
            q'.selection?.toList t'.projectors)
      (q :: queryNested q) (t :: t.thunks) := by
  obtain ⟨s, rfl, havoids, hnested⟩ := Query.lowered_nested h
  refine hnested.imp fun q' t' hlowered haliases => ?_
  obtain ⟨node, σs, hσs, hprojectors⟩ := hlowered.projectors
  have hrow : s.config.rowNumber ∉ q'.row.aliases := aliases_row q' ▸ haliases
  have hnumbers (es : List Expr) := numbers_selectFunction (madeUp_ne_spelled havoids hspelled)
    (madeUp_ne_table havoids) htable hσs hrow es node
  rw [hprojectors, List.forall₂_map_right_iff, List.forall₂_same]
  intro es hes tallies
  refine ⟨hnumbers es, ?_⟩
  rintro ⟨p, hp⟩
  have hincrement : (p, s.config.counter) ∈
      (((selectFunction q'.row es).lambda s node).substituteEach σs).body.increments :=
    mem_increments.mpr ((hnumbers es).counted p hp)
  exact hlowered.countsRows.counter_mem (hprojectors ▸ List.mem_map_of_mem hes)
    (List.ne_nil_of_mem hincrement)

/-- In `from x in xs groupby x.k select sum(x.v * _rn)` the row number is counted, although it stands
in the argument of an aggregate. -/
theorem rowNumber_counted_sum :
    let value := Expr.call "sum" [.binary .nowhere (.operator .mul) ((Expr.name "x").field "v")
      (.var ⟨1, 43⟩ "_rn")]
    ∃ t, (groupedSelect none value).lower .standard = .ok t ∧
      ∃ f ∈ t.projectors, ¬f.Reads "_rn" ∧ .postIncrement ⟨1, 43⟩ "__rowNumber" ∈ f.body.own ∧
        .counter "__rowNumber" ∈ t.declarations := by
  intro value
  let q := groupedSelect none value
  obtain ⟨t, h⟩ : ∃ t, q.lower .standard = .ok t := ⟨_, rfl⟩
  have htallies : talliesAll .standard ⟨some q.row, .counted⟩ [value] = [.counted ⟨1, 43⟩] := by
    decide
  have hqueries := rowNumber_counted h (by decide) (by decide)
  obtain ⟨hfunctions, -⟩ := List.forall₂_cons.mp hqueries
  obtain ⟨f, fs, ⟨hnumbers, hdeclared⟩, -, hfs⟩ :=
    List.forall₂_cons_left_iff.mp (hfunctions (by decide))
  rw [htallies] at hnumbers hdeclared
  have hcounted : Tally.counted ⟨1, 43⟩ ∈ [Tally.counted ⟨1, 43⟩] := List.mem_singleton_self _
  refine ⟨t, h, f, hfs ▸ List.mem_cons_self, fun hread => ?_, hnumbers.counted _ hcounted,
    hdeclared ⟨_, hcounted⟩⟩
  obtain ⟨p, hp⟩ := hnumbers.left hread
  cases List.mem_singleton.mp hp

/-- `from x in xs select (from y in ys where y.i == _rn select y)` is accepted, and what it becomes
reads `_rn` from outside: a nested query counts rows in its own `select` alone. -/
theorem rowNumber_unbound :
    let inner : Query Expr :=
      { table := ⟨"y", Expr.name "ys", .nowhere⟩, joins := [],
        filter := some ⟨.binary .nowhere (.operator .eq) ((Expr.name "y").field "i")
          (Expr.name "_rn"), .nowhere⟩,
        grouping := none, sorting := none, limit := none,
        projection := some ⟨[Expr.name "y"], .nowhere⟩, pos := .nowhere }
    let q : Query Expr :=
      { table := ⟨"x", Expr.name "xs", .nowhere⟩, joins := [], filter := none, grouping := none,
        sorting := none, limit := none, projection := some ⟨[.query .nowhere inner], .nowhere⟩,
        pos := .nowhere }
    (∃ t, q.lower .standard = .ok t ∧ ∃ f ∈ t.projectors, f.Reads "_rn") ∧
      ∃ t, q.lower .inlined = .ok t ∧ ∃ f ∈ t.projectors, f.Reads "_rn" := by
  let sc : Scope := [.declared "__metaDataMap", .lambda ["y"] ["y"]]
  have hreads : ¬sc.Binds "_rn" := by simp [sc, Binder.names]
  exact ⟨⟨_, rfl, _, List.mem_cons_self, by decide, sc, by decide, hreads⟩,
    ⟨_, rfl, _, List.mem_cons_self, by decide, sc, by decide, hreads⟩⟩

end Comprehension
