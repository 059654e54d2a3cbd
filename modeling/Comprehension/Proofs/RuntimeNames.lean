import Comprehension.Proofs.Accesses
import Comprehension.Proofs.RowNumbers

/-!
The names that a thunk declares. Nothing keeps the name table and the counter from having one name, or
the parameters and locals of a query from having theirs. A query is clear if neither happens around a
record or a counted row number. The thunks of clear queries, and of no others, declare distinct names
that all uses reach.
-/

namespace Comprehension

/-! ## Counted rows -/

/-- The names that a function of the row binds, made-up names apart. Where paths are put in their
place there are no locals. -/
def Row.binders (c : Config) (r : Row) (joined : Option String) (es : List Expr) : List String :=
  r.written joined ++ if c.inlinePaths then [] else r.located es

mutual
/-- The names that are bound around each row number that is counted, made-up names apart. Nested
queries count their own rows. -/
def Expr.countings (c : Config) (place : Place) (bound : List String) : Expr → List (List String)
  | .literal _ _ => []
  | .var _ n =>
    if n ∈ bound ∨ n = c.table then []
    else if n = c.rowNumber ∧ place.numbering = .counted then [[]]
    else []
  | .unary _ _ e => e.countings c place bound
  | .binary _ _ l r => l.countings c place bound ++ r.countings c place bound
  | .sequence _ (.call n) es =>
    match place.callCase n es.length with
    | .plain => countingsAll c place bound es
    | .allRows => []
    | .eachRow prior =>
      (countingsFirst c ⟨some prior, place.numbering⟩ [] es).map
        (prior.binders c none (es.take 1) ++ ·)
    | .rowsAtOnce => countingsFirst c place bound es
  | .sequence _ _ es => countingsAll c place bound es
  | .method _ r _ es => r.countings c place bound ++ countingsAll c place bound es
  | .lambda _ ⟨ps, e⟩ => (e.countings c place (ps ++ bound)).map (ps ++ ·)
  | .query _ _ => []
  | .letIn _ _ _ | .record _ _ _ _ _ | .postIncrement _ _ | .subquery _ _ => []

def countingsAll (c : Config) (place : Place) (bound : List String) :
    List Expr → List (List String)
  | [] => []
  | e :: es => e.countings c place bound ++ countingsAll c place bound es

def countingsFirst (c : Config) (place : Place) (bound : List String) :
    List Expr → List (List String)
  | [] => []
  | e :: _ => e.countings c place bound
end

/-- The use is an increment of the counter. Its name is bound around it just if it is among the
names. -/
structure Access.Counts (c : Config) (a : Access) (names : List String) : Prop where
  target : a.target = .counter c.counter
  under : c.counter ∈ a.under ↔ c.counter ∈ names

theorem Access.Counts.beneath {c : Config} {a : Access} {names ns ns' : List String}
    (h : a.Counts c names) (hns : c.counter ∈ ns ↔ c.counter ∈ ns') :
    (a.beneath ns).Counts c (ns' ++ names) where
  target := h.target
  under := by rw [Access.beneath, List.mem_append, List.mem_append, hns, h.under]

theorem Access.Counts.substitute {c : Config} {a : Access} {names : List String}
    (h : a.Counts c names) (σ : List (Binding Expr)) : a.substitute σ = a := by
  obtain ⟨under, target⟩ := a
  obtain rfl : target = .counter c.counter := h.target
  rfl

theorem Access.Counts.addresses {c : Config} {a : Access} {names : List String}
    (h : a.Counts c names) : a.Addresses c := by
  rw [Addresses, h.target]

theorem Access.Counts.reaches_iff {c : Config} {a : Access} {names : List String}
    (h : a.Counts c names) : a.Reaches c ↔ c.counter ∉ names := by
  rw [Reaches, and_iff_right h.addresses, sought, h.target, h.under]

/-- Increments of the counter, one to one with the counted row numbers. -/
def Counted (c : Config) (as : List Access) (ns : List (List String)) : Prop :=
  List.Forall₂ (Access.Counts c) as ns

theorem Counted.substitute {c : Config} {as : List Access} {ns : List (List String)}
    (h : Counted c as ns) (σ : List (Binding Expr)) : as.map (Access.substitute σ) = as := by
  induction h with
  | nil => rfl
  | cons ha _ ih => rw [List.map_cons, ha.substitute, ih]

theorem Counted.addresses {c : Config} {as : List Access} {ns : List (List String)}
    (h : Counted c as ns) : ∀ a ∈ as, a.Addresses c := by
  induction h with
  | nil => exact List.forall_mem_nil _
  | cons ha _ ih => exact List.forall_mem_cons.mpr ⟨ha.addresses, ih⟩

theorem Counted.reaches_iff {c : Config} {as : List Access} {ns : List (List String)}
    (h : Counted c as ns) (names : List String) :
    (∀ a ∈ as, (a.beneath names).Reaches c) ↔ ∀ n ∈ ns, c.counter ∉ names ++ n := by
  induction h with
  | nil => simp
  | cons ha _ ih =>
    rw [List.forall_mem_cons, List.forall_mem_cons, ih, (ha.beneath Iff.rfl).reaches_iff]

section

variable (s : Naming)

/-- Around what a function of a row uses stand its parameters and its locals. -/
theorem accesses_closeOver (row : Row) (joined : Option String) (node : Path) (es : List Expr)
    {body : Expr} (h : s.config.inlinePaths = true →
      body.accesses.map (Access.substitute (row.bindings (row.parameter s.name node) es)) =
        body.accesses) :
    (Argument.lambda (row.closeOver s.config (row.parameter s.name node :: joined.toList)
      (row.parameter s.name node) es body)).accesses =
      body.accesses.map (.beneath (row.parameter s.name node :: joined.toList ++
        if s.config.inlinePaths then [] else row.located es)) := by
  have hinert : Inert (row.bindings (row.parameter s.name node) es) := by
    intro b hb
    simp only [Row.bindings, List.mem_map] at hb
    obtain ⟨p, -, rfl⟩ := hb
    exact accesses_of_isPath (p.2.read_isPath rfl)
  rw [Row.closeOver, Argument.accesses, accesses_bind hinert h, Access.map_beneath_beneath,
    Row.names_bindings]

variable {s}

theorem mem_binders {n : String} (hn : ∀ node, s.name node ≠ n) (row : Row) (joined : Option String)
    (node : Path) (es : List Expr) :
    (n ∈ row.parameter s.name node :: joined.toList ++
        if s.config.inlinePaths then [] else row.located es) ↔
      n ∈ row.binders s.config joined es := by
  rw [Row.binders, List.mem_append, List.mem_append, mem_written hn]

variable (hcounter : ∀ node, s.name node ≠ s.config.counter)

variable (s) in
/-- Wherever the expression stands, its image increments the counter where a row is counted, and uses
nothing else. -/
def CountsAlike (e : Expr) : Prop :=
  ∀ (place : Place) param path bound searched,
    Counted s.config (e.image s place param path bound searched).accesses
      (e.countings s.config place bound)

theorem counted_imageAll {es : List Expr} (h : ∀ e ∈ es, CountsAlike s e) (place : Place)
    (param : String) (path : Path) (bound : List String) (step : Nat → Step) (i : Nat) :
    Counted s.config (accessesAll (imageAll s place param path bound step i es))
      (countingsAll s.config place bound es) := by
  induction es generalizing i with
  | nil => exact .nil
  | cons e es ih =>
    obtain ⟨he, hes⟩ := List.forall_mem_cons.mp h
    exact List.rel_append (he place param (step i :: path) bound false) (ih hes (i + 1))

theorem counted_varImage (place : Place) (param : String) (bound : List String) (p : Position)
    (n : String) :
    Counted s.config (place.varImage s.config param bound p n).accesses
      ((Expr.var p n).countings s.config place bound) := by
  rw [Place.varImage, Expr.countings]
  split
  · exact .nil
  · split
    · exact .cons ⟨rfl, Iff.rfl⟩ .nil
    · split
      · rename_i e hread
        have hnone : e.accesses = [] := by
          rcases Place.read?_cases hread with ⟨-, rfl⟩ | ⟨-, rfl | rfl⟩ <;> rfl
        rw [Expr.accesses_withPos, hnone]
        exact .nil
      · exact .nil

include hcounter

/-- A function of a row around an expression that counts. -/
theorem counted_closeOver (row : Row) (joined : Option String) (node : Path) (es : List Expr)
    {body : Expr} {ns : List (List String)} (h : Counted s.config body.accesses ns) :
    Counted s.config
      (Argument.lambda (row.closeOver s.config (row.parameter s.name node :: joined.toList)
        (row.parameter s.name node) es body)).accesses
      (ns.map (row.binders s.config joined es ++ ·)) := by
  rw [accesses_closeOver s row joined node es fun _ => h.substitute _, Counted,
    List.forall₂_map_left_iff, List.forall₂_map_right_iff]
  exact h.imp fun a n ha => ha.beneath (mem_binders hcounter row joined node es)

theorem counted_call {es : List Expr} (h : ∀ e ∈ es, CountsAlike s e) (p : Position) (n : String) :
    CountsAlike s (.sequence p (.call n) es) := by
  intro place param path bound searched
  have hform := callForm s place param path bound searched p n es
  rw [Expr.countings]
  generalize (Expr.sequence p (.call n) es).image s place param path bound searched = e
    at hform ⊢
  generalize (Expr.sequence p (.call n) es).demands s.config place path bound = ds at hform
  cases hform with
  | plain ds es _ hcase =>
    rw [hcase]
    exact counted_imageAll h place param path bound .part 0
  | allRows es prior names into _ hcase =>
    rw [hcase]
    exact .nil
  | eachRow ds arg rest prior names into _ _ hcase =>
    rw [List.length_cons, hcase]
    have harg := h arg List.mem_cons_self ⟨some prior, place.numbering⟩
      (prior.parameter s.name (.part 0 :: path)) (.part 0 :: path) [] false
    have hfunction := counted_closeOver hcounter prior none (.part 0 :: path) [arg] harg
    rw [← List.append_nil (Argument.accesses _)] at hfunction
    exact hfunction
  | rowsAtOnce arg rest prior names into _ hcase =>
    rw [List.length_cons, hcase]
    have harg := h arg List.mem_cons_self place param (.part 0 :: path) bound false
    rw [← List.append_nil (Expr.accesses _)] at harg
    exact harg

theorem countsAlike (e : Expr) : CountsAlike s e := by
  induction e using Expr.written_induction with
  | literal | letIn | record | postIncrement | subquery =>
    intro place param path bound searched
    exact .nil
  | var p n =>
    intro place param path bound searched
    exact counted_varImage place param bound p n
  | unary p f e ih =>
    intro place param path bound searched
    exact ih place param (.part 0 :: path) bound false
  | binary p f l r ihl ihr =>
    intro place param path bound searched
    have hl := ihl place param (.part 0 :: path) bound false
    have hr (searched : Bool) := ihr place param (.part 1 :: path) bound searched
    cases f <;> exact List.rel_append hl (hr _)
  | sequence p f es ih =>
    cases f with
    | call n => exact counted_call hcounter ih p n
    | list | tuple | construct =>
      intro place param path bound searched
      exact counted_imageAll ih place param path bound .part 0
  | method p r n es ihr ih =>
    intro place param path bound searched
    exact List.rel_append (ihr place param (.part 0 :: path) bound false)
      (counted_imageAll ih place param path bound .part 1)
  | lambda p ps e ih =>
    intro place param path bound searched
    rw [Expr.image, Expr.accesses, Expr.countings, Counted, List.forall₂_map_left_iff,
      List.forall₂_map_right_iff]
    exact (ih place param (.part 0 :: path) (ps ++ bound) false).imp
      fun a n ha => ha.beneath Iff.rfl
  | query p q hq =>
    -- A thunk uses its own declarations, and what is bound around it uses none.
    intro place param path bound searched
    have hnone : (if searched then (Expr.subquery p (queryImage s path q)).send "toList" []
        else .subquery p (queryImage s path q)).accesses = [] := by
      cases searched <;> rfl
    rw [Expr.image, accesses_attach hnone]
    exact .nil

end

/-! ## Functions of rows -/

/-- What the record looks up. -/
def RowFunction.lookups (c : Config) (f : RowFunction) : List Access :=
  match f.record with
  | some keeps =>
    [⟨[], .lookup ((if keeps then NameList.selected else .groups).access c.table)⟩,
      ⟨[], .lookup (NameList.aliases.access c.table)⟩]
  | none => []

/-- The names that the function binds, made-up names apart. -/
def RowFunction.binders (c : Config) (f : RowFunction) : List String :=
  f.row.binders c f.joined (f.exprs.map (·.2))

def RowFunction.countings (c : Config) (f : RowFunction) : List (List String) :=
  f.exprs.flatMap fun p => p.2.countings c f.place []

/-- Nothing around a record goes by the name of the table, nor by that of the counter around a row
number that is counted. -/
def Piece.Clear (c : Config) : Piece → Prop
  | value _ e => ∀ ns ∈ e.countings c ⟨none, .plain⟩ [], c.counter ∉ ns
  | function f =>
    (f.record.isSome → c.table ∉ f.binders c) ∧ ∀ ns ∈ f.countings c, c.counter ∉ f.binders c ++ ns

section

variable {s : Naming} (path : Path) {f : RowFunction}

theorem accesses_value (h : f.WellFormed) : (f.value s path).accesses =
    f.lookups s.config ++ f.exprs.flatMap fun p => (f.image s path p).accesses := by
  cases hrecord : f.record with
  | none =>
    obtain ⟨p, hp⟩ := h hrecord
    rw [RowFunction.value_of_single s path hrecord hp, RowFunction.lookups, hrecord, hp]
    simp
  | some keeps =>
    rw [RowFunction.value_of_record s path hrecord, NameList.record, accesses_recordOf,
      RowFunction.lookups, hrecord, List.flatMap_map]
    rfl

theorem reaches_lookup_iff (c : Config) (l : NameList) (names : List String) :
    (Access.beneath names ⟨[], .lookup (l.access c.table)⟩).Reaches c ↔ c.table ∉ names := by
  rw [Access.reaches_beneath]
  exact and_iff_right ⟨⟨l, rfl⟩, List.not_mem_nil⟩

theorem reaches_lookups_iff (c : Config) (f : RowFunction) (names : List String) :
    (∀ a ∈ f.lookups c, (a.beneath names).Reaches c) ↔ (f.record.isSome → c.table ∉ names) := by
  rw [RowFunction.lookups]
  cases f.record with
  | none => simp
  | some keeps => simp [reaches_lookup_iff]

theorem addresses_lookups (c : Config) (f : RowFunction) : ∀ a ∈ f.lookups c, a.Addresses c := by
  rw [RowFunction.lookups]
  cases f.record with
  | none => exact List.forall_mem_nil _
  | some keeps => exact List.forall_mem_cons.mpr ⟨⟨_, rfl⟩, List.forall_mem_singleton.mpr ⟨_, rfl⟩⟩

variable (hcounter : ∀ node, s.name node ≠ s.config.counter)

include hcounter

theorem counted_function (f : RowFunction) :
    Counted s.config (f.exprs.flatMap fun p => (f.image s path p).accesses)
      (f.countings s.config) := by
  rw [RowFunction.countings]
  induction f.exprs with
  | nil => exact .nil
  | cons p ps ih => exact List.rel_append (countsAlike hcounter p.2 _ _ _ [] false) ih

theorem addresses_value (h : f.WellFormed) :
    ∀ a ∈ (f.value s path).accesses, a.Addresses s.config := by
  rw [accesses_value path h]
  exact List.forall_mem_append.mpr
    ⟨addresses_lookups s.config f, (counted_function path hcounter f).addresses⟩

/-- What a function of a row uses stands under what the function binds. -/
theorem accesses_lambda (h : f.WellFormed)
    (hinline : s.config.inlinePaths = true → s.config.table ∉ f.row.located (f.exprs.map (·.2))) :
    (Argument.lambda (f.lambda s path)).accesses = (f.value s path).accesses.map
      (.beneath (f.param s path :: f.joined.toList ++
        if s.config.inlinePaths then [] else f.row.located (f.exprs.map (·.2)))) := by
  refine accesses_closeOver s f.row f.joined (.slot f.slot :: path) _ fun hmode => ?_
  refine map_substitute_of_addresses (addresses_value path hcounter h) ?_
  rw [Row.names_bindings]
  exact hinline hmode

theorem reaches_lambda_iff (htable : ∀ node, s.name node ≠ s.config.table) (h : f.WellFormed)
    (hinline : s.config.inlinePaths = true → s.config.table ∉ f.row.located (f.exprs.map (·.2))) :
    (∀ a ∈ (Argument.lambda (f.lambda s path)).accesses, a.Reaches s.config) ↔
      (Piece.function f).Clear s.config := by
  have hnames {n : String} (hn : ∀ node, s.name node ≠ n) :=
    mem_binders hn f.row f.joined (.slot f.slot :: path) (f.exprs.map (·.2))
  rw [accesses_lambda path hcounter h hinline, List.forall_mem_map, accesses_value path h,
    List.forall_mem_append, reaches_lookups_iff, (counted_function path hcounter f).reaches_iff]
  refine and_congr (imp_congr_right fun _ => not_congr (hnames htable)) ?_
  refine forall₂_congr fun ns _ => not_congr ?_
  exact List.mem_append.trans ((or_congr_left (hnames hcounter)).trans List.mem_append.symm)

end

/-! ## Queries -/

/-- The query declares names of their own, and each function leaves them in reach. -/
structure Query.Clear (c : Config) (q : Query Expr) : Prop where
  declared : countsRows c [] q = true → c.table ≠ c.counter
  pieces : ∀ p ∈ q.pieces, p.Clear c

section

variable {s : Naming} {q : Query Expr} (hcounter : ∀ node, s.name node ≠ s.config.counter)
  (htable : ∀ node, s.name node ≠ s.config.table)
  (hinline : s.config.inlinePaths = true → s.config.table ∉ querySpelled q)

include hinline in
/-- Where paths are put in place, none is put in the place of the table. -/
theorem table_not_located {f : RowFunction} (hf : Piece.function f ∈ q.pieces)
    (hmode : s.config.inlinePaths = true) :
    s.config.table ∉ f.row.located (f.exprs.map (·.2)) := by
  have hfree : ∀ n ∈ freeAll (f.exprs.map (·.2)), n ∈ querySpelled q := by
    intro n hn
    obtain ⟨e, he, hmem⟩ := mem_spelledAll.mp (freeAll_subset_spelled _ hn)
    exact (each_spelled q).pieces _ hf e he n hmem
  intro hmem
  obtain ⟨b, hb, hname⟩ := List.mem_map.mp hmem
  simp only [Row.bindings, List.mem_map, List.mem_filter, decide_eq_true_eq] at hb
  obtain ⟨p, ⟨-, hp⟩, rfl⟩ := hb
  exact hinline hmode (hname ▸ hfree _ hp)

include hcounter hinline

theorem addresses_piece {p : Piece} (hp : p ∈ q.pieces) (path : Path) :
    ∀ a ∈ (p.argument s path).accesses, a.Addresses s.config := by
  cases p with
  | value slot e => exact (countsAlike hcounter e _ _ _ [] false).addresses
  | function f =>
    have hf := Query.wellFormed_of_mem hp
    rw [Piece.argument, accesses_lambda path hcounter hf (table_not_located hinline hp)]
    exact List.forall_mem_map.mpr (addresses_value path hcounter hf)

include htable in
theorem reaches_piece_iff {p : Piece} (hp : p ∈ q.pieces) (path : Path) :
    (∀ a ∈ (p.argument s path).accesses, a.Reaches s.config) ↔ p.Clear s.config := by
  cases p with
  | value slot e =>
    exact (countsAlike hcounter e ⟨none, .plain⟩ "" (.slot slot :: path) [] false).reaches_iff []
  | function f =>
    exact reaches_lambda_iff path hcounter htable (Query.wellFormed_of_mem hp)
      (table_not_located hinline hp)

theorem addresses_queryImage (path : Path) : ∀ a ∈ (queryImage s path q).pipeline.arguments,
    ∀ x ∈ a.accesses, x.Addresses s.config := by
  intro a ha
  rcases arguments_queryImage s path q a ha with rfl | ⟨p, hp, rfl⟩
  · exact List.forall_mem_nil _
  · exact addresses_piece hcounter hinline hp path

include htable in
theorem clear_queryImage_iff (path : Path) :
    (queryImage s path q).Clear s.config ↔ q.Clear s.config := by
  have hdeclared : ((queryImage s path q).declarations.map Declaration.name).Nodup ↔
      (countsRows s.config [] q = true → s.config.table ≠ s.config.counter) := by
    rw [declarations_queryImage, countsRows_path s.config q path []]
    cases countsRows s.config [] q <;> simp [Declaration.name]
  constructor
  · rintro ⟨hnames, hreached⟩
    refine ⟨hdeclared.mp hnames, fun p hp => ?_⟩
    exact (reaches_piece_iff hcounter htable hinline hp path).mp
      (hreached _ (goInto_queryImage s path q p hp))
  · rintro ⟨hnames, hpieces⟩
    refine ⟨hdeclared.mpr hnames, fun a ha => ?_⟩
    rcases arguments_queryImage s path q a ha with rfl | ⟨p, hp, rfl⟩
    · exact List.forall_mem_nil _
    · exact (reaches_piece_iff hcounter htable hinline hp path).mpr (hpieces p hp)

end

/-! ### Names that are not spelled -/

section

variable {c : Config} {n : String}

/-- A function of a row binds no names but its aliases and made-up names. -/
theorem Row.not_mem_binders {row : Row} {joined : Option String} (hrow : n ∉ row.aliases)
    (hjoined : n ∉ joined.toList) (es : List Expr) : n ∉ row.binders c joined es := by
  have hlocated : n ∉ row.written none ++ row.located es := Row.names_not_mem hrow List.not_mem_nil es
  rw [List.mem_append, not_or] at hlocated
  refine List.not_mem_append ?_ ?_
  · cases row with
    | table a => exact List.not_mem_append hrow hjoined
    | _ => exact hjoined
  · split
    · exact List.not_mem_nil
    · exact hlocated.2

theorem RowFunction.not_mem_binders {f : RowFunction} (h : n ∉ (Piece.function f).rowNames) :
    n ∉ f.binders c := by
  obtain ⟨hrow, hjoined⟩ := not_or.mp fun hmem => h (List.mem_append.mpr hmem)
  exact Row.not_mem_binders hrow hjoined _

variable (c n) in
/-- The name is bound around no counted row number of the expression, which does not spell it. -/
def LeavesUnbound (e : Expr) : Prop :=
  n ∉ e.spelled → ∀ (place : Place) bound, (∀ row ∈ place.row, n ∉ row.aliases) →
    ∀ ns ∈ e.countings c place bound, n ∉ ns

theorem not_mem_countingsAll {es : List Expr} (h : ∀ e ∈ es, LeavesUnbound c n e)
    (hn : n ∉ spelledAll es) {place : Place} (hplace : ∀ row ∈ place.row, n ∉ row.aliases)
    (bound : List String) : ∀ ns ∈ countingsAll c place bound es, n ∉ ns := by
  induction es with
  | nil => exact List.forall_mem_nil _
  | cons e es ih =>
    obtain ⟨he, hes⟩ := List.forall_mem_cons.mp h
    rw [spelledAll, List.mem_append, not_or] at hn
    exact List.forall_mem_append.mpr ⟨he hn.1 place bound hplace, ih hes hn.2⟩

theorem leavesUnbound_call {es : List Expr} (h : ∀ e ∈ es, LeavesUnbound c n e) (p : Position)
    (m : String) : LeavesUnbound c n (.sequence p (.call m) es) := by
  intro hn place bound hplace
  have hform := callForm ⟨c, fun _ => ""⟩ place "" [] bound false p m es
  rw [Expr.countings]
  generalize (Expr.sequence p (.call m) es).image _ place "" [] bound false = e at hform
  generalize (Expr.sequence p (.call m) es).demands _ place [] bound = ds at hform
  cases hform with
  | plain ds es _ hcase =>
    rw [hcase]
    exact not_mem_countingsAll h hn hplace bound
  | allRows es prior names into _ hcase =>
    rw [hcase]
    exact List.forall_mem_nil _
  | eachRow ds arg rest prior names into hrow _ hcase =>
    rw [List.length_cons, hcase]
    obtain ⟨harg, -⟩ := not_or.mp fun h => hn (List.mem_append.mpr h)
    have hprior : n ∉ prior.aliases := hplace (.grouped prior names into) hrow
    refine List.forall_mem_map.mpr fun ns hns => ?_
    refine List.not_mem_append (Row.not_mem_binders hprior (by simp) [arg]) ?_
    exact h arg List.mem_cons_self harg ⟨some prior, place.numbering⟩ []
      (fun row h => Option.some.inj h ▸ hprior) ns hns
  | rowsAtOnce arg rest prior names into _ hcase =>
    rw [List.length_cons, hcase]
    obtain ⟨harg, -⟩ := not_or.mp fun h => hn (List.mem_append.mpr h)
    exact h arg List.mem_cons_self harg place bound hplace

theorem leavesUnbound (e : Expr) : LeavesUnbound c n e := by
  induction e using Expr.written_induction with
  | literal | query | letIn | record | postIncrement | subquery =>
    intro hn place bound hplace
    exact List.forall_mem_nil _
  | var p m =>
    intro hn place bound hplace
    rw [Expr.countings]
    split
    · exact List.forall_mem_nil _
    · split
      · exact List.forall_mem_singleton.mpr List.not_mem_nil
      · exact List.forall_mem_nil _
  | unary p f e ih => exact ih
  | binary p f l r ihl ihr =>
    intro hn place bound hplace
    rw [Expr.spelled, List.mem_append, not_or] at hn
    exact List.forall_mem_append.mpr ⟨ihl hn.1 place bound hplace, ihr hn.2 place bound hplace⟩
  | sequence p f es ih =>
    intro hn place bound hplace
    cases f with
    | call m => exact leavesUnbound_call ih p m hn place bound hplace
    | list | tuple | construct => exact not_mem_countingsAll ih hn hplace bound
  | method p r m es ihr ih =>
    intro hn place bound hplace
    rw [Expr.spelled, List.mem_append, not_or] at hn
    exact List.forall_mem_append.mpr
      ⟨ihr hn.1 place bound hplace, not_mem_countingsAll ih hn.2 hplace bound⟩
  | lambda p ps e ih =>
    intro hn place bound hplace
    rw [Expr.spelled, List.mem_append, not_or] at hn
    exact List.forall_mem_map.mpr fun ns hns =>
      List.not_mem_append hn.1 (ih hn.2 place (ps ++ bound) hplace ns hns)

theorem Query.clear_of_not_spelled {q : Query Expr} (hne : c.table ≠ c.counter)
    (htable : c.table ∉ querySpelled q) (hcounter : c.counter ∉ querySpelled q) : q.Clear c := by
  have hnames {p : Piece} (hp : p ∈ q.pieces) {n : String} (hn : n ∉ querySpelled q) :
      n ∉ p.rowNames := fun hmem =>
    hn (declared_spelled (List.mem_append_left _ (q.rowNames_pieces p hp n hmem)))
  have hspelled {p : Piece} (hp : p ∈ q.pieces) {e : Expr} (he : e ∈ p.exprs) :
      c.counter ∉ e.spelled :=
    fun hmem => hcounter ((each_spelled q).pieces p hp e he _ hmem)
  refine ⟨fun _ => hne, fun p hp => ?_⟩
  cases p with
  | value slot e =>
    exact leavesUnbound e (hspelled hp (List.mem_singleton_self _)) _ _ nofun
  | function f =>
    have hrow : ∀ row ∈ f.place.row, c.counter ∉ row.aliases := by
      rintro row hrow
      obtain rfl : f.row = row := Option.some.inj hrow
      exact fun hmem => hnames hp hcounter (List.mem_append_left _ hmem)
    refine ⟨fun _ => RowFunction.not_mem_binders (hnames hp htable), fun ns hns => ?_⟩
    obtain ⟨slot, hslot, hns⟩ := List.mem_flatMap.mp hns
    exact List.not_mem_append (RowFunction.not_mem_binders (hnames hp hcounter))
      (leavesUnbound slot.2 (hspelled hp (List.mem_map_of_mem hslot)) _ _ hrow ns hns)

end

/-! ## Thunks -/

theorem Argument.accesses_substitute {σ : List (Binding Expr)} (hσ : Inert σ) (a : Argument) :
    (a.substitute σ).accesses = a.accesses.map (Access.substitute σ) := by
  cases a with
  | value e => exact Comprehension.accesses_substitute hσ e
  | lambda f =>
    have hbody := Comprehension.accesses_substitute (hσ.without f.params) f.body
    rw [accesses, map_substitute_beneath, ← hbody]
    rfl

/-- What is put in place under other names changes nothing of what is used. -/
theorem Argument.accesses_substituteEach {c : Config} {a : Argument}
    (h : ∀ x ∈ a.accesses, x.Addresses c) {σs : List (List (Binding Expr))}
    (hσs : ∀ σ ∈ σs, Inert σ ∧ c.table ∉ σ.map (·.name)) :
    (a.substituteEach σs).accesses = a.accesses := by
  induction σs generalizing a with
  | nil => rfl
  | cons σ σs ih =>
    obtain ⟨⟨hinert, htable⟩, hσs⟩ := List.forall_mem_cons.mp hσs
    have hsame : (a.substitute σ).accesses = a.accesses :=
      (a.accesses_substitute hinert).trans (map_substitute_of_addresses h htable)
    exact (ih (hsame.symm ▸ h) hσs).trans hsame

theorem Thunk.clear_substituteEach_iff {c : Config} {t : Thunk}
    (h : ∀ a ∈ t.pipeline.arguments, ∀ x ∈ a.accesses, x.Addresses c)
    {σs : List (List (Binding Expr))} (hσs : ∀ σ ∈ σs, Inert σ ∧ c.table ∉ σ.map (·.name)) :
    (t.substituteEach σs).Clear c ↔ t.Clear c := by
  have hreached : (∀ a ∈ (t.substituteEach σs).pipeline.arguments, ∀ x ∈ a.accesses, x.Reaches c) ↔
      ∀ a ∈ t.pipeline.arguments, ∀ x ∈ a.accesses, x.Reaches c := by
    rw [arguments_substituteEach, List.forall_mem_map]
    refine forall₂_congr fun a ha => ?_
    rw [Argument.accesses_substituteEach (h a ha) hσs]
  have hdeclared := congrArg (fun ds => (ds.map Declaration.name).Nodup)
    (declarations_substituteEach σs t)
  exact ⟨fun ht => ⟨hdeclared.mp ht.declared, hreached.mp ht.reached⟩,
    fun ht => ⟨hdeclared.mpr ht.declared, hreached.mpr ht.reached⟩⟩

/-- What is computed of a thunk is so of the thunk that the query becomes. -/
theorem Query.exists_thunk {α : Type} {q : Query Expr} {c : Config} {f : Thunk → α} {a : α}
    (h : (q.lower c).toOption.map f = some a) : ∃ t, q.lower c = .ok t ∧ f t = a := by
  cases hlower : q.lower c with
  | error e =>
    rw [hlower] at h
    cases h
  | ok t =>
    rw [hlower] at h
    exact ⟨t, rfl, Option.some.inj h⟩

/-- An accepted query, and each query nested in it, becomes a thunk that declares distinct names and
leaves each use of them in reach just if the query itself is clear. So it is if the two names differ
and the query does not spell them. Where paths are put in place, the name of the table must not be
spelled. -/
theorem runtimeNames_clear_iff {q : Query Expr} {c : Config} {t : Thunk} (h : q.lower c = .ok t)
    (hinline : c.inlinePaths = true → c.table ∉ q.identifiers) :
    List.Forall₂ (fun q' t' => t'.Clear c ↔ q'.Clear c) (q :: queryNested q) (t :: t.thunks) ∧
      (c.table ≠ c.counter → c.table ∉ q.identifiers → c.counter ∉ q.identifiers →
        ∀ t' ∈ t :: t.thunks, t'.Clear c) := by
  obtain ⟨s, rfl, havoids, hnested⟩ := Query.lowered_nested h
  have hcounter (node : Path) : s.name node ≠ s.config.counter :=
    fun heq => havoids node (Query.mem_avoided.mpr (.inr (.inr heq)))
  simp only [Query.identifiers, mem_distinct] at hinline ⊢
  have hclear {q' : Query Expr} {t' : Thunk}
      (hlowered : LoweredIn s (queryDemands s.config [] q) (querySpelled q) q' t') :
      t'.Clear s.config ↔ q'.Clear s.config := by
    have hinline' (hmode : s.config.inlinePaths = true) : s.config.table ∉ querySpelled q' :=
      fun hmem => hinline hmode (hlowered.spelled _ hmem)
    obtain ⟨node, σs, rfl, hσs, -⟩ := hlowered
    -- The functions around a nested query put in place what goes by names that the query spells.
    have hsupplied : ∀ σ ∈ σs, Inert σ ∧ s.config.table ∉ σ.map (·.name) := by
      intro σ hσ
      obtain ⟨hmode, hσ⟩ := hσs σ hσ
      refine ⟨fun b hb => accesses_of_isPath (hσ b hb).2.1, fun hmem => ?_⟩
      obtain ⟨b, hb, hname⟩ := List.mem_map.mp hmem
      exact hinline hmode (hname ▸ (hσ b hb).1)
    exact (Thunk.clear_substituteEach_iff (addresses_queryImage hcounter hinline' node)
      hsupplied).trans (clear_queryImage_iff hcounter (madeUp_ne_table havoids) hinline' node)
  refine ⟨hnested.imp fun q' t' => hclear, fun hne htable hcounter => ?_⟩
  refine Nests.forall_thunks hnested fun q' t' hlowered => (hclear hlowered).mpr ?_
  exact Query.clear_of_not_spelled hne (fun hmem => htable (hlowered.spelled _ hmem))
    fun hmem => hcounter (hlowered.spelled _ hmem)

/-- `from x in xs select _rn, x.v`. -/
def numberedValues : Query Expr where
  table := ⟨"x", Expr.name "xs", .nowhere⟩
  joins := []
  filter := none
  grouping := none
  sorting := none
  limit := none
  projection := some ⟨[Expr.name "_rn", (Expr.name "x").field "v"], .nowhere⟩
  pos := .nowhere

/-- The table and the counter are declared, and the record and the increment reach them. -/
theorem runtimeNames_clear_iff_numberedValues :
    ∃ t, numberedValues.lower .inlined = .ok t ∧ t.Clear .inlined ∧
      t.declarations.map Declaration.name = ["__metaDataMap", "__rowNumber"] ∧
        t.pipeline.arguments.map (·.accesses.length) = [0, 3] := by
  have hthunk : (numberedValues.lower .inlined).toOption.map (fun t =>
      (t.declarations.map Declaration.name, t.pipeline.arguments.map (·.accesses.length))) =
        some (["__metaDataMap", "__rowNumber"], [0, 3]) := by decide +kernel
  obtain ⟨t, h, hthunk⟩ := Query.exists_thunk hthunk
  obtain ⟨hnames, haccesses⟩ := Prod.mk.inj hthunk
  have hclear := (runtimeNames_clear_iff h (by decide)).2 (by decide) (by decide) (by decide)
  exact ⟨t, h, hclear t List.mem_cons_self, hnames, haccesses⟩

/-- A configuration in which the table and the counter go by one name is accepted. With it
`from x in xs select _rn, x.v` is accepted, and declares the name twice. Under the usual names
`from __metaDataMap in xs select __metaDataMap.a, __metaDataMap.b` is accepted, and its record looks
its names up in the row. -/
theorem runtimeNames_clash :
    let clashing : Config := { Config.standard with counter := "__metaDataMap" }
    let row := Expr.name "__metaDataMap"
    let aliased : Query Expr :=
      { numberedValues with
        table := ⟨"__metaDataMap", Expr.name "xs", .nowhere⟩
        projection := some ⟨[row.field "a", row.field "b"], .nowhere⟩ }
    clashing.fault? = none ∧ (∃ t, numberedValues.lower clashing = .ok t ∧ ¬t.Clear clashing) ∧
      ∃ t, aliased.lower .standard = .ok t ∧ ¬t.Clear .standard := by
  intro clashing row aliased
  refine ⟨by decide, ?_, ?_⟩
  · have hnames : (numberedValues.lower clashing).toOption.map
        (·.declarations.map Declaration.name) = some ["__metaDataMap", "__metaDataMap"] := by
      decide +kernel
    obtain ⟨t, h, hnames⟩ := Query.exists_thunk hnames
    refine ⟨t, h, fun hclear => ?_⟩
    have hdeclared := hclear.declared
    rw [hnames] at hdeclared
    exact absurd hdeclared (by decide)
  · have hhidden : (aliased.lower .standard).toOption.map (fun t => t.pipeline.arguments.any
        (·.accesses.any fun x => x.sought .standard ∈ x.under)) = some true := by
      decide +kernel
    obtain ⟨t, h, hhidden⟩ := Query.exists_thunk hhidden
    obtain ⟨a, ha, hany⟩ := List.any_eq_true.mp hhidden
    obtain ⟨x, hx, hunder⟩ := List.any_eq_true.mp hany
    exact ⟨t, h, fun hclear => (hclear.reached a ha x hx).2 (of_decide_eq_true hunder)⟩

end Comprehension
