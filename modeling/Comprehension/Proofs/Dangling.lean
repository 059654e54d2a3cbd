import Comprehension.Proofs.FoundReadings
import Comprehension.Proofs.MadeUpNames
import Comprehension.Proofs.SpelledNames

/-!
Dangling aliases. An alias of a chain dangles in a function that a stage runs on the chain if the
function reads it, at whatever depth, and nothing from the function inwards binds it. What dangles in
a lowered query is what strays among its readings.
-/

namespace Comprehension

/-! ## Agreement -/

/-- The readings are, as far as the name goes, those made among the findings. -/
structure Agrees (n : String) (masked : List String) (rs : List Reading) (fs : List Finding) :
    Prop where
  outer : .outer n ∈ rs ↔ Shows masked fs (.outer n)
  stray : .stray n ∈ rs ↔ Shows masked fs (.stray n)

namespace Agrees

variable {n : String} {masked : List String} {rs rs' : List Reading} {fs fs' body : List Finding}

theorem nil : Agrees n masked [] [] :=
  ⟨by simp, by simp⟩

theorem names {ns ns' : List String} (h : n ∈ ns ↔ n ∈ ns') :
    Agrees n masked (ns.map .outer) (reads ns') := by
  constructor
  · rw [shows_reads_outer, ← h]
    simp
  · simp [not_shows_reads_stray]

theorem append (h : Agrees n masked rs fs) (h' : Agrees n masked rs' fs') :
    Agrees n masked (rs ++ rs') (fs ++ fs') := by
  constructor
  · rw [List.mem_append, shows_append, h.outer, h'.outer]
  · rw [List.mem_append, shows_append, h.stray, h'.stray]

theorem flatMap {α : Type} {as : List α} {f : α → List Reading} {g : α → List Finding}
    (h : ∀ a ∈ as, Agrees n masked (f a) (g a)) : Agrees n masked (as.flatMap f) (as.flatMap g) := by
  induction as with
  | nil => exact nil
  | cons a as ih =>
    exact (h a List.mem_cons_self).append (ih fun b hb => h b (List.mem_cons_of_mem _ hb))

/-- A function of a row, with the paths that it binds. -/
theorem function {c : Config} {chain ps own : List String} {bs : List (Binding Expr)}
    (hps : n ∈ ps ↔ n ∈ own) (hbs : Silent n bs)
    (h : Agrees n (c.masks masked own (bs.map (·.name))) rs body) :
    Agrees n masked (Reading.function chain masked (own ++ bs.map (·.name)) rs)
      (walkFunction chain ps (walkBound c.inlinePaths bs body)) := by
  have houter : Reading.outer n ∈ rs ↔ Shows masked body (.outer n) := h.outer
  constructor
  · rw [Reading.outer_mem_function, shows_walkFunction, shows_under_outer,
      shows_walkBound_outer hbs, houter, Binder.names, List.mem_append, not_or, hps, and_assoc,
      and_comm (a := n ∉ own)]
  · have hmasks : n ∈ c.masks masked own (bs.map (·.name)) ↔
        n ∈ if c.inlinePaths then unbound ps masked ++ bs.map (·.name)
          else unbound (bs.map (·.name)) (unbound ps masked) := by
      rw [Config.masks]
      split <;> simp [hps, and_assoc]
    rw [Reading.stray_mem_function, shows_walkFunction, shows_under_stray,
      shows_walkBound_stray hbs, shows_walkBound_outer hbs, h.stray, shows_congr hmasks, houter,
      Binder.names, Binder.chain, Binder.hidden, List.mem_append, not_or, hps]
    constructor
    · rintro (hstray | ⟨hchain, ⟨hown, hnames⟩, hmasked, hbody⟩)
      · exact Or.inl hstray
      · exact Or.inr ⟨hchain, hown, hmasked, hbody, hnames⟩
    · rintro (hstray | ⟨hchain, hown, hmasked, hbody, hnames⟩)
      · exact Or.inl hstray
      · exact Or.inr ⟨hchain, ⟨hown, hnames⟩, hmasked, hbody⟩

/-- A function of no row. -/
theorem lambda {ps : List String} (h : Agrees n (unbound ps masked) rs body) :
    Agrees n masked (Reading.within ps rs) (walkFunction [] ps body) := by
  have houter : Reading.outer n ∈ rs ↔ Shows masked body (.outer n) := h.outer
  constructor
  · rw [Reading.outer_mem_within, shows_walkFunction, shows_under_outer, houter, Binder.names]
  · rw [Reading.stray_mem_within, shows_walkFunction, shows_under_stray, h.stray]
    simp [Binder.chain, Binder.hidden]

theorem declarations {ds : List Declaration} (h : Agrees n masked rs body) :
    Agrees n masked (Reading.within (ds.map Declaration.name) rs) (walkDeclarations body ds) := by
  constructor
  · rw [Reading.outer_mem_within, shows_walkDeclarations_outer, h.outer]
  · rw [Reading.stray_mem_within, shows_walkDeclarations_stray, h.stray]

end Agrees

/-! ## Places -/

/-- The parameter of the row of a group is neither the name nor the name table. -/
def Secluded (c : Config) (n : String) (place : Place) (param : String) : Prop :=
  ∀ prior names into, place.row = some (.grouped prior names into) → param ≠ n ∧ param ≠ c.table

section

variable {c : Config} {n : String} {place : Place} {param : String}

theorem Secluded.of_read? (h : Secluded c n place param) {m : String} {e : Expr}
    (hread : place.read? c param m = some e) : param ≠ n ∧ param ≠ c.table := by
  obtain ⟨prior, names, into, hrow⟩ := Place.row_of_read? hread
  exact h prior names into hrow

theorem read?_isSome (c : Config) (place : Place) (param param' n : String) :
    (place.read? c param n).isSome = (place.read? c param' n).isSome := by
  rw [Place.read?, Place.read?]
  split
  · split
    · rfl
    · simp only [GroupView.read?]
      split
      · rfl
      · split
        · rfl
        · split <;> rfl
  · rfl

theorem mem_outerReads (h : Secluded c n place param) (bound : List String) (m : String) :
    n ∈ place.outerReads c bound m ↔ n ∈ place.varReads c param bound m := by
  have hsome := read?_isSome c place "" param m
  rw [Place.outerReads, Place.varReads]
  split
  · rfl
  · split
    · rfl
    · cases hread : place.read? c param m with
      | none =>
        rw [hread, Option.isSome_none, Option.isSome_eq_false_iff] at hsome
        rw [if_pos hsome]
      | some e =>
        have hn : n ≠ param := (h.of_read? hread).1.symm
        rw [hread, Option.isSome_some] at hsome
        rw [if_neg (by simpa using Option.isSome_iff_ne_none.mp hsome)]
        split <;> simp [hn]

/-! ### Nested queries -/

theorem consults_iff (h : Secluded c n place param) {m : String} {e : Expr}
    (hread : place.read? c param m = some e) : c.table ∈ e.free ↔ m = c.group := by
  have hparam := (h.of_read? hread).2.symm
  rcases Place.read?_cases hread with ⟨hm, rfl⟩ | ⟨hm, rfl | rfl⟩
  · simp [GroupView.current, Expr.send, Expr.free, freeAll, NameList.access, Expr.index, Expr.name,
      hm]
  · simp [GroupView.key, Expr.field, Expr.name, Expr.free, hparam, hm]
  · simp [GroupView.key, Expr.field, Expr.name, Expr.free, hparam, hm]

theorem names_readsOfGroup (c : Config) (place : Place) (param : String)
    (bound free : List String) :
    (place.readsOfGroup c param bound free).map (·.name) = place.groupNames c bound free := by
  rw [Place.readsOfGroup, Place.groupNames, List.map_filterMap, ← List.filterMap_eq_filter]
  congr 1
  funext m
  rw [Option.guard, read?_isSome c place "" param m]
  by_cases hbound : m ∈ bound
  · simp [hbound]
  · cases place.read? c param m <;> simp [hbound]

/-- The current group alone consults the name table. -/
theorem names_consulting (h : Secluded c n place param) (bound free : List String) :
    ((place.readsOfGroup c param bound free).filter fun b => c.table ∈ b.value.free).map
        (·.name) = (place.groupNames c bound free).filter (· = c.group) := by
  rw [← names_readsOfGroup c place param, List.filter_map]
  congr 1
  refine List.filter_congr fun b hb => ?_
  exact decide_eq_decide.mpr (consults_iff h (Place.read?_of_mem hb))

theorem names_not_consulting (h : Secluded c n place param) (bound free : List String) :
    ((place.readsOfGroup c param bound free).filter fun b => !decide (c.table ∈ b.value.free)).map
        (·.name) = (place.groupNames c bound free).filter (· ≠ c.group) := by
  rw [← names_readsOfGroup c place param, List.filter_map]
  congr 1
  refine List.filter_congr fun b hb => ?_
  have hconsults := consults_iff h (Place.read?_of_mem hb)
  simp [hconsults]

/-- Locals that read the name table bring it to the outside, unless there are none. -/
theorem shows_walkLocals_table {masked : List String} {body : List Finding}
    {bs : List (Binding Expr)}
    (hbs : ∀ b ∈ bs, b.value.walk = reads [param, c.table] ∧ param ≠ n) :
    Shows masked (walkLocals body bs) (.outer n) ↔
      bs ≠ [] ∧ n = c.table ∨ Shows masked body (.outer n) ∧ n ∉ bs.map (·.name) := by
  by_cases htable : n = c.table
  · cases bs with
    | nil => simp [walkLocals]
    | cons b bs =>
      rw [walkLocals, shows_append, (hbs b List.mem_cons_self).1, shows_reads_outer]
      simp [htable]
  · have hsilent : Silent n bs := by
      intro b hb
      obtain ⟨hwalk, hn⟩ := hbs b hb
      exact ⟨_, hwalk, by simp [hn.symm, htable]⟩
    rw [shows_walkLocals_outer hsilent]
    simp [htable]

/-- An aggregate reads the rows of the group besides its arguments. -/
theorem Agrees.aggregate (hn : param ≠ n) {masked : List String} {rs : List Reading} {p : Position}
    {m : String} {args : List Expr} (h : Agrees n masked rs (walkAll args)) :
    Agrees n masked rs (Expr.method p (GroupView.rows param) m args).walk := by
  have hnone : n ∈ [] ↔ n ∈ [param] := by simp [hn.symm]
  have hrows : Agrees n masked [] (GroupView.rows param).walk := .names hnone
  exact hrows.append h

/-- What consults the name table reads the parameter and the name table. -/
theorem walk_consulting (h : Secluded c n place param) {bound free : List String}
    {b : Binding Expr} (hb : b ∈ (place.readsOfGroup c param bound free).filter fun b =>
      c.table ∈ b.value.free) : b.value.walk = reads [param, c.table] ∧ param ≠ n := by
  obtain ⟨hb, hconsults⟩ := List.mem_filter.mp hb
  have hread := Place.read?_of_mem hb
  have hgroup : b.name = c.group := by
    simpa [consults_iff h hread] using hconsults
  refine ⟨?_, (h.of_read? hread).1⟩
  rw [Place.walk_read? hread, if_pos hgroup]

/-- What does not consult the name table reads the parameter alone. -/
theorem silent_not_consulting (h : Secluded c n place param) (bound free : List String) :
    Silent n ((place.readsOfGroup c param bound free).filter fun b =>
      !decide (c.table ∈ b.value.free)) := by
  intro b hb
  obtain ⟨hb, hconsults⟩ := List.mem_filter.mp hb
  have hread := Place.read?_of_mem hb
  have hgroup : b.name ≠ c.group := by
    simpa [consults_iff h hread] using hconsults
  refine ⟨_, Place.walk_read? hread, ?_⟩
  simp [hgroup, (h.of_read? hread).1.symm]

/-- A nested query with what it reads from the row of a group. -/
theorem Agrees.attach (h : Secluded c n place param) {masked bound free : List String}
    {rs : List Reading} {e : Expr}
    (he : Agrees n (place.masks c masked bound free) rs e.walk) :
    Agrees n masked (place.readings c bound free rs)
      (place.attach c param bound free e).walk := by
  have hconsulting := names_consulting h bound free
  have hothers := names_not_consulting h bound free
  have hsilent := silent_not_consulting h bound free
  have htable : ∀ b ∈ (place.readsOfGroup c param bound free).filter fun b =>
      c.table ∈ b.value.free, b.value.walk = reads [param, c.table] ∧ param ≠ n :=
    fun b hb => walk_consulting h hb
  have houter : Reading.outer n ∈ rs ↔ Shows masked e.walk (.outer n) := he.outer
  rw [Place.attach, walk_bind, walk_bind]
  dsimp only
  generalize (place.readsOfGroup c param bound free).filter
    (fun b => decide (c.table ∈ b.value.free)) = consulting at *
  generalize (place.readsOfGroup c param bound free).filter
    (fun b => !decide (c.table ∈ b.value.free)) = others at *
  have hreadsOnly : ReadsOnly consulting := fun b hb => ⟨_, (htable b hb).1⟩
  rw [walkBound, if_neg Bool.false_ne_true]
  constructor
  · have hnil : consulting ≠ [] ↔ c.group ∈ place.groupNames c bound free := by
      rw [Ne, ← List.map_eq_nil_iff, hconsulting, List.filter_eq_nil_iff]
      simp
    have hnames : (n ∉ others.map (·.name) ∧ n ∉ consulting.map (·.name)) ↔
        n ∉ place.groupNames c bound free := by
      rw [hothers, hconsulting]
      by_cases hn : n = c.group <;> simp [hn]
    rw [shows_walkLocals_table htable, shows_walkBound_outer hsilent, hnil, ← houter, and_assoc,
      hnames, Place.readings, List.mem_append, Reading.outer_mem_within]
    split
    · rename_i hgroup
      simp [hgroup]
    · rename_i hgroup
      simp [hgroup]
  · have hmasks : n ∈ place.masks c masked bound free ↔
        n ∈ if c.inlinePaths then unbound (consulting.map (·.name)) masked ++ others.map (·.name)
          else unbound (others.map (·.name)) (unbound (consulting.map (·.name)) masked) := by
      rw [Place.masks, Config.masks, hconsulting, hothers]
      split
      · rfl
      · simp only [mem_unbound, List.mem_append, not_or, and_assoc]
    rw [shows_walkLocals_stray hreadsOnly, shows_walkBound_stray hsilent, ← shows_congr hmasks,
      ← he.stray, Place.readings, List.mem_append, Reading.stray_mem_within]
    split <;> simp

end

/-! ## Pieces -/

section

variable {s : Naming} {n : String} (hn : ∀ node, s.name node ≠ n)

include hn

theorem mem_written (row : Row) (joined : Option String) (node : Path) :
    n ∈ row.parameter s.name node :: joined.toList ↔ n ∈ row.written joined := by
  have hne : n ≠ s.name node := (hn node).symm
  cases row with
  | table a => exact Iff.rfl
  | _ => simp [Row.parameter, Row.written, hne]

theorem silent_bindings (row : Row) (node : Path) (es : List Expr) :
    Silent n (row.bindings (row.parameter s.name node) es) := by
  intro b hb
  simp only [Row.bindings, List.mem_map, List.mem_filter] at hb
  obtain ⟨p, ⟨hp, -⟩, rfl⟩ := hb
  refine ⟨[row.parameter s.name node], PairPath.walk_read p.2 _, ?_⟩
  cases row with
  | joined prior a => simpa [Row.parameter] using (hn node).symm
  | _ => cases hp

/-- A function of a row whose body has the given readings. -/
theorem agrees_close (row : Row) (chain : List String) (joined : Option String) (node : Path)
    {masked : List String} {es : List Expr} {rs : List Reading} {body : List Finding}
    (h : Agrees n (row.masks s.config masked joined es) rs body) :
    Agrees n masked (row.readings chain masked joined es rs)
      (walkFunction chain (row.parameter s.name node :: joined.toList)
        (walkBound s.config.inlinePaths (row.bindings (row.parameter s.name node) es) body)) := by
  have hnames := row.names_bindings (row.parameter s.name node) es
  rw [Row.readings, ← hnames]
  refine .function (mem_written hn row joined node) (silent_bindings hn row node es) ?_
  rw [hnames]
  exact h

variable (htable : ∀ node, s.name node ≠ s.config.table)

include htable

theorem secluded_parameter (row : Row) (numbering : Numbering) (node : Path) :
    Secluded s.config n ⟨some row, numbering⟩ (row.parameter s.name node) := by
  intro prior names into hrow
  cases hrow
  exact ⟨hn node, htable node⟩

variable (s n) in
/-- The expression reads what its image reads. -/
def Agreeing (e : Expr) : Prop :=
  ∀ (place : Place) param path bound searched masked, Secluded s.config n place param →
    Agrees n masked (e.readings s.config masked place bound)
      (e.image s place param path bound searched).walk

omit hn htable in
theorem agrees_imageAll {es : List Expr} (h : ∀ e ∈ es, Agreeing s n e) {place : Place}
    {param : String} (hplace : Secluded s.config n place param) (path : Path)
    (bound masked : List String) (step : Nat → Step) (i : Nat) :
    Agrees n masked (readingsAll s.config masked place bound es)
      (walkAll (imageAll s place param path bound step i es)) := by
  induction es generalizing i with
  | nil => exact .nil
  | cons e es ih =>
    rw [readingsAll, imageAll, walkAll]
    exact (h e List.mem_cons_self _ _ _ _ _ _ hplace).append
      (ih (fun e he => h e (List.mem_cons_of_mem _ he)) (i + 1))

omit htable in
theorem agrees_extras (f : RowFunction) (path : Path) (masked : List String) :
    Agrees n masked (f.extraReadings s.config) (reads (f.extras s path)) := by
  have hparam := mem_written hn f.row none (.slot f.slot :: path)
  rw [RowFunction.extraReadings, RowFunction.extras]
  cases f.record with
  | none => exact .nil
  | some keeps =>
    refine .names ?_
    cases keeps with
    | false => simp
    | true => simpa [RowFunction.param] using or_congr_right hparam.symm

theorem agrees_rowFunction {f : RowFunction} (h : ∀ p ∈ f.exprs, Agreeing s n p.2) (path : Path)
    (masked : List String) : Agrees n masked (f.readings s.config masked) (f.walk s path) := by
  have hplace : Secluded s.config n f.place (f.param s path) :=
    secluded_parameter hn htable f.row f.numbering _
  refine agrees_close hn f.row f.row.chain f.joined _ ?_
  exact .append (.flatMap fun p hp => h p hp _ _ _ _ _ _ hplace) (agrees_extras hn f path _)

theorem agrees_piece {p : Piece} (h : ∀ e ∈ p.exprs, Agreeing s n e) (path : Path)
    (masked : List String) : Agrees n masked (p.readings s.config masked) (p.walk s path) := by
  cases p with
  | value slot e =>
    exact h e List.mem_cons_self _ _ _ _ _ _ fun prior names into hrow => nomatch hrow
  | function f =>
    exact agrees_rowFunction hn htable (fun p hp => h p.2 (List.mem_map_of_mem hp)) path masked

theorem agrees_queryImage {q : Query Expr} (h : q.Each (Agreeing s n)) (path : Path)
    (masked : List String) :
    Agrees n masked (queryReadings s.config masked q) (queryImage s path q).walk := by
  have hpieces := Agrees.flatMap fun p hp => agrees_piece hn htable (h.pieces p hp) path masked
  have hdeclared : (queryImage s path q).declarations.map Declaration.name =
      s.config.table :: if countsRows s.config [] q then [s.config.counter] else [] := by
    rw [queryImage, countsRows_path s.config q [] path, List.map_cons]
    split <;> rfl
  rw [queryReadings_eq, walk_queryImage, ← hdeclared]
  exact hpieces.declarations

theorem agreeing (e : Expr) : Agreeing s n e := by
  induction e using Expr.written_induction with
  | literal | letIn | record | postIncrement | subquery =>
    intro place param path bound searched masked hplace
    exact .nil
  | var p m =>
    intro place param path bound searched masked hplace
    rw [Expr.readings, Expr.image, walk_varImage]
    exact .names (mem_outerReads hplace bound m)
  | unary p f e ih =>
    intro place param path bound searched masked hplace
    exact ih place param (.part 0 :: path) bound false masked hplace
  | binary p f l r ihl ihr =>
    intro place param path bound searched masked hplace
    have hl := ihl place param (.part 0 :: path) bound false masked hplace
    have hr (searched : Bool) := ihr place param (.part 1 :: path) bound searched masked hplace
    cases f <;>
      (simp only [Expr.image, Expr.walk]
       exact hl.append (hr _))
  | sequence p f es ih =>
    intro place param path bound searched masked hplace
    have hes := agrees_imageAll ih hplace path bound masked .part 0
    cases f with
    | call m =>
      have hform := callForm s place param path bound searched p m es
      generalize (Expr.sequence p (.call m) es).image s place param path bound searched = e
        at hform ⊢
      generalize (Expr.sequence p (.call m) es).demands s.config place path bound = ds at hform
      rw [Expr.readings]
      cases hform with
      | plain ds es h hcase =>
        rw [hcase]
        exact hes
      | allRows es prior names into h hcase =>
        rw [hcase]
        exact .aggregate (hplace prior names into h).1 .nil
      | eachRow ds arg rest prior names into h hds hcase =>
        have hprior := secluded_parameter hn htable prior place.numbering (.part 0 :: path)
        have harg := ih arg List.mem_cons_self _ _ (.part 0 :: path) [] false
          (prior.masks s.config masked none [arg]) hprior
        rw [List.length_cons, hcase]
        refine .aggregate (hplace prior names into h).1 ?_
        rw [walkAll, walkAll, List.append_nil, Expr.walk, Row.close, Row.closeOver, walk_bind]
        exact agrees_close hn prior [] none _ harg
      | rowsAtOnce arg rest prior names into h hcase =>
        rw [List.length_cons, hcase]
        refine .aggregate (hplace prior names into h).1 ?_
        rw [walkAll, walkAll, List.append_nil]
        exact ih arg List.mem_cons_self _ _ _ _ _ _ hplace
    | list | tuple | construct => exact hes
  | method p r m es ihr ih =>
    intro place param path bound searched masked hplace
    have hr := ihr place param (.part 0 :: path) bound false masked hplace
    exact hr.append (agrees_imageAll ih hplace path bound masked .part 1)
  | lambda p ps e ih =>
    intro place param path bound searched masked hplace
    exact (ih place param (.part 0 :: path) (ps ++ bound) false (unbound ps masked) hplace).lambda
  | query p q hq =>
    intro place param path bound searched masked hplace
    have hquery := agrees_queryImage hn htable hq path (place.masks s.config masked bound (queryFree q))
    refine Agrees.attach hplace ?_
    cases searched with
    | false => exact hquery
    | true => simpa [Expr.send, Expr.walk, walkAll] using hquery

end

/-! ## Chains -/

/-- No function around a finding runs on a chain with the alias. -/
def Unchained (n : String) (fs : List Finding) : Prop := ∀ f ∈ fs, ∀ b ∈ f.1, n ∉ b.chain

section

variable {n : String} {fs fs' body : List Finding}

theorem Scope.Dangles.chained {sc : Scope} (h : sc.Dangles n) : ∃ b ∈ sc, n ∈ b.chain := by
  induction sc with
  | nil => exact h.elim
  | cons b sc ih =>
    rcases h with ⟨hchain, -, -⟩ | h
    · exact ⟨b, List.mem_cons_self, hchain⟩
    · obtain ⟨b', hb', hchain⟩ := ih h
      exact ⟨b', List.mem_cons_of_mem _ hb', hchain⟩

namespace Unchained

theorem nil : Unchained n [] := List.forall_mem_nil _

theorem reads (ns : List String) : Unchained n (reads ns) := by
  intro f hf b hb
  obtain ⟨m, -, rfl⟩ := List.mem_map.mp hf
  cases hb

theorem append (h : Unchained n fs) (h' : Unchained n fs') : Unchained n (fs ++ fs') :=
  List.forall_mem_append.mpr ⟨h, h'⟩

theorem flatMap {α : Type} {as : List α} {g : α → List Finding}
    (h : ∀ a ∈ as, Unchained n (g a)) : Unchained n (as.flatMap g) := by
  intro f hf
  obtain ⟨a, ha, hf⟩ := List.mem_flatMap.mp hf
  exact h a ha f hf

theorem under {b : Binder} (hb : n ∉ b.chain) (h : Unchained n fs) : Unchained n (under b fs) := by
  intro f hf
  obtain ⟨g, hg, rfl⟩ := List.mem_map.mp hf
  exact List.forall_mem_cons.mpr ⟨hb, h g hg⟩

theorem item (item : Item) (h : Unchained n fs) : Unchained n (([], item) :: fs) :=
  List.forall_mem_cons.mpr ⟨List.forall_mem_nil _, h⟩

theorem function {chain : List String} (hchain : n ∉ chain) (ps : List String)
    (h : Unchained n body) : Unchained n (walkFunction chain ps body) :=
  .item _ (h.under hchain)

theorem bound {bs : List (Binding Expr)} (hbs : ReadsOnly bs) (h : Unchained n body)
    (inline : Bool) : Unchained n (walkBound inline bs body) := by
  cases inline with
  | false =>
    show Unchained n (walkLocals body bs)
    induction bs with
    | nil => exact h
    | cons b bs ih =>
      obtain ⟨ns, hns⟩ := hbs b List.mem_cons_self
      have hlocal : n ∉ (Binder.bound b.name).chain := List.not_mem_nil
      rw [walkLocals, hns]
      exact (reads ns).append (.under hlocal (ih fun b hb => hbs b (List.mem_cons_of_mem _ hb)))
  | true =>
    refine .flatMap fun f hf => ?_
    obtain ⟨sc, item⟩ := f
    cases item with
    | read m =>
      rcases hbs.replace_read sc m with hsame | ⟨b, -, -, ns, -, hreads⟩
      · rw [hsame]
        exact List.forall_mem_singleton.mpr (h _ hf)
      · rw [hreads]
        intro f' hf'
        obtain ⟨k, -, rfl⟩ := List.mem_map.mp hf'
        exact h (sc, .read m) hf
    | function ps => exact List.forall_mem_singleton.mpr (h _ hf)
    | table names => exact List.forall_mem_singleton.mpr (h _ hf)

theorem declarations (h : Unchained n body) (ds : List Declaration) :
    Unchained n (walkDeclarations body ds) := by
  induction ds with
  | nil => exact h
  | cons d ds ih =>
    have hdeclared (m : String) : n ∉ (Binder.declared m).chain := List.not_mem_nil
    cases d with
    | table m names => exact .item _ (.under (hdeclared m) ih)
    | counter m => exact .under (hdeclared m) ih

theorem attach {c : Config} {place : Place} {param : String} {bound free : List String} {e : Expr}
    (h : Unchained n e.walk) : Unchained n (place.attach c param bound free e).walk := by
  have hbs := place.readsOfGroup_readsOnly c param bound free
  rw [Place.attach, walk_bind, walk_bind]
  exact .bound (hbs.filter _) (.bound (hbs.filter _) h _) _

end Unchained

end

section

variable {s : Naming} {n : String}

variable (s n) in
/-- Functions in the image of the expression run on chains of spelled aliases only. -/
def ChainsSpelled (e : Expr) : Prop :=
  n ∉ e.spelled → ∀ (place : Place) param path bound searched,
    Unchained n (e.image s place param path bound searched).walk

theorem chain_subset_aliases (row : Row) : ∀ a ∈ row.chain, a ∈ row.aliases := by
  intro a ha
  cases row with
  | grouped prior names into => cases ha
  | _ => exact ha

theorem unchained_imageAll {es : List Expr} (h : ∀ e ∈ es, ChainsSpelled s n e)
    (hn : n ∉ spelledAll es) (place : Place) (param : String) (path : Path) (bound : List String)
    (step : Nat → Step) (i : Nat) :
    Unchained n (walkAll (imageAll s place param path bound step i es)) := by
  induction es generalizing i with
  | nil => exact .nil
  | cons e es ih =>
    rw [spelledAll, List.mem_append, not_or] at hn
    rw [imageAll, walkAll]
    exact (h e List.mem_cons_self hn.1 _ _ _ _ _).append
      (ih (fun e he => h e (List.mem_cons_of_mem _ he)) hn.2 (i + 1))

theorem unchained_queryImage {q : Query Expr} (h : q.Each (ChainsSpelled s n))
    (hn : n ∉ querySpelled q) (path : Path) : Unchained n (queryImage s path q).walk := by
  rw [walk_queryImage]
  refine .declarations (.flatMap fun p hp => ?_) _
  obtain ⟨hspelled, hrows⟩ := spelled_pieces hp hn
  have hexprs := h.pieces p hp
  cases p with
  | value slot e =>
    have he : e ∈ (Piece.value slot e).exprs := List.mem_cons_self
    exact hexprs e he (hspelled e he) _ _ _ _ _
  | function f =>
    have hchain : n ∉ f.row.chain := fun hmem =>
      hrows (List.mem_append_left _ (chain_subset_aliases f.row n hmem))
    refine .function hchain _ (.bound (f.bindings_readsOnly s path) ?_ _)
    refine .append (.flatMap fun p hp => ?_) (.reads _)
    have he : p.2 ∈ (Piece.function f).exprs := List.mem_map_of_mem hp
    exact hexprs p.2 he (hspelled p.2 he) _ _ _ _ _

theorem chainsSpelled (e : Expr) : ChainsSpelled s n e := by
  induction e using Expr.written_induction with
  | literal | letIn | record | postIncrement | subquery =>
    intro hn place param path bound searched
    exact .nil
  | var p m =>
    intro hn place param path bound searched
    rw [Expr.image, walk_varImage]
    exact .reads _
  | unary p f e ih =>
    intro hn place param path bound searched
    exact ih hn place param (.part 0 :: path) bound false
  | binary p f l r ihl ihr =>
    intro hn place param path bound searched
    rw [Expr.spelled, List.mem_append, not_or] at hn
    have hl := ihl hn.1 place param (.part 0 :: path) bound false
    have hr (searched : Bool) := ihr hn.2 place param (.part 1 :: path) bound searched
    cases f <;>
      (simp only [Expr.image, Expr.walk]
       exact hl.append (hr _))
  | sequence p f es ih =>
    intro hn place param path bound searched
    have hes := unchained_imageAll ih hn place param path bound .part 0
    cases f with
    | call m =>
      have hform := callForm s place param path bound searched p m es
      generalize (Expr.sequence p (.call m) es).image s place param path bound searched = e
        at hform ⊢
      generalize (Expr.sequence p (.call m) es).demands s.config place path bound = ds at hform
      have hcall {args : List Expr} (h : Unchained n (walkAll args)) :
          Unchained n (Expr.method p (GroupView.rows param) m args).walk :=
        Unchained.append (.reads [param]) h
      cases hform with
      | plain ds es h hcase => exact hes
      | allRows es prior names into h hcase => exact hcall .nil
      | eachRow ds arg rest prior names into h hds hcase =>
        rw [Expr.spelled, spelledAll, List.mem_append, not_or] at hn
        refine hcall ?_
        rw [walkAll, walkAll, List.append_nil, Expr.walk, Row.close, Row.closeOver, walk_bind]
        exact .function List.not_mem_nil _ (.bound (prior.bindings_readsOnly _ _)
          (ih arg List.mem_cons_self hn.1 _ _ _ _ _) _)
      | rowsAtOnce arg rest prior names into h hcase =>
        rw [Expr.spelled, spelledAll, List.mem_append, not_or] at hn
        refine hcall ?_
        rw [walkAll, walkAll, List.append_nil]
        exact ih arg List.mem_cons_self hn.1 _ _ _ _ _
    | list | tuple | construct => exact hes
  | method p r m es ihr ih =>
    intro hn place param path bound searched
    rw [Expr.spelled, List.mem_append, not_or] at hn
    have hr := ihr hn.1 place param (.part 0 :: path) bound false
    exact Unchained.append hr (unchained_imageAll ih hn.2 place param path bound .part 1)
  | lambda p ps e ih =>
    intro hn place param path bound searched
    rw [Expr.spelled, List.mem_append, not_or] at hn
    exact .function List.not_mem_nil _ (ih hn.2 _ _ _ _ _)
  | query p q hq =>
    intro hn place param path bound searched
    have hquery := unchained_queryImage hq hn path
    refine .attach ?_
    cases searched with
    | false => exact hquery
    | true => simpa [Expr.send, Expr.walk, walkAll] using hquery

end

/-! ## Whole queries -/

/-- The alias dangles in some function of the thunk. -/
def Thunk.Dangles (t : Thunk) (a : String) : Prop :=
  ∃ sc, (sc, .read a) ∈ t.walk ∧ sc.Dangles a

theorem dangles_iff_shows (t : Thunk) (a : String) : t.Dangles a ↔ Shows [] t.walk (.stray a) := by
  have hstray (sc : Scope) : Scope.Shows [] sc (.stray a) ↔ sc.Dangles a :=
    and_iff_left fun hnil => absurd hnil List.not_mem_nil
  exact exists_congr fun sc => and_congr_right fun _ => (hstray sc).symm

theorem not_dangles_of_not_spelled {q : Query Expr} {a : String} (ha : a ∉ querySpelled q)
    (s : Naming) (path : Path) : ¬(queryImage s path q).Dangles a := by
  rintro ⟨sc, hmem, hdangles⟩
  obtain ⟨b, hb, hchain⟩ := hdangles.chained
  exact unchained_queryImage (q.each_of_forall chainsSpelled) ha path _ hmem b hb hchain

/-- Names that are made up neither as the name table nor as the alias do not matter to what dangles.
-/
theorem dangles_queryImage {s : Naming} {q : Query Expr} {a : String}
    (ha : ∀ node, s.name node ≠ a) (htable : ∀ node, s.name node ≠ s.config.table) (path : Path) :
    (queryImage s path q).Dangles a ↔ a ∈ q.strays s.config := by
  have hagrees := agrees_queryImage ha htable (q.each_of_forall (agreeing ha htable)) path []
  rw [dangles_iff_shows, mem_strays, hagrees.stray]

theorem not_mem_strays {q : Query Expr} {a : String} (ha : a ∉ querySpelled q) (c : Config) :
    a ∉ q.strays c := by
  -- A longer name is neither the alias nor the name table.
  let s : Naming := ⟨c, fun _ => a ++ c.table ++ "x"⟩
  have hlonger (n : String) (hn : n.length ≤ a.length + c.table.length) (node : Path) :
      s.name node ≠ n := by
    rintro rfl
    have hx : "x".length = 1 := rfl
    simp only [s, String.length_append] at hn
    omega
  have hdangles := dangles_queryImage (s := s) (q := q) (hlonger a (by omega))
    (hlonger c.table (by omega)) []
  exact fun hstray => not_dangles_of_not_spelled ha s [] (hdangles.mpr hstray)

theorem Lowered.dangles_iff {q : Query Expr} {c : Config} {path : Path} {t : Thunk} {ctx : Context}
    (h : Lowered q c path t ctx) (a : String) : t.Dangles a ↔ a ∈ q.strays c := by
  have hconfig := h.naming_config
  have htable (node : Path) : ctx.naming.name node ≠ ctx.naming.config.table := by
    intro heq
    refine h.name_not_mem node ?_
    rw [heq, hconfig]
    exact List.mem_append_right _ List.mem_cons_self
  rw [h.image]
  by_cases ha : a ∈ querySpelled q
  · have hname (node : Path) : ctx.naming.name node ≠ a := by
      rintro rfl
      exact h.name_not_mem node (List.mem_append_left _ (mem_distinct.mpr ha))
    rw [dangles_queryImage hname htable, hconfig]
  · exact iff_of_false (not_dangles_of_not_spelled ha _ _) (not_mem_strays ha c)

/-- What dangles in a lowered query are the aliases that stray in it. -/
theorem dangles_iff_strays {q : Query Expr} {c : Config} {t : Thunk} (h : q.lower c = .ok t)
    (a : String) : t.Dangles a ↔ a ∈ q.strays c := by
  obtain ⟨ctx, hctx⟩ := Query.lower_ok h
  exact (Lowered.ofLower hctx).dangles_iff a

/-- `from a in xs limit a.n select a`. -/
def limitedSelect : Query Expr where
  table := ⟨"a", Expr.name "xs", .nowhere⟩
  joins := []
  filter := none
  grouping := none
  sorting := none
  limit := some ⟨none, (Expr.name "a").field "n", .nowhere⟩
  projection := some ⟨[Expr.name "a"], .nowhere⟩
  pos := .nowhere

/-- `from a in as crossjoin b in bs select (from a in xs limit a.n select a)`. -/
def crossLimited : Query Expr where
  table := ⟨"a", Expr.name "as", .nowhere⟩
  joins := [⟨.cross, "b", Expr.name "bs", none, .nowhere⟩]
  filter := none
  grouping := none
  sorting := none
  limit := none
  projection := some ⟨[.query .nowhere limitedSelect], .nowhere⟩
  pos := .nowhere

/-- The alias `a` strays, and dangles. -/
theorem dangles_iff_strays_crossLimited :
    ∃ t, crossLimited.lower .standard = .ok t ∧ crossLimited.strays .standard = ["a"] ∧
      (t.Dangles "a" ↔ "a" ∈ crossLimited.strays .standard) := by
  obtain ⟨t, h⟩ : ∃ t, crossLimited.lower .standard = .ok t := ⟨_, rfl⟩
  exact ⟨t, h, by decide, dangles_iff_strays h "a"⟩

/-- The bound of the inner limit stands outside of the inner functions, and the outer function does
not bind the alias for it, in neither mode. -/
theorem crossLimited_dangles :
    (∃ t, crossLimited.lower .standard = .ok t ∧ t.Dangles "a") ∧
      ∃ t, crossLimited.lower .inlined = .ok t ∧ t.Dangles "a" := by
  let sc : Scope :=
    [.declared "__metaDataMap", .lambda ["a", "b"] ["__t_0"], .declared "__metaDataMap"]
  have hdangles : sc.Dangles "a" := Or.inr (Or.inl ⟨by decide, by decide, by simp [Binder.names]⟩)
  exact ⟨⟨_, rfl, sc, by decide, hdangles⟩, ⟨_, rfl, sc, by decide, hdangles⟩⟩

end Comprehension
