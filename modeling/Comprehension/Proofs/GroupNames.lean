import Comprehension.Proofs.FetchedNames

/-!
What a group has under a name. The clauses on groups know the current group by its identifier, and the
key by the name that `into` gives it. In an accepted query, and in the queries nested in it at every
depth, a function of a group reads such a name from outside just if an occurrence of it is left; all
other occurrences read what the group has under it.
-/

namespace Comprehension

/-! ## Accepted queries -/

/-- Nothing is reported. -/
def Unreported (ds : List Demand) : Prop := ∀ d, .report d ∉ ds

@[simp] theorem unreported_append {ds ds' : List Demand} :
    Unreported (ds ++ ds') ↔ Unreported ds ∧ Unreported ds' := by
  simp [Unreported, not_or, forall_and]

/-- An accepted query reports nothing. -/
theorem Query.unreported {q : Query Expr} {c : Config} {t : Thunk} (h : q.lower c = .ok t) :
    Unreported (queryDemands c [] q) := by
  let ds := (queryDemands c [] q).filter (·.outlivesQuery)
  obtain ⟨ctx, hctx⟩ := Query.lower_ok h
  have haccepts : ∀ f, .fail f ∉ ds :=
    fun f hf => (Lowered.ofLower hctx).accepts f (List.mem_filter.mp hf).1
  have hmistakes : ctx.mistakes = ds.filterMap Demand.report? := by
    have hrun := ((q.opening c).perform_outcome ds).2
    have hlast : ((q.opening c).perform ds).2 = ctx := congrArg Prod.snd hctx
    rw [outcome_reported haccepts, hlast] at hrun
    exact hrun
  intro d hd
  have hreported : d ∈ ctx.mistakes := by
    rw [hmistakes]
    exact List.mem_filterMap.mpr ⟨_, List.mem_filter.mpr ⟨hd, rfl⟩, rfl⟩
  unfold Query.lower at h
  rw [hctx] at h
  split at h
  · cases h
  · simp only [List.isEmpty_iff] at h
    split at h
    · rename_i hnil
      rw [hnil] at hreported
      cases hreported
    · cases h

/-- The configuration of an accepted query has no fault. -/
theorem Query.faultless {q : Query Expr} {c : Config} {t : Thunk} (h : q.lower c = .ok t) :
    c.fault? = none := by
  unfold Query.lower at h
  split at h
  · cases h
  · assumption

theorem Config.rowNumber_ne_group {c : Config} (h : c.fault? = none) : c.rowNumber ≠ c.group := by
  intro heq
  unfold Config.fault? at h
  rw [if_pos heq] at h
  split at h <;> cases h

/-- An accepted query with its thunk, and those nested in it, are images under one naming. -/
theorem Query.lowered_nested {q : Query Expr} {c : Config} {t : Thunk} (h : q.lower c = .ok t) :
    ∃ s : Naming, s.config = c ∧ (∀ node, s.name node ∉ q.avoided c) ∧
      List.Forall₂ (LoweredIn s (queryDemands c [] q) (querySpelled q)) (q :: queryNested q)
        (t :: t.thunks) := by
  obtain ⟨ctx, hctx⟩ := Query.lower_ok h
  have hlowered := Lowered.ofLower hctx
  refine ⟨ctx.naming, hlowered.naming_config, hlowered.name_not_mem, ?_⟩
  rw [hlowered.image, ← hlowered.naming_config]
  exact nests_self [] q

/-! ## Demands of clauses on groups -/

/-- What the expressions of a function of groups ask for is among the demands. -/
def AskedIn (c : Config) (path : Path) (ds : List Demand) (f : RowFunction) : Prop :=
  ∀ p ∈ f.exprs, p.2.demands c f.place (.slot p.1 :: path) [] ⊆ ds

theorem AskedIn.mono {c : Config} {path : Path} {ds ds' : List Demand} {f : RowFunction}
    (h : AskedIn c path ds f) (hds : ds ⊆ ds') : AskedIn c path ds' f :=
  fun p hp => List.Subset.trans (h p hp) hds

section

variable (c : Config) (path : Path) {row : Row} {f : RowFunction}

theorem askedIn_single {slot : Slot} {e : Expr}
    (h : (Piece.single slot row none e).onGroups? = some f) :
    AskedIn c path (e.demands c ⟨some row, .plain⟩ (.slot slot :: path) []) f := by
  rw [Piece.eq_of_onGroups? h]
  exact List.forall_mem_singleton.mpr (List.Subset.refl _)

theorem askedIn_havingPieces {o : Option Expr}
    (h : f ∈ (havingPieces row o).filterMap Piece.onGroups?) :
    AskedIn c path (havingDemands c path row o) f := by
  obtain ⟨p, hp, hf⟩ := List.mem_filterMap.mp h
  cases o with
  | none => cases hp
  | some e =>
    rw [List.mem_singleton.mp hp] at hf
    exact (askedIn_single c path hf).mono (List.subset_append_right ..)

theorem askedIn_termPieces {ts : List (SortTerm Expr)} {i : Nat}
    (h : f ∈ (termPieces row i ts).filterMap Piece.onGroups?) :
    AskedIn c path (termsDemands c path row i ts) f := by
  induction ts generalizing i with
  | nil => cases h
  | cons t ts ih =>
    obtain ⟨key, direction⟩ := t
    obtain ⟨p, hp, hf⟩ := List.mem_filterMap.mp h
    rw [termsDemands.eq_def]
    rcases List.mem_cons.mp hp with rfl | hp
    · apply (askedIn_single c path hf).mono
      exact List.Subset.trans (List.subset_append_right ..) (List.subset_append_left ..)
    · exact (ih (List.mem_filterMap.mpr ⟨p, hp, hf⟩)).mono (List.subset_append_right ..)

theorem askedIn_sortingPieces {o : Option (Sorting Expr)}
    (h : f ∈ (sortingPieces row o).filterMap Piece.onGroups?) :
    AskedIn c path (sortingDemands c path row o) f := by
  cases o with
  | none => cases h
  | some sorting => exact askedIn_termPieces c path h

theorem askedIn_projectionPieces {o : Option (Projection Expr)}
    (h : f ∈ (projectionPieces row o).filterMap Piece.onGroups?) :
    AskedIn c path (projectionDemands c path row o) f := by
  obtain ⟨p, hp, hf⟩ := List.mem_filterMap.mp h
  rcases o with _ | ⟨_ | ⟨e, es⟩, pos⟩
  · cases hp
  · cases hp
  · rw [List.mem_singleton.mp hp] at hf
    rw [Piece.eq_of_onGroups? hf]
    intro p hp d hd
    rw [projectionDemands, demandsAll_eq_flatMap]
    exact List.mem_append_right _ (List.mem_flatMap.mpr ⟨p, hp, hd⟩)

end

/-- What a clause on groups asks for, its query asks for. -/
theorem Query.askedIn_onGroups {q : Query Expr} {f : RowFunction} (h : f ∈ q.onGroups)
    (c : Config) (path : Path) : AskedIn c path (queryDemands c path q) f := by
  obtain ⟨g, hgrouping, -⟩ := q.onGroups_cases h
  rw [q.onGroups_grouped hgrouping, List.filterMap_append, List.filterMap_append] at h
  obtain ⟨table, joins, filter, grouping, sorting, limit, projection, p⟩ := q
  obtain rfl : grouping = some g := hgrouping
  have hhaving : havingDemands c path (Query.groupRow ⟨table, joins, filter, some g, sorting, limit,
      projection, p⟩ g) g.having ⊆ groupingDemands c path _ (some g) :=
    List.subset_append_right ..
  rw [queryDemands]
  rcases List.mem_append.mp h with h | h
  · rcases List.mem_append.mp h with h | h
    · refine (askedIn_havingPieces c path h).mono fun d hd => ?_
      simp only [List.mem_append, hhaving hd, or_true, true_or]
    · refine (askedIn_sortingPieces c path h).mono fun d hd => ?_
      exact List.mem_append_left _ (List.mem_append_left _ (List.mem_append_right _ hd))
  · exact (askedIn_projectionPieces c path h).mono (List.subset_append_right ..)

/-- An aggregate that is read for each row must not start from the current group. -/
theorem selector_reported {c : Config} {place : Place} {path : Path} {bound : List String}
    {p : Position} {m : String} {arg : Expr} {rest : List Expr} {prior : Row}
    (hcase : place.callCase m (rest.length + 1) = .eachRow prior)
    (h : Unreported ((Expr.sequence p (.call m) (arg :: rest)).demands c place path bound)) :
    arg.root? ≠ some c.group := by
  intro hroot
  rw [Expr.demands] at h
  rw [Place.callCase] at hcase
  cases hreduction : place.reduction? m with
  | none =>
    rw [hreduction] at hcase
    cases hcase
  | some reduction =>
    obtain ⟨a, row⟩ := reduction
    rw [hreduction] at hcase h
    cases hrule : a.rule? (rest.length + 1) with
    | none => simp [hrule] at hcase
    | some rule =>
      cases rule with
      | eachRow =>
        simp only [List.length_cons, hrule, if_pos hroot, unreported_append] at h
        exact h.1.1 _ List.mem_cons_self
      | _ => simp [hrule] at hcase

/-! ## Fates in accepted queries -/

/-- Only a name that is known is fetched, and no argument of an aggregate where one is left starts
from the current group. -/
def Fate.Admissible (c : Config) (known : Bool) : Fate → Prop
  | fetched _ => known = true
  | leftInSelector _ root => root ≠ some c.group
  | left _ | leftInQuery _ => True

section

variable (s : Naming) (n : String) (known : Bool)

/-- Where an expression asks for no report, the fates of the name in it can occur. -/
def AdmitsFates (e : Expr) : Prop :=
  ∀ (place : Place) path bound, Unreported (e.demands s.config place path bound) →
    ∀ f ∈ e.fates s.config n known place, f.Admissible s.config known

variable {s n known}

theorem admitsFates_all {es : List Expr} (h : ∀ e ∈ es, AdmitsFates s n known e) {place : Place}
    {path : Path} {bound : List String} (step : Nat → Step) (i : Nat)
    (hds : Unreported (demandsAll s.config place path bound step i es)) :
    ∀ f ∈ fatesAll s.config n known place es, f.Admissible s.config known := by
  induction es generalizing i with
  | nil => exact List.forall_mem_nil _
  | cons e es ih =>
    obtain ⟨he, hes⟩ := List.forall_mem_cons.mp h
    rw [demandsAll, unreported_append] at hds
    exact List.forall_mem_append.mpr ⟨he place _ bound hds.1, ih hes (i + 1) hds.2⟩

theorem admitsFates_call {es : List Expr} (ih : ∀ e ∈ es, AdmitsFates s n known e) (p : Position)
    (m : String) : AdmitsFates s n known (.sequence p (.call m) es) := by
  intro place path bound hds
  have hform := callForm s place "" path bound false p m es
  rw [Expr.fates]
  generalize (Expr.sequence p (.call m) es).image s place "" path bound false = e at hform
  generalize hasked : (Expr.sequence p (.call m) es).demands s.config place path bound = ds at hform
  cases hform with
  | plain ds es h hcase =>
    rw [hasked, unreported_append] at hds
    rw [hcase]
    exact admitsFates_all ih .part 0 hds.2
  | allRows es prior names into h hcase =>
    rw [hcase]
    exact List.forall_mem_nil _
  | eachRow ds arg rest prior names into h hreports hcase =>
    have hroot := selector_reported hcase hds
    rw [List.length_cons, hcase]
    intro f hf
    obtain ⟨e, he, hf⟩ := List.mem_flatMap.mp hf
    split at hf
    · rw [List.mem_singleton.mp hf, List.mem_singleton.mp he]
      exact hroot
    · cases hf
  | rowsAtOnce arg rest prior names into h hcase =>
    rw [hasked] at hds
    rw [List.length_cons, hcase]
    exact ih arg List.mem_cons_self place _ bound hds

theorem admitsFates (e : Expr) : AdmitsFates s n known e := by
  induction e using Expr.written_induction with
  | literal | letIn | record | postIncrement | subquery =>
    intro place path bound _
    exact List.forall_mem_nil _
  | var p m =>
    intro place path bound _
    rw [Expr.fates]
    split
    · show ∀ f ∈ [if known then Fate.fetched p else .left p], f.Admissible s.config known
      cases known <;> simp [Fate.Admissible]
    · exact List.forall_mem_nil _
  | unary p f e ih =>
    intro place path bound hds
    exact ih place _ bound hds
  | binary p f l r ihl ihr =>
    intro place path bound hds
    rw [Expr.demands, unreported_append] at hds
    exact List.forall_mem_append.mpr ⟨ihl place _ bound hds.1, ihr place _ bound hds.2⟩
  | sequence p f es ih =>
    cases f with
    | call m => exact admitsFates_call ih p m
    | list | tuple | construct =>
      intro place path bound hds
      exact admitsFates_all ih .part 0 hds
  | method p r m es ihr ih =>
    intro place path bound hds
    rw [Expr.demands, unreported_append] at hds
    exact List.forall_mem_append.mpr ⟨ihr place _ bound hds.1, admitsFates_all ih .part 1 hds.2⟩
  | lambda p ps e ih =>
    intro place path bound hds
    rw [Expr.fates]
    split
    · exact List.forall_mem_nil _
    · exact ih place _ (ps ++ bound) hds
  | query p q hq =>
    intro place path bound _
    rw [Expr.fates]
    split
    · rename_i hattached
      intro f hf
      obtain ⟨p', -, rfl⟩ := List.mem_map.mp hf
      exact hattached.1
    · split
      · exact List.forall_mem_singleton.mpr trivial
      · exact List.forall_mem_nil _

theorem admissible_onGroup {q : Query Expr} {f : RowFunction} (h : f ∈ q.onGroups) {path : Path}
    (hds : Unreported (queryDemands s.config path q)) :
    ∀ fate ∈ f.fates s.config n known, fate.Admissible s.config known := by
  intro fate hfate
  obtain ⟨p, hp, hfate⟩ := List.mem_flatMap.mp hfate
  have hasked := Query.askedIn_onGroups h s.config path p hp
  exact admitsFates p.2 f.place _ [] (fun d hd => hds d (hasked hd)) fate hfate

end

/-! ## Functions of groups in accepted queries -/

/-- The function reads the name from outside just if an occurrence is left. Where paths are put in
place, what is left may have been replaced from outside. -/
structure Lambda.ReadsLeft (f : Lambda Expr) (c : Config) (n : String) (fates : List Fate) :
    Prop where
  left : f.Reads n → AnyLeft fates
  read : c.inlinePaths = false → AnyLeft fates → f.Reads n

section

variable {s : Naming} {ds : List Demand} {ns : List String} {q : Query Expr} {t : Thunk}

/-- The functions of groups in the thunk of a query where nothing is reported. -/
theorem LoweredIn.functions (h : LoweredIn s ds ns q t) (hds : Unreported ds) :
    ∃ node σs, Unreported (queryDemands s.config node q) ∧
      (∀ σ ∈ σs, s.config.inlinePaths = true ∧ Supplied s ns σ) ∧
        t.groupFunctions = q.onGroups.map fun f => (f.onGroup s node).substituteEach σs := by
  obtain ⟨node, σs, rfl, hσs, hdemands, -⟩ := h
  refine ⟨node, σs, fun d hd => hds d (hdemands _ hd rfl), hσs, ?_⟩
  rw [Thunk.groupFunctions_substituteEach, groupFunctions_queryImage, List.map_map]
  rfl

/-- Nothing is put in place where paths are bound in blocks. -/
theorem eq_nil_of_not_inlinePaths {σs : List (List (Binding Expr))}
    (hσs : ∀ σ ∈ σs, s.config.inlinePaths = true ∧ Supplied s ns σ)
    (hmode : s.config.inlinePaths = false) : σs = [] := by
  refine List.eq_nil_iff_forall_not_mem.mpr fun σ hσ => ?_
  have hinline := (hσs σ hσ).1
  rw [hmode] at hinline
  cases hinline

theorem LoweredIn.spelled (h : LoweredIn s ds ns q t) : ∀ n ∈ querySpelled q, n ∈ ns := by
  obtain ⟨_, _, -, -, -, hspelled, -⟩ := h
  exact hspelled

variable {f : RowFunction} (h : f ∈ q.onGroups) {n : String} (hn : Ordinary s n) {known : Bool}
  (node : Path) {σs : List (List (Binding Expr))}
  (hσs : ∀ σ ∈ σs, s.config.inlinePaths = true ∧ Supplied s ns σ)

include h hn hσs

theorem readsLeft_onGroup (htable : ∀ node, s.name node ≠ s.config.table)
    (hknown : (f.place.read? s.config "" n).isSome = known) :
    ((f.onGroup s node).substituteEach σs).ReadsLeft s.config n (f.fates s.config n known) := by
  have hreads := reads_onGroup hn htable h node hknown
  refine ⟨fun hread => ?_, fun hmode hleft => ?_⟩
  · exact hreads.mp (Lambda.reads_of_substituteEach hn.madeUp (fun σ hσ => (hσs σ hσ).2) hread)
  · rw [eq_nil_of_not_inlinePaths hσs hmode]
    exact hreads.mpr hleft

omit hσs in
theorem fetchesAt_onGroup {value : String → Expr} {path : Path}
    (hds : Unreported (queryDemands s.config path q))
    (hread : known = true → ∀ param, f.place.read? s.config param n = some (value param))
    (hvalue : ∀ param, (value param).isRename = false)
    (hfixed : ∀ σ ∈ σs, Fixed (value (f.param s node)) σ) :
    ((f.onGroup s node).substituteEach σs).FetchesAt value (f.fates s.config n known) := by
  refine ⟨f.param s node, Lambda.params_substituteEach _ σs, fun p hp => ?_⟩
  have hknown : known = true := admissible_onGroup h hds _ hp
  subst hknown
  have hfetches := fetches_onGroup hn h node (hread rfl _) (hvalue _) hp
  exact Lambda.fetches_substituteEach hfixed hfetches

end

/-! ## Names of groups -/

section

variable {q : Query Expr} {s : Naming} (havoids : ∀ node, s.name node ∉ q.avoided s.config)

include havoids

theorem madeUp_ne_table (node : Path) : s.name node ≠ s.config.table :=
  fun heq => havoids node (Query.mem_avoided.mpr (.inr (.inl heq)))

theorem madeUp_ne_spelled {n : String} (hn : n ∈ querySpelled q) (node : Path) :
    s.name node ≠ n :=
  fun heq => havoids node (Query.mem_avoided.mpr (.inl (heq ▸ hn)))

/-- No row of a group goes by a name of what is put in place. -/
theorem supplied_ne_madeUp {σ : List (Binding Expr)} (hσ : Supplied s (querySpelled q) σ)
    (node : Path) : ∀ b ∈ σ, b.name ≠ s.name node :=
  fun b hb => (madeUp_ne_spelled havoids (hσ b hb).1 node).symm

end

/-- What a clause on groups reads under a name. -/
theorem Query.read?_onGroup {q : Query Expr} {f : RowFunction} (h : f ∈ q.onGroups)
    {g : Grouping Expr} (hg : q.grouping = some g) (c : Config) (param n : String) :
    f.place.read? c param n =
      if Place.isForeign q.row n then none
      else GroupView.read? c ⟨q.joinedRow, labels g.classifiers, g.into⟩ param n := by
  rw [Query.place_onGroups h, q.row_of_grouping hg]
  rfl

/-! ## The current group -/

theorem Query.read?_group {q : Query Expr} {f : RowFunction} (h : f ∈ q.onGroups) (c : Config)
    (param : String) :
    f.place.read? c param c.group =
      if Place.isForeign q.row c.group then none else some (GroupView.current c param) := by
  obtain ⟨g, hg, -⟩ := Query.onGroups_cases h
  rw [q.read?_onGroup h hg, GroupView.read?, if_pos rfl]

/-- In an accepted query and in the queries in it, functions of groups read the identifier of the
current group from outside just if an occurrence is left: the group has nothing under it if it is a
type name and no alias, an aggregate is read for each row, or a nested query hides it. Where it is
fetched they read the rows of the group. -/
theorem currentGroup_readsLeft {q : Query Expr} {c : Config} {t : Thunk} (h : q.lower c = .ok t)
    (hspelled : c.group ∈ querySpelled q) (htable : c.group ≠ c.table) :
    List.Forall₂
      (fun q' t' =>
        List.Forall₂
          (fun clause f =>
            let fates := clause.fates c c.group (!Place.isForeign q'.row c.group)
            f.ReadsLeft c c.group fates ∧ (∀ p, .leftInSelector p (some c.group) ∉ fates) ∧
              ((c.inlinePaths = true → c.table ∉ querySpelled q) →
                f.FetchesAt (GroupView.current c) fates))
          q'.onGroups t'.groupFunctions)
      (q :: queryNested q) (t :: t.thunks) := by
  obtain ⟨s, rfl, havoids, hnested⟩ := Query.lowered_nested h
  refine hnested.imp fun q' t' hlowered => ?_
  obtain ⟨node, σs, hunreported, hσs, hfunctions⟩ := hlowered.functions (Query.unreported h)
  rw [hfunctions, List.forall₂_map_right_iff, List.forall₂_same]
  intro clause hclause fates
  have hrow := Config.rowNumber_ne_group (q.faultless h)
  have hn : Ordinary s s.config.group :=
    ⟨madeUp_ne_spelled havoids hspelled, htable, hrow.symm⟩
  have hread (param : String) := Query.read?_group hclause s.config param
  refine ⟨?_, fun p hp => ?_, fun hapart => ?_⟩
  · apply readsLeft_onGroup hclause hn node hσs (madeUp_ne_table havoids)
    rw [hread]
    cases Place.isForeign q'.row s.config.group <;> rfl
  · exact admissible_onGroup hclause hunreported _ hp rfl
  · refine fetchesAt_onGroup hclause hn node hunreported (fun hknown param => ?_) (fun _ => rfl)
      fun σ hσ => ?_
    · rw [hread, if_neg (by simpa using hknown)]
    · obtain ⟨hinline, hσ⟩ := hσs σ hσ
      rw [q'.param_onGroups hclause]
      exact fixed_current (supplied_ne_madeUp havoids hσ _)
        fun b hb heq => hapart hinline (heq ▸ (hσ b hb).1)

/-- `from x in xs groupby x.k into n select item`, or without a name for the key. -/
def groupedSelect (into : Option String) (item : Expr) : Query Expr where
  table := ⟨"x", Expr.name "xs", .nowhere⟩
  joins := []
  filter := none
  grouping := some ⟨[(Expr.name "x").field "k"], into, none, .nowhere⟩
  sorting := none
  limit := none
  projection := some ⟨[item], .nowhere⟩
  pos := .nowhere

/-- `_g` is the current group, and stands in no aggregate. -/
theorem currentGroup_readsLeft_field :
    ∃ t, (groupedSelect none ((Expr.var ⟨1, 36⟩ "_g").field "n")).lower .standard = .ok t ∧
      ∃ f ∈ t.groupFunctions, ¬f.Reads "_g" ∧
        f.FetchesAt (GroupView.current .standard) [.fetched ⟨1, 36⟩] := by
  let q := groupedSelect none ((Expr.var ⟨1, 36⟩ "_g").field "n")
  obtain ⟨t, h⟩ : ∃ t, q.lower .standard = .ok t := ⟨_, rfl⟩
  have hqueries := currentGroup_readsLeft h (by decide) (by decide)
  obtain ⟨hclauses, -⟩ := List.forall₂_cons.mp hqueries
  obtain ⟨f, fs, ⟨hreads, -, hfetches⟩, -, hfs⟩ := List.forall₂_cons_left_iff.mp hclauses
  refine ⟨t, h, f, hfs ▸ List.mem_cons_self, fun hread => ?_, hfetches nofun⟩
  obtain ⟨fate, hfate, hleft⟩ := hreads.left hread
  cases List.mem_singleton.mp hfate
  cases hleft

/-- `sum(x.v + _g.n)` is accepted on groups, and what it becomes reads `_g` from outside: only a chain
that starts from the current group is reported. -/
theorem currentGroup_unbound :
    let q := groupedSelect none (Expr.call "sum" [.binary .nowhere (.operator .add)
      ((Expr.name "x").field "v") ((Expr.name "_g").field "n")])
    (∃ t, q.lower .standard = .ok t ∧ ∃ f ∈ t.groupFunctions, f.Reads "_g") ∧
      ∃ t, q.lower .inlined = .ok t ∧ ∃ f ∈ t.groupFunctions, f.Reads "_g" := by
  let sc : Scope := [.lambda [] ["x"]]
  have hreads : ¬sc.Binds "_g" := by simp [sc, Binder.names]
  exact ⟨⟨_, rfl, _, List.mem_cons_self, by decide, sc, by decide, hreads⟩,
    ⟨_, rfl, _, List.mem_cons_self, by decide, sc, by decide, hreads⟩⟩

/-! ## The name of the key -/

/-- The name of the key is no alias, where nothing is reported. -/
theorem Query.into_not_mem_aliases {q : Query Expr} {c : Config} {path : Path}
    (hds : Unreported (queryDemands c path q)) {g : Grouping Expr} (hg : q.grouping = some g)
    {n : String} (hn : n ∈ g.into) : n ∉ q.aliases := by
  obtain ⟨cs, into, having, p⟩ := g
  obtain rfl : into = some n := hn
  obtain ⟨table, joins, filter, grouping, sorting, limit, projection, pos⟩ := q
  obtain rfl : grouping = _ := hg
  rw [queryDemands, groupingDemands] at hds
  simp only [unreported_append] at hds
  obtain ⟨⟨⟨⟨-, ⟨⟨⟨hinto, -⟩, -⟩, -⟩, -⟩, -⟩, -⟩, -⟩ := hds
  intro hmem
  rw [Row.declareDemands, aliases_joinedRow, if_pos hmem] at hinto
  exact hinto _ List.mem_cons_self

theorem Query.into_mem_declared {q : Query Expr} {g : Grouping Expr} (hg : q.grouping = some g)
    {n : String} (hn : n ∈ g.into) : n ∈ q.declared := by
  have hinto : g.into = some n := hn
  simp [Query.declared, Query.into?, hg, hinto]

theorem Query.read?_into {q : Query Expr} {f : RowFunction} (h : f ∈ q.onGroups)
    {g : Grouping Expr} (hg : q.grouping = some g) {n : String} (hn : n ∈ g.into)
    (haliases : n ∉ q.aliases) {c : Config} (hgroup : n ≠ c.group)
    (hfield : n ∉ labels g.classifiers) (param : String) :
    f.place.read? c param n =
      if Identifier.isTypeName n then none else some (GroupView.key param) := by
  have hforeign : Place.isForeign q.row n = Identifier.isTypeName n := by
    simp [Place.isForeign, aliases_row, haliases]
  have hnames : GroupView.namesKey ⟨q.joinedRow, labels g.classifiers, g.into⟩ n = true := by
    have hinto : g.into = some n := hn
    simp [GroupView.namesKey, hinto]
  have hfields : GroupView.hasField ⟨q.joinedRow, labels g.classifiers, g.into⟩ n = false := by
    simpa [GroupView.hasField] using hfield
  rw [q.read?_onGroup h hg, hforeign, GroupView.read?, if_neg hgroup, hfields, hnames]
  rfl

/-- In an accepted query and in the queries in it, functions of groups read the name of the key from
outside just if an occurrence is left: the name is a type name, an aggregate is read for each row, or
a nested query hides it. Where it is fetched they read the key. -/
theorem keyName_readsLeft {q : Query Expr} {c : Config} {t : Thunk} (h : q.lower c = .ok t) :
    List.Forall₂
      (fun q' t' =>
        ∀ g ∈ q'.grouping, ∀ n ∈ g.into, n ≠ c.group → n ≠ c.rowNumber → n ≠ c.table →
          n ∉ labels g.classifiers →
            List.Forall₂
              (fun clause f =>
                let fates := clause.fates c n (!Identifier.isTypeName n)
                f.ReadsLeft c n fates ∧ f.FetchesAt GroupView.key fates)
              q'.onGroups t'.groupFunctions)
      (q :: queryNested q) (t :: t.thunks) := by
  obtain ⟨s, rfl, havoids, hnested⟩ := Query.lowered_nested h
  refine hnested.imp fun q' t' hlowered g hg n hinto hgroup hrow htable hfield => ?_
  have hspelled : n ∈ querySpelled q :=
    hlowered.spelled n (declared_spelled (Query.into_mem_declared hg hinto))
  obtain ⟨node, σs, hunreported, hσs, hfunctions⟩ := hlowered.functions (Query.unreported h)
  have haliases := Query.into_not_mem_aliases hunreported hg hinto
  have hn : Ordinary s n := ⟨madeUp_ne_spelled havoids hspelled, htable, hrow⟩
  rw [hfunctions, List.forall₂_map_right_iff, List.forall₂_same]
  intro clause hclause fates
  have hread (param : String) :=
    Query.read?_into hclause hg hinto haliases hgroup hfield (c := s.config) param
  constructor
  · apply readsLeft_onGroup hclause hn node hσs (madeUp_ne_table havoids)
    rw [hread]
    cases Identifier.isTypeName n <;> rfl
  · refine fetchesAt_onGroup hclause hn node hunreported (fun hknown param => ?_) (fun _ => rfl)
      fun σ hσ => ?_
    · rw [hread, if_neg (by simpa using hknown)]
    · rw [q'.param_onGroups hclause]
      exact fixed_key (supplied_ne_madeUp havoids (hσs σ hσ).2 _)

/-- `key` names the key, and stands in no nested query. -/
theorem keyName_readsLeft_field :
    ∃ t, (groupedSelect (some "key") ((Expr.var ⟨1, 45⟩ "key").field "n")).lower .inlined = .ok t ∧
      ∃ f ∈ t.groupFunctions, ¬f.Reads "key" ∧ f.FetchesAt GroupView.key [.fetched ⟨1, 45⟩] := by
  let q := groupedSelect (some "key") ((Expr.var ⟨1, 45⟩ "key").field "n")
  obtain ⟨t, h⟩ : ∃ t, q.lower .inlined = .ok t := ⟨_, rfl⟩
  obtain ⟨hclauses, -⟩ := List.forall₂_cons.mp (keyName_readsLeft h)
  have hfunctions := hclauses _ rfl "key" rfl (by decide) (by decide) (by decide) (by decide)
  obtain ⟨f, fs, ⟨hreads, hfetches⟩, -, hfs⟩ := List.forall₂_cons_left_iff.mp hfunctions
  refine ⟨t, h, f, hfs ▸ List.mem_cons_self, fun hread => ?_, hfetches⟩
  obtain ⟨fate, hfate, hleft⟩ := hreads.left hread
  cases List.mem_singleton.mp hfate
  cases hleft

/-- A type name is accepted for the key, and is read from outside: it counts for no alias. -/
theorem keyName_unbound :
    let q := groupedSelect (some "G") ((Expr.name "G").field "k")
    (∃ t, q.lower .standard = .ok t ∧ ∃ f ∈ t.groupFunctions, f.Reads "G") ∧
      ∃ t, q.lower .inlined = .ok t ∧ ∃ f ∈ t.groupFunctions, f.Reads "G" := by
  have hreads := Scope.not_binds_nil "G"
  exact ⟨⟨_, rfl, _, List.mem_cons_self, by decide, [], by decide, hreads⟩,
    ⟨_, rfl, _, List.mem_cons_self, by decide, [], by decide, hreads⟩⟩

end Comprehension
