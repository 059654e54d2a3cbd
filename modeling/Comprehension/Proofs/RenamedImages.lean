import Mathlib.Data.List.Basic
import Comprehension.Proofs.LambdaParameters
import Comprehension.Proofs.Relocation
import Comprehension.Proofs.Renaming

/-!
Lowering under other names. If the nodes that ask for a name have other names, what is lowered
differs by the renaming that takes the ones to the others, wherever it stands and in both binding
modes. The renaming must keep names apart and leave alone those that the query spells and those of
the configuration.
-/

namespace Comprehension

/-- The renaming keeps names apart and leaves alone those of the table and the counter. -/
structure Respects (ρ : String → String) (c : Config) : Prop where
  injective : Function.Injective ρ
  table : ρ c.table = c.table
  counter : ρ c.counter = c.counter

/-- The names asked for below one path are renamed to those of the same nodes below the other. -/
def Carries (ρ : String → String) (names names' : Path → String) (path path' : Path)
    (ds : List Demand) : Prop :=
  ∀ rest, .name (rest ++ path) ∈ ds → names' (rest ++ path') = ρ (names (rest ++ path))

namespace Carries

variable {ρ : String → String} {names names' : Path → String} {path path' : Path}
  {ds ds' : List Demand}

theorem mono (h : Carries ρ names names' path path' ds) (hsub : ds' ⊆ ds) :
    Carries ρ names names' path path' ds' :=
  fun rest hrest => h rest (hsub hrest)

theorem deeper (h : Carries ρ names names' path path' ds) (step : Step) :
    Carries ρ names names' (step :: path) (step :: path') ds := by
  intro rest hrest
  have hnode (path : Path) : rest ++ step :: path = (rest ++ [step]) ++ path := by
    rw [List.append_assoc]
    rfl
  rw [hnode path] at hrest
  rw [hnode path, hnode path']
  exact h (rest ++ [step]) hrest

theorem append :
    Carries ρ names names' path path' (ds ++ ds') ↔
      Carries ρ names names' path path' ds ∧ Carries ρ names names' path path' ds' := by
  refine ⟨fun h => ⟨?_, ?_⟩, fun h rest hrest => ?_⟩
  · exact h.mono (List.subset_append_left ..)
  · exact h.mono (List.subset_append_right ..)
  · exact (List.mem_append.mp hrest).elim (h.1 rest) (h.2 rest)

end Carries

/-- At the place the parameter is renamed with its row, whose aliases stay. -/
structure Place.Follows (ρ : String → String) (place : Place) (param param' : String) : Prop where
  aliases : ∀ row ∈ place.row, ∀ n ∈ row.aliases, ρ n = n
  param : place.row.isSome → param' = ρ param

theorem follows_offRows (ρ : String → String) (numbering : Numbering) (param param' : String) :
    Place.Follows ρ ⟨none, numbering⟩ param param' :=
  ⟨nofun, nofun⟩

theorem follows_onRow {ρ : String → String} {row : Row} (h : ∀ n ∈ row.aliases, ρ n = n)
    (numbering : Numbering) (param : String) :
    Place.Follows ρ ⟨some row, numbering⟩ param (ρ param) := by
  refine ⟨fun r hr => ?_, fun _ => rfl⟩
  cases hr
  exact h

/-! ## Rows -/

section

variable {ρ : String → String} {c : Config}

theorem parameter_rename {row : Row} (haliases : ∀ n ∈ row.aliases, ρ n = n)
    {names names' : Path → String} {path path' : Path}
    (h : Carries ρ names names' path path' (row.nameDemands path)) :
    row.parameter names' path' = ρ (row.parameter names path) := by
  cases row with
  | table a => exact (haliases a List.mem_cons_self).symm
  | joined prior a => exact h [] List.mem_cons_self
  | grouped prior ns into => exact h [] List.mem_cons_self

theorem bindings_rename {row : Row} (haliases : ∀ n ∈ row.aliases, ρ n = n) (param : String)
    (es : List Expr) :
    row.bindings (ρ param) es = renameLocals ρ (row.bindings param es) := by
  rw [renameLocals_eq_map, Row.bindings, Row.bindings, List.map_map]
  refine List.map_congr_left fun p hp => ?_
  have hp := (List.mem_filter.mp hp).1
  have halias : p.1 ∈ row.aliases := by
    cases row with
    | joined prior a => exact (mem_addPaths hp).resolve_left List.not_mem_nil
    | _ => cases hp
  have hread := rename_read (ρ := ρ) p.2 (.name param)
  rw [Function.comp_apply, haliases p.1 halias, hread]
  rfl

theorem closeOver_rename (hρ : Function.Injective ρ) {row : Row}
    (haliases : ∀ n ∈ row.aliases, ρ n = n) {params params' : List String}
    (hparams : params' = params.map ρ) (param : String) (es : List Expr) (body : Expr) :
    row.closeOver c params' (ρ param) es (body.rename ρ) =
      (row.closeOver c params param es body).rename ρ := by
  rw [Row.closeOver, Row.closeOver, Lambda.rename, rename_bind hρ, bindings_rename haliases,
    hparams]

theorem close_rename (hρ : Function.Injective ρ) {row : Row}
    (haliases : ∀ n ∈ row.aliases, ρ n = n) (param : String) (es : List Expr) (body : Expr) :
    row.close c (ρ param) es (body.rename ρ) = (row.close c param es body).rename ρ :=
  closeOver_rename hρ haliases (show [ρ param] = [param].map ρ from rfl) param es body

/-- The record of the values, all of them renamed. -/
theorem recordOf_rename {table : String} (htable : ρ table = table) (l : NameList)
    (values : List Expr) (row : Option Expr) :
    recordOf table l (renameAll ρ values) (row.map (Expr.rename ρ)) =
      (recordOf table l values row).rename ρ := by
  have hrenamed (e : Expr) : (e.rename ρ).renamed = e.renamed.rename ρ := by
    cases e with
    | unary p f e => cases f <;> rfl
    | record p vs ns as row => cases row <;> rfl
    | _ => rfl
  have hvalues : (renameAll ρ values).map Expr.renamed = renameAll ρ (values.map Expr.renamed) := by
    simp only [renameAll_eq_map, List.map_map]
    exact List.map_congr_left fun e _ => hrenamed e
  have haccess (l : NameList) : (l.access table).rename ρ = l.access table := by
    rw [NameList.access, Expr.name, Expr.index, Expr.rename, Expr.rename, htable]
    rfl
  rw [recordOf, recordOf, hvalues]
  cases row <;> simp only [Expr.rename, haccess, Option.map]

end

/-! ## Groups -/

namespace Place

variable {ρ : String → String} {c : Config} {place : Place} {param param' : String}

theorem read?_rename (hρ : Respects ρ c) (h : place.Follows ρ param param') (n : String) :
    place.read? c param' n = (place.read? c param n).map (Expr.rename ρ) := by
  obtain ⟨_ | row, numbering⟩ := place
  · rfl
  · have hparam : param' = ρ param := h.param rfl
    have hcurrent : GroupView.current c (ρ param) = (GroupView.current c param).rename ρ := by
      simp [GroupView.current, GroupView.rows, NameList.access, Expr.send, Expr.field, Expr.name,
        Expr.index, Expr.string, Expr.pos, Expr.rename, renameAll, hρ.table]
    cases hgroup : Place.group? ⟨some row, numbering⟩ with
    | none => simp only [read?, hgroup, Option.map]
    | some view =>
      obtain ⟨row, g⟩ := view
      simp only [read?, hgroup, GroupView.read?, hparam, hcurrent]
      repeat' split
      all_goals rfl

theorem varImage_rename (hρ : Respects ρ c) (h : place.Follows ρ param param') {n : String}
    (hn : ρ n = n) (bound : List String) (p : Position) :
    place.varImage c param' bound p n = (place.varImage c param bound p n).rename ρ := by
  rw [varImage, varImage, read?_rename hρ h]
  split
  · rw [Expr.rename, hn]
  · split
    · rw [Expr.rename, hρ.counter]
    · cases place.read? c param n with
      | none => exact congrArg (Expr.var p) hn.symm
      | some e => exact (rename_withPos p e).symm

theorem readsOfGroup_rename (hρ : Respects ρ c) (h : place.Follows ρ param param')
    {free : List String} (hfree : ∀ n ∈ free, ρ n = n) (bound : List String) :
    place.readsOfGroup c param' bound free =
      renameLocals ρ (place.readsOfGroup c param bound free) := by
  rw [renameLocals_eq_map, readsOfGroup, readsOfGroup, List.map_filterMap]
  refine List.filterMap_congr fun n hn => ?_
  split
  · rfl
  · rw [read?_rename hρ h]
    cases place.read? c param n with
    | none => rfl
    | some e => simp [hfree n (mem_distinct.mp hn)]

/-- A value read from a group consults the table under the new names if it does so under the old.
-/
theorem table_mem_free_rename (hρ : Respects ρ c) {n : String} {e : Expr}
    (h : place.read? c param n = some e) :
    c.table ∈ (e.rename ρ).free ↔ c.table ∈ e.free := by
  have hparam : c.table = ρ param ↔ c.table = param := by
    conv_lhs => rw [← hρ.table]
    exact hρ.injective.eq_iff
  rcases read?_cases h with ⟨-, rfl⟩ | ⟨-, rfl | rfl⟩ <;>
    simp [GroupView.current, GroupView.rows, GroupView.key, NameList.access, Expr.send, Expr.field,
      Expr.name, Expr.index, Expr.string, Expr.rename, renameAll, Expr.free, freeAll, hparam,
      hρ.table]

theorem attach_rename (hρ : Respects ρ c) (h : place.Follows ρ param param')
    {free : List String} (hfree : ∀ n ∈ free, ρ n = n) (bound : List String) (e : Expr) :
    place.attach c param' bound free (e.rename ρ) =
      (place.attach c param bound free e).rename ρ := by
  let bs := place.readsOfGroup c param bound free
  have hfilter (p : Bool → Bool) :
      (renameLocals ρ bs).filter (fun b => p (decide (c.table ∈ b.value.free))) =
        renameLocals ρ (bs.filter fun b => p (decide (c.table ∈ b.value.free))) := by
    rw [renameLocals_eq_map, renameLocals_eq_map, List.filter_map]
    congr 1
    refine List.filter_congr fun b hb => ?_
    have hconsults := table_mem_free_rename hρ (read?_of_mem hb)
    simp only [Function.comp_apply, hconsults]
  rw [attach, attach, readsOfGroup_rename hρ h hfree, rename_bind hρ.injective,
    rename_bind hρ.injective]
  have hconsulting := hfilter id
  have hothers := hfilter (!·)
  simp only [id] at hconsulting
  rw [hconsulting, hothers]

end Place

/-! ## Expressions and clauses -/

section

variable {ρ : String → String} {c : Config} {names names' : Path → String}

variable (ρ c names names') in
/-- Wherever the expression stands, its images under the two namings differ by the renaming. -/
def Renames (e : Expr) : Prop :=
  ∀ {place param param' path path' bound} searched, (∀ n ∈ e.spelled, ρ n = n) →
    place.Follows ρ param param' →
    Carries ρ names names' path path' (e.demands c place path bound) →
      e.image ⟨c, names'⟩ place param' path' bound searched =
        (e.image ⟨c, names⟩ place param path bound searched).rename ρ

variable (ρ c names names') in
/-- The same for an expression that spells only names that stay. -/
def RenamesHere (e : Expr) : Prop :=
  ∀ {place param param' path path' bound} searched, place.Follows ρ param param' →
    Carries ρ names names' path path' (e.demands c place path bound) →
      e.image ⟨c, names'⟩ place param' path' bound searched =
        (e.image ⟨c, names⟩ place param path bound searched).rename ρ

theorem imageAll_rename {es : List Expr} (h : ∀ e ∈ es, RenamesHere ρ c names names' e)
    {place : Place} {param param' : String} (hplace : place.Follows ρ param param')
    {path path' : Path} {bound : List String} {step : Nat → Step} {i : Nat}
    (hcarries : Carries ρ names names' path path' (demandsAll c place path bound step i es)) :
    imageAll ⟨c, names'⟩ place param' path' bound step i es =
      renameAll ρ (imageAll ⟨c, names⟩ place param path bound step i es) := by
  induction es generalizing i with
  | nil => rfl
  | cons e es ih =>
    rw [demandsAll, Carries.append] at hcarries
    rw [imageAll, imageAll, renameAll,
      h e List.mem_cons_self false hplace (hcarries.1.deeper (step i)),
      ih (fun e he => h e (List.mem_cons_of_mem _ he)) hcarries.2]

variable (hρ : Respects ρ c) {path path' : Path}

include hρ

/-- A function of a row that one expression makes. -/
theorem single_rename {e : Expr} (h : RenamesHere ρ c names names' e) {row : Row}
    (haliases : ∀ n ∈ row.aliases, ρ n = n) (numbering : Numbering) (joined : List String)
    (hjoined : joined.map ρ = joined)
    (hcarries : Carries ρ names names' path path'
      (row.nameDemands path ++ e.demands c ⟨some row, numbering⟩ path [])) :
    let param := row.parameter names path
    let param' := row.parameter names' path'
    row.closeOver c (param' :: joined) param' [e]
        (e.image ⟨c, names'⟩ ⟨some row, numbering⟩ param' path' [] false) =
      (row.closeOver c (param :: joined) param [e]
        (e.image ⟨c, names⟩ ⟨some row, numbering⟩ param path [] false)).rename ρ := by
  intro param param'
  obtain ⟨hname, hbody⟩ := Carries.append.mp hcarries
  have hparam : param' = ρ param := parameter_rename haliases hname
  rw [hparam, h false (follows_onRow haliases numbering param) hbody]
  exact closeOver_rename hρ.injective haliases (by rw [List.map_cons, hjoined]) param [e] _

theorem matchImage_rename {o : Option Expr} (h : ∀ e ∈ o, RenamesHere ρ c names names' e)
    {row : Row} (haliases : ∀ n ∈ row.aliases, ρ n = n) {name : String} (hname : ρ name = name)
    (i : Nat) (kind : JoinKind) {p : Position}
    (hcarries : Carries ρ names names' path path' (matchDemands c path i row kind p o)) :
    matchImage ⟨c, names'⟩ path' i row kind name o =
      (matchImage ⟨c, names⟩ path i row kind name o).map (Lambda.rename ρ) := by
  cases o with
  | none => rfl
  | some e =>
    rw [matchDemands] at hcarries
    rw [matchImage, matchImage]
    split
    · rename_i hkind
      rw [if_pos hkind] at hcarries
      exact congrArg some (single_rename hρ (h e rfl) haliases .plain [name]
        (by rw [List.map_singleton, hname]) (hcarries.deeper (.slot (.joinOn i))))
    · rfl

theorem joinsImage_rename {js : List (Join Expr)}
    (h : ∀ j ∈ js, RenamesHere ρ c names names' j.source ∧
      ∀ e ∈ j.on, RenamesHere ρ c names names' e)
    {row : Row} (haliases : ∀ n ∈ row.aliases, ρ n = n) (hjs : ∀ j ∈ js, ρ j.name = j.name)
    {i : Nat}
    (hcarries : Carries ρ names names' path path' (joinsDemands c path i row js)) :
    joinsImage ⟨c, names'⟩ path' i row js =
      renameStages ρ (joinsImage ⟨c, names⟩ path i row js) := by
  induction js generalizing i row with
  | nil => rfl
  | cons j js ih =>
    obtain ⟨hsource, hon⟩ := h j List.mem_cons_self
    have hname := hjs j List.mem_cons_self
    have hjoined : ∀ n ∈ (row.joined j.name).aliases, ρ n = n :=
      List.forall_mem_append.mpr ⟨haliases, List.forall_mem_singleton.mpr hname⟩
    rw [joinsDemands] at hcarries
    simp only [Carries.append] at hcarries
    obtain ⟨⟨⟨-, hvalue⟩, hmatch⟩, hrest⟩ := hcarries
    rw [joinsImage, joinsImage,
      hsource false (follows_offRows ρ .plain "" "") (hvalue.deeper (.slot (.joinSource i))),
      matchImage_rename hρ hon haliases hname i j.kind hmatch,
      ih (fun j hj => h j (List.mem_cons_of_mem _ hj)) hjoined
        (fun j hj => hjs j (List.mem_cons_of_mem _ hj)) hrest]
    cases matchImage ⟨c, names⟩ path i row j.kind j.name j.on <;> rfl

theorem filterImage_rename {o : Option (Filter Expr)}
    (h : ∀ f ∈ o, RenamesHere ρ c names names' f.predicate) {row : Row}
    (haliases : ∀ n ∈ row.aliases, ρ n = n)
    (hcarries : Carries ρ names names' path path' (filterDemands c path row o)) :
    filterImage ⟨c, names'⟩ path' row o =
      renameStages ρ (filterImage ⟨c, names⟩ path row o) := by
  cases o with
  | none => rfl
  | some f =>
    exact congrArg (fun f => [Stage.filter f])
      (single_rename hρ (h f rfl) haliases .plain [] rfl (hcarries.deeper (.slot .predicate)))

theorem havingImage_rename {o : Option Expr} (h : ∀ e ∈ o, RenamesHere ρ c names names' e)
    {row : Row} (haliases : ∀ n ∈ row.aliases, ρ n = n)
    (hcarries : Carries ρ names names' path path' (havingDemands c path row o)) :
    havingImage ⟨c, names'⟩ path' row o =
      (havingImage ⟨c, names⟩ path row o).map (Lambda.rename ρ) := by
  cases o with
  | none => rfl
  | some e =>
    exact congrArg some
      (single_rename hρ (h e rfl) haliases .plain [] rfl (hcarries.deeper (.slot .having)))

theorem groupingImage_rename {o : Option (Grouping Expr)}
    (h : ∀ g ∈ o, (∀ e ∈ g.classifiers, RenamesHere ρ c names names' e) ∧
      ∀ e ∈ g.having, RenamesHere ρ c names names' e)
    {row : Row} (haliases : ∀ n ∈ row.aliases, ρ n = n)
    (hcarries : Carries ρ names names' path path' (groupingDemands c path row o)) :
    groupingImage ⟨c, names'⟩ path' row o =
      renameStages ρ (groupingImage ⟨c, names⟩ path row o) := by
  obtain _ | ⟨cs, into, having, p⟩ := o
  · rfl
  · obtain ⟨hcs, hhaving⟩ := h _ rfl
    have hgroups : Carries ρ names names' path path'
          (row.nameDemands (.slot (.classifier 0) :: path)) ∧
        Carries ρ names names' path path'
          (demandsAll c ⟨some row, .plain⟩ path [] (.slot ∘ .classifier) 0 cs) ∧
        Carries ρ names names' path path'
          (havingDemands c path (.grouped row (labels cs) into) having) := by
      cases into <;>
        (simp only [groupingDemands, Carries.append] at hcarries
         exact ⟨hcarries.1.1.2, hcarries.1.2, hcarries.2⟩)
    obtain ⟨hname, hvalues, hrest⟩ := hgroups
    let param := row.parameter names (.slot (.classifier 0) :: path)
    have hparam : row.parameter names' (.slot (.classifier 0) :: path') = ρ param :=
      parameter_rename haliases (hname.deeper (.slot (.classifier 0)))
    have hclassifiers := imageAll_rename hcs (follows_onRow haliases .plain param) hvalues
    have hhaving := havingImage_rename hρ hhaving
      (show ∀ n ∈ (Row.grouped row (labels cs) into).aliases, ρ n = n from haliases) hrest
    have hrecord := recordOf_rename hρ.table .groups
      (imageAll ⟨c, names⟩ ⟨some row, .plain⟩ param path [] (.slot ∘ .classifier) 0 cs) none
    have hfunction := close_rename (c := c) hρ.injective haliases param cs
      (NameList.groups.record c
        (imageAll ⟨c, names⟩ ⟨some row, .plain⟩ param path [] (.slot ∘ .classifier) 0 cs) none)
    rw [groupingImage, groupingImage, hparam, hclassifiers, hhaving]
    rw [NameList.record, ← hrecord] at hfunction
    cases havingImage ⟨c, names⟩ path (.grouped row (labels cs) into) having <;>
      exact congrArg (fun f => [Stage.groupBy f _]) hfunction

theorem termsImage_rename {ts : List (SortTerm Expr)}
    (h : ∀ t ∈ ts, RenamesHere ρ c names names' t.key) {row : Row}
    (haliases : ∀ n ∈ row.aliases, ρ n = n) {i : Nat}
    (hcarries : Carries ρ names names' path path' (termsDemands c path row i ts)) :
    termsImage ⟨c, names'⟩ path' row i ts =
      renameSpecs ρ (termsImage ⟨c, names⟩ path row i ts) := by
  induction ts generalizing i with
  | nil => rfl
  | cons t ts ih =>
    obtain ⟨key, direction⟩ := t
    have hterms : Carries ρ names names' path path'
          (row.nameDemands (.slot (.orderKey i) :: path) ++
            key.demands c ⟨some row, .plain⟩ (.slot (.orderKey i) :: path) []) ∧
        Carries ρ names names' path path' (termsDemands c path row (i + 1) ts) := by
      cases direction <;>
        (simp only [termsDemands, Carries.append] at hcarries ⊢
         exact ⟨⟨hcarries.1.1.2, hcarries.1.2⟩, hcarries.2⟩)
    obtain ⟨hkey, hrest⟩ := hterms
    have hfunction := single_rename hρ (h _ List.mem_cons_self) haliases .plain [] rfl
      (hkey.deeper (.slot (.orderKey i)))
    rw [termsImage, termsImage, ih (fun t ht => h t (List.mem_cons_of_mem _ ht)) hrest]
    exact congrArg (fun f => SortSpec.mk f _ :: _) hfunction

theorem sortingImage_rename {o : Option (Sorting Expr)}
    (h : ∀ s ∈ o, ∀ t ∈ s.terms, RenamesHere ρ c names names' t.key) {row : Row}
    (haliases : ∀ n ∈ row.aliases, ρ n = n)
    (hcarries : Carries ρ names names' path path' (sortingDemands c path row o)) :
    sortingImage ⟨c, names'⟩ path' row o =
      renameStages ρ (sortingImage ⟨c, names⟩ path row o) := by
  cases o with
  | none => rfl
  | some s =>
    exact congrArg (fun specs => [Stage.orderBy specs])
      (termsImage_rename hρ (h s rfl) haliases hcarries)

omit hρ in
theorem limitImage_rename {o : Option (Limit Expr)}
    (h : ∀ l ∈ o, (∀ e ∈ l.offset, RenamesHere ρ c names names' e) ∧
      RenamesHere ρ c names names' l.size)
    (hcarries : Carries ρ names names' path path' (limitDemands c path o)) :
    limitImage ⟨c, names'⟩ path' o = renameStages ρ (limitImage ⟨c, names⟩ path o) := by
  have hplace := follows_offRows ρ .plain "" ""
  obtain _ | ⟨_ | offset, size, p⟩ := o
  · rfl
  · rw [limitImage, limitImage, (h _ rfl).2 false hplace (hcarries.deeper (.slot .size))]
    rfl
  · obtain ⟨hoffset, hsize⟩ := h _ rfl
    rw [limitDemands, Carries.append] at hcarries
    rw [limitImage, limitImage,
      hoffset offset rfl false hplace (hcarries.1.deeper (.slot .offset)),
      hsize false hplace (hcarries.2.deeper (.slot .size))]
    rfl

theorem projectionImage_rename {o : Option (Projection Expr)}
    (h : ∀ p ∈ o, ∀ e ∈ p.items, RenamesHere ρ c names names' e) {row : Row}
    (haliases : ∀ n ∈ row.aliases, ρ n = n)
    (hcarries : Carries ρ names names' path path' (projectionDemands c path row o)) :
    projectionImage ⟨c, names'⟩ path' row o =
      renameStages ρ (projectionImage ⟨c, names⟩ path row o) := by
  obtain _ | ⟨_ | ⟨e, es⟩, p⟩ := o
  · rfl
  · rfl
  · rw [projectionDemands, if_neg (by simp), Carries.append] at hcarries
    let param := row.parameter names (.slot (.item 0) :: path)
    have hparam : row.parameter names' (.slot (.item 0) :: path') = ρ param :=
      parameter_rename haliases (hcarries.1.deeper (.slot (.item 0)))
    have hitems := imageAll_rename (h _ rfl) (follows_onRow haliases .counted param) hcarries.2
    have hrecord := recordOf_rename hρ.table .selected
      (imageAll ⟨c, names⟩ ⟨some row, .counted⟩ param path [] (.slot ∘ .item) 0 (e :: es))
      (some (.name param))
    have hfunction {body body' : Expr} (hbody : body' = body.rename ρ) :
        row.close c (ρ param) (e :: es) body' = (row.close c param (e :: es) body).rename ρ :=
      hbody ▸ close_rename hρ.injective haliases param (e :: es) body
    rw [← hitems] at hrecord
    rw [projectionImage, projectionImage, hparam]
    refine congrArg (fun f => [Stage.select f]) (hfunction ?_)
    split
    · exact hrecord
    · exact (List.cons.inj hitems).1

theorem queryImage_rename {q : Query Expr} (h : q.Each (Renames ρ c names names'))
    (hspelled : ∀ n ∈ querySpelled q, ρ n = n)
    (hcarries : Carries ρ names names' path path' (queryDemands c path q)) :
    queryImage ⟨c, names'⟩ path' q = (queryImage ⟨c, names⟩ path q).rename ρ := by
  have hhere : q.Each (RenamesHere ρ c names names') :=
    h.and (each_spelled q) fun e he hns _ _ _ _ _ _ searched =>
      he searched fun n hn => hspelled n (hns n hn)
  have hdeclared {n : String} (hn : n ∈ q.aliases) : ρ n = n :=
    hspelled n (declared_spelled (List.mem_append_left _ hn))
  have hjoined : ∀ n ∈ q.joinedRow.aliases, ρ n = n :=
    fun n hn => hdeclared (aliases_joinedRow q ▸ hn)
  have hrow : ∀ n ∈ q.row.aliases, ρ n = n := fun n hn => hdeclared (aliases_row q ▸ hn)
  have htable : ∀ n ∈ (Row.table q.table.name).aliases, ρ n = n :=
    List.forall_mem_singleton.mpr (hdeclared List.mem_cons_self)
  rw [queryDemands] at hcarries
  simp only [Carries.append] at hcarries
  obtain ⟨⟨⟨⟨⟨⟨hsource, hjoins⟩, hfilter⟩, hgrouping⟩, hsorting⟩, hlimit⟩, hprojection⟩ := hcarries
  rw [queryImage, queryImage,
    hhere.source false (follows_offRows ρ .plain "" "") (hsource.deeper (.slot .source)),
    joinsImage_rename hρ hhere.joins htable
      (fun j hj => hdeclared (List.mem_cons_of_mem _ (List.mem_map_of_mem hj))) hjoins,
    filterImage_rename hρ hhere.filter hjoined hfilter,
    groupingImage_rename hρ hhere.grouping hjoined hgrouping,
    sortingImage_rename hρ hhere.sorting hrow hsorting, limitImage_rename hhere.limit hlimit,
    projectionImage_rename hρ hhere.projection hrow hprojection, countsRows_path c q path' path]
  simp only [Thunk.rename, Pipeline.rename, renameStages_append, List.map_cons,
    Declaration.rename, hρ.table]
  cases countsRows c path q
  · rfl
  · simp only [if_true, List.map_cons, Declaration.rename, hρ.counter, List.map_nil]

theorem call_rename {es : List Expr} (h : ∀ e ∈ es, RenamesHere ρ c names names' e) (p : Position)
    (n : String) : RenamesHere ρ c names names' (.sequence p (.call n) es) := by
  intro place param param' path path' bound searched hplace hcarries
  have hform := callForm ⟨c, names⟩ place param path bound searched p n es
  have hform' := callForm ⟨c, names'⟩ place param' path' bound searched p n es
  generalize (Expr.sequence p (.call n) es).image ⟨c, names⟩ place param path bound searched = e
    at hform ⊢
  generalize (Expr.sequence p (.call n) es).image ⟨c, names'⟩ place param' path' bound searched = e'
    at hform' ⊢
  generalize (Expr.sequence p (.call n) es).demands c place path bound = ds at hform hcarries
  generalize (Expr.sequence p (.call n) es).demands c place path' bound = ds' at hform'
  have hrows {prior ns into} (hrow : place.row = some (.grouped prior ns into)) :
      GroupView.rows param' = (GroupView.rows param).rename ρ := by
    have hparam : param' = ρ param := hplace.param (by rw [hrow]; rfl)
    rw [hparam]
    rfl
  -- Both images take the same form, as the form depends on the place alone.
  cases hform with
  | plain ds es _ hcase =>
    cases hform' with
    | plain => rw [imageAll_rename h hplace (Carries.append.mp hcarries).2]; rfl
    | allRows _ _ _ _ _ hcase' => cases hcase.symm.trans hcase'
    | eachRow _ _ _ _ _ _ _ _ hcase' => cases hcase.symm.trans hcase'
    | rowsAtOnce _ _ _ _ _ _ hcase' => cases hcase.symm.trans hcase'
  | allRows es prior ns into hrow hcase =>
    cases hform' with
    | plain _ _ _ hcase' => cases hcase.symm.trans hcase'
    | allRows => rw [hrows hrow]; rfl
    | eachRow _ _ _ _ _ _ _ _ hcase' => cases hcase.symm.trans hcase'
    | rowsAtOnce _ _ _ _ _ _ hcase' => cases hcase.symm.trans hcase'
  | eachRow ds arg rest prior ns into hrow _ hcase =>
    cases hform' with
    | plain _ _ _ hcase' => cases hcase.symm.trans hcase'
    | allRows _ _ _ _ _ hcase' => cases hcase.symm.trans hcase'
    | eachRow _ _ _ prior' _ _ _ _ hcase' =>
      cases hcase.symm.trans hcase'
      have hprior : ∀ n ∈ prior.aliases, ρ n = n := hplace.aliases (.grouped prior ns into) hrow
      have hfunction := single_rename hρ (h arg List.mem_cons_self) hprior place.numbering [] rfl
        ((Carries.append.mp hcarries).2.deeper (.part 0))
      rw [hrows hrow]
      exact congrArg (fun f => Expr.method p _ n [.lambda arg.pos f]) hfunction
    | rowsAtOnce _ _ _ _ _ _ hcase' => cases hcase.symm.trans hcase'
  | rowsAtOnce arg rest prior ns into hrow hcase =>
    cases hform' with
    | plain _ _ _ hcase' => cases hcase.symm.trans hcase'
    | allRows _ _ _ _ _ hcase' => cases hcase.symm.trans hcase'
    | eachRow _ _ _ _ _ _ _ _ hcase' => cases hcase.symm.trans hcase'
    | rowsAtOnce =>
      rw [hrows hrow, h arg List.mem_cons_self false hplace (hcarries.deeper (.part 0))]
      rfl

theorem renames (e : Expr) : Renames ρ c names names' e := by
  induction e using Expr.written_induction with
  | literal | letIn | record | postIncrement | subquery =>
    intro place param param' path path' bound searched _ _ _
    rfl
  | var p n =>
    intro place param param' path path' bound searched hspelled hplace _
    exact place.varImage_rename hρ hplace (hspelled n List.mem_cons_self) bound p
  | unary p f e ih =>
    intro place param param' path path' bound searched hspelled hplace hcarries
    rw [Expr.image, Expr.image, ih false hspelled hplace (hcarries.deeper (.part 0))]
    rfl
  | binary p f l r ihl ihr =>
    intro place param param' path path' bound searched hspelled hplace hcarries
    rw [Expr.spelled, List.forall_mem_append] at hspelled
    rw [Expr.demands, Carries.append] at hcarries
    have hl := ihl false hspelled.1 hplace (hcarries.1.deeper (.part 0))
    have hr searched := ihr searched hspelled.2 hplace (hcarries.2.deeper (.part 1))
    cases f <;> simp only [Expr.image, hl, hr, Expr.rename]
  | sequence p f es ih =>
    intro place param param' path path' bound searched hspelled hplace hcarries
    have hhere : ∀ e ∈ es, RenamesHere ρ c names names' e :=
      fun e he _ _ _ _ _ _ searched =>
        ih e he searched fun n hn => hspelled n (mem_spelledAll.mpr ⟨e, he, hn⟩)
    cases f with
    | call n =>
      exact call_rename hρ hhere p n searched hplace hcarries
    | list | tuple | construct =>
      simp only [Expr.image, imageAll_rename hhere hplace hcarries, Expr.rename]
  | method p r n es ihr ih =>
    intro place param param' path path' bound searched hspelled hplace hcarries
    rw [Expr.spelled, List.forall_mem_append] at hspelled
    rw [Expr.demands, Carries.append] at hcarries
    have hhere : ∀ e ∈ es, RenamesHere ρ c names names' e :=
      fun e he _ _ _ _ _ _ searched =>
        ih e he searched fun n hn => hspelled.2 n (mem_spelledAll.mpr ⟨e, he, hn⟩)
    rw [Expr.image, Expr.image, ihr false hspelled.1 hplace (hcarries.1.deeper (.part 0)),
      imageAll_rename hhere hplace hcarries.2]
    rfl
  | lambda p ps e ih =>
    intro place param param' path path' bound searched hspelled hplace hcarries
    rw [Expr.spelled, List.forall_mem_append] at hspelled
    have hparams : ps.map ρ = ps := (List.map_congr_left hspelled.1).trans (List.map_id ps)
    rw [Expr.image, Expr.image, ih false hspelled.2 hplace (hcarries.deeper (.part 0)), Expr.rename,
      hparams]
  | query p q hq =>
    intro place param param' path path' bound searched hspelled hplace hcarries
    have hasked : Carries ρ names names' path path' (queryDemands c path q) :=
      fun rest hrest => hcarries rest (List.mem_filter.mpr ⟨hrest, rfl⟩)
    have hfree : ∀ n ∈ queryFree q, ρ n = n :=
      fun n hn => hspelled n (queryFree_subset_spelled q hn)
    rw [Expr.image, Expr.image, queryImage_rename hρ hq hspelled hasked,
      ← place.attach_rename hρ hplace hfree]
    cases searched <;> rfl

end

end Comprehension
