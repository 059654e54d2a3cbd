import Comprehension.Proofs.Arguments
import Comprehension.Proofs.BindingModes
import Comprehension.Proofs.GroupNames
import Comprehension.Proofs.OwnParts
import Comprehension.Proofs.Runs

/-!
Name tables and records. A thunk first declares a table with the names of the aliases, of the fields of
the key and of the selected fields. Where it makes a record, the record looks its names up in that
table, and holds one value for each of them, in their order.
-/

namespace Comprehension

/-! ## Tables -/

/-- The names of the fields of the key; without `groupby` there are none. -/
def Query.groupNames (q : Query Expr) : List String :=
  match q.grouping with
  | some g => labels g.classifiers
  | none => []

def Query.selectedNames (q : Query Expr) : List String :=
  match q.selection? with
  | some es => labels es
  | none => []

theorem Query.entries_nameTable (q : Query Expr) :
    q.nameTable.entries =
      [(.aliases, q.aliases), (.groups, q.groupNames), (.selected, q.selectedNames)] := by
  rw [nameTable, groupNames, selectedNames, selection?]
  cases q.grouping <;> rcases q.projection with _ | ⟨_ | ⟨e, es⟩, p⟩ <;> rfl

/-! ## Records -/

/-- The expression under the `let` block in front of it. -/
def Expr.underLet : Expr → Expr
  | .letIn _ _ e => e
  | e => e

/-- `table['key']`. -/
def Expr.keyed (table key : String) : Expr :=
  .binary .nowhere .index (.var .nowhere table) (.literal .nowhere (.string key))

/-- A record whose names stand under the key, with one value for each expression. A value stands
where its expression stood. -/
def Expr.RecordsUnder (table key : String) (es : List Expr) (row : Option String) (e : Expr) :
    Prop :=
  ∃ p values, e = .record p values (.keyed table key) (.keyed table "aliasNameList")
      (row.map (.var .nowhere)) ∧
    List.Forall₂ (fun e v => v.pos = e.renamed.pos) es values

/-- What a thunk declares of its names is what its records hold. -/
structure Documents (c : Config) (q : Query Expr) (t : Thunk) : Prop where
  table : ∃ names, t.declarations.head? = some (.table c.table names) ∧
    names.entries =
      [(.aliases, q.aliases), (.groups, q.groupNames), (.selected, q.selectedNames)] ∧
    names.entries.map (·.1.key) = ["aliasNameList", "groupNameList", "selectNameList"]
  classifier : List.Forall₂
    (fun g f => f.body.underLet.RecordsUnder c.table "groupNameList" g.classifiers none)
    q.grouping.toList t.classifiers
  projector : List.Forall₂
    (fun es f =>
      if wantsRecord es then
        ∃ param, f.params = [param] ∧
          f.body.underLet.RecordsUnder c.table "selectNameList" es (some param)
      else ∃ e, es = [e] ∧ f.body.pos = e.pos)
    q.selection?.toList t.projectors

theorem pos_renamed_image (s : Naming) (place : Place) (param : String) (path : Path)
    (bound : List String) (e : Expr) :
    (e.image s place param path bound false).renamed.pos = e.renamed.pos := by
  obtain ⟨path', himage⟩ := e.renamed_image s place param path bound
  rw [himage, pos_image]

theorem forall₂_numbered {R : Expr → Expr → Prop} {g : Slot × Expr → Expr}
    (h : ∀ p, R p.2 (g p)) (slot : Nat → Slot) (i : Nat) (es : List Expr) :
    List.Forall₂ R es ((numbered slot i es).map g) := by
  induction es generalizing i with
  | nil => exact .nil
  | cons e es ih => exact .cons (h (slot i, e)) (ih (i + 1))

/-- The record of a function of numbered expressions. -/
theorem recordsUnder_value (s : Naming) (path : Path) {f : RowFunction} {keeps : Bool}
    (hrecord : f.record = some keeps) {slot : Nat → Slot} {es : List Expr}
    (hexprs : f.exprs = numbered slot 0 es) :
    (f.value s path).RecordsUnder s.config.table
      (if keeps then "selectNameList" else "groupNameList") es
      (if keeps then some (f.param s path) else none) := by
  rw [RowFunction.value_of_record s path hrecord, hexprs]
  refine ⟨.nowhere, _, by cases keeps <;> rfl, ?_⟩
  rw [List.map_map]
  exact forall₂_numbered (fun p => pos_renamed_image ..) slot 0 es

/-! ### Bindings -/

section

variable {σ : List (Binding Expr)} {table key : String} {es : List Expr} {row : Option String}
  {e : Expr}

theorem substitute_name {n : String} (h : n ∉ σ.map (·.name)) :
    (Expr.name n).substitute σ = .name n := by
  rw [Expr.name, Expr.substitute, valueOf?_eq_none.mpr h]

/-- Bindings of other names than the table and the row. -/
theorem Expr.RecordsUnder.substitute (h : e.RecordsUnder table key es row)
    (htable : table ∉ σ.map (·.name)) (hrow : ∀ n ∈ row, n ∉ σ.map (·.name)) :
    (e.substitute σ).RecordsUnder table key es row := by
  obtain ⟨p, values, rfl, hvalues⟩ := h
  have hkeyed (key : String) : (Expr.keyed table key).substitute σ = .keyed table key :=
    congrArg (Expr.binary .nowhere .index · (Expr.string key)) (substitute_name htable)
  refine ⟨p, substituteAll σ values, ?_, ?_⟩
  · cases row with
    | none => rw [Option.map_none, Expr.substitute, hkeyed, hkeyed]
    | some n =>
      rw [Option.map_some, Expr.substitute, hkeyed, hkeyed, ← Expr.name,
        substitute_name (hrow n rfl)]
  · rw [substituteAll_eq_map, List.forall₂_map_right_iff]
    exact hvalues.imp fun e v hpos => (pos_substitute σ v).trans hpos

theorem recordsUnder_bind (h : e.RecordsUnder table key es row)
    (htable : table ∉ σ.map (·.name)) (hrow : ∀ n ∈ row, n ∉ σ.map (·.name)) (inline : Bool) :
    (bind σ e inline).underLet.RecordsUnder table key es row := by
  have hrecord {e : Expr} (h : e.RecordsUnder table key es row) :
      e.underLet.RecordsUnder table key es row := by
    obtain ⟨p, values, rfl, hvalues⟩ := h
    exact ⟨p, values, rfl, hvalues⟩
  rcases bind_cases σ e inline with heq | ⟨-, heq⟩ | heq
  · rw [heq]
    exact hrecord h
  · rw [heq]
    exact hrecord (h.substitute htable hrow)
  · rw [heq]
    exact h

/-- The block in front of the record is gone into as well. -/
theorem Expr.RecordsUnder.substitute_underLet (h : e.underLet.RecordsUnder table key es row)
    (htable : table ∉ σ.map (·.name)) (hrow : ∀ n ∈ row, n ∉ σ.map (·.name)) :
    (e.substitute σ).underLet.RecordsUnder table key es row := by
  have hwithout (ps : List String) : (without ps σ).map (·.name) ⊆ σ.map (·.name) :=
    List.map_subset _ fun _ hb => mem_of_mem_without hb
  cases e with
  | letIn p bs e =>
    exact RecordsUnder.substitute h (fun hmem => htable (hwithout _ hmem))
      fun n hn hmem => hrow n hn (hwithout _ hmem)
  | record p vs ns as r =>
    obtain ⟨p', values, heq, hvalues⟩ := RecordsUnder.substitute h htable hrow
    rw [show (Expr.record p vs ns as r).underLet.substitute σ =
      (Expr.record p vs ns as r).substitute σ from rfl] at heq
    rw [heq]
    exact ⟨p', values, rfl, hvalues⟩
  | _ =>
    obtain ⟨p', values, heq, -⟩ := h
    cases heq

theorem recordsUnder_substituteEach {f : Lambda Expr}
    (h : f.body.underLet.RecordsUnder table key es row) (hrow : ∀ n ∈ row, n ∈ f.params)
    {σs : List (List (Binding Expr))} (htable : ∀ σ ∈ σs, table ∉ σ.map (·.name)) :
    (f.substituteEach σs).body.underLet.RecordsUnder table key es row := by
  induction σs generalizing f with
  | nil => exact h
  | cons σ σs ih =>
    obtain ⟨hσ, hσs⟩ := List.forall_mem_cons.mp htable
    refine ih (Expr.RecordsUnder.substitute_underLet h ?_ fun n hn => ?_) hrow hσs
    · rw [← valueOf?_eq_none, valueOf?_without, valueOf?_eq_none.mpr hσ, ite_self]
    · rw [← valueOf?_eq_none, valueOf?_without, if_pos (hrow n hn)]

theorem Lambda.pos_substituteEach (f : Lambda Expr) (σs : List (List (Binding Expr))) :
    (f.substituteEach σs).body.pos = f.body.pos := by
  induction σs generalizing f with
  | nil => rfl
  | cons σ σs ih => exact (ih (f.substitute σ)).trans (Expr.pos_substitute _ f.body)

end

/-! ## Queries -/

section

variable {s : Naming} {q : Query Expr} (havoids : ∀ node, s.name node ∉ q.avoided s.config)
  (htable : s.config.table ∉ querySpelled q)

include havoids htable

/-- Bindings of names that the query spells leave the table and made-up names alone. -/
theorem Supplied.leaves {σ : List (Binding Expr)} (h : Supplied s (querySpelled q) σ) :
    s.config.table ∉ σ.map (·.name) ∧ ∀ node, s.name node ∉ σ.map (·.name) := by
  have hnames : ∀ n ∈ σ.map (·.name), n ∈ querySpelled q :=
    List.forall_mem_map.mpr fun b hb => (h b hb).1
  exact ⟨fun hmem => htable (hnames _ hmem),
    fun node hmem => madeUp_ne_spelled havoids (hnames _ hmem) node rfl⟩

/-- The record in the function of a row, whose paths are bound to the parameter. -/
theorem recordsUnder_lambda {f : RowFunction} (hfree : ∀ n ∈ freeAll (f.exprs.map (·.2)),
      n ∈ querySpelled q) (node : Path) {key : String} {es : List Expr} {keeps : Bool}
    (h : (f.value s node).RecordsUnder s.config.table key es
      (if keeps then some (f.param s node) else none)) :
    (f.lambda s node).body.underLet.RecordsUnder s.config.table key es
      (if keeps then some (f.param s node) else none) := by
  have hsupplied := supplied_bindings s f.row (.slot f.slot :: node) hfree
  obtain ⟨hleaves, hmadeUp⟩ := hsupplied.leaves havoids htable
  refine recordsUnder_bind h hleaves (fun n hn => ?_) s.config.inlinePaths
  have hparam : n = f.param s node := by
    cases keeps with
    | false => cases hn
    | true => exact (Option.some.inj hn).symm
  subst hparam
  cases hrow : f.row with
  | joined prior a =>
    have hname : f.param s node = s.name (.slot f.slot :: node) := by rw [RowFunction.param, hrow]; rfl
    rw [hname, ← hrow]
    exact hmadeUp _
  | _ => exact List.not_mem_nil

theorem documents_queryImage {q' : Query Expr} (hspelled : ∀ n ∈ querySpelled q', n ∈ querySpelled q)
    (node : Path) : Documents s.config q' (queryImage s node q') := by
  have hfree {es : List Expr} (hes : ∀ e ∈ es, ∀ n ∈ e.spelled, n ∈ querySpelled q') :
      ∀ n ∈ freeAll es, n ∈ querySpelled q := by
    intro n hn
    obtain ⟨e, he, hmem⟩ := mem_spelledAll.mp (freeAll_subset_spelled es hn)
    exact hspelled n (hes e he n hmem)
  constructor
  · refine ⟨q'.nameTable, ?_, q'.entries_nameTable, ?_⟩
    · rw [declarations_queryImage, List.head?_cons]
    · rw [q'.entries_nameTable]
      rfl
  · rw [classifiers_queryImage, Query.classifier?]
    cases hgrouping : q'.grouping with
    | none => exact .nil
    | some g =>
      refine .cons ?_ .nil
      have hspelled := ((each_spelled q').grouping g hgrouping).1
      have hrecord : (keyFunction q'.joinedRow g.classifiers).record = some false := rfl
      have hvalue := recordsUnder_value s node hrecord rfl
      refine recordsUnder_lambda havoids htable (hfree ?_) node hvalue
      rwa [show (keyFunction q'.joinedRow g.classifiers).exprs.map (·.2) = g.classifiers from
        numbered_exprs ..]
  · rw [projectors_queryImage, Query.projector?]
    cases hselection : q'.selection? with
    | none => exact .nil
    | some es =>
      obtain ⟨p, hprojection⟩ := Query.projection_of_selection? hselection
      have hspelled := (each_spelled q').projection _ hprojection
      refine .cons ?_ .nil
      cases hrecord : wantsRecord es with
      | true =>
        have hrecord : (selectFunction q'.row es).record = some true := if_pos hrecord
        have hexprs : (selectFunction q'.row es).exprs.map (·.2) = es := numbered_exprs ..
        have hvalue := recordsUnder_value s node hrecord rfl
        have hrecords := recordsUnder_lambda havoids htable (hfree (hexprs.symm ▸ hspelled)) node
          hvalue
        exact ⟨_, rfl, hrecords⟩
      | false =>
        obtain ⟨e, rfl⟩ := eq_singleton_of_not_wantsRecord hrecord
        have hvalue := RowFunction.value_of_single s node (f := selectFunction q'.row [e])
          (p := (.item 0, e)) (if_neg (by simp [hrecord])) rfl
        refine ⟨e, rfl, ?_⟩
        change (bind _ ((selectFunction q'.row [e]).value s node) _).pos = e.pos
        rw [pos_bind, hvalue]
        exact pos_image ..

end

/-- What is put in place in a thunk changes nothing of the names in it. -/
theorem Documents.substituteEach {c : Config} {q : Query Expr} {t : Thunk} (h : Documents c q t)
    {σs : List (List (Binding Expr))} (htable : ∀ σ ∈ σs, c.table ∉ σ.map (·.name)) :
    Documents c q (t.substituteEach σs) := by
  constructor
  · rw [Thunk.declarations_substituteEach]
    exact h.table
  · rw [Thunk.classifiers_substituteEach, List.forall₂_map_right_iff]
    exact h.classifier.imp fun g f hrecords =>
      recordsUnder_substituteEach hrecords (by simp) htable
  · rw [Thunk.projectors_substituteEach, List.forall₂_map_right_iff]
    refine h.projector.imp fun es f hvalue => ?_
    cases hrecord : wantsRecord es with
    | true =>
      rw [if_pos hrecord] at hvalue
      obtain ⟨param, hparams, hrecords⟩ := hvalue
      refine ⟨param, (Lambda.params_substituteEach f σs).trans hparams,
        recordsUnder_substituteEach hrecords (fun n hn => ?_) htable⟩
      rw [hparams]
      exact List.mem_singleton.mpr (Option.some.inj hn).symm
    | false =>
      rw [hrecord] at hvalue
      obtain ⟨e, rfl, hpos⟩ := hvalue
      exact ⟨e, rfl, (Lambda.pos_substituteEach f σs).trans hpos⟩

/-- The thunk of a query, and the thunks of its nested queries at every depth, document their
records. However the lowering of a nested query ends, it leaves the tables of the queries around it
as they were. -/
theorem tables_document_records {q : Query Expr} {c : Config} {node : Path} {t : Thunk}
    {ctx : Context} (h : Run.lower node q (Context.new c) = (.ok t, ctx))
    (htable : c.table ∉ q.identifiers) :
    List.Forall₂ (Documents c) (q :: queryNested q) (t :: t.thunks) ∧
      ∀ node' q' ctx', (queryRun node' q' ctx').2.frames.map (·.table) =
        ctx'.frames.map (·.table) := by
  have hlowered := Lowered.ofLower (Run.lower_ok h)
  obtain ⟨hconfig, rfl⟩ := Context.lower_image (Run.lower_ok h)
  obtain rfl : ctx.naming.config = c := hconfig
  have hspelled : ctx.naming.config.table ∉ querySpelled q := by
    rwa [Query.identifiers, mem_distinct] at htable
  refine ⟨(nests_self node q).imp fun q' t' hnested => ?_, fun node' q' ctx' => ?_⟩
  · have hspelled' := hnested.spelled
    obtain ⟨node', σs, rfl, hσs, -⟩ := hnested
    exact (documents_queryImage hlowered.name_not_mem hspelled hspelled' node').substituteEach
      fun σ hσ => ((hσs σ hσ).2.leaves hlowered.name_not_mem hspelled).1
  · have hframes : (queryRun node' q' ctx').2.frames = ctx'.frames := by
      rw [queryRun_eq]
      exact Context.perform_frames (by simp [Demand.outlivesQuery])
    rw [hframes]

/-- `from x in xs cross join y in ys groupby x.k, y.j select k, sum(y.v) as total`. -/
def keyedTotals : Query Expr where
  table := ⟨"x", Expr.name "xs", .nowhere⟩
  joins := [⟨.cross, "y", Expr.name "ys", none, .nowhere⟩]
  filter := none
  grouping := some ⟨[(Expr.name "x").field "k", (Expr.name "y").field "j"], none, none, .nowhere⟩
  sorting := none
  limit := none
  projection := some ⟨[.var ⟨1, 54⟩ "k", .unary ⟨1, 57⟩ (.rename "total")
    (Expr.call "sum" [(Expr.name "y").field "v"])], .nowhere⟩
  pos := .nowhere

theorem tables_document_records_keyedTotals :
    ∃ t ctx, Run.lower [] keyedTotals (Context.new .standard) = (.ok t, ctx) ∧
      Documents .standard keyedTotals t ∧ keyedTotals.groupNames = ["k", "j"] ∧
        keyedTotals.selectedNames = ["k", "total"] := by
  obtain ⟨t, ctx, h⟩ : ∃ t ctx, (Context.new .standard).lower [] keyedTotals = (.ok t, ctx) :=
    ⟨_, _, rfl⟩
  have hrun : Run.lower [] keyedTotals (Context.new .standard) = (.ok t, ctx) := by
    rw [Run.lower_eq, h]
    rfl
  have hdocuments := (tables_document_records hrun (by decide)).1
  exact ⟨t, ctx, hrun, (List.forall₂_cons.mp hdocuments).1, by decide, by decide⟩

end Comprehension
