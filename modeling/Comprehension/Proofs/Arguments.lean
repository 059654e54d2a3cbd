import Comprehension.Proofs.GroupFunctions

/-!
Arguments of calls. Each call of a chain is given values and functions. They are the images of the
pieces of the query, so that what holds of an image holds of the arguments; the function that `select`
is given stands apart from the others. In the thunks of nested queries the paths that are put in place
go into the arguments.
-/

namespace Comprehension

/-! ## Functions of rows -/

namespace RowFunction

variable (s : Naming) (path : Path) (f : RowFunction)

/-- What the function computes, before paths are bound. -/
def value : Expr :=
  let images := f.exprs.map (f.image s path)
  match f.record with
  | some true => NameList.selected.record s.config images (some (.name (f.param s path)))
  | some false => NameList.groups.record s.config images none
  | none => images.headD (.literal .nowhere .null)

/-- The function of a row that the clause becomes. -/
def lambda : Lambda Expr :=
  f.row.closeOver s.config (f.param s path :: f.joined.toList) (f.param s path)
    (f.exprs.map (·.2)) (f.value s path)

/-- Without a record there is one expression. -/
def WellFormed : Prop := f.record = none → ∃ p, f.exprs = [p]

variable {f}

theorem value_of_record {keeps : Bool} (h : f.record = some keeps) :
    f.value s path =
      (if keeps then NameList.selected else .groups).record s.config (f.exprs.map (f.image s path))
        ((if keeps then some (f.param s path) else none).map Expr.name) := by
  rw [value, h]
  cases keeps <;> rfl

theorem value_of_single {p : Slot × Expr} (hrecord : f.record = none) (h : f.exprs = [p]) :
    f.value s path = f.image s path p := by
  rw [value, hrecord, h]
  rfl

/-- What is found in the value is found in the images of the expressions. -/
theorem walk_value (h : f.WellFormed) : (f.value s path).walk = f.body s path := by
  cases hrecord : f.record with
  | none =>
    obtain ⟨p, hp⟩ := h hrecord
    rw [value_of_single s path hrecord hp, body, extras, hrecord, hp]
    simp [reads]
  | some keeps =>
    rw [value_of_record s path hrecord]
    refine f.walk_record s path _ _ ?_
    rw [extras, hrecord]
    cases keeps <;> rfl

end RowFunction

/-- The argument that the piece becomes. -/
def Piece.argument (s : Naming) (path : Path) : Piece → Argument
  | value slot e => .value (e.image s ⟨none, .plain⟩ "" (.slot slot :: path) [] false)
  | function f => .lambda (f.lambda s path)

/-- The function of the key of a group. -/
def keyFunction (row : Row) (cs : List Expr) : RowFunction :=
  ⟨.classifier 0, row, none, .plain, numbered .classifier 0 cs, some false⟩

def Query.classifier? (q : Query Expr) : Option RowFunction :=
  q.grouping.map fun g => keyFunction q.joinedRow g.classifiers

/-- The selected expressions, unless nothing is selected. -/
def Query.selection? (q : Query Expr) : Option (List Expr) :=
  match q.projection with
  | some ⟨e :: es, _⟩ => some (e :: es)
  | some ⟨[], _⟩ | none => none

theorem Query.projection_of_selection? {q : Query Expr} {es : List Expr}
    (h : q.selection? = some es) : ∃ p, q.projection = some ⟨es, p⟩ := by
  rw [selection?] at h
  rcases hopt : q.projection with _ | ⟨_ | ⟨e, es⟩, p⟩
  · simp [hopt] at h
  · simp [hopt] at h
  · rw [hopt] at h
    cases h
    exact ⟨p, rfl⟩

/-- The function of the selected value. -/
def selectFunction (row : Row) (es : List Expr) : RowFunction :=
  ⟨.item 0, row, none, .counted, numbered .item 0 es, if wantsRecord es then some true else none⟩

def Query.projector? (q : Query Expr) : Option RowFunction :=
  q.selection?.map (selectFunction q.row)

/-- The pieces that come before the selected values. -/
def Query.piecesBefore (q : Query Expr) : List Piece :=
  .value .source q.table.source ::
    (joinPieces 0 (.table q.table.name) q.joins ++ filterPieces q.joinedRow q.filter ++
      groupingPieces q.joinedRow q.grouping ++ sortingPieces q.row q.sorting ++
      limitPieces q.limit)

theorem Query.projectionPieces_eq (q : Query Expr) :
    projectionPieces q.row q.projection = q.projector?.toList.map .function := by
  rw [Query.projector?, Query.selection?]
  rcases q.projection with _ | ⟨_ | ⟨e, es⟩, p⟩ <;> rfl

theorem Query.pieces_eq (q : Query Expr) :
    q.pieces = q.piecesBefore ++ q.projector?.toList.map .function := by
  rw [Query.pieces, Query.piecesBefore, q.projectionPieces_eq, List.cons_append]

/-! ## Arguments of a thunk -/

/-- The function that a `select` is given. -/
def Stage.projector? : Stage → Option (Lambda Expr)
  | .select f => some f
  | _ => none

/-- The function that a `groupBy` is given for the key. -/
def Stage.classifier? : Stage → Option (Lambda Expr)
  | .groupBy f _ => some f
  | _ => none

namespace Thunk

variable (t : Thunk)

def projectors : List (Lambda Expr) := t.pipeline.stages.filterMap Stage.projector?

def classifiers : List (Lambda Expr) := t.pipeline.stages.filterMap Stage.classifier?

/-- The arguments of all calls but `select`. -/
def argumentsBefore : List Argument :=
  .value t.pipeline.source ::
    stageArguments (t.pipeline.stages.filter (·.projector?.isNone))

end Thunk

theorem stageArguments_eq_flatMap (ss : List Stage) :
    stageArguments ss = ss.flatMap Stage.arguments := by
  induction ss with
  | nil => rfl
  | cons s ss ih => rw [stageArguments, ih, List.flatMap_cons]

theorem stageArguments_append (ss ss' : List Stage) :
    stageArguments (ss ++ ss') = stageArguments ss ++ stageArguments ss' := by
  simp only [stageArguments_eq_flatMap, List.flatMap_append]

/-- An argument is given to `select` or to another call. -/
theorem Thunk.mem_arguments {t : Thunk} {a : Argument} :
    a ∈ t.pipeline.arguments ↔
      a ∈ t.argumentsBefore ∨ ∃ f ∈ t.projectors, a = .lambda f := by
  obtain ⟨ds, source, stages⟩ := t
  rw [Pipeline.arguments, argumentsBefore, projectors, List.mem_cons, List.mem_cons, or_assoc]
  refine or_congr_right ?_
  induction stages with
  | nil => simp [stageArguments]
  | cons s ss ih =>
    rw [stageArguments, List.mem_append, ih]
    cases s with
    | select f => simp [Stage.projector?, Stage.arguments, or_left_comm]
    | _ => simp [Stage.projector?, stageArguments, or_assoc]

/-! ## Arguments of images -/

/-- The arguments are those that the pieces become. Where a limit has no offset, it is zero. -/
def ComeFrom (s : Naming) (path : Path) (ps : List Piece) (as : List Argument) : Prop :=
  ∀ a ∈ as, a = .value (Expr.int 0) ∨ ∃ p ∈ ps, a = p.argument s path

namespace ComeFrom

variable {s : Naming} {path : Path} {ps ps' : List Piece} {as as' : List Argument}

theorem nil : ComeFrom s path ps [] := List.forall_mem_nil _

theorem append (h : ComeFrom s path ps as) (h' : ComeFrom s path ps' as') :
    ComeFrom s path (ps ++ ps') (as ++ as') := by
  refine List.forall_mem_append.mpr ⟨fun a ha => ?_, fun a ha => ?_⟩
  · exact (h a ha).imp_right fun ⟨p, hp, heq⟩ => ⟨p, List.mem_append_left _ hp, heq⟩
  · exact (h' a ha).imp_right fun ⟨p, hp, heq⟩ => ⟨p, List.mem_append_right _ hp, heq⟩

theorem single (p : Piece) : ComeFrom s path [p] [p.argument s path] :=
  List.forall_mem_singleton.mpr (.inr ⟨p, List.mem_singleton_self p, rfl⟩)

theorem cons {p : Piece} (h : ComeFrom s path ps as) :
    ComeFrom s path (p :: ps) (p.argument s path :: as) :=
  (single p).append h

end ComeFrom

/-- Each piece becomes one of the arguments. -/
def GoInto (s : Naming) (path : Path) (ps : List Piece) (as : List Argument) : Prop :=
  ∀ p ∈ ps, p.argument s path ∈ as

namespace GoInto

variable {s : Naming} {path : Path} {ps ps' : List Piece} {as as' : List Argument}

theorem nil : GoInto s path [] as := List.forall_mem_nil _

theorem cons {p : Piece} (h : GoInto s path ps as) :
    GoInto s path (p :: ps) (p.argument s path :: as) :=
  List.forall_mem_cons.mpr ⟨List.mem_cons_self, fun p hp => List.mem_cons_of_mem _ (h p hp)⟩

theorem append (h : GoInto s path ps as) (h' : GoInto s path ps' as') :
    GoInto s path (ps ++ ps') (as ++ as') :=
  List.forall_mem_append.mpr ⟨fun p hp => List.mem_append_left _ (h p hp),
    fun p hp => List.mem_append_right _ (h' p hp)⟩

end GoInto

section

variable (s : Naming) (path : Path)

theorem comeFrom_matchImage (i : Nat) (row : Row) (kind : JoinKind) (name : String)
    (o : Option Expr) :
    ComeFrom s path (matchPieces i row kind name o)
      ((matchImage s path i row kind name o).map Argument.lambda).toList := by
  cases o with
  | none => exact .nil
  | some e =>
    rw [matchPieces, matchImage]
    split
    · exact .single (.single (.joinOn i) row (some name) e)
    · exact .nil

theorem comeFrom_joinsImage (i : Nat) (row : Row) (js : List (Join Expr)) :
    ComeFrom s path (joinPieces i row js) (stageArguments (joinsImage s path i row js)) := by
  induction js generalizing i row with
  | nil => exact .nil
  | cons j js ih =>
    obtain ⟨kind, name, source, on, p⟩ := j
    have hmatch := comeFrom_matchImage s path i row kind name on
    have hsource : ComeFrom s path [.value (.joinSource i) source]
        [.value (source.image s ⟨none, .plain⟩ "" (.slot (.joinSource i) :: path) [] false)] :=
      .single _
    exact (hsource.append hmatch).append (ih (i + 1) (row.joined name))

theorem comeFrom_filterImage (row : Row) (o : Option (Filter Expr)) :
    ComeFrom s path (filterPieces row o) (stageArguments (filterImage s path row o)) := by
  cases o with
  | none => exact .nil
  | some f => exact .single (.single .predicate row none f.predicate)

theorem comeFrom_havingImage (row : Row) (o : Option Expr) :
    ComeFrom s path (havingPieces row o) ((havingImage s path row o).map Argument.lambda).toList := by
  cases o with
  | none => exact .nil
  | some e => exact .single (.single .having row none e)

/-- The function of the key is that of its piece. -/
theorem groupingImage_eq (row : Row) (g : Grouping Expr) :
    groupingImage s path row (some g) =
      [.groupBy ((keyFunction row g.classifiers).lambda s path)
        (havingImage s path (.grouped row (labels g.classifiers) g.into) g.having)] := by
  obtain ⟨cs, into, having, p⟩ := g
  let param := row.parameter s.name (.slot (.classifier 0) :: path)
  have himages := imageAll_eq_map s ⟨some row, .plain⟩ param path [] .classifier 0 cs
  have hexprs : (keyFunction row cs).exprs.map (·.2) = cs := numbered_exprs ..
  rw [groupingImage, RowFunction.lambda, hexprs]
  exact congrArg (fun images => [Stage.groupBy (row.close s.config param cs
    (NameList.groups.record s.config images none)) _]) himages

theorem comeFrom_groupingImage (row : Row) (o : Option (Grouping Expr)) :
    ComeFrom s path (groupingPieces row o) (stageArguments (groupingImage s path row o)) := by
  cases o with
  | none => exact .nil
  | some g =>
    have hhaving := comeFrom_havingImage s path (.grouped row (labels g.classifiers) g.into) g.having
    rw [groupingImage_eq, stageArguments, stageArguments, List.append_nil]
    exact hhaving.cons (p := .function (keyFunction row g.classifiers))

theorem comeFrom_termsImage (row : Row) (i : Nat) (ts : List (SortTerm Expr)) :
    ComeFrom s path (termPieces row i ts)
      ((termsImage s path row i ts).map fun spec => .lambda spec.key) := by
  induction ts generalizing i with
  | nil => exact .nil
  | cons t ts ih => exact (ih (i + 1)).cons

theorem comeFrom_sortingImage (row : Row) (o : Option (Sorting Expr)) :
    ComeFrom s path (sortingPieces row o) (stageArguments (sortingImage s path row o)) := by
  cases o with
  | none => exact .nil
  | some sorting =>
    rw [sortingImage, stageArguments, stageArguments, List.append_nil]
    exact comeFrom_termsImage s path row 0 sorting.terms

theorem comeFrom_limitImage (o : Option (Limit Expr)) :
    ComeFrom s path (limitPieces o) (stageArguments (limitImage s path o)) := by
  obtain _ | ⟨_ | offset, size, p⟩ := o
  · exact .nil
  · have hsize : ComeFrom s path (limitPieces (some ⟨none, size, p⟩))
        [(Piece.value .size size).argument s path] := .single _
    exact List.forall_mem_cons.mpr ⟨.inl rfl, hsize⟩
  · exact (ComeFrom.single _).cons

/-- The function of the selected value is that of its piece. -/
theorem projectionImage_eq (q : Query Expr) :
    projectionImage s path q.row q.projection =
      q.projector?.toList.map fun f => .select (f.lambda s path) := by
  rw [Query.projector?, Query.selection?]
  rcases q.projection with _ | ⟨_ | ⟨e, es⟩, p⟩
  · rfl
  · rfl
  · let param := q.row.parameter s.name (.slot (.item 0) :: path)
    have himages := imageAll_eq_map s ⟨some q.row, .counted⟩ param path [] .item 0 (e :: es)
    have hexprs : (selectFunction q.row (e :: es)).exprs.map (·.2) = e :: es := numbered_exprs ..
    rw [projectionImage, Option.map_some, Option.toList_some, List.map_singleton,
      RowFunction.lambda, hexprs, RowFunction.value, selectFunction]
    cases hrecord : wantsRecord (e :: es) with
    | true =>
      rw [if_pos rfl, if_pos rfl]
      exact congrArg (fun images => [Stage.select (q.row.close s.config param (e :: es)
        (NameList.selected.record s.config images (some (.name param))))]) himages
    | false =>
      -- A value without a record around it is the only one.
      cases es with
      | nil => rfl
      | cons e' es => cases hrecord

/-- The calls of the clauses before `select`. -/
def clausesImage (q : Query Expr) : List Stage :=
  joinsImage s path 0 (.table q.table.name) q.joins ++ filterImage s path q.joinedRow q.filter ++
    groupingImage s path q.joinedRow q.grouping ++ sortingImage s path q.row q.sorting ++
    limitImage s path q.limit

theorem stages_queryImage (q : Query Expr) :
    (queryImage s path q).pipeline.stages =
      clausesImage s path q ++ q.projector?.toList.map fun f => .select (f.lambda s path) := by
  rw [← projectionImage_eq, queryImage, clausesImage]

/-- No clause before `select` becomes a `select`. -/
theorem projector?_clausesImage (q : Query Expr) :
    ∀ stage ∈ clausesImage s path q, stage.projector? = none := by
  have hjoins (i : Nat) (row : Row) (js : List (Join Expr)) :
      ∀ stage ∈ joinsImage s path i row js, stage.projector? = none := by
    induction js generalizing i row with
    | nil => exact List.forall_mem_nil _
    | cons j js ih => exact List.forall_mem_cons.mpr ⟨rfl, ih (i + 1) (row.joined j.name)⟩
  simp only [clausesImage, List.forall_mem_append]
  refine ⟨⟨⟨⟨hjoins 0 _ q.joins, ?_⟩, ?_⟩, ?_⟩, ?_⟩
  · cases q.filter with
    | none => exact List.forall_mem_nil _
    | some f => exact List.forall_mem_singleton.mpr rfl
  · cases q.grouping with
    | none => exact List.forall_mem_nil _
    | some g => exact List.forall_mem_singleton.mpr rfl
  · cases q.sorting with
    | none => exact List.forall_mem_nil _
    | some sorting => exact List.forall_mem_singleton.mpr rfl
  · rcases q.limit with _ | ⟨_ | offset, size, p⟩
    · exact List.forall_mem_nil _
    · exact List.forall_mem_singleton.mpr rfl
    · exact List.forall_mem_singleton.mpr rfl

theorem declarations_queryImage (q : Query Expr) : (queryImage s path q).declarations =
    .table s.config.table q.nameTable ::
      if countsRows s.config path q then [.counter s.config.counter] else [] := by
  rw [queryImage]

theorem projectors_queryImage (q : Query Expr) :
    (queryImage s path q).projectors = q.projector?.toList.map (·.lambda s path) := by
  have hbefore : (clausesImage s path q).filterMap Stage.projector? = [] :=
    List.filterMap_eq_nil_iff.mpr (projector?_clausesImage s path q)
  rw [Thunk.projectors, stages_queryImage, List.filterMap_append, hbefore]
  cases q.projector? <;> rfl

theorem argumentsBefore_queryImage (q : Query Expr) :
    ComeFrom s path q.piecesBefore (queryImage s path q).argumentsBefore := by
  have hbefore : (clausesImage s path q).filter (·.projector?.isNone) = clausesImage s path q :=
    List.filter_eq_self.mpr fun stage hstage => by
      rw [projector?_clausesImage s path q stage hstage]
      rfl
  have hselect : ((q.projector?.toList.map fun f => Stage.select (f.lambda s path)).filter
      (·.projector?.isNone)) = [] := by
    cases q.projector? <;> rfl
  have hsource : (queryImage s path q).pipeline.source =
      q.table.source.image s ⟨none, .plain⟩ "" (.slot .source :: path) [] false := by
    rw [queryImage]
  rw [Thunk.argumentsBefore, stages_queryImage, List.filter_append, hbefore, hselect,
    List.append_nil, hsource, clausesImage]
  simp only [stageArguments_append]
  exact (((((comeFrom_joinsImage s path 0 _ q.joins).append
    (comeFrom_filterImage s path _ q.filter)).append
    (comeFrom_groupingImage s path _ q.grouping)).append
    (comeFrom_sortingImage s path _ q.sorting)).append (comeFrom_limitImage s path q.limit)).cons

theorem arguments_queryImage (q : Query Expr) :
    ComeFrom s path q.pieces (queryImage s path q).pipeline.arguments := by
  intro a ha
  rw [q.pieces_eq]
  rcases Thunk.mem_arguments.mp ha with hbefore | ⟨f, hf, rfl⟩
  · exact (argumentsBefore_queryImage s path q a hbefore).imp_right
      fun ⟨p, hp, heq⟩ => ⟨p, List.mem_append_left _ hp, heq⟩
  · rw [projectors_queryImage] at hf
    obtain ⟨f, hprojector, rfl⟩ := List.mem_map.mp hf
    exact .inr ⟨.function f, List.mem_append_right _ (List.mem_map_of_mem hprojector), rfl⟩

theorem goInto_matchImage (i : Nat) (row : Row) (kind : JoinKind) (name : String)
    (o : Option Expr) :
    GoInto s path (matchPieces i row kind name o)
      ((matchImage s path i row kind name o).map Argument.lambda).toList := by
  cases o with
  | none => exact .nil
  | some e =>
    rw [matchPieces, matchImage]
    split
    · exact GoInto.nil.cons (p := .single (.joinOn i) row (some name) e)
    · exact .nil

theorem goInto_joinsImage (i : Nat) (row : Row) (js : List (Join Expr)) :
    GoInto s path (joinPieces i row js) (stageArguments (joinsImage s path i row js)) := by
  induction js generalizing i row with
  | nil => exact .nil
  | cons j js ih =>
    obtain ⟨kind, name, source, on, p⟩ := j
    have hmatch := (goInto_matchImage s path i row kind name on).cons
      (p := .value (.joinSource i) source)
    exact hmatch.append (ih (i + 1) (row.joined name))

theorem goInto_termsImage (row : Row) (i : Nat) (ts : List (SortTerm Expr)) :
    GoInto s path (termPieces row i ts)
      ((termsImage s path row i ts).map fun spec => .lambda spec.key) := by
  induction ts generalizing i with
  | nil => exact .nil
  | cons t ts ih => exact (ih (i + 1)).cons

theorem goInto_groupingImage (row : Row) (o : Option (Grouping Expr)) :
    GoInto s path (groupingPieces row o) (stageArguments (groupingImage s path row o)) := by
  cases o with
  | none => exact .nil
  | some g =>
    have hhaving : GoInto s path
        (havingPieces (.grouped row (labels g.classifiers) g.into) g.having)
        ((havingImage s path (.grouped row (labels g.classifiers) g.into) g.having).map
          Argument.lambda).toList := by
      cases g.having with
      | none => exact .nil
      | some e => exact GoInto.nil.cons (p := .single .having _ none e)
    rw [groupingImage_eq, stageArguments, stageArguments, List.append_nil]
    exact hhaving.cons (p := .function (keyFunction row g.classifiers))

theorem goInto_queryImage (q : Query Expr) :
    GoInto s path q.pieces (queryImage s path q).pipeline.arguments := by
  have hfilter : GoInto s path (filterPieces q.joinedRow q.filter)
      (stageArguments (filterImage s path q.joinedRow q.filter)) := by
    cases q.filter with
    | none => exact .nil
    | some f => exact GoInto.nil.cons (p := .single .predicate _ none f.predicate)
  have hsorting : GoInto s path (sortingPieces q.row q.sorting)
      (stageArguments (sortingImage s path q.row q.sorting)) := by
    cases q.sorting with
    | none => exact .nil
    | some sorting =>
      rw [sortingImage, stageArguments, stageArguments, List.append_nil]
      exact goInto_termsImage s path q.row 0 sorting.terms
  have hlimit : GoInto s path (limitPieces q.limit) (stageArguments (limitImage s path q.limit)) := by
    obtain _ | ⟨_ | offset, size, p⟩ := q.limit
    · exact .nil
    · exact List.forall_mem_singleton.mpr (List.mem_cons_of_mem _ List.mem_cons_self)
    · exact (GoInto.nil.cons (p := .value .size size)).cons (p := .value .offset offset)
  have hprojection : GoInto s path (q.projector?.toList.map .function)
      (stageArguments (q.projector?.toList.map fun f => .select (f.lambda s path))) := by
    cases q.projector? with
    | none => exact .nil
    | some f => exact GoInto.nil.cons (p := .function f)
  have hstages : (queryImage s path q).pipeline.arguments =
      Piece.argument s path (.value .source q.table.source) ::
        stageArguments (queryImage s path q).pipeline.stages := by
    rw [queryImage]
    rfl
  rw [hstages, stages_queryImage, clausesImage, q.pieces_eq, Query.piecesBefore]
  simp only [stageArguments_append, List.cons_append]
  exact ((((((goInto_joinsImage s path 0 _ q.joins).append hfilter).append
    (goInto_groupingImage s path _ q.grouping)).append hsorting).append hlimit).append
      hprojection).cons

theorem classifiers_queryImage (q : Query Expr) :
    (queryImage s path q).classifiers = q.classifier?.toList.map (·.lambda s path) := by
  have hjoins (i : Nat) (row : Row) (js : List (Join Expr)) :
      (joinsImage s path i row js).filterMap Stage.classifier? = [] := by
    induction js generalizing i row with
    | nil => rfl
    | cons j js ih => exact ih (i + 1) (row.joined j.name)
  have hfilter : (filterImage s path q.joinedRow q.filter).filterMap Stage.classifier? = [] := by
    cases q.filter <;> rfl
  have hsorting : (sortingImage s path q.row q.sorting).filterMap Stage.classifier? = [] := by
    cases q.sorting <;> rfl
  have hlimit : (limitImage s path q.limit).filterMap Stage.classifier? = [] := by
    rcases q.limit with _ | ⟨_ | offset, size, p⟩ <;> rfl
  have hselect : (q.projector?.toList.map fun f => Stage.select (f.lambda s path)).filterMap
      Stage.classifier? = [] := by
    cases q.projector? <;> rfl
  rw [Thunk.classifiers, stages_queryImage, clausesImage]
  simp only [List.filterMap_append, hjoins, hfilter, hsorting, hlimit, hselect, List.nil_append,
    List.append_nil]
  rw [Query.classifier?]
  cases q.grouping with
  | none => rfl
  | some g =>
    rw [groupingImage_eq]
    rfl

end

/-! ## Pieces before the selected values -/

/-- A function of the piece counts no rows and is well-formed. -/
def Piece.IsPlain : Piece → Prop
  | value _ _ => True
  | function f => f.numbering = .plain ∧ f.WellFormed

theorem isPlain_single (slot : Slot) (row : Row) (joined : Option String) (e : Expr) :
    (Piece.single slot row joined e).IsPlain :=
  ⟨rfl, fun _ => ⟨(slot, e), rfl⟩⟩

theorem isPlain_joinPieces (i : Nat) (row : Row) (js : List (Join Expr)) :
    ∀ p ∈ joinPieces i row js, p.IsPlain := by
  induction js generalizing i row with
  | nil => exact List.forall_mem_nil _
  | cons j js ih =>
    have hmatch : ∀ p ∈ matchPieces i row j.kind j.name j.on, p.IsPlain := by
      rw [matchPieces.eq_def]
      split
      · split
        · exact List.forall_mem_singleton.mpr (isPlain_single ..)
        · exact List.forall_mem_nil _
      · exact List.forall_mem_nil _
    rw [joinPieces, List.cons_append]
    exact List.forall_mem_cons.mpr ⟨trivial,
      List.forall_mem_append.mpr ⟨hmatch, ih (i + 1) (row.joined j.name)⟩⟩

theorem isPlain_filterPieces (row : Row) (o : Option (Filter Expr)) :
    ∀ p ∈ filterPieces row o, p.IsPlain := by
  cases o with
  | none => exact List.forall_mem_nil _
  | some f => exact List.forall_mem_singleton.mpr (isPlain_single ..)

theorem isPlain_groupingPieces (row : Row) (o : Option (Grouping Expr)) :
    ∀ p ∈ groupingPieces row o, p.IsPlain := by
  obtain _ | ⟨cs, into, having, pos⟩ := o
  · exact List.forall_mem_nil _
  · refine List.forall_mem_cons.mpr ⟨⟨rfl, fun hrecord => by cases hrecord⟩, ?_⟩
    cases having with
    | none => exact List.forall_mem_nil _
    | some e => exact List.forall_mem_singleton.mpr (isPlain_single ..)

theorem isPlain_termPieces (row : Row) (i : Nat) (ts : List (SortTerm Expr)) :
    ∀ p ∈ termPieces row i ts, p.IsPlain := by
  induction ts generalizing i with
  | nil => exact List.forall_mem_nil _
  | cons t ts ih => exact List.forall_mem_cons.mpr ⟨isPlain_single .., ih (i + 1)⟩

theorem isPlain_sortingPieces (row : Row) (o : Option (Sorting Expr)) :
    ∀ p ∈ sortingPieces row o, p.IsPlain := by
  cases o with
  | none => exact List.forall_mem_nil _
  | some sorting => exact isPlain_termPieces row 0 sorting.terms

theorem isPlain_limitPieces (o : Option (Limit Expr)) : ∀ p ∈ limitPieces o, p.IsPlain := by
  obtain _ | ⟨_ | offset, size, pos⟩ := o
  · exact List.forall_mem_nil _
  · exact List.forall_mem_singleton.mpr trivial
  · exact List.forall_mem_cons.mpr ⟨trivial, List.forall_mem_singleton.mpr trivial⟩

/-- Row numbers are not counted before the selected values. -/
theorem Query.isPlain_before (q : Query Expr) : ∀ p ∈ q.piecesBefore, p.IsPlain := by
  rw [Query.piecesBefore]
  simp only [List.forall_mem_cons, List.forall_mem_append]
  exact ⟨trivial, ⟨⟨⟨isPlain_joinPieces 0 _ q.joins, isPlain_filterPieces _ q.filter⟩,
    isPlain_groupingPieces _ q.grouping⟩, isPlain_sortingPieces q.row q.sorting⟩,
    isPlain_limitPieces q.limit⟩

/-- A value that needs no record is the only one. -/
theorem eq_singleton_of_not_wantsRecord {es : List Expr} (h : wantsRecord es = false) :
    ∃ e, es = [e] := by
  rcases es with _ | ⟨e, _ | ⟨e', es⟩⟩
  · cases h
  · exact ⟨e, rfl⟩
  · cases h

theorem wellFormed_selectFunction (row : Row) (es : List Expr) :
    (selectFunction row es).WellFormed := by
  intro hnone
  cases hrecord : wantsRecord es with
  | true => simp [selectFunction, hrecord] at hnone
  | false =>
    obtain ⟨e, rfl⟩ := eq_singleton_of_not_wantsRecord hrecord
    exact ⟨_, rfl⟩

theorem Query.projector?_wellFormed {q : Query Expr} {f : RowFunction}
    (h : q.projector? = some f) : f.WellFormed := by
  obtain ⟨es, -, rfl⟩ := Option.map_eq_some_iff.mp h
  exact wellFormed_selectFunction q.row es

theorem Query.wellFormed_of_mem {q : Query Expr} {f : RowFunction}
    (h : Piece.function f ∈ q.pieces) : f.WellFormed := by
  rw [q.pieces_eq] at h
  rcases List.mem_append.mp h with h | h
  · exact (q.isPlain_before _ h).2
  · obtain ⟨f', hf', heq⟩ := List.mem_map.mp h
    cases heq
    exact Query.projector?_wellFormed (Option.mem_toList.mp hf')

/-! ## Substitution -/

/-- The argument with bindings put in place. -/
def Argument.substitute (a : Argument) (σ : List (Binding Expr)) : Argument :=
  match a with
  | value e => .value (e.substitute σ)
  | lambda f => .lambda (f.substitute σ)

def Argument.substituteEach (a : Argument) (σs : List (List (Binding Expr))) : Argument :=
  σs.foldl Argument.substitute a

section

variable (σ : List (Binding Expr))

mutual
theorem Stage.arguments_substitute :
    (s : Stage) → (s.substitute σ).arguments = s.arguments.map (Argument.substitute · σ)
  | .join _ joined none | .join _ joined (some ⟨_, _⟩) => by
    rw [Stage.substitute, Stage.arguments, Stage.arguments, joined.arguments_substitute,
      List.map_append]
    rfl
  | .filter ⟨_, _⟩ | .limit _ _ | .select ⟨_, _⟩ => rfl
  | .groupBy ⟨_, _⟩ none | .groupBy ⟨_, _⟩ (some ⟨_, _⟩) => rfl
  | .orderBy specs => by
    have hspecs : ((substituteSpecs σ specs).map fun spec => Argument.lambda spec.key) =
        (specs.map fun spec => Argument.lambda spec.key).map (Argument.substitute · σ) := by
      induction specs with
      | nil => rfl
      | cons spec specs ih => exact congrArg (List.cons _) ih
    exact hspecs

theorem Pipeline.arguments_substitute :
    (p : Pipeline) → (p.substitute σ).arguments = p.arguments.map (Argument.substitute · σ)
  | ⟨_, stages⟩ => congrArg (List.cons _) (stageArguments_substitute stages)

theorem stageArguments_substitute : (ss : List Stage) →
    stageArguments (substituteStages σ ss) = (stageArguments ss).map (Argument.substitute · σ)
  | [] => rfl
  | s :: ss => by
    rw [substituteStages, stageArguments, stageArguments, s.arguments_substitute,
      stageArguments_substitute ss, List.map_append]
end

theorem substituteStages_eq_map (ss : List Stage) :
    substituteStages σ ss = ss.map (Stage.substitute σ) := by
  induction ss with
  | nil => rfl
  | cons s ss ih => rw [substituteStages, ih, List.map_cons]

theorem Stage.projector?_substitute (s : Stage) :
    (s.substitute σ).projector? = s.projector?.map (Lambda.substitute · σ) := by
  cases s with
  | groupBy f having => cases having <;> rfl
  | join kind joined on => cases on <;> rfl
  | _ => rfl

theorem Stage.classifier?_substitute (s : Stage) :
    (s.substitute σ).classifier? = s.classifier?.map (Lambda.substitute · σ) := by
  cases s with
  | groupBy f having => cases having <;> rfl
  | join kind joined on => cases on <;> rfl
  | _ => rfl

end

namespace Thunk

variable (σ : List (Binding Expr)) (σs : List (List (Binding Expr))) (t : Thunk)

theorem stages_substitute :
    (t.substitute σ).pipeline.stages = t.pipeline.stages.map (Stage.substitute σ) := by
  obtain ⟨declarations, source, stages⟩ := t
  exact substituteStages_eq_map σ stages

theorem projectors_substitute :
    (t.substitute σ).projectors = t.projectors.map (Lambda.substitute · σ) := by
  rw [projectors, projectors, stages_substitute, List.filterMap_map, List.map_filterMap]
  exact List.filterMap_congr fun s _ => s.projector?_substitute σ

theorem classifiers_substitute :
    (t.substitute σ).classifiers = t.classifiers.map (Lambda.substitute · σ) := by
  rw [classifiers, classifiers, stages_substitute, List.filterMap_map, List.map_filterMap]
  exact List.filterMap_congr fun s _ => s.classifier?_substitute σ

theorem argumentsBefore_substitute :
    (t.substitute σ).argumentsBefore = t.argumentsBefore.map (Argument.substitute · σ) := by
  have hfilter : (t.substitute σ).pipeline.stages.filter (·.projector?.isNone) =
      substituteStages σ (t.pipeline.stages.filter (·.projector?.isNone)) := by
    rw [stages_substitute, List.filter_map, substituteStages_eq_map]
    refine congrArg (List.map (Stage.substitute σ)) (List.filter_congr fun s _ => ?_)
    rw [Function.comp_apply, Stage.projector?_substitute, Option.isNone_map]
  rw [argumentsBefore, argumentsBefore, hfilter, stageArguments_substitute]
  obtain ⟨declarations, source, stages⟩ := t
  rfl

theorem projectors_substituteEach :
    (t.substituteEach σs).projectors = t.projectors.map (Lambda.substituteEach · σs) :=
  list_substituteEach projectors_substitute σs t

theorem classifiers_substituteEach :
    (t.substituteEach σs).classifiers = t.classifiers.map (Lambda.substituteEach · σs) :=
  list_substituteEach classifiers_substitute σs t

theorem arguments_substituteEach : (t.substituteEach σs).pipeline.arguments =
    t.pipeline.arguments.map (Argument.substituteEach · σs) := by
  have hsubstitute (σ : List (Binding Expr)) (t : Thunk) :
      (t.substitute σ).pipeline.arguments = t.pipeline.arguments.map (Argument.substitute · σ) := by
    obtain ⟨declarations, pipeline⟩ := t
    exact pipeline.arguments_substitute σ
  exact @list_substituteEach _ (fun t => t.pipeline.arguments) _ hsubstitute σs t

theorem argumentsBefore_substituteEach :
    (t.substituteEach σs).argumentsBefore = t.argumentsBefore.map (Argument.substituteEach · σs) :=
  list_substituteEach argumentsBefore_substitute σs t

theorem declarations_substituteEach : (t.substituteEach σs).declarations = t.declarations := by
  induction σs generalizing t with
  | nil => rfl
  | cons σ σs ih =>
    obtain ⟨declarations, source, stages⟩ := t
    exact ih _

end Thunk

theorem Argument.substituteEach_lambda (f : Lambda Expr) (σs : List (List (Binding Expr))) :
    (lambda f).substituteEach σs = .lambda (f.substituteEach σs) := by
  induction σs generalizing f with
  | nil => rfl
  | cons σ σs ih => exact ih (f.substitute σ)

end Comprehension
