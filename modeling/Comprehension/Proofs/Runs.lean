import Comprehension.Proofs.MadeUpNames
import Comprehension.Proofs.Pieces
import Comprehension.Run

/-!
The pass does what the demands and the images say. A run of the pass is held against the demands it
performs and the answer it gives under a naming that keeps the names given. Steps of a query also
write in the table of the open frame, and these writings are told apart from the demands. Thus the
pass and lowering agree, in what they return and in the context they leave.
-/

namespace Comprehension

namespace Context

/-! ## Contexts -/

/-- The naming has the configuration of the context and gives no node another name than it has. -/
structure Keeps (ctx : Context) (s : Naming) : Prop where
  config : s.config = ctx.config
  name : ∀ node n, ctx.names.assigned? node = some n → s.name node = n

theorem keeps_naming (ctx : Context) : ctx.Keeps ctx.naming :=
  ⟨rfl, fun _ _ h => congrArg Prod.fst (NameSupply.nameOf_of_assigned? h)⟩

theorem Keeps.before {ctx : Context} {ds : List Demand} {s : Naming}
    (h : (ctx.perform ds).2.Keeps s) : ctx.Keeps s :=
  ⟨h.config.trans (perform_config ctx ds), fun node n hn => h.name node n (perform_keeps hn ds)⟩

theorem perform_append (ctx : Context) (ds ds' : List Demand) :
    ctx.perform (ds ++ ds') =
      match (ctx.perform ds).1 with
      | .ok () => (ctx.perform ds).2.perform ds'
      | .error f => (.error f, (ctx.perform ds).2) := by
  induction ds generalizing ctx with
  | nil => rfl
  | cons d ds ih =>
    cases d with
    | name node => exact ih (ctx.nameOf node).2
    | report d => exact ih (ctx.report d)
    | countRow => exact ih ctx.countRow
    | fail f => rfl

/-- Changes the frame of the open query, where there is one. -/
def onFrame (g : Frame → Frame) (ctx : Context) : Context :=
  { ctx with frames := ctx.frames.modifyHead g }

/-- What does not concern the counting of rows changes a frame before a run as well as after it. -/
theorem perform_onFrame {g : Frame → Frame}
    (hg : ∀ f, g { f with countsRows := true } = { g f with countsRows := true }) (ctx : Context)
    (ds : List Demand) :
    (ctx.onFrame g).perform ds = ((ctx.perform ds).1, (ctx.perform ds).2.onFrame g) := by
  induction ds generalizing ctx with
  | nil => rfl
  | cons d ds ih =>
    cases d with
    | name node => exact ih (ctx.nameOf node).2
    | report d => exact ih (ctx.report d)
    | countRow =>
      have hcount : (ctx.onFrame g).countRow = ctx.countRow.onFrame g := by
        obtain ⟨config, mistakes, names, _ | ⟨f, fs⟩⟩ := ctx
        · rfl
        · simp [countRow, onFrame, hg]
      rw [perform, hcount, ih]
      rfl
    | fail f => rfl

theorem countRow_numbering (ctx : Context) : ctx.countRow.numbering = ctx.numbering := by
  obtain ⟨config, mistakes, names, _ | ⟨f, fs⟩⟩ := ctx <;> rfl

theorem perform_numbering (ctx : Context) (ds : List Demand) :
    (ctx.perform ds).2.numbering = ctx.numbering := by
  induction ds generalizing ctx with
  | nil => rfl
  | cons d ds ih =>
    cases d with
    | name node => exact ih (ctx.nameOf node).2
    | report d => exact ih (ctx.report d)
    | countRow => exact (ih ctx.countRow).trans (countRow_numbering ctx)
    | fail f => rfl

/-! ## Frames -/

/-- The context with one more frame, that of the innermost query. -/
def push (ctx : Context) (f : Frame) : Context := { ctx with frames := f :: ctx.frames }

/-- Under a frame of its own a run counts rows there, and does all else as without the frame. -/
theorem perform_push (ctx : Context) (f : Frame) (ds : List Demand) :
    ∃ b, (ctx.push f).perform ds =
        ((ctx.perform (ds.filter (·.outlivesQuery))).1,
          (ctx.perform (ds.filter (·.outlivesQuery))).2.push { f with countsRows := b }) ∧
      ((ctx.perform (ds.filter (·.outlivesQuery))).1 = .ok () →
        b = (f.countsRows || ds.contains .countRow)) := by
  induction ds generalizing ctx f with
  | nil => exact ⟨f.countsRows, rfl, fun _ => (Bool.or_false _).symm⟩
  | cons d ds ih =>
    cases d with
    | name node => exact ih (ctx.nameOf node).2 f
    | report d => exact ih (ctx.report d) f
    | countRow =>
      obtain ⟨b, hrun, hb⟩ := ih ctx { f with countsRows := true }
      exact ⟨b, hrun, fun hok => (hb hok).trans (by simp)⟩
    | fail failure => exact ⟨f.countsRows, rfl, nofun⟩

/-- Without row counters a run leaves every frame as it was. -/
theorem perform_frames {ctx : Context} {ds : List Demand} (h : .countRow ∉ ds) :
    (ctx.perform ds).2.frames = ctx.frames := by
  induction ds generalizing ctx with
  | nil => rfl
  | cons d ds ih =>
    rw [List.mem_cons, not_or] at h
    cases d with
    | name node => exact ih h.2
    | report d => exact ih h.2
    | countRow => exact absurd rfl h.1
    | fail f => rfl

/-- Writes in the table of the open query, where there is one. -/
def retable (g : NameTable → NameTable) (ctx : Context) : Context :=
  ctx.onFrame fun f => { f with table := g f.table }

theorem perform_retable (g : NameTable → NameTable) (ctx : Context) (ds : List Demand) :
    (ctx.retable g).perform ds = ((ctx.perform ds).1, (ctx.perform ds).2.retable g) :=
  perform_onFrame (fun _ => rfl) ctx ds

theorem retable_id (ctx : Context) : ctx.retable id = ctx := by
  obtain ⟨config, mistakes, names, _ | ⟨f, fs⟩⟩ := ctx <;> rfl

theorem retable_retable (g g' : NameTable → NameTable) (ctx : Context) :
    (ctx.retable g).retable g' = ctx.retable (g' ∘ g) := by
  obtain ⟨config, mistakes, names, _ | ⟨f, fs⟩⟩ := ctx <;> rfl

theorem retable_numbering (g : NameTable → NameTable) (ctx : Context) :
    (ctx.retable g).numbering = ctx.numbering := by
  obtain ⟨config, mistakes, names, _ | ⟨f, fs⟩⟩ := ctx <;> rfl

end Context

/-- Either no query is open, or the frame of the innermost one says how row numbers are read. -/
inductive Context.Opened : Context → Numbering → Prop
  | none (config : Config) (mistakes : List Diagnostic) (names : NameSupply) :
    Opened ⟨config, mistakes, names, []⟩ .noQuery
  | plain (outer : Context) (f : Frame) (h : f.selecting = false) : Opened (outer.push f) .plain
  | counted (outer : Context) (f : Frame) (h : f.selecting = true) : Opened (outer.push f) .counted

theorem Context.opened_numbering (ctx : Context) : ctx.Opened ctx.numbering := by
  obtain ⟨config, mistakes, names, _ | ⟨f, fs⟩⟩ := ctx
  · exact .none config mistakes names
  · have hnumbering : Context.numbering ⟨config, mistakes, names, f :: fs⟩ =
        if f.selecting then .counted else .plain := rfl
    rw [hnumbering]
    cases h : f.selecting with
    | true => exact .counted ⟨config, mistakes, names, fs⟩ f h
    | false => exact .plain ⟨config, mistakes, names, fs⟩ f h

/-- Where the row number is read as a plain name, the open query is not selecting. -/
theorem Context.exists_push {ctx : Context} (h : ctx.numbering = .plain) :
    ∃ (outer : Context) (table : NameTable) (counts : Bool),
      ctx = outer.push ⟨table, false, counts⟩ := by
  have hopened : ctx.Opened .plain := h ▸ ctx.opened_numbering
  cases hopened with
  | plain outer f hselecting =>
    cases f
    cases hselecting
    exact ⟨outer, _, _, rfl⟩

/-! ## Runs that perform demands -/

section

variable {α β : Type} {s : Naming} {numbering : Numbering}

/-- Where the row number is read so and the naming keeps the names given, the run performs the
demands and gives the answer, or the failure where they fail. -/
def Performs (s : Naming) (numbering : Numbering) (x : Run α) (ds : List Demand) (a : α) : Prop :=
  ∀ ctx : Context, ctx.numbering = numbering → (ctx.perform ds).2.Keeps s →
    x ctx = (((ctx.perform ds).1.map fun _ => a).mapError .failure, (ctx.perform ds).2)

/-- So too, and the run writes in the table of the open query. Where it stops before its end it may
have written less. -/
def Fills (s : Naming) (numbering : Numbering) (x : Run α) (ds : List Demand)
    (g : NameTable → NameTable) (a : α) : Prop :=
  ∀ ctx : Context, ctx.numbering = numbering → (ctx.perform ds).2.Keeps s →
    ∃ g', x ctx =
        (((ctx.perform ds).1.map fun _ => a).mapError .failure, (ctx.perform ds).2.retable g') ∧
      ((ctx.perform ds).1 = .ok () → g' = g)

theorem Performs.fills {x : Run α} {ds : List Demand} {a : α} (h : Performs s numbering x ds a) :
    Fills s numbering x ds id a := by
  intro ctx hnumbering hkeeps
  exact ⟨id, by rw [h ctx hnumbering hkeeps, Context.retable_id], fun _ => rfl⟩

theorem Run.bind_ok {x : Run α} {ctx ctx' : Context} {a : α} (h : x ctx = (.ok a, ctx'))
    (k : α → Run β) : (x >>= k) ctx = k a ctx' := by
  change Run.bind x k ctx = _
  rw [Run.bind, h]

theorem Run.bind_error {x : Run α} {ctx ctx' : Context} {e : Stop} (h : x ctx = (.error e, ctx'))
    (k : α → Run β) : (x >>= k) ctx = (.error e, ctx') := by
  change Run.bind x k ctx = _
  rw [Run.bind, h]

theorem Run.bind_eq_ok {x : Run α} {k : α → Run β} {ctx ctx' : Context} {b : β} :
    (x >>= k) ctx = (.ok b, ctx') ↔
      ∃ a ctx₁, x ctx = (.ok a, ctx₁) ∧ k a ctx₁ = (.ok b, ctx') := by
  rcases hx : x ctx with ⟨_ | a, ctx₁⟩
  · rw [Run.bind_error hx k]
    exact ⟨nofun, nofun⟩
  · rw [Run.bind_ok hx k]
    constructor
    · exact fun h => ⟨a, ctx₁, rfl, h⟩
    · rintro ⟨_, _, heq, h⟩
      cases heq
      exact h

theorem Run.attempt_of_eq {x : Run α} {ctx ctx' : Context} {r : Except Failure α}
    (h : x ctx = (r.mapError .failure, ctx')) : Run.attempt x ctx = (.ok r, ctx') := by
  rw [Run.attempt, h]
  cases r <;> rfl

theorem Run.ofExcept_eq (r : Except Failure α) (ctx : Context) :
    Run.ofExcept r ctx = (r.mapError .failure, ctx) := by
  cases r <;> rfl

/-- One step after another: the demands are performed in turn. -/
theorem Performs.bind {x : Run α} {k : α → Run β} {ds ds' : List Demand} {a : α} {b : β}
    (hx : Performs s numbering x ds a) (hk : Performs s numbering (k a) ds' b) :
    Performs s numbering (x >>= k) (ds ++ ds') b := by
  intro ctx hnumbering hkeeps
  rw [Context.perform_append] at hkeeps ⊢
  cases hr : (ctx.perform ds).1 with
  | error f =>
    rw [hr] at hkeeps
    have hx := hx ctx hnumbering hkeeps
    rw [hr] at hx
    exact Run.bind_error hx k
  | ok u =>
    rw [hr] at hkeeps
    have hx := hx ctx hnumbering hkeeps.before
    rw [hr] at hx
    rw [Run.bind_ok hx k]
    exact hk _ ((Context.perform_numbering ctx ds).trans hnumbering) hkeeps

/-- A step that demands nothing. -/
theorem Performs.after {x : Run α} {k : α → Run β} {ds : List Demand} {a : α} {b : β}
    (hx : Performs s numbering x [] a) (hk : Performs s numbering (k a) ds b) :
    Performs s numbering (x >>= k) ds b := hx.bind hk

theorem Fills.bind {x : Run α} {k : α → Run β} {ds ds' : List Demand}
    {g g' : NameTable → NameTable} {a : α} {b : β} (hx : Fills s numbering x ds g a)
    (hk : Fills s numbering (k a) ds' g' b) :
    Fills s numbering (x >>= k) (ds ++ ds') (g' ∘ g) b := by
  intro ctx hnumbering hkeeps
  rw [Context.perform_append] at hkeeps ⊢
  cases hr : (ctx.perform ds).1 with
  | error f =>
    rw [hr] at hkeeps
    obtain ⟨h, hx, -⟩ := hx ctx hnumbering hkeeps
    rw [hr] at hx
    exact ⟨h, Run.bind_error hx k, nofun⟩
  | ok u =>
    rw [hr] at hkeeps
    obtain ⟨h, hrun, hh⟩ := hx ctx hnumbering hkeeps.before
    obtain rfl := hh hr
    rw [hr] at hrun
    have hperform := Context.perform_retable h (ctx.perform ds).2 ds'
    have hkeeps' : (((ctx.perform ds).2.retable h).perform ds').2.Keeps s := by
      rw [hperform]
      exact ⟨hkeeps.config, hkeeps.name⟩
    have hnumbering' : ((ctx.perform ds).2.retable h).numbering = numbering :=
      (Context.retable_numbering h _).trans ((Context.perform_numbering ctx ds).trans hnumbering)
    obtain ⟨h', hrun', hh'⟩ := hk _ hnumbering' hkeeps'
    rw [hperform] at hrun' hh'
    refine ⟨h' ∘ h, ?_, fun hok => by rw [hh' hok]⟩
    rw [Run.bind_ok hrun k, hrun', Context.retable_retable]

theorem Fills.after {x : Run α} {k : α → Run β} {ds : List Demand} {g g' : NameTable → NameTable}
    {a : α} {b : β} (hx : Fills s numbering x [] g a) (hk : Fills s numbering (k a) ds g' b) :
    Fills s numbering (x >>= k) ds (g' ∘ g) b := hx.bind hk

/-- A step that demands nothing more. -/
theorem Fills.before {x : Run α} {k : α → Run β} {ds : List Demand} {g g' : NameTable → NameTable}
    {a : α} {b : β} (hx : Fills s numbering x ds g a) (hk : Fills s numbering (k a) [] g' b) :
    Fills s numbering (x >>= k) ds (g' ∘ g) b := List.append_nil ds ▸ hx.bind hk

/-! ## Steps -/

namespace Performs

theorem pure (a : α) : Performs s numbering (Pure.pure a) [] a := fun _ _ _ => rfl

/-- An answer is made of the answer of the one step there is. -/
theorem map {x : Run α} {ds : List Demand} {a : α} (h : Performs s numbering x ds a) (k : α → β) :
    Performs s numbering (x >>= fun a => Pure.pure (k a)) ds (k a) := by
  simpa using h.bind (k := fun a => Pure.pure (k a)) (.pure (k a))

theorem congr {x : Run α} {ds : List Demand} {a a' : α} (h : Performs s numbering x ds a)
    (heq : a = a') : Performs s numbering x ds a' := heq ▸ h

/-- What would come after a failure does not matter. -/
theorem fail (f : Failure) (ds : List Demand) (a : α) :
    Performs s numbering (Run.fail f) (.fail f :: ds) a := fun _ _ _ => rfl

theorem report (d : Diagnostic) : Performs s numbering (Run.report d) [.report d] () :=
  fun _ _ _ => rfl

theorem config : Performs s numbering Run.config [] s.config := by
  intro ctx _ hkeeps
  rw [hkeeps.config]
  rfl

theorem nameOf (node : Path) : Performs s numbering (Run.nameOf node) [.name node] (s.name node) := by
  intro ctx _ hkeeps
  rw [hkeeps.name node _ (NameSupply.assigned?_nameOf ctx.names node)]
  rfl

theorem ofExcept {x : Except Failure α} {a : α} (h : x = .ok a) :
    Performs s numbering (Run.ofExcept x) [] a := by
  subst h
  exact .pure a

theorem parameter (row : Row) (node : Path) :
    Performs s numbering (Run.parameter node row) (row.nameDemands node)
      (row.parameter s.name node) := by
  cases row with
  | table a => exact .pure a
  | joined prior a => exact .nameOf node
  | grouped prior names into => exact .nameOf node

theorem declare (row : Row) (name : String) (p : Position) :
    Performs s numbering (Run.declare row name p) (row.declareDemands name p) () := by
  rw [Run.declare, Row.declareDemands]
  split
  · exact .report _
  · exact .pure ()

theorem ascends (o : Option Direction) :
    Performs s numbering (Run.ascends o) (o.elim [] Direction.demands) (Direction.ascends o) := by
  cases o with
  | none => exact .pure true
  | some d =>
    obtain ⟨word, p⟩ := d
    simp only [Run.ascends, Option.elim_some, Direction.demands, Direction.ascends, Option.map_some]
    split
    · subst word
      exact .pure true
    · split
      · subst word
        exact .pure false
      · rename_i hasc hdesc
        simpa [hasc, hdesc] using (Performs.report ⟨.unknownDirection word, p⟩).map fun _ => true

/-- The row number is asked of the frame of the open query, other names of the row alone. -/
theorem var (place : Place) (param : String) (bound : List String) (p : Position) (n : String) :
    Performs s place.numbering (Run.var place.row param bound p n)
      (place.varDemands s.config bound n) (place.varImage s.config param bound p n) := by
  obtain ⟨row, numbering⟩ := place
  refine Performs.after .config ?_
  rw [Place.varDemands, Place.varImage]
  by_cases hbound : n ∈ bound ∨ n = s.config.table
  · rw [if_pos hbound, if_pos hbound, if_pos hbound]
    exact .pure _
  · rw [if_neg hbound, if_neg hbound, if_neg hbound]
    by_cases hn : n = s.config.rowNumber
    · rw [if_pos hn, if_pos hn]
      intro ctx (hnumbering : ctx.numbering = numbering) _
      have hopened : ctx.Opened numbering := hnumbering ▸ ctx.opened_numbering
      cases hopened with
      | none config mistakes names => rfl
      | plain outer f hselecting =>
        have hframe : Run.frame (outer.push f) = (.ok f, outer.push f) := rfl
        have hunnumbered : ¬(n = s.config.rowNumber ∧ Numbering.plain = .counted) := by simp
        rw [Run.bind_ok hframe, if_neg (Bool.eq_false_iff.mp hselecting), if_neg hunnumbered]
        rfl
      | counted outer f hselecting =>
        have hframe : Run.frame (outer.push f) = (.ok f, outer.push f) := rfl
        rw [Run.bind_ok hframe, if_pos hselecting, if_pos ⟨hn, rfl⟩]
        rfl
    · rw [if_neg hn, if_neg hn, if_neg fun h => hn h.1]
      exact .pure _

end Performs

/-! ## Rows -/

theorem Row.nodup_keys_addPaths (path : PairPath) (row : Row) {ps : List (String × PairPath)}
    (h : (Assoc.keys ps).Nodup) : (Assoc.keys (Row.addPaths path row ps)).Nodup := by
  induction row generalizing path with
  | table a => exact Assoc.nodup_keys_put a path h
  | joined prior a ih => exact Assoc.nodup_keys_put a _ (ih _)
  | grouped prior names into => exact h

theorem Row.nodup_keys_paths (row : Row) : (Assoc.keys row.paths).Nodup := by
  cases row with
  | joined prior a => exact nodup_keys_addPaths [] (.joined prior a) List.nodup_nil
  | _ => exact List.nodup_nil

/-- Every alias that is read has a path. -/
theorem Run.bindings_ok (row : Row) (param : String) (es : List Expr) :
    Run.bindings row param es = .ok (row.bindings param es) := by
  have hkeys : referenced (Assoc.keys row.paths) es =
      (row.paths.filter (·.1 ∈ freeAll es)).map (·.1) := by
    rw [referenced, Assoc.keys, List.filter_map]
    rfl
  have hread : ∀ p ∈ row.paths.filter (·.1 ∈ freeAll es),
      Assoc.get? p.1 row.paths = some p.2 := fun p hp =>
    Assoc.get?_of_mem row.nodup_keys_paths (List.mem_filter.mp hp).1
  rw [Run.bindings, hkeys, Row.bindings]
  generalize row.paths.filter (·.1 ∈ freeAll es) = used at hread ⊢
  induction used with
  | nil => rfl
  | cons p used ih =>
    obtain ⟨hp, hused⟩ := List.forall_mem_cons.mp hread
    rw [List.map_cons, List.map_cons, List.mapM_cons, hp, ih hused]
    rfl

namespace Performs

theorem onRow (row : Row) (node : Path) (es : List Expr) {images : String → Run (List Expr)}
    {ds : List Demand} {values : String → List Expr}
    (h : ∀ param, Performs s numbering (images param) ds (values param)) :
    let param := row.parameter s.name node
    Performs s numbering (Run.onRow row node es images)
      ((if es.isEmpty then [.fail emptyList] else []) ++ row.nameDemands node ++ ds)
      ⟨param, row.bindings param es, values param⟩ := by
  rw [Run.onRow]
  cases hes : es.isEmpty with
  | true => exact .fail emptyList _ _
  | false =>
    exact (parameter row node).bind (.after (.ofExcept (Run.bindings_ok row _ es)) ((h _).map _))

theorem function (param : String) (bs : List (Binding Expr)) (body : Expr) (rest : List Expr)
    (joined : Option String) :
    Performs s numbering (Run.function ⟨param, bs, body :: rest⟩ joined) []
      ⟨param :: joined.toList, Comprehension.bind bs body s.config.inlinePaths⟩ :=
  .after (.pure body) (.after .config (.pure _))

/-- A single expression makes the function that its clause gets. -/
theorem single (row : Row) (node : Path) (joined : Option String) (e : Expr)
    {image : String → Run Expr} {ds : List Demand} {body : String → Expr}
    (h : ∀ param, Performs s numbering (image param) ds (body param)) :
    let param := row.parameter s.name node
    Performs s numbering (Run.single row node joined e image) (row.nameDemands node ++ ds)
      (row.closeOver s.config (param :: joined.toList) param [e] (body param)) := by
  have hrow := onRow row node [e] fun param => (h param).map fun body => [body]
  have hfunction := hrow.bind (k := fun r => Run.function r joined) (function _ _ _ [] joined)
  rw [List.append_nil] at hfunction
  exact hfunction

end Performs

/-! ## Notes in the table -/

namespace Fills

theorem noteNames (h : numbering ≠ .noQuery) (l : NameList) (names : List String) :
    Fills s numbering (Run.noteNames l names) [] (·.set l names) () := by
  intro ctx hnumbering _
  have hopened : ctx.Opened numbering := hnumbering ▸ ctx.opened_numbering
  refine ⟨_, ?_, fun _ => rfl⟩
  cases hopened with
  | none config mistakes names => exact absurd rfl h
  | plain outer f _ | counted outer f _ => rfl

theorem record (h : numbering ≠ .noQuery) (l : NameList) (written values : List Expr)
    (row : Option Expr) :
    Fills s numbering (Run.record l written values row) [] (·.set l (labels written))
      (l.record s.config values row) := by
  rw [Run.record]
  refine (noteNames h l (labels written)).bind (Performs.fills ?_)
  exact .after .config (.pure _)

/-- While `select` is lowered row numbers count. After it, be it that it fails, they do not. -/
theorem selecting {x : Run α} {ds : List Demand} {g : NameTable → NameTable} {a : α}
    (h : Fills s .counted x ds g a) :
    Fills s .plain (Run.selecting x) ds g a := by
  intro ctx hnumbering hkeeps
  let begun := ctx.onFrame ({ · with selecting := true })
  have hperform : begun.perform ds = _ := Context.perform_onFrame (fun _ => rfl) ctx ds
  have hinside : (begun.perform ds).2.Keeps s := by
    rw [hperform]
    exact ⟨hkeeps.config, hkeeps.name⟩
  have hbegin : Run.modifyFrame ({ · with selecting := true }) ctx = (.ok (), begun) ∧
      begun.numbering = .counted := by
    obtain ⟨outer, table, counts, rfl⟩ := Context.exists_push hnumbering
    exact ⟨rfl, rfl⟩
  obtain ⟨g', hrun, hg⟩ := h begun hbegin.2 hinside
  rw [hperform] at hrun hg
  have hend : Run.modifyFrame ({ · with selecting := false })
      (((ctx.perform ds).2.onFrame ({ · with selecting := true })).retable g') =
        (.ok (), (ctx.perform ds).2.retable g') := by
    obtain ⟨outer, table, counts, heq⟩ :=
      Context.exists_push ((Context.perform_numbering ctx ds).trans hnumbering)
    rw [heq]
    rfl
  refine ⟨g', ?_, hg⟩
  rw [Run.selecting, Run.bind_ok hbegin.1, Run.bind_ok (Run.attempt_of_eq hrun), Run.bind_ok hend,
    Run.ofExcept_eq]

end Fills

/-- Clauses that are lowered in a frame of their own leave it however they end. -/
theorem Fills.inFrame {x : Run Pipeline} {ds : List Demand} {g : NameTable → NameTable}
    {a : Pipeline} (h : Fills s .plain x ds g a) :
    Performs s numbering (Run.inFrame x) (ds.filter (·.outlivesQuery))
      ⟨.table s.config.table (g .new) ::
        (if ds.contains .countRow then [.counter s.config.counter] else []), a⟩ := by
  intro ctx hnumbering hkeeps
  obtain ⟨counts, hpush, hcounts⟩ := Context.perform_push ctx .new ds
  have hinside : ((ctx.push .new).perform ds).2.Keeps s := by
    rw [hpush]
    exact ⟨hkeeps.config, hkeeps.name⟩
  obtain ⟨g', hrun, hg⟩ := h (ctx.push .new) rfl hinside
  rw [hpush] at hrun hg
  have hopen : Run.openFrame ctx = (.ok (), ctx.push .new) := rfl
  rw [Run.inFrame, Run.bind_ok hopen, Run.bind_ok (Run.attempt_of_eq hrun)]
  cases hr : (ctx.perform (ds.filter (·.outlivesQuery))).1 with
  | error f => rfl
  | ok u =>
    obtain rfl := hg hr
    obtain rfl := hcounts hr
    rw [hkeeps.config]
    rfl

end

/-! ## Expressions -/

section

variable {s : Naming}

/-- Wherever the expression stands, the pass does what its demands and its image say. -/
def Expr.Passes (s : Naming) (e : Expr) : Prop :=
  ∀ (place : Place) (param : String) (path : Path) (bound : List String) (searched : Bool),
    Performs s place.numbering (e.run place.row param path bound searched)
      (e.demands s.config place path bound) (e.image s place param path bound searched)

theorem passes_runAll {es : List Expr} (h : ∀ e ∈ es, e.Passes s) (place : Place)
    (param : String) (path : Path) (bound : List String) (step : Nat → Step) (i : Nat) :
    Performs s place.numbering (runAll place.row param path bound step i es)
      (demandsAll s.config place path bound step i es)
      (imageAll s place param path bound step i es) := by
  induction es generalizing i with
  | nil => exact .pure []
  | cons e es ih =>
    obtain ⟨he, hes⟩ := List.forall_mem_cons.mp h
    rw [runAll, demandsAll, imageAll]
    exact (he place param _ bound false).bind ((ih hes (i + 1)).map _)

theorem Aggregate.name_of_ofName? {n : String} {a : Aggregate} (h : Aggregate.ofName? n = some a) :
    a.name = n := by
  simpa using List.find?_some h

/-- On the rows of a group the call of an aggregate is one. -/
theorem passes_call {es : List Expr} (h : ∀ e ∈ es, e.Passes s) (p : Position) (n : String) :
    (Expr.sequence p (.call n) es).Passes s := by
  rintro ⟨row, numbering⟩ param path bound searched
  have hplain := passes_runAll h ⟨row, numbering⟩ param path bound .part 0
  rw [Expr.run, Expr.demands, Expr.image]
  obtain _ | (a | ⟨prior, a⟩ | ⟨prior, names, into⟩) := row
  · exact hplain.map _
  · exact hplain.map _
  · exact hplain.map _
  · have hreduction : Place.reduction? ⟨some (.grouped prior names into), numbering⟩ n =
        (Aggregate.ofName? n).map (·, prior) := rfl
    cases hname : Aggregate.ofName? n with
    | none =>
      rw [hreduction, hname]
      exact hplain.map _
    | some a =>
      rw [hreduction, hname]
      obtain rfl := Aggregate.name_of_ofName? hname
      simp only [Option.map_some]
      refine .after (.pure _) ?_
      cases hrule : a.rule? es.length with
      | none =>
        simp only
        exact (Performs.report _).bind (hplain.map _)
      | some rule =>
        have hlength := Aggregate.rule?_some hrule
        cases rule with
        | allRows => exact .pure _
        | eachRow =>
          obtain ⟨arg, rfl⟩ := List.length_eq_one_iff.mp hlength
          have harg := h arg List.mem_cons_self ⟨some prior, numbering⟩
          have hselector := (Performs.single prior (.part 0 :: path) none arg fun param =>
            harg param (.part 0 :: path) [] false).map fun f =>
              Expr.method p (GroupView.rows param) a.name [.lambda arg.pos f]
          refine .after .config ?_
          by_cases hroot : arg.root? = some s.config.group
          · simp only [if_pos hroot]
            rw [List.append_assoc]
            exact (Performs.report _).bind hselector
          · simp only [if_neg hroot]
            exact hselector
        | rowsAtOnce =>
          obtain ⟨arg, rfl⟩ := List.length_eq_one_iff.mp hlength
          have hplace := h arg List.mem_cons_self ⟨some (.grouped prior names into), numbering⟩
          exact (hplace param _ bound false).map _

/-! ## Clauses -/

variable (path : Path)

theorem passes_single {e : Expr} (h : e.Passes s) (slot : Slot) (row : Row)
    (joined : Option String) :
    let node := Step.slot slot :: path
    let param := row.parameter s.name node
    Performs s .plain
      (Run.single row node joined e fun param => e.run (some row) param node [] false)
      (row.nameDemands node ++ e.demands s.config ⟨some row, .plain⟩ node [])
      (row.closeOver s.config (param :: joined.toList) param [e]
        (e.image s ⟨some row, .plain⟩ param node [] false)) :=
  .single row _ joined e fun param => h ⟨some row, .plain⟩ param _ [] false

theorem passes_value {e : Expr} (h : e.Passes s) (slot : Slot) :
    Performs s .plain (e.run none "" (.slot slot :: path) [] false)
      (e.demands s.config ⟨none, .plain⟩ (.slot slot :: path) [])
      (e.image s ⟨none, .plain⟩ "" (.slot slot :: path) [] false) :=
  h ⟨none, .plain⟩ "" _ [] false

theorem passes_matchRun {o : Option Expr} (h : ∀ e ∈ o, e.Passes s) (i : Nat) (row : Row)
    (kind : JoinKind) (name : String) (p : Position) :
    Performs s .plain (matchRun path i row kind name p o) (matchDemands s.config path i row kind p o)
      (matchImage s path i row kind name o) := by
  cases o with
  | none =>
    rw [matchRun, matchDemands, matchImage]
    split
    · exact (Performs.report _).map _
    · exact .pure none
  | some e =>
    rw [matchRun, matchDemands, matchImage]
    split
    · exact (passes_single path (h e rfl) (.joinOn i) row (some name)).map some
    · exact (Performs.report _).map _

theorem passes_joinsRun {js : List (Join Expr)}
    (h : ∀ j ∈ js, j.source.Passes s ∧ ∀ e ∈ j.on, e.Passes s) (i : Nat) (row : Row) :
    Performs s .plain (joinsRun path i row js) (joinsDemands s.config path i row js)
      (joinsImage s path i row js, row.afterJoins (js.map (·.name))) := by
  induction js generalizing i row with
  | nil => exact .pure _
  | cons j js ih =>
    obtain ⟨kind, name, source, on, p⟩ := j
    obtain ⟨⟨hsource, hon⟩, hjs⟩ := List.forall_mem_cons.mp h
    rw [joinsRun, joinsDemands, joinsImage]
    simp only [List.append_assoc]
    exact (Performs.declare row name p).bind <| (passes_value path hsource (.joinSource i)).bind <|
      (passes_matchRun path hon i row kind name p).bind <| (ih hjs (i + 1) (row.joined name)).map _

theorem passes_filterRun {o : Option (Filter Expr)} (h : ∀ f ∈ o, f.predicate.Passes s)
    (row : Row) :
    Performs s .plain (filterRun path row o) (filterDemands s.config path row o)
      (filterImage s path row o) := by
  cases o with
  | none => exact .pure []
  | some f => exact (passes_single path (h f rfl) .predicate row none).map _

theorem passes_havingRun {o : Option Expr} (h : ∀ e ∈ o, e.Passes s) (row : Row) :
    Performs s .plain (havingRun path row o) (havingDemands s.config path row o)
      (havingImage s path row o) := by
  cases o with
  | none => exact .pure none
  | some e => exact (passes_single path (h e rfl) .having row none).map some

theorem passes_termsRun {ts : List (SortTerm Expr)} (h : ∀ t ∈ ts, t.key.Passes s) (row : Row)
    (i : Nat) :
    Performs s .plain (termsRun path row i ts) (termsDemands s.config path row i ts)
      (termsImage s path row i ts) := by
  induction ts generalizing i with
  | nil => exact .pure []
  | cons t ts ih =>
    obtain ⟨key, direction⟩ := t
    obtain ⟨ht, hts⟩ := List.forall_mem_cons.mp h
    have hdemands : termsDemands s.config path row i (⟨key, direction⟩ :: ts) =
        direction.elim [] Direction.demands ++
          (row.nameDemands (.slot (.orderKey i) :: path) ++
            key.demands s.config ⟨some row, .plain⟩ (.slot (.orderKey i) :: path) [] ++
            termsDemands s.config path row (i + 1) ts) := by
      cases direction <;> simp [termsDemands]
    rw [termsRun, hdemands, termsImage]
    refine (Performs.ascends direction).bind ?_
    exact (passes_single path ht (.orderKey i) row none).bind ((ih hts (i + 1)).map _)

theorem passes_sortingRun {o : Option (Sorting Expr)} (h : ∀ x ∈ o, ∀ t ∈ x.terms, t.key.Passes s)
    (row : Row) :
    Performs s .plain (sortingRun path row o) (sortingDemands s.config path row o)
      (sortingImage s path row o) := by
  cases o with
  | none => exact .pure []
  | some x => exact (passes_termsRun path (h x rfl) row 0).map _

theorem passes_limitRun {o : Option (Limit Expr)}
    (h : ∀ l ∈ o, (∀ e ∈ l.offset, e.Passes s) ∧ l.size.Passes s) :
    Performs s .plain (limitRun path o) (limitDemands s.config path o) (limitImage s path o) := by
  obtain _ | ⟨_ | offset, size, p⟩ := o
  · exact .pure []
  · exact (passes_value path (h _ rfl).2 .size).map _
  · obtain ⟨hoffset, hsize⟩ := h _ rfl
    exact (passes_value path (hoffset offset rfl) .offset).bind
      ((passes_value path hsize .size).map _)

theorem passes_numbered {es : List Expr} (h : ∀ e ∈ es, e.Passes s) (slot : Nat → Slot) (row : Row)
    (numbering : Numbering) :
    let node := Step.slot (slot 0) :: path
    let param := row.parameter s.name node
    Performs s numbering
      (Run.onRow row node es fun param => runAll (some row) param path [] (.slot ∘ slot) 0 es)
      ((if es.isEmpty then [.fail emptyList] else []) ++ row.nameDemands node ++
        demandsAll s.config ⟨some row, numbering⟩ path [] (.slot ∘ slot) 0 es)
      ⟨param, row.bindings param es,
        imageAll s ⟨some row, numbering⟩ param path [] (.slot ∘ slot) 0 es⟩ :=
  .onRow row _ es fun param => passes_runAll h ⟨some row, numbering⟩ param path [] _ 0

/-- The table that grouping leaves. -/
def NameTable.grouped : Option (Grouping Expr) → NameTable → NameTable
  | some g, t => t.set .groups (labels g.classifiers)
  | none, t => t

/-- The row that grouping leaves. -/
def Row.groupedBy (row : Row) : Option (Grouping Expr) → Row
  | some g => .grouped row (labels g.classifiers) g.into
  | none => row

theorem fills_groupingRun {o : Option (Grouping Expr)}
    (h : ∀ g ∈ o, (∀ e ∈ g.classifiers, e.Passes s) ∧ ∀ e ∈ g.having, e.Passes s) (row : Row) :
    Fills s .plain (groupingRun path row o) (groupingDemands s.config path row o) (.grouped o)
      (groupingImage s path row o, row.groupedBy o) := by
  obtain _ | ⟨cs, into, having, p⟩ := o
  · exact (Performs.pure _).fills
  · obtain ⟨hcs, hhaving⟩ := h _ rfl
    have hdemands : groupingDemands s.config path row (some ⟨cs, into, having, p⟩) =
        into.elim [] (row.declareDemands · p) ++
          ((if cs.isEmpty then [.fail emptyList] else []) ++
            row.nameDemands (.slot (.classifier 0) :: path) ++
            demandsAll s.config ⟨some row, .plain⟩ path [] (.slot ∘ .classifier) 0 cs ++
            havingDemands s.config path (.grouped row (labels cs) into) having) := by
      cases into <;> simp [groupingDemands]
    have hinto : Performs s .plain (into.forM fun n => Run.declare row n p)
        (into.elim [] (row.declareDemands · p)) () := by
      cases into with
      | none => exact .pure ()
      | some n => exact .declare row n p
    rw [groupingRun, hdemands, groupingImage]
    change Fills s .plain _ _ (((id ∘ (·.set .groups (labels cs))) ∘ id) ∘ id) _
    refine hinto.fills.bind ?_
    refine (passes_numbered path hcs .classifier row .plain).fills.bind ?_
    refine (Fills.record (by decide) .groups cs _ none).after ?_
    refine Performs.fills (.after .config ?_)
    exact (passes_havingRun path hhaving (.grouped row (labels cs) into)).map _

/-- The table that `select` leaves. -/
def NameTable.selected : Option (Projection Expr) → NameTable → NameTable
  | some p, t => if p.items.isEmpty then t else t.set .selected (labels p.items)
  | none, t => t

theorem fills_projectionRun {o : Option (Projection Expr)}
    (h : ∀ p ∈ o, ∀ e ∈ p.items, e.Passes s) (row : Row) :
    Fills s .plain (projectionRun path row o) (projectionDemands s.config path row o) (.selected o)
      (projectionImage s path row o) := by
  obtain _ | ⟨_ | ⟨e, es⟩, p⟩ := o
  · exact ((Performs.report _).map _).fills
  · exact Fills.selecting ((Performs.report _).map _).fills
  · have hrow := passes_numbered path (h _ rfl) .item row .counted
    refine Fills.selecting ?_
    rw [if_neg (by simp), projectionImage]
    change Fills s .counted _ _ ((id ∘ (·.set .selected (labels (e :: es)))) ∘ id) _
    refine hrow.fills.before ?_
    cases hwants : wantsRecord (e :: es) with
    | true =>
      simp only [if_true]
      refine (Fills.record (by decide) .selected (e :: es) _ _).before ?_
      exact Performs.fills (.after .config (.pure _))
    | false =>
      obtain rfl : es = [] := by
        cases es with
        | nil => rfl
        | cons e' es => cases hwants
      simp only [Bool.false_eq_true, if_false]
      refine (Fills.noteNames (by decide) .selected _).before (Performs.fills ?_)
      exact (Performs.function _ _ _ _ none).map fun f => [Stage.select f]

/-- The notes taken while the clauses are lowered make up the name table of the query. -/
theorem nameTable_of_notes (q : Query Expr) :
    NameTable.selected q.projection (.grouped q.grouping (NameTable.new.set .aliases q.aliases)) =
      q.nameTable := by
  rw [Query.nameTable]
  cases q.grouping <;> cases q.projection <;> rfl

theorem Query.groupedBy_joinedRow (q : Query Expr) : q.joinedRow.groupedBy q.grouping = q.row := by
  rw [Query.row]
  cases q.grouping <;> rfl

theorem passes_queryRun {q : Query Expr} (h : q.Each (Expr.Passes s)) (numbering : Numbering) :
    Performs s numbering (queryRun path q)
      ((queryDemands s.config path q).filter (·.outlivesQuery)) (queryImage s path q) := by
  obtain ⟨⟨name, source, p⟩, joins, filter, grouping, sorting, limit, projection, pos⟩ := q
  let q : Query Expr :=
    ⟨⟨name, source, p⟩, joins, filter, grouping, sorting, limit, projection, pos⟩
  rw [queryRun]
  have htable := nameTable_of_notes q
  have hrow := q.groupedBy_joinedRow
  let g : NameTable → NameTable := (((((((id ∘ .selected projection) ∘ id) ∘ id) ∘
    .grouped grouping) ∘ id) ∘ id) ∘ id) ∘ (·.set .aliases q.aliases)
  refine Performs.congr (Fills.inFrame (g := g) (a := (queryImage s path q).pipeline) ?_) ?_
  · have hdemands : queryDemands s.config path q =
        source.demands s.config ⟨none, .plain⟩ (.slot .source :: path) [] ++
          (joinsDemands s.config path 0 (.table name) joins ++
            (filterDemands s.config path q.joinedRow filter ++
              (groupingDemands s.config path q.joinedRow grouping ++
                (sortingDemands s.config path q.row sorting ++
                  (limitDemands s.config path limit ++
                    projectionDemands s.config path q.row projection))))) := by
      simp only [q, queryDemands, List.append_assoc]
    rw [hdemands]
    refine (Fills.noteNames (by decide) .aliases q.aliases).after ?_
    refine (passes_value path h.source .source).fills.bind ?_
    refine (passes_joinsRun path h.joins 0 (.table name)).fills.bind ?_
    refine (passes_filterRun path h.filter q.joinedRow).fills.bind ?_
    refine (fills_groupingRun path h.grouping q.joinedRow).bind ?_
    rw [hrow]
    refine (passes_sortingRun path h.sorting q.row).fills.bind ?_
    refine (passes_limitRun path h.limit).fills.bind ?_
    exact (fills_projectionRun path h.projection q.row).before (Performs.pure _).fills
  · rw [queryImage, ← htable]
    rfl

end

/-- The pass does what the demands and the image of an expression say. -/
theorem passes (s : Naming) (e : Expr) : e.Passes s := by
  induction e using Expr.written_induction with
  | literal p v => exact fun _ _ _ _ _ => .pure _
  | var p n => exact fun place param _ bound _ => .var place param bound p n
  | unary p f e ih => exact fun place param path bound _ => (ih place param _ bound false).map _
  | binary p f l r ihl ihr =>
    intro place param path bound searched
    cases f with
    | operator op =>
      exact (ihl place param _ bound false).bind ((ihr place param _ bound op.searches).map _)
    | index => exact (ihl place param _ bound false).bind ((ihr place param _ bound false).map _)
    | computedField =>
      exact (ihl place param _ bound false).bind ((ihr place param _ bound false).map _)
  | sequence p f es ih =>
    cases f with
    | call n => exact passes_call ih p n
    | _ => exact fun place param path bound _ => (passes_runAll ih place param path bound .part 0).map _
  | method p r n es ihr ihes =>
    intro place param path bound searched
    exact (ihr place param _ bound false).bind
      ((passes_runAll ihes place param path bound .part 1).map _)
  | lambda p ps body ih =>
    exact fun place param path bound _ => (ih place param _ (ps ++ bound) false).map _
  | query p q ih =>
    intro place param path bound searched
    rw [Expr.run, Expr.demands, Expr.image]
    refine List.append_nil ((queryDemands s.config path q).filter _) ▸ ?_
    refine (passes_queryRun path ih place.numbering).bind (.after .config (.pure _))
  | letIn p bs e => exact fun _ _ _ _ _ => .fail _ [] _
  | record p vs ns as row => exact fun _ _ _ _ _ => .fail _ [] _
  | postIncrement p n => exact fun _ _ _ _ _ => .fail _ [] _
  | subquery p t => exact fun _ _ _ _ _ => .fail _ [] _

/-! ## The pass and lowering agree -/

/-- What the pass gives where lowering gives the result and the context. -/
def Run.given {α : Type} (r : Except Failure α × Context) : Except Stop α × Context :=
  (r.1.mapError .failure, r.2)

theorem Performs.given {α : Type} {x : Run α} {ctx : Context} {ds : List Demand}
    {image : Naming → α}
    (h : ∀ s : Naming, s.config = ctx.config → Performs s ctx.numbering x ds (image s)) :
    x ctx = Run.given (ctx.answer ds image) := by
  let s : Naming := (ctx.perform ds).2.naming
  have hconfig : s.config = ctx.config := ctx.perform_config ds
  exact h s hconfig ctx rfl (ctx.perform ds).2.keeps_naming

/-- A query is lowered by the pass as by its demands and its image, in every context. -/
theorem queryRun_eq (node : Path) (q : Query Expr) (ctx : Context) :
    queryRun node q ctx = Run.given (ctx.lowerInside node q) := by
  refine Performs.given fun s hs => ?_
  rw [← hs]
  exact passes_queryRun node (q.each_of_forall (passes s)) ctx.numbering

theorem Run.lower_eq (node : Path) (q : Query Expr) (ctx : Context) :
    Run.lower node q ctx = Run.given (ctx.lower node q) := by
  have hdepth : Run.depth ctx = (.ok ctx.frames.length, ctx) := rfl
  rw [Run.lower, Context.lower, Run.bind_ok hdepth]
  cases hframes : ctx.frames with
  | nil => exact queryRun_eq node q _
  | cons f fs => exact queryRun_eq node q ctx

theorem Run.lower_ok {node : Path} {q : Query Expr} {ctx ctx' : Context} {t : Thunk}
    (h : Run.lower node q ctx = (.ok t, ctx')) : ctx.lower node q = (.ok t, ctx') := by
  rw [Run.lower_eq, Run.given, Prod.mk.injEq] at h
  obtain ⟨ht, rfl⟩ := h
  cases hr : (ctx.lower node q).1 with
  | error f =>
    rw [hr] at ht
    cases ht
  | ok t' =>
    rw [hr] at ht
    cases ht
    exact Prod.ext hr rfl

/-- An expression at a place is lowered by the pass as by its demands and its image. -/
theorem Expr.run_eq (row : Option Row) (param : String) (path : Path) (bound : List String)
    (searched : Bool) (e : Expr) (ctx : Context) :
    e.run row param path bound searched ctx =
      Run.given (ctx.answer (e.demands ctx.config ⟨row, ctx.numbering⟩ path bound) fun s =>
        e.image s ⟨row, ctx.numbering⟩ param path bound searched) := by
  refine Performs.given fun s hs => ?_
  rw [← hs]
  exact passes s e ⟨row, ctx.numbering⟩ param path bound searched

theorem Run.resolveValue_eq (node : Path) (e : Expr) (ctx : Context) :
    Run.resolveValue node e ctx = Run.given (ctx.imageOffRow node e) :=
  e.run_eq none "" node [] false ctx

/-- Under a row and bound names the pass runs as `imageUnder` says. -/
theorem Expr.run_eq_imageUnder (row : Row) (param : String) (bound : List String) (node : Path)
    (e : Expr) (ctx : Context) :
    e.run (some row) param node bound false ctx =
      Run.given (ctx.imageUnder row param bound node e) :=
  e.run_eq (some row) param node bound false ctx

theorem passes_mapM {s : Naming} (place : Place) (param : String) (nodes : List (Path × Expr)) :
    Performs s place.numbering
      (nodes.mapM' fun n => n.2.run place.row param n.1 [] false)
      (nodes.flatMap fun n => n.2.demands s.config place n.1 [])
      (nodes.map fun n => n.2.image s place param n.1 [] false) := by
  induction nodes with
  | nil => exact .pure []
  | cons n nodes ih =>
    rw [List.mapM'_cons, List.flatMap_cons, List.map_cons]
    exact (passes s n.2 place param n.1 [] false).bind (ih.map _)

theorem Run.resolveAll_eq (row : Row) (nodes : List (Path × Expr)) (ctx : Context) :
    Run.resolveAll row nodes ctx = Run.given (ctx.imageOnRow row nodes) := by
  cases nodes with
  | nil => exact Performs.given fun s _ => .fail emptyList [] _
  | cons n nodes =>
    refine Performs.given fun s hs => ?_
    rw [← hs]
    exact .onRow row n.1 _ fun param =>
      passes_mapM ⟨some row, ctx.numbering⟩ param (n :: nodes)

/-! ## What a run leaves alone -/

/-- One context comes of another: mistakes are added after those found, and no node loses its name.
-/
structure Context.Continues (ctx ctx' : Context) : Prop where
  config : ctx'.config = ctx.config
  mistakes : ctx.mistakes <+: ctx'.mistakes
  names : ∀ node n, ctx.names.assigned? node = some n → ctx'.names.assigned? node = some n

namespace Context

theorem perform_continues (ctx : Context) (ds : List Demand) :
    ctx.Continues (ctx.perform ds).2 :=
  ⟨ctx.perform_config ds, (ctx.perform_outcome ds).2 ▸ List.prefix_append _ _,
    fun _ _ h => perform_keeps h ds⟩

/-- Performing demands changes no frame but the innermost, and that one in its counting alone. -/
theorem perform_head (ctx : Context) (ds : List Demand) :
    ∃ b, (ctx.perform ds).2.frames = ctx.frames.modifyHead ({ · with countsRows := b }) := by
  induction ds generalizing ctx with
  | nil =>
    obtain ⟨config, mistakes, names, _ | ⟨f, fs⟩⟩ := ctx
    · exact ⟨false, rfl⟩
    · exact ⟨f.countsRows, rfl⟩
  | cons d ds ih =>
    cases d with
    | name node => exact ih (ctx.nameOf node).2
    | report d => exact ih (ctx.report d)
    | countRow =>
      obtain ⟨b, hb⟩ := ih ctx.countRow
      refine ⟨b, hb.trans ?_⟩
      obtain ⟨config, mistakes, names, _ | ⟨f, fs⟩⟩ := ctx <;> rfl
    | fail f =>
      obtain ⟨config, mistakes, names, _ | ⟨f, fs⟩⟩ := ctx
      · exact ⟨false, rfl⟩
      · exact ⟨f.countsRows, rfl⟩

end Context

/-- The frames of one context are those of another, but that the innermost may count rows. -/
def Context.SameFrames (ctx ctx' : Context) : Prop :=
  ∃ b, ctx'.frames = ctx.frames.modifyHead ({ · with countsRows := b })

/-- However the lowering of a nested query ends, all frames are as they were. Where expressions are
lowered, the innermost frame changes at most in that it counts rows. -/
theorem runs_keep_frames (ctx : Context) (node : Path) :
    (∀ q, (queryRun node q ctx).2.frames = ctx.frames ∧
        ctx.Continues (queryRun node q ctx).2) ∧
      (∀ row e, ctx.SameFrames (Run.resolve row node e ctx).2 ∧
        ctx.Continues (Run.resolve row node e ctx).2) ∧
      (∀ row nodes, ctx.SameFrames (Run.resolveAll row nodes ctx).2 ∧
        ctx.Continues (Run.resolveAll row nodes ctx).2) ∧
      ∀ e, ctx.SameFrames (Run.resolveValue node e ctx).2 ∧
        ctx.Continues (Run.resolveValue node e ctx).2 := by
  have hanswer {α : Type} (ds : List Demand) (image : Naming → α) :
      ctx.SameFrames (Run.given (ctx.answer ds image)).2 ∧
        ctx.Continues (Run.given (ctx.answer ds image)).2 :=
    ⟨ctx.perform_head ds, ctx.perform_continues ds⟩
  have hall (row : Row) (nodes : List (Path × Expr)) :
      ctx.SameFrames (Run.resolveAll row nodes ctx).2 ∧
        ctx.Continues (Run.resolveAll row nodes ctx).2 := by
    rw [Run.resolveAll_eq]
    cases nodes <;> exact hanswer _ _
  refine ⟨fun q => ?_, fun row e => hall row [(node, e)], hall, fun e => ?_⟩
  · rw [queryRun_eq]
    refine ⟨Context.perform_frames ?_, (hanswer _ _).2⟩
    simp [Demand.outlivesQuery]
  · rw [Run.resolveValue_eq]
    exact hanswer _ _

end Comprehension
