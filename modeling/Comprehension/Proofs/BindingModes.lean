import Comprehension.Proofs.LetElimination
import Comprehension.Proofs.MadeUpNames
import Comprehension.Proofs.Pieces
import Comprehension.Proofs.Relocation

/-!
The two binding modes. Lowering asks for the same in both, so mistakes, failures and made-up names
are the same. What it makes with paths put in place is what it makes with paths bound, once its lets
are eliminated; the name tables are the same at every depth.
-/

namespace Comprehension

/-! ## Heads of images -/

namespace Expr

theorem isRename_withPos (p : Position) (e : Expr) : (e.withPos p).isRename = e.isRename := by
  cases e with
  | unary q f e => cases f <;> rfl
  | _ => rfl

theorem renamed_of_not_isRename {e : Expr} (h : e.isRename = false) : e.renamed = e := by
  cases e with
  | unary p f e =>
    cases f with
    | rename a => cases h
    | _ => rfl
  | _ => rfl

/-- Bindings leave the head of what is no variable. -/
theorem head_bind (bs : List (Binding Expr)) {e : Expr} (inline : Bool)
    (h : e.var? = none ∧ e.isRename = false) :
    (bind bs e inline).var? = none ∧ (bind bs e inline).isRename = false := by
  rw [bind]
  split
  · exact h
  · split
    · cases e with
      | var p n => cases h.1
      | unary p f e => exact ⟨rfl, by cases f <;> first | rfl | cases h.2⟩
      | record p vs ns as row => cases row <;> exact ⟨rfl, rfl⟩
      | _ => exact ⟨rfl, rfl⟩
    · exact ⟨rfl, rfl⟩

/-- Lowering makes no rename and takes none away. -/
theorem isRename_image (s : Naming) (place : Place) (param : String) (path : Path)
    (bound : List String) (searched : Bool) (e : Expr) :
    (e.image s place param path bound searched).isRename = e.isRename := by
  cases e with
  | var p n =>
    rw [image, Place.varImage]
    split
    · rfl
    · split
      · rfl
      · split
        · rename_i hread
          rw [isRename_withPos]
          rcases Place.read?_cases hread with ⟨-, rfl⟩ | ⟨-, rfl | rfl⟩ <;> rfl
        · rfl
  | unary p f e => cases f <;> rfl
  | binary p f l r => cases f <;> rfl
  | sequence p f es =>
    cases f with
    | call n =>
      rw [image]
      split
      · rfl
      · split <;> rfl
    | _ => rfl
  | query p q =>
    rw [image]
    refine (head_bind _ _ (head_bind _ _ ?_)).2
    cases searched <;> exact ⟨rfl, rfl⟩
  | _ => rfl

/-- In a record the rename gives way to the image of its operand. -/
theorem renamed_image (s : Naming) (place : Place) (param : String) (path : Path)
    (bound : List String) (e : Expr) :
    ∃ path', (e.image s place param path bound false).renamed =
      e.renamed.image s place param path' bound false := by
  cases hr : e.isRename with
  | false =>
    rw [renamed_of_not_isRename ((isRename_image ..).trans hr), renamed_of_not_isRename hr]
    exact ⟨path, rfl⟩
  | true =>
    cases e with
    | unary p f e =>
      cases f with
      | rename a => exact ⟨.part 0 :: path, rfl⟩
      | _ => cases hr
    | _ => cases hr

end Expr

/-! ## Images -/

/-- The naming in the given binding mode. -/
def Naming.binding (s : Naming) (inline : Bool) : Naming := ⟨s.config.binding inline, s.name⟩

section Images

variable (s : Naming)

/-- The image with paths put in place is the image with paths bound, without its lets. -/
def SameImage (e : Expr) : Prop :=
  ∀ place param path bound searched,
    e.image (s.binding true) place param path bound searched =
      (e.image (s.binding false) place param path bound searched).dropLets s.config.table

variable {s}

theorem imageAll_mode {es : List Expr} (h : ∀ e ∈ es, SameImage s e) (place : Place)
    (param : String) (path : Path) (bound : List String) (step : Nat → Step) (i : Nat) :
    imageAll (s.binding true) place param path bound step i es =
      dropLetsAll s.config.table
        (imageAll (s.binding false) place param path bound step i es) := by
  induction es generalizing i with
  | nil => rfl
  | cons e es ih =>
    rw [imageAll, imageAll, dropLetsAll, h e List.mem_cons_self,
      ih fun e hm => h e (List.mem_cons_of_mem _ hm)]

theorem renamed_mode {e : Expr} (h : SameImage s e) (place : Place) (param : String) (path : Path)
    (bound : List String) :
    (e.image (s.binding true) place param path bound false).renamed =
      (e.image (s.binding false) place param path bound false).renamed.dropLets
        s.config.table := by
  have heq := h place param path bound false
  cases hr : e.isRename with
  | false =>
    rw [Expr.renamed_of_not_isRename ((Expr.isRename_image ..).trans hr),
      Expr.renamed_of_not_isRename ((Expr.isRename_image ..).trans hr), heq]
  | true =>
    cases e with
    | unary p f e =>
      cases f with
      | rename a =>
        rw [Expr.image, Expr.image, Expr.dropLets] at heq
        exact (Expr.unary.inj heq).2.2
      | _ => cases hr
    | _ => cases hr

theorem renamedAll_mode {es : List Expr} (h : ∀ e ∈ es, SameImage s e) (place : Place)
    (param : String) (path : Path) (bound : List String) (step : Nat → Step) (i : Nat) :
    (imageAll (s.binding true) place param path bound step i es).map Expr.renamed =
      dropLetsAll s.config.table
        ((imageAll (s.binding false) place param path bound step i es).map Expr.renamed) := by
  induction es generalizing i with
  | nil => rfl
  | cons e es ih =>
    rw [imageAll, imageAll, List.map_cons, List.map_cons, dropLetsAll,
      renamed_mode (h e List.mem_cons_self), ih fun e hm => h e (List.mem_cons_of_mem _ hm)]

theorem recordOf_mode (table : String) (l : NameList) {values values' : List Expr}
    (h : values'.map Expr.renamed = dropLetsAll table (values.map Expr.renamed))
    (row : Option String) :
    recordOf table l values' (row.map Expr.name) =
      (recordOf table l values (row.map Expr.name)).dropLets table := by
  rw [recordOf, recordOf, h]
  cases row <;> rfl

/-- Functions of a row whose bodies differ by elimination differ so themselves. -/
theorem closeOver_mode (hname : ∀ node, s.name node ≠ s.config.table) (r : Row) (node : Path)
    (params : List String) (es : List Expr) {body body' : Expr}
    (h : body' = body.dropLets s.config.table) :
    r.closeOver (s.config.binding true) params (r.parameter s.name node) es body' =
      (r.closeOver (s.config.binding false) params (r.parameter s.name node) es body).dropLets
        s.config.table := by
  have hfree : ∀ b ∈ r.bindings (r.parameter s.name node) es, s.config.table ∉ b.value.free := by
    intro b hb
    rw [Row.bindings_free r hb, List.mem_singleton]
    exact fun heq => hname node heq.symm
  have hbind := dropLets_bind_of_not_mem (r.bindings_settled _ es) hfree body
  rw [Row.closeOver, Row.closeOver, Lambda.dropLets, h]
  exact congrArg (Lambda.mk params) hbind.symm

theorem dropLets_read? {table : String} {c : Config} {place : Place} {param n : String} {e : Expr}
    (h : place.read? c param n = some e) : e.dropLets table = e := by
  rcases Place.read?_cases h with ⟨-, rfl⟩ | ⟨-, rfl | rfl⟩ <;> rfl

theorem dropLets_varImage (table : String) (c : Config) (place : Place) (param : String)
    (bound : List String) (p : Position) (n : String) :
    (place.varImage c param bound p n).dropLets table = place.varImage c param bound p n := by
  rw [Place.varImage]
  split
  · rfl
  · split
    · rfl
    · split
      · rename_i hread
        rcases Place.read?_cases hread with ⟨-, rfl⟩ | ⟨-, rfl | rfl⟩ <;> rfl
      · rfl

theorem readsOfGroup_settled (table : String) (c : Config) (place : Place) (param : String)
    (bound free : List String) : Settled table (place.readsOfGroup c param bound free) :=
  fun _ hb => dropLets_read? (Place.read?_of_mem hb)

/-- A nested query and what it reads of the group: what consults the name table stays bound. -/
theorem attach_mode (place : Place) (param : String) (bound free : List String)
    {e e' : Expr} (h : e' = e.dropLets s.config.table) (hpos : e'.pos = e.pos) :
    place.attach (s.config.binding true) param bound free e' =
      (place.attach (s.config.binding false) param bound free e).dropLets s.config.table := by
  have hsettled := readsOfGroup_settled s.config.table s.config place param bound free
  let bs := place.readsOfGroup s.config param bound free
  let consults (b : Binding Expr) : Bool := s.config.table ∈ b.value.free
  have hinlined : (bind (bs.filter (!consults ·)) e false).dropLets s.config.table =
      bind (bs.filter (!consults ·)) e' true := by
    rw [h]
    refine dropLets_bind_of_not_mem (fun b hb => hsettled b (List.mem_filter.mp hb).1) ?_ e
    intro b hb
    simpa [consults] using (List.mem_filter.mp hb).2
  refine (dropLets_bind_of_mem (fun b hb => hsettled b (List.mem_filter.mp hb).1) ?_ hinlined
    ?_).symm
  · intro b hb
    exact of_decide_eq_true (List.mem_filter.mp hb).2
  · rw [pos_bind, pos_bind, hpos]

/-! ## Images of clauses -/

section Clauses

variable (hname : ∀ node, s.name node ≠ s.config.table)

include hname

theorem matchImage_mode {o : Option Expr} (h : ∀ e ∈ o, SameImage s e) (path : Path) (i : Nat)
    (row : Row) (kind : JoinKind) (name : String) :
    matchImage (s.binding true) path i row kind name o =
      (matchImage (s.binding false) path i row kind name o).map
        (Lambda.dropLets s.config.table) := by
  cases o with
  | none => rfl
  | some e =>
    rw [matchImage, matchImage]
    split
    · exact congrArg some (closeOver_mode hname row _ _ _ (h e rfl ..))
    · rfl

theorem joinsImage_mode {js : List (Join Expr)}
    (h : ∀ j ∈ js, SameImage s j.source ∧ ∀ e ∈ j.on, SameImage s e) (path : Path) (i : Nat)
    (row : Row) :
    joinsImage (s.binding true) path i row js =
      dropLetsStages s.config.table (joinsImage (s.binding false) path i row js) := by
  induction js generalizing i row with
  | nil => rfl
  | cons j js ih =>
    obtain ⟨hsource, hon⟩ := h j List.mem_cons_self
    rw [joinsImage, joinsImage, hsource, matchImage_mode hname hon,
      ih fun j hm => h j (List.mem_cons_of_mem _ hm)]
    cases matchImage (s.binding false) path i row j.kind j.name j.on <;> rfl

theorem filterImage_mode {o : Option (Filter Expr)} (h : ∀ f ∈ o, SameImage s f.predicate)
    (path : Path) (row : Row) :
    filterImage (s.binding true) path row o =
      dropLetsStages s.config.table (filterImage (s.binding false) path row o) := by
  cases o with
  | none => rfl
  | some f =>
    exact congrArg (fun g => [Stage.filter g]) (closeOver_mode hname row _ _ _ (h f rfl ..))

theorem havingImage_mode {o : Option Expr} (h : ∀ e ∈ o, SameImage s e) (path : Path)
    (row : Row) :
    havingImage (s.binding true) path row o =
      (havingImage (s.binding false) path row o).map (Lambda.dropLets s.config.table) := by
  cases o with
  | none => rfl
  | some e => exact congrArg some (closeOver_mode hname row _ _ _ (h e rfl ..))

theorem groupingImage_mode {o : Option (Grouping Expr)}
    (h : ∀ g ∈ o, (∀ e ∈ g.classifiers, SameImage s e) ∧ ∀ e ∈ g.having, SameImage s e)
    (path : Path) (row : Row) :
    groupingImage (s.binding true) path row o =
      dropLetsStages s.config.table (groupingImage (s.binding false) path row o) := by
  obtain _ | ⟨cs, into, having, p⟩ := o
  · rfl
  · obtain ⟨hcs, hhaving⟩ := h _ rfl
    let param := row.parameter s.name (.slot (.classifier 0) :: path)
    have hvalues := renamedAll_mode hcs ⟨some row, .plain⟩ param path [] (.slot ∘ .classifier) 0
    have hclassifier := closeOver_mode hname row (.slot (.classifier 0) :: path) [param] cs
      (recordOf_mode s.config.table .groups hvalues none)
    have hhaving := havingImage_mode hname hhaving path (.grouped row (labels cs) into)
    rw [groupingImage, groupingImage, hhaving]
    cases havingImage (s.binding false) path (.grouped row (labels cs) into) having <;>
      exact congrArg (fun f => [Stage.groupBy f _]) hclassifier

theorem termsImage_mode {ts : List (SortTerm Expr)} (h : ∀ t ∈ ts, SameImage s t.key)
    (path : Path) (row : Row) (i : Nat) :
    termsImage (s.binding true) path row i ts =
      dropLetsSpecs s.config.table (termsImage (s.binding false) path row i ts) := by
  induction ts generalizing i with
  | nil => rfl
  | cons t ts ih =>
    let param := row.parameter s.name (.slot (.orderKey i) :: path)
    have hkey := closeOver_mode hname row (.slot (.orderKey i) :: path) [param] [t.key]
      (h t List.mem_cons_self ⟨some row, .plain⟩ param (.slot (.orderKey i) :: path) [] false)
    have hts := ih (fun t hm => h t (List.mem_cons_of_mem _ hm)) (i + 1)
    rw [termsImage, termsImage, hts]
    exact congrArg (fun f => SortSpec.mk f _ :: _) hkey

theorem sortingImage_mode {o : Option (Sorting Expr)}
    (h : ∀ s' ∈ o, ∀ t ∈ s'.terms, SameImage s t.key) (path : Path) (row : Row) :
    sortingImage (s.binding true) path row o =
      dropLetsStages s.config.table (sortingImage (s.binding false) path row o) := by
  cases o with
  | none => rfl
  | some sorting =>
    rw [sortingImage, sortingImage, termsImage_mode hname (h sorting rfl)]
    rfl

omit hname in
theorem limitImage_mode {o : Option (Limit Expr)}
    (h : ∀ l ∈ o, (∀ e ∈ l.offset, SameImage s e) ∧ SameImage s l.size) (path : Path) :
    limitImage (s.binding true) path o =
      dropLetsStages s.config.table (limitImage (s.binding false) path o) := by
  obtain _ | ⟨_ | offset, size, p⟩ := o
  · rfl
  · rw [limitImage, limitImage, (h _ rfl).2]
    rfl
  · obtain ⟨hoffset, hsize⟩ := h _ rfl
    rw [limitImage, limitImage, hoffset offset rfl, hsize]
    rfl

theorem projectionImage_mode {o : Option (Projection Expr)}
    (h : ∀ p ∈ o, ∀ e ∈ p.items, SameImage s e) (path : Path) (row : Row) :
    projectionImage (s.binding true) path row o =
      dropLetsStages s.config.table (projectionImage (s.binding false) path row o) := by
  obtain _ | ⟨_ | ⟨e, es⟩, p⟩ := o
  · rfl
  · rfl
  · have hes := h _ rfl
    let param := row.parameter s.name (.slot (.item 0) :: path)
    rw [projectionImage, projectionImage]
    refine congrArg (fun f => [Stage.select f]) (closeOver_mode hname row _ [param] (e :: es) ?_)
    split
    · have hvalues := renamedAll_mode hes ⟨some row, .counted⟩ param path [] (.slot ∘ .item) 0
      exact recordOf_mode s.config.table .selected hvalues (some param)
    · exact hes e List.mem_cons_self ..

theorem queryImage_mode {q : Query Expr} (h : q.Each (SameImage s)) (path : Path) :
    queryImage (s.binding true) path q =
      (queryImage (s.binding false) path q).dropLets s.config.table := by
  have hcounts : countsRows (s.binding true).config path q =
      countsRows (s.binding false).config path q := by
    rw [countsRows, countsRows]
    congr 1
    rw [Naming.binding, Naming.binding, queryDemands_binding, queryDemands_binding]
  rw [queryImage, queryImage, hcounts, h.source, joinsImage_mode hname h.joins,
    filterImage_mode hname h.filter, groupingImage_mode hname h.grouping,
    sortingImage_mode hname h.sorting, limitImage_mode h.limit,
    projectionImage_mode hname h.projection]
  simp only [Thunk.dropLets, Pipeline.dropLets, dropLetsStages_append]
  rfl

theorem sameImage (e : Expr) : SameImage s e := by
  induction e using Expr.written_induction with
  | literal | letIn | record | postIncrement | subquery => intro place param path bound searched; rfl
  | var p n =>
    intro place param path bound searched
    have himage (inline : Bool) : (Expr.var p n).image (s.binding inline) place param path bound
        searched = place.varImage s.config param bound p n := rfl
    rw [himage, himage, dropLets_varImage]
  | unary p f e ih =>
    intro place param path bound searched
    rw [Expr.image, Expr.image, ih]
    rfl
  | binary p f l r ihl ihr =>
    intro place param path bound searched
    cases f <;> simp only [Expr.image, ihl _ _ _ _ _, ihr _ _ _ _ _, Expr.dropLets]
  | sequence p f es ih =>
    intro place param path bound searched
    cases f with
    | call n =>
      rw [Expr.image, Expr.image]
      split
      · rw [imageAll_mode ih]
        rfl
      · split
        · rfl
        · rename_i a prior _ _ _ arg rest hr
          let row := prior.parameter s.name (.part 0 :: path)
          have harg := ih arg List.mem_cons_self ⟨some prior, place.numbering⟩ row
            (.part 0 :: path) [] false
          have hclose := closeOver_mode hname prior (.part 0 :: path) [row] [arg] harg
          exact congrArg (fun f => Expr.method p _ n [.lambda arg.pos f]) hclose
        · rename_i arg rest hr
          rw [ih arg List.mem_cons_self]
          rfl
        · rw [imageAll_mode ih]
          rfl
    | list | tuple | construct => simp only [Expr.image, imageAll_mode ih, Expr.dropLets]
  | method p r n es ihr ih =>
    intro place param path bound searched
    rw [Expr.image, Expr.image, ihr, imageAll_mode ih]
    rfl
  | lambda p ps e ih =>
    intro place param path bound searched
    rw [Expr.image, Expr.image, ih]
    rfl
  | query p q hq =>
    intro place param path bound searched
    rw [Expr.image, Expr.image, queryImage_mode hname hq]
    cases searched <;> exact attach_mode place param bound (queryFree q) rfl rfl

end Clauses

end Images

/-! ## Name tables -/

/-- The name tables of a lowered query at every depth, each before those in its query. -/
def Thunk.tables (t : Thunk) : List NameTable := Comprehension.tables t.walk

section Tables

variable (s : Naming)

/-- The name tables in the image are the same in both modes. -/
def SameTables (e : Expr) : Prop :=
  ∀ place param path bound searched,
    tables (e.image (s.binding true) place param path bound searched).walk =
      tables (e.image (s.binding false) place param path bound searched).walk

variable {s}

theorem tables_append (fs gs : List Finding) : tables (fs ++ gs) = tables fs ++ tables gs :=
  pick_append fs gs

theorem tables_flatMap {α : Type} {f g : α → List Finding} {as : List α}
    (h : ∀ a ∈ as, tables (f a) = tables (g a)) :
    tables (as.flatMap f) = tables (as.flatMap g) := by
  induction as with
  | nil => rfl
  | cons a as ih =>
    rw [List.flatMap_cons, List.flatMap_cons, tables_append, tables_append, h a List.mem_cons_self,
      ih fun a hm => h a (List.mem_cons_of_mem _ hm)]

theorem tables_imageAll {es : List Expr} (h : ∀ e ∈ es, SameTables s e) (place : Place)
    (param : String) (path : Path) (bound : List String) (step : Nat → Step) (i : Nat) :
    tables (walkAll (imageAll (s.binding true) place param path bound step i es)) =
      tables (walkAll (imageAll (s.binding false) place param path bound step i es)) := by
  induction es generalizing i with
  | nil => rfl
  | cons e es ih =>
    rw [imageAll, imageAll, walkAll, walkAll, tables_append, tables_append,
      h e List.mem_cons_self, ih fun e hm => h e (List.mem_cons_of_mem _ hm)]

theorem tables_walkFunction (chain ps : List String) (body : List Finding) :
    tables (walkFunction chain ps body) = tables body := by
  rw [walkFunction, ← List.singleton_append, tables_append]
  change tables (under (.lambda chain ps) body) = tables body
  exact pick_under ..

theorem tables_walkBound (inline : Bool) {bs : List (Binding Expr)} (hbs : ReadsOnly bs)
    (body : List Finding) : tables (walkBound inline bs body) = tables body :=
  pick_walkBound (fun _ => rfl) inline hbs body

theorem tables_walkDeclarations {body body' : List Finding} (h : tables body = tables body')
    (ds : List Declaration) :
    tables (walkDeclarations body ds) = tables (walkDeclarations body' ds) := by
  induction ds with
  | nil => exact h
  | cons d ds ih =>
    cases d with
    | table n names =>
      refine congrArg (names :: ·) ?_
      exact ((pick_under ..).trans ih).trans (pick_under ..).symm
    | counter n => exact ((pick_under ..).trans ih).trans (pick_under ..).symm

theorem tables_piece {p : Piece} (h : ∀ e ∈ p.exprs, SameTables s e) (path : Path) :
    tables (p.walk (s.binding true) path) = tables (p.walk (s.binding false) path) := by
  cases p with
  | value slot e => exact h e List.mem_cons_self ..
  | function f =>
    have hbody : tables (f.body (s.binding true) path) = tables (f.body (s.binding false) path) := by
      rw [RowFunction.body, RowFunction.body, tables_append, tables_append]
      congr 1
      refine tables_flatMap fun p hp => h p.2 ?_ ..
      exact List.mem_map_of_mem hp
    rw [Piece.walk, Piece.walk, RowFunction.walk, RowFunction.walk, tables_walkFunction,
      tables_walkFunction, tables_walkBound _ (f.bindings_readsOnly _ _),
      tables_walkBound _ (f.bindings_readsOnly _ _), hbody]

theorem tables_queryImage {q : Query Expr} (h : q.Each (SameTables s)) (path : Path) :
    (queryImage (s.binding true) path q).tables = (queryImage (s.binding false) path q).tables := by
  have hdeclarations : (queryImage (s.binding true) path q).declarations =
      (queryImage (s.binding false) path q).declarations := by
    rw [queryImage, queryImage, countsRows, countsRows, Naming.binding, Naming.binding,
      queryDemands_binding, queryDemands_binding]
    rfl
  rw [Thunk.tables, Thunk.tables, walk_queryImage, walk_queryImage, hdeclarations]
  exact tables_walkDeclarations (tables_flatMap fun p hp => tables_piece (h.pieces p hp) path) _

theorem tables_attach (c : Config) (place : Place) (param : String) (bound free : List String)
    (e : Expr) : tables (place.attach c param bound free e).walk = tables e.walk := by
  have hbs := place.readsOfGroup_readsOnly c param bound free
  rw [Place.attach, walk_bind, tables_walkBound _ (hbs.filter _), walk_bind,
    tables_walkBound _ (hbs.filter _)]

theorem sameTables (e : Expr) : SameTables s e := by
  induction e using Expr.written_induction with
  | literal | var | letIn | record | postIncrement | subquery =>
    intro place param path bound searched
    rfl
  | unary p f e ih => intro place param path bound searched; exact ih ..
  | binary p f l r ihl ihr =>
    intro place param path bound searched
    cases f <;> simp only [Expr.image, Expr.walk, tables_append, ihl _ _ _ _ _, ihr _ _ _ _ _]
  | sequence p f es ih =>
    intro place param path bound searched
    cases f with
    | call n =>
      rw [Expr.image, Expr.image]
      split
      · exact tables_imageAll ih ..
      · split
        · rfl
        · rename_i a prior _ _ _ arg rest hr
          simp only [Expr.walk, walkAll, tables_append, tables_walkFunction, Row.close,
            Row.closeOver, walk_bind, tables_walkBound _ (prior.bindings_readsOnly _ _),
            ih arg List.mem_cons_self _ _ _ _ _]
          rfl
        · rename_i arg rest hr
          simp only [Expr.walk, walkAll, tables_append, ih arg List.mem_cons_self _ _ _ _ _]
        · exact tables_imageAll ih ..
    | list | tuple | construct => simp only [Expr.image, Expr.walk, tables_imageAll ih]
  | method p r n es ihr ih =>
    intro place param path bound searched
    rw [Expr.image, Expr.image, Expr.walk, Expr.walk, tables_append, tables_append, ihr,
      tables_imageAll ih]
  | lambda p ps e ih =>
    intro place param path bound searched
    rw [Expr.image, Expr.image, Expr.walk, Expr.walk, tables_walkFunction, tables_walkFunction, ih]
  | query p q hq =>
    intro place param path bound searched
    have hthunk := tables_queryImage hq path
    rw [Expr.image, Expr.image, tables_attach, tables_attach]
    cases searched with
    | false => exact hthunk
    | true =>
      rw [Thunk.tables, Thunk.tables] at hthunk
      simpa [Expr.send, Expr.walk, walkAll] using hthunk

end Tables

/-! ## Whole queries -/

/-- The context in the given binding mode. -/
def Context.binding (ctx : Context) (inline : Bool) : Context :=
  { ctx with config := ctx.config.binding inline }

theorem countRow_binding (ctx : Context) (inline : Bool) :
    (ctx.binding inline).countRow = ctx.countRow.binding inline := by
  obtain ⟨config, mistakes, names, frames⟩ := ctx
  cases frames <;> rfl

theorem perform_binding (ctx : Context) (inline : Bool) (ds : List Demand) :
    (ctx.binding inline).perform ds =
      ((ctx.perform ds).1, (ctx.perform ds).2.binding inline) := by
  induction ds generalizing ctx with
  | nil => rfl
  | cons d ds ih =>
    cases d with
    | name node => exact ih (ctx.nameOf node).2
    | report d => exact ih (ctx.report d)
    | countRow =>
      rw [Context.perform, countRow_binding, ih]
      rfl
    | fail f => rfl

theorem lower_binding (c : Config) (node : Path) (q : Query Expr) :
    let bound := (Context.new (c.binding false)).lower node q
    let inlined := (Context.new (c.binding true)).lower node q
    inlined = (bound.1.map (Thunk.dropLets c.table), bound.2.binding true) ∧
      inlined.1.map Thunk.tables = bound.1.map Thunk.tables := by
  intro bound inlined
  let ds := (queryDemands c node q).filter (·.outlivesQuery)
  let s := ((q.opening c).perform ds).2.naming
  have hmode (inline : Bool) : (Context.new (c.binding inline)).lower node q =
      (((q.opening c).perform ds).1.map fun _ => queryImage (s.binding inline) node q,
        ((q.opening c).perform ds).2.binding inline) := by
    have hanswer : (Context.new (c.binding inline)).lower node q =
        ((q.opening c).binding inline).answer
          ((queryDemands (c.binding inline) node q).filter (·.outlivesQuery))
          fun s => queryImage s node q := rfl
    rw [hanswer, queryDemands_binding, Context.answer, perform_binding]
    rfl
  have hconfig : s.config = c := (q.opening c).perform_config ds
  have hname (m : Path) : s.name m ≠ s.config.table := by
    have hclear := (Context.perform_clear (q.opening_clear c) ds).nameOf_not_mem m
    intro h
    rw [hconfig] at h
    refine hclear (List.mem_append_right _ ?_)
    exact h ▸ List.mem_cons_self
  have himage : queryImage (s.binding true) node q =
      (queryImage (s.binding false) node q).dropLets c.table :=
    hconfig ▸ queryImage_mode hname (q.each_of_forall (sameImage hname)) node
  have htables : (queryImage (s.binding true) node q).tables =
      (queryImage (s.binding false) node q).tables :=
    tables_queryImage (q.each_of_forall sameTables) node
  have hbound : bound = (((q.opening c).perform ds).1.map fun _ =>
      queryImage (s.binding false) node q, ((q.opening c).perform ds).2.binding false) := hmode false
  have hinlined : inlined = (((q.opening c).perform ds).1.map fun _ =>
      queryImage (s.binding true) node q, ((q.opening c).perform ds).2.binding true) := hmode true
  have hwhole : inlined = (bound.1.map (Thunk.dropLets c.table), bound.2.binding true) := by
    rw [hinlined, hbound, himage]
    cases ((q.opening c).perform ds).1 <;> rfl
  refine ⟨hwhole, ?_⟩
  rw [hinlined, hbound]
  cases ((q.opening c).perform ds).1 with
  | error f => rfl
  | ok u => exact congrArg Except.ok htables

/-- With paths put in place lowering gives what it gives with paths bound, once the lets are
eliminated that do not consult the name table. Failures, mistakes, names and tables are the same. -/
theorem lower_inlined (c : Config) (q : Query Expr) :
    (∀ node,
      let bound := (Context.new (c.binding false)).lower node q
      let inlined := (Context.new (c.binding true)).lower node q
      inlined = (bound.1.map (Thunk.dropLets c.table), bound.2.binding true) ∧
        inlined.1.map Thunk.tables = bound.1.map Thunk.tables) ∧
      q.lower (c.binding true) = (q.lower (c.binding false)).map (Thunk.dropLets c.table) := by
  refine ⟨fun node => lower_binding c node q, ?_⟩
  have hwhole := (lower_binding c [] q).1
  have hfault : (c.binding true).fault? = (c.binding false).fault? := rfl
  rw [Query.lower, Query.lower, hfault, hwhole]
  cases (c.binding false).fault? with
  | some f => rfl
  | none =>
    obtain ⟨result, ctx⟩ := (Context.new (c.binding false)).lower [] q
    cases result with
    | error f => rfl
    | ok t =>
      have hmistakes : (ctx.binding true).mistakes = ctx.mistakes := rfl
      simp only [Except.map, hmistakes]
      split <;> rfl

end Comprehension
