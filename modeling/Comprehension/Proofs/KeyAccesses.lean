import Comprehension.Proofs.GroupKeys
import Comprehension.Proofs.GroupNames

/-!
Accesses that stand again after grouping. A classifier `x.f` fills the field `f` of the key, and
after grouping the alias `x` names the key, so that `x.f` reads that field wherever it stands again.
It reads something else just if the alias has another meaning there: a classifier is labelled like
it, or it is spelled like a name to which lowering gives a meaning of its own.
-/

namespace Comprehension

/-! ## Addresses -/

/-- The part at an address, whose numbers say which direct part comes next. -/
def Expr.at? (e : Expr) : List Nat → Option Expr
  | [] => some e
  | i :: rest => e.children[i]?.bind fun part => part.at? rest

theorem Expr.at?_cons {e part : Expr} {i : Nat} (h : e.children[i]? = some part) (rest : List Nat) :
    e.at? (i :: rest) = part.at? rest := by
  rw [at?, h]
  rfl

theorem getElem?_of_forall₂ {α β : Type} {R : α → β → Prop} {as : List α} {bs : List β}
    (h : List.Forall₂ R as bs) {i : Nat} {a : α} (ha : as[i]? = some a) :
    ∃ b, bs[i]? = some b ∧ R a b := by
  induction h generalizing i with
  | nil => cases ha
  | cons hab _ ih =>
    cases i with
    | zero =>
      cases ha
      exact ⟨_, rfl, hab⟩
    | succ i => exact ih ha

/-! ### Addresses under substitution -/

/-- The second expression is the first one with some of the bindings put in place. -/
def PutPart (σ : List (Binding Expr)) (e e' : Expr) : Prop := ∃ σ', σ' ⊆ σ ∧ e' = e.substitute σ'

section

variable (σ : List (Binding Expr))

theorem putPart_self (e : Expr) : PutPart σ e (e.substitute σ) := ⟨σ, List.Subset.refl σ, rfl⟩

variable {σ} in
theorem PutPart.without {names : List String} {e e' : Expr} (h : PutPart (without names σ) e e') :
    PutPart σ e e' := by
  obtain ⟨σ', hσ', rfl⟩ := h
  exact ⟨σ', fun b hb => mem_of_mem_without (hσ' hb), rfl⟩

theorem putPart_all (es : List Expr) : List.Forall₂ (PutPart σ) es (substituteAll σ es) := by
  rw [substituteAll_eq_map, List.forall₂_map_right_iff, List.forall₂_same]
  exact fun e _ => putPart_self σ e

theorem putPart_locals (bs : List (Binding Expr)) :
    List.Forall₂ (PutPart σ) (bs.map (·.value)) ((substituteLocals σ bs).map (·.value)) := by
  induction bs generalizing σ with
  | nil => exact .nil
  | cons b bs ih => exact .cons (putPart_self σ b.value) ((ih _).imp fun _ _ h => h.without)

/-- The parts of a node stay in their order, unless it is a variable and replaced as a whole. -/
theorem putPart_children {e : Expr} (he : e.var? = none) :
    List.Forall₂ (PutPart σ) e.children (e.substitute σ).children := by
  cases e with
  | literal | query | postIncrement | subquery => exact .nil
  | var p n => cases he
  | unary p f e => exact .cons (putPart_self σ e) .nil
  | binary p f l r => exact .cons (putPart_self σ l) (.cons (putPart_self σ r) .nil)
  | sequence p f es => exact putPart_all σ es
  | method p r n es => exact .cons (putPart_self σ r) (putPart_all σ es)
  | lambda p f => exact .cons (putPart_self _ f.body).without .nil
  | letIn p bs e =>
    have hbody : List.Forall₂ (PutPart σ) [e] [e.substitute (without (bs.map (·.name)) σ)] :=
      .cons (putPart_self _ e).without .nil
    exact List.rel_append (putPart_locals σ bs) hbody
  | record p vs ns as row =>
    have hnames : List.Forall₂ (PutPart σ) [ns, as] [ns.substitute σ, as.substitute σ] :=
      .cons (putPart_self σ ns) (.cons (putPart_self σ as) .nil)
    have hvalues := List.rel_append (putPart_all σ vs) hnames
    cases row with
    | none => exact List.rel_append hvalues .nil
    | some r => exact List.rel_append hvalues (.cons (putPart_self σ r) .nil)

/-- What stands at an address stays there, with some of the bindings put in place. -/
theorem putPart_at {e part : Expr} {address : List Nat} (h : e.at? address = some part) :
    ∃ part', (e.substitute σ).at? address = some part' ∧ PutPart σ part part' := by
  induction address generalizing e σ with
  | nil =>
    cases h
    exact ⟨_, rfl, putPart_self σ _⟩
  | cons i rest ih =>
    obtain ⟨child, hchild, hpart⟩ := Option.bind_eq_some_iff.mp h
    have hvar : e.var? = none := by
      cases e with
      | var p n => cases hchild
      | _ => rfl
    obtain ⟨_, hchild', σ', hσ', rfl⟩ := getElem?_of_forall₂ (putPart_children σ hvar) hchild
    obtain ⟨part', hpart', τ, hτ, rfl⟩ := ih σ' hpart
    exact ⟨_, (Expr.at?_cons hchild' rest).trans hpart', τ, List.Subset.trans hτ hσ', rfl⟩

end

/-- At an address of a function stays what substitution of any of the bindings keeps. -/
theorem Lambda.at?_substituteEach {P : Expr → Prop} {σs : List (List (Binding Expr))}
    (hkeeps : ∀ σ ∈ σs, ∀ e e', PutPart σ e e' → P e → P e') {f : Lambda Expr} {address : List Nat}
    (h : ∃ e, f.body.at? address = some e ∧ P e) :
    ∃ e, (f.substituteEach σs).body.at? address = some e ∧ P e := by
  induction σs generalizing f with
  | nil => exact h
  | cons σ σs ih =>
    obtain ⟨e, he, hP⟩ := h
    obtain ⟨hσ, hσs⟩ := List.forall_mem_cons.mp hkeeps
    obtain ⟨e', he', hput⟩ := putPart_at (without f.params σ) he
    exact ih hσs ⟨e', he', hσ e e' hput.without hP⟩

/-! ## Standing in a clause -/

/-- The part stands in the expression, outside of nested queries and of arguments that are read for
each row, and under no lambda that binds the name. The address is the one in the image, where the
rows that an aggregate is handed come before its argument. -/
inductive Stands (place : Place) (x : String) (part : Expr) : Expr → List Nat → Prop
  | here : Stands place x part part []
  | operand {p : Position} {f : Unary} {e : Expr} {address : List Nat}
    (h : Stands place x part e address) : Stands place x part (.unary p f e) (0 :: address)
  | left {p : Position} {f : Binary} {l r : Expr} {address : List Nat}
    (h : Stands place x part l address) : Stands place x part (.binary p f l r) (0 :: address)
  | right {p : Position} {f : Binary} {l r : Expr} {address : List Nat}
    (h : Stands place x part r address) : Stands place x part (.binary p f l r) (1 :: address)
  | item {p : Position} {f : Sequence} {es : List Expr} {i : Nat} {e : Expr} {address : List Nat}
    (hcall : ∀ m, f = .call m → place.callCase m es.length = .plain) (he : es[i]? = some e)
    (h : Stands place x part e address) : Stands place x part (.sequence p f es) (i :: address)
  | rows {p : Position} {m : String} {arg : Expr} {address : List Nat}
    (hcall : place.callCase m 1 = .rowsAtOnce) (h : Stands place x part arg address) :
    Stands place x part (.sequence p (.call m) [arg]) (1 :: address)
  | receiver {p : Position} {r : Expr} {m : String} {es : List Expr} {address : List Nat}
    (h : Stands place x part r address) : Stands place x part (.method p r m es) (0 :: address)
  | argument {p : Position} {r : Expr} {m : String} {es : List Expr} {i : Nat} {e : Expr}
    {address : List Nat} (he : es[i]? = some e) (h : Stands place x part e address) :
    Stands place x part (.method p r m es) ((i + 1) :: address)
  | body {p : Position} {ps : List String} {e : Expr} {address : List Nat} (hx : x ∉ ps)
    (h : Stands place x part e address) : Stands place x part (.lambda p ⟨ps, e⟩) (0 :: address)

/-- The part stands in the clause. The address is the one in the function that the clause becomes: a
record has its values first, and each value without the rename that names it. -/
inductive RowFunction.Stands (f : RowFunction) (x : String) (part : Expr) : List Nat → Prop
  | single {p : Slot × Expr} {address : List Nat} (hrecord : f.record = none)
    (hexprs : f.exprs = [p]) (h : Comprehension.Stands f.place x part p.2 address) :
    f.Stands x part address
  | value {keeps : Bool} {i : Nat} {p : Slot × Expr} {address : List Nat}
    (hrecord : f.record = some keeps) (hp : f.exprs[i]? = some p)
    (h : Comprehension.Stands f.place x part p.2.renamed address) :
    f.Stands x part (i :: address)

section

theorem forall₂_imageAll (s : Naming) (place : Place) (param : String) (path : Path)
    (bound : List String) (step : Nat → Step) (i : Nat) (es : List Expr) :
    List.Forall₂ (fun e e' => ∃ path, e' = e.image s place param path bound false) es
      (imageAll s place param path bound step i es) := by
  induction es generalizing i with
  | nil => exact .nil
  | cons e es ih => exact .cons ⟨_, rfl⟩ (ih (i + 1))

variable {s : Naming} {place : Place} {param : String}

/-! ### Calls without a receiver -/

theorem image_plainCall {m : String} {es : List Expr} (h : place.callCase m es.length = .plain)
    (path : Path) (bound : List String) (searched : Bool) (p : Position) :
    (Expr.sequence p (.call m) es).image s place param path bound searched =
      .sequence p (.call m) (imageAll s place param path bound .part 0 es) := by
  have hform := callForm s place param path bound searched p m es
  generalize (Expr.sequence p (.call m) es).image s place param path bound searched = e at hform ⊢
  generalize (Expr.sequence p (.call m) es).demands s.config place path bound = ds at hform
  cases hform with
  | plain => rfl
  | allRows _ _ _ _ _ hcase | rowsAtOnce _ _ _ _ _ _ hcase | eachRow _ _ _ _ _ _ _ _ hcase =>
    cases h.symm.trans hcase

theorem image_rowsAtOnce {m : String} {arg : Expr} (h : place.callCase m 1 = .rowsAtOnce)
    (path : Path) (bound : List String) (searched : Bool) (p : Position) :
    (Expr.sequence p (.call m) [arg]).image s place param path bound searched =
      .method p (GroupView.rows param) m
        [arg.image s place param (.part 0 :: path) bound false] := by
  have hform := callForm s place param path bound searched p m [arg]
  generalize (Expr.sequence p (.call m) [arg]).image s place param path bound searched = e
    at hform ⊢
  generalize (Expr.sequence p (.call m) [arg]).demands s.config place path bound = ds at hform
  cases hform with
  | rowsAtOnce => rfl
  | plain _ _ _ hcase | allRows _ _ _ _ _ hcase | eachRow _ _ _ _ _ _ _ _ hcase =>
    cases h.symm.trans hcase

/-! ### Images at addresses -/

/-- The part at the address of the image is the image of the part, where the name is not bound. -/
def ImageAt (s : Naming) (place : Place) (param x : String) (part e : Expr) (address : List Nat) :
    Prop :=
  ∃ path bound searched, x ∉ bound ∧
    e.at? address = some (part.image s place param path bound searched)

theorem ImageAt.cons {x : String} {part e child : Expr} {address : List Nat} {i : Nat}
    (h : ImageAt s place param x part child address) (hchild : e.children[i]? = some child) :
    ImageAt s place param x part e (i :: address) := by
  obtain ⟨path, bound, searched, hx, hat⟩ := h
  exact ⟨path, bound, searched, hx, (Expr.at?_cons hchild address).trans hat⟩

/-- What stands in an expression is lowered where it stands. -/
theorem Stands.image {x : String} {part e : Expr} {address : List Nat}
    (h : Stands place x part e address) (path : Path) {bound : List String} (hx : x ∉ bound)
    (searched : Bool) :
    ImageAt s place param x part (e.image s place param path bound searched) address := by
  induction h generalizing path bound searched with
  | here => exact ⟨path, bound, searched, hx, rfl⟩
  | operand _ ih => exact (ih _ hx false).cons rfl
  | @left p f l r address _ ih =>
    cases f <;> exact (ih (.part 0 :: path) hx false).cons rfl
  | @right p f l r address _ ih =>
    cases f with
    | operator op => exact (ih (.part 1 :: path) hx op.searches).cons rfl
    | _ => exact (ih (.part 1 :: path) hx false).cons rfl
  | @item p f es i e address hcall he _ ih =>
    -- A call that is left alone keeps its arguments where they stand.
    have hitems : ImageAt s place param x part
        (.sequence p f (imageAll s place param path bound .part 0 es)) (i :: address) := by
      obtain ⟨_, hitem, path', rfl⟩ :=
        getElem?_of_forall₂ (forall₂_imageAll s place param path bound .part 0 es) he
      exact (ih path' hx false).cons hitem
    cases f with
    | call m =>
      rw [image_plainCall (hcall m rfl)]
      exact hitems
    | _ => exact hitems
  | rows hcall _ ih =>
    rw [image_rowsAtOnce hcall]
    exact (ih _ hx false).cons rfl
  | receiver _ ih => exact (ih _ hx false).cons rfl
  | @argument p r m es i e address he _ ih =>
    obtain ⟨_, harg, path', rfl⟩ :=
      getElem?_of_forall₂ (forall₂_imageAll s place param path bound .part 1 es) he
    exact (ih path' hx false).cons harg
  | @body p ps e address hps _ ih =>
    have hbound : x ∉ ps ++ bound := List.not_mem_append hps hx
    exact (ih (.part 0 :: path) hbound false).cons rfl

/-- What stands in a clause is lowered where it stands. -/
theorem RowFunction.Stands.onGroup {f : RowFunction} {x : String} {part : Expr}
    {address : List Nat} (h : f.Stands x part address) (s : Naming) (node : Path) :
    ImageAt s f.place (f.param s node) x part (f.onGroup s node).body address := by
  cases h with
  | single hrecord hexprs h =>
    rw [RowFunction.onGroup, hrecord, hexprs]
    exact h.image _ List.not_mem_nil false
  | @value keeps i p address hrecord hp h =>
    have hbody : (f.onGroup s node).body = NameList.selected.record s.config
        (f.exprs.map (f.image s node)) (some (.name (f.param s node))) := by
      rw [RowFunction.onGroup, hrecord]
    obtain ⟨path', himage⟩ :=
      p.2.renamed_image s f.place (f.param s node) (.slot p.1 :: node) []
    have hvalue : ((f.exprs.map (f.image s node)).map Expr.renamed)[i]? =
        some (p.2.renamed.image s f.place (f.param s node) path' [] false) := by
      rw [List.getElem?_map, List.getElem?_map, hp]
      exact congrArg some himage
    have hlength := (List.getElem?_eq_some_iff.mp hvalue).1
    refine (h.image path' List.not_mem_nil false).cons ?_
    rw [hbody, NameList.record, recordOf, Expr.children, List.append_assoc,
      List.getElem?_append_left hlength, hvalue]

end

/-! ## What an alias reads -/

/-- A variable, or a field of one. -/
def Expr.isNear : Expr → Bool
  | .var _ _ | .unary _ (.field _) (.var _ _) => true
  | _ => false

theorem Expr.isNear_of_substitute {σ : List (Binding Expr)} {e : Expr}
    (h : (e.substitute σ).isNear = true) : e.isNear = true := by
  cases e with
  | var p n => rfl
  | unary p f operand =>
    cases f with
    | field n =>
      cases operand with
      | var p' m => rfl
      | record p' vs ns as row => cases row <;> cases h
      | _ => cases h
    | _ => cases h
  | record p vs ns as row => cases row <;> cases h
  | _ => cases h

section

variable {q : Query Expr} {g : Grouping Expr} (hg : q.grouping = some g) {x : String}
  (hx : x ∈ q.aliases) {bound : List String} (hbound : x ∉ bound) {c : Config}
  {numbering : Numbering} (param : String) (p : Position)

include hg hx hbound

theorem Query.varImage_of_namesKey (hkey : q.NamesKey c numbering x) :
    Place.varImage c ⟨some q.row, numbering⟩ param bound p x = (GroupView.key param).withPos p := by
  rcases varImage_alias_cases hg hx hbound c numbering param p with
    ⟨hreserved, -⟩ | ⟨⟨-, hfield⟩, -⟩ | ⟨-, hv⟩
  · exact absurd hreserved hkey.unreserved
  · exact absurd hfield hkey.noField
  · exact hv

/-- An alias with another meaning reads no half of the row: it counts rows, or navigates the group,
or reads a field of the key. -/
theorem Query.varImage_of_not_namesKey (htable : x ≠ c.table) (hkey : ¬q.NamesKey c numbering x) :
    (Place.varImage c ⟨some q.row, numbering⟩ param bound p x).isNear = false := by
  rcases varImage_alias_cases hg hx hbound c numbering param p with
    ⟨-, ⟨hname, -⟩ | hv | hv⟩ | ⟨-, hv⟩ | ⟨hnames, -⟩
  · exact absurd hname htable
  · rw [hv]
    rfl
  · rw [hv]
    rfl
  · rw [hv]
    rfl
  · exact absurd hnames hkey

end

/-! ## Accesses in accepted queries -/

/-- The field that a classifier `x.f` fills. -/
theorem Query.mem_keyNames {q : Query Expr} {g : Grouping Expr} (hg : q.grouping = some g)
    {e : Expr} (he : e ∈ g.classifiers) : e.label ∈ q.keyNames := by
  rw [keyNames, hg]
  exact List.mem_map_of_mem he

/-- What is put in place leaves an access to the key. -/
theorem keyAccess_putPart {σ : List (Binding Expr)} {param f : String} {p p' : Position}
    (hσ : Fixed (GroupView.key param) σ) {e e' : Expr} (hput : PutPart σ e e')
    (he : e = .unary p (.field f) ((GroupView.key param).withPos p')) :
    e' = .unary p (.field f) ((GroupView.key param).withPos p') := by
  obtain ⟨σ', hσ', rfl⟩ := hput
  subst he
  exact congrArg (Expr.unary p (.field f)) ((hσ σ' hσ').2 p')

/-- What is put in place makes no access to the key out of an access to something else. -/
theorem farAccess_putPart {σ : List (Binding Expr)} {f : String} {p : Position} {e e' : Expr}
    (hput : PutPart σ e e') (he : ∃ v, e = .unary p (.field f) v ∧ v.isNear = false) :
    ∃ v, e' = .unary p (.field f) v ∧ v.isNear = false := by
  obtain ⟨σ', -, rfl⟩ := hput
  obtain ⟨v, rfl, hv⟩ := he
  rw [Bool.eq_false_iff] at hv
  exact ⟨_, rfl, Bool.eq_false_iff.mpr fun h => hv (Expr.isNear_of_substitute h)⟩

section

variable {s : Naming} {q : Query Expr} {σs : List (List (Binding Expr))} {clause : RowFunction}
  (hclause : clause ∈ q.onGroups) {x : String} (hx : x ∈ q.aliases) (node : Path) {f : String}
  {p p' : Position} {address : List Nat}
  (hstands : clause.Stands x (.unary p (.field f) (.var p' x)) address)

include hclause hx hstands

theorem access_onGroup_of_namesKey (hkey : q.NamesKey s.config clause.numbering x)
    (hσs : ∀ σ ∈ σs, Fixed (GroupView.key (clause.param s node)) σ) :
    ((clause.onGroup s node).substituteEach σs).body.at? address =
      some (.unary p (.field f) ((GroupView.key (clause.param s node)).withPos p')) := by
  obtain ⟨g, hg, -⟩ := Query.onGroups_cases hclause
  obtain ⟨path, bound, searched, hbound, hat⟩ := hstands.onGroup s node
  rw [Query.place_onGroups hclause, Expr.image, Expr.image,
    Query.varImage_of_namesKey hg hx hbound _ _ hkey] at hat
  obtain ⟨e, he, rfl⟩ := Lambda.at?_substituteEach
    (fun σ hσ e e' hput => keyAccess_putPart (hσs σ hσ) hput) ⟨_, hat, rfl⟩
  exact he

theorem access_onGroup_of_not_namesKey (hkey : ¬q.NamesKey s.config clause.numbering x)
    (htable : σs = [] ∨ x ≠ s.config.table) :
    ∃ e, ((clause.onGroup s node).substituteEach σs).body.at? address = some e ∧
      e ≠ .unary p (.field f) ((GroupView.key (clause.param s node)).withPos p') := by
  obtain ⟨g, hg, -⟩ := Query.onGroups_cases hclause
  obtain ⟨path, bound, searched, hbound, hat⟩ := hstands.onGroup s node
  rw [Query.place_onGroups hclause, Expr.image, Expr.image] at hat
  by_cases hname : x = s.config.table
  · -- The name of the table stays, and nothing is put in its place.
    obtain rfl : σs = [] := htable.resolve_right (not_not_intro hname)
    rw [Place.varImage, if_pos (.inr hname)] at hat
    refine ⟨_, hat, fun heq => ?_⟩
    cases heq
  · have hfar := Query.varImage_of_not_namesKey hg hx hbound (clause.param s node) p' hname hkey
    obtain ⟨e, he, v, rfl, hv⟩ := Lambda.at?_substituteEach
      (fun σ (_ : σ ∈ σs) e e' hput => farAccess_putPart hput) ⟨_, hat, _, rfl, hfar⟩
    refine ⟨_, he, fun heq => ?_⟩
    cases heq
    cases hv

end

/-- In an accepted query and in the queries in it, a classifier `x.f` that stands again after
grouping reads the field `f` of the key just if `x` names the key: no classifier is labelled `x`,
and `x` has no meaning of its own. -/
theorem classifier_readsKey {q : Query Expr} {c : Config} {t : Thunk} (h : q.lower c = .ok t) :
    List.Forall₂
      (fun q' t' =>
        ∀ g ∈ q'.grouping, ∀ r r' x f, .unary r (.field f) (.var r' x) ∈ g.classifiers →
          x ∈ q'.aliases → (c.inlinePaths = true → x ≠ c.table) →
            f ∈ q'.keyNames ∧
              List.Forall₂
                (fun clause fn =>
                  ∃ param, fn.params = [param] ∧
                    ∀ p p' address, clause.Stands x (.unary p (.field f) (.var p' x)) address →
                      ∃ e, fn.body.at? address = some e ∧
                        (e = .unary p (.field f) ((GroupView.key param).withPos p') ↔
                          q'.NamesKey c clause.numbering x))
                q'.onGroups t'.groupFunctions)
      (q :: queryNested q) (t :: t.thunks) := by
  obtain ⟨s, rfl, havoids, hnested⟩ := Query.lowered_nested h
  refine hnested.imp fun q' t' hlowered g hg r r' x f hclassifier hx htable => ?_
  obtain ⟨node, σs, -, hσs, hfunctions⟩ := hlowered.functions (Query.unreported h)
  refine ⟨Query.mem_keyNames hg hclassifier, ?_⟩
  rw [hfunctions, List.forall₂_map_right_iff, List.forall₂_same]
  intro clause hclause
  refine ⟨clause.param s node, Lambda.params_substituteEach _ σs, fun p p' address hstands => ?_⟩
  by_cases hkey : q'.NamesKey s.config clause.numbering x
  · have hfixed : ∀ σ ∈ σs, Fixed (GroupView.key (clause.param s node)) σ := by
      intro σ hσ
      rw [q'.param_onGroups hclause]
      exact fixed_key (supplied_ne_madeUp havoids (hσs σ hσ).2 _)
    exact ⟨_, access_onGroup_of_namesKey hclause hx node hstands hkey hfixed, iff_of_true rfl hkey⟩
  · have hname : σs = [] ∨ x ≠ s.config.table := by
      cases hmode : s.config.inlinePaths with
      | false => exact .inl (eq_nil_of_not_inlinePaths hσs hmode)
      | true => exact .inr (htable hmode)
    obtain ⟨e, hat, hne⟩ := access_onGroup_of_not_namesKey hclause hx node hstands hkey hname
    exact ⟨e, hat, iff_of_false hne hkey⟩

/-- `agg(rows -> rows.take(x.k))` on groups of `x` by `k`. -/
def taken : Expr :=
  Expr.call "agg" [.lambda .nowhere ⟨["rows"],
    (Expr.name "rows").send "take" [.unary ⟨1, 60⟩ (.field "k") (.var ⟨1, 59⟩ "x")]⟩]

/-- The aggregate is handed the rows of the group first, and `x.k` stays under its lambda. -/
theorem classifier_readsKey_taken :
    ∃ t, (groupedSelect none taken).lower .standard = .ok t ∧
      ∃ f ∈ t.groupFunctions, ∃ param, f.params = [param] ∧ f.body.at? [1, 0, 1] =
        some (.unary ⟨1, 60⟩ (.field "k") ((GroupView.key param).withPos ⟨1, 59⟩)) := by
  obtain ⟨t, h⟩ : ∃ t, (groupedSelect none taken).lower .standard = .ok t := ⟨_, rfl⟩
  obtain ⟨hclauses, -⟩ := List.forall₂_cons.mp (classifier_readsKey h)
  obtain ⟨-, hfunctions⟩ := hclauses _ rfl .nowhere .nowhere "x" "k" List.mem_cons_self
    List.mem_cons_self (by decide)
  obtain ⟨f, fs, ⟨param, hparams, hreads⟩, -, hfs⟩ := List.forall₂_cons_left_iff.mp hfunctions
  have hstands : (Stands ⟨some (groupedSelect none taken).row, .counted⟩ "x"
      (.unary ⟨1, 60⟩ (.field "k") (.var ⟨1, 59⟩ "x")) taken [1, 0, 1]) :=
    .rows rfl (.body (by decide) (.argument rfl .here))
  obtain ⟨e, hat, hiff⟩ := hreads _ _ _ (.single rfl rfl hstands)
  have hkey : (groupedSelect none taken).NamesKey .standard .counted "x" :=
    ⟨by unfold Query.isReserved; decide, by decide⟩
  refine ⟨t, h, f, hfs ▸ List.mem_cons_self, param, hparams, ?_⟩
  rw [hat, hiff.mpr hkey]

/-- `from x in xs groupby x.f select x.f`. -/
def regrouped (x f : String) : Query Expr where
  table := ⟨x, Expr.name "xs", .nowhere⟩
  joins := []
  filter := none
  grouping := some ⟨[(Expr.name x).field f], none, none, .nowhere⟩
  sorting := none
  limit := none
  projection := some ⟨[(Expr.name x).field f], .nowhere⟩
  pos := .nowhere

/-- An alias that is spelled like its field is the field and not the key: `k.k` reads the field of
the field. -/
theorem regrouped_readsTwice :
    ∃ t, (regrouped "k" "k").lower .standard = .ok t ∧
      ∃ f ∈ t.groupFunctions, f.params = ["__t_0"] ∧
        f.body = ((GroupView.key "__t_0").field "k").field "k" ∧
          f.body ≠ (GroupView.key "__t_0").field "k" := by
  refine ⟨_, rfl, _, List.mem_cons_self, rfl, rfl, fun heq => ?_⟩
  exact absurd (congrArg (Expr.keyFields? "__t_0") heq) (by decide)

end Comprehension
