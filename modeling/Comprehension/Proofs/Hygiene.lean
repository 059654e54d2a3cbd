import Comprehension.Proofs.AskedNodes
import Comprehension.Proofs.MadeUpNames
import Comprehension.Proofs.SpelledNames

/-!
Hygiene of made-up names. A made-up name is a parameter of the one function whose node asked for it,
and is read inside that function only: its body reads it, and so do the paths that are put in place
there, however deep.
-/

namespace Comprehension

/-! ## Functions with a made-up parameter -/

section Holders

variable (g : String)

/-- The number of functions among the findings that have the parameter. -/
def holders (fs : List Finding) : Nat := (functions fs).countP (g ∈ ·)

/-- The number of nodes that are to have the name. -/
def callers (name : Path → String) (ds : List Demand) : Nat := (asked ds).countP (name · = g)

variable {g}

theorem holders_nil : holders g [] = 0 := rfl

theorem holders_append (fs gs : List Finding) :
    holders g (fs ++ gs) = holders g fs + holders g gs := by
  rw [holders, functions, pick_append, List.countP_append]
  rfl

theorem callers_append {name : Path → String} (ds ds' : List Demand) :
    callers g name (ds ++ ds') = callers g name ds + callers g name ds' := by
  rw [callers, asked_append, List.countP_append]
  rfl

theorem callers_of_not_wants {name : Path → String} {ds : List Demand}
    (h : ∀ d ∈ ds, d.wants = false) : callers g name ds = 0 := by
  rw [callers, asked_of_not_wants h]
  rfl

theorem holders_reads (ns : List String) : holders g (reads ns) = 0 := by
  rw [holders, functions, pick_reads fun _ => rfl]
  rfl

theorem holders_walkFunction (chain ps : List String) (body : List Finding) :
    holders g (walkFunction chain ps body) = (if g ∈ ps then 1 else 0) + holders g body := by
  have hunder : functions (under (.lambda chain ps) body) = functions body := pick_under ..
  have hcons : functions (walkFunction chain ps body) = ps :: functions body :=
    congrArg (ps :: ·) hunder
  rw [holders, hcons, List.countP_cons, holders, Nat.add_comm]
  simp

theorem holders_walkBound (inline : Bool) {bs : List (Binding Expr)} (hbs : ReadsOnly bs)
    (body : List Finding) : holders g (walkBound inline bs body) = holders g body := by
  rw [holders, functions, pick_walkBound (fun _ => rfl) inline hbs]
  rfl

theorem holders_walkDeclarations (body : List Finding) (ds : List Declaration) :
    holders g (walkDeclarations body ds) = holders g body := by
  induction ds with
  | nil => rfl
  | cons d ds ih =>
    have hunder (n : String) : functions (under (.declared n) (walkDeclarations body ds)) =
        functions (walkDeclarations body ds) := pick_under ..
    rw [← ih]
    cases d with
    | table n names => exact congrArg (List.countP (g ∈ ·)) (hunder n)
    | counter n => exact congrArg (List.countP (g ∈ ·)) (hunder n)

/-- A row has the parameter only if its node is to have the name. -/
theorem holders_parameter (name : Path → String) {row : Row} (h : g ∉ row.aliases) (node : Path) :
    (if g ∈ [row.parameter name node] then 1 else 0) ≤ callers g name (row.nameDemands node) := by
  cases row with
  | table a =>
    have ha : g ≠ a := by simpa [Row.aliases] using h
    simp [Row.parameter, ha]
  | joined | grouped =>
    simp only [Row.parameter, List.mem_singleton, callers, asked, Row.nameDemands,
      List.filterMap_cons, List.filterMap_nil, List.countP_cons, List.countP_nil]
    by_cases hg : g = name node
    · simp [hg]
    · simp [hg]

variable (s : Naming)

/-- In the image of an expression that does not spell the name, no more functions have it for a
parameter than nodes are to have it. -/
def FewHolders (g : String) (e : Expr) : Prop :=
  g ∉ e.spelled → ∀ (place : Place) param path bound searched, (∀ r ∈ place.row, g ∉ r.aliases) →
    holders g (e.image s place param path bound searched).walk ≤
      callers g s.name (e.demands s.config place path bound)

variable {s}

theorem holders_imageAll {es : List Expr} (h : ∀ e ∈ es, FewHolders s g e)
    (hg : g ∉ spelledAll es) {place : Place} (hplace : ∀ r ∈ place.row, g ∉ r.aliases)
    (param : String) (path : Path) (bound : List String) (step : Nat → Step) (i : Nat) :
    holders g (walkAll (imageAll s place param path bound step i es)) ≤
      callers g s.name (demandsAll s.config place path bound step i es) := by
  induction es generalizing i with
  | nil => exact Nat.le_refl 0
  | cons e es ih =>
    rw [spelledAll, List.mem_append, not_or] at hg
    have he := h e List.mem_cons_self hg.1 place param (step i :: path) bound false hplace
    have hes := ih (fun e hm => h e (List.mem_cons_of_mem _ hm)) hg.2 (i + 1)
    rw [imageAll, walkAll, demandsAll, holders_append, callers_append]
    exact Nat.add_le_add he hes

theorem holders_exprs {f : RowFunction} {ps : List (Slot × Expr)}
    (h : ∀ p ∈ ps, FewHolders s g p.2) (hg : ∀ p ∈ ps, g ∉ p.2.spelled) (hrow : g ∉ f.row.aliases)
    (path : Path) :
    holders g (ps.flatMap fun p => (f.image s path p).walk) ≤
      callers g s.name (ps.flatMap fun p =>
        p.2.demands s.config ⟨some f.row, f.numbering⟩ (.slot p.1 :: path) []) := by
  have hplace : ∀ r ∈ f.place.row, g ∉ r.aliases := by
    intro r hr
    cases hr
    exact hrow
  induction ps with
  | nil => exact Nat.le_refl 0
  | cons p ps ih =>
    have hp := h p List.mem_cons_self (hg p List.mem_cons_self) f.place (f.param s path)
      (.slot p.1 :: path) [] false hplace
    have hps := ih (fun p hm => h p (List.mem_cons_of_mem _ hm))
      fun p hm => hg p (List.mem_cons_of_mem _ hm)
    rw [List.flatMap_cons, List.flatMap_cons, holders_append, callers_append]
    exact Nat.add_le_add hp hps

theorem holders_piece {p : Piece} (h : ∀ e ∈ p.exprs, FewHolders s g e)
    (hg : ∀ e ∈ p.exprs, g ∉ e.spelled) (hrows : g ∉ p.rowNames) (path : Path) :
    holders g (p.walk s path) ≤ callers g s.name (p.demands s.config path) := by
  cases p with
  | value slot e =>
    have he : e ∈ (Piece.value slot e).exprs := List.mem_cons_self
    exact h e he (hg e he) _ _ _ _ _ fun r hr => nomatch hr
  | function f =>
    rw [Piece.rowNames, List.mem_append, not_or] at hrows
    have hfew : ∀ p ∈ f.exprs, FewHolders s g p.2 := fun p hp => h p.2 (List.mem_map_of_mem hp)
    have hspelled : ∀ p ∈ f.exprs, g ∉ p.2.spelled := fun p hp => hg p.2 (List.mem_map_of_mem hp)
    have hexprs := holders_exprs hfew hspelled hrows.1 path
    have hparam := holders_parameter s.name hrows.1 (.slot f.slot :: path)
    have hparams : g ∈ f.param s path :: f.joined.toList ↔ g ∈ [f.param s path] := by
      simp [hrows.2]
    rw [Piece.walk, RowFunction.walk, holders_walkFunction,
      holders_walkBound _ (f.bindings_readsOnly s path), RowFunction.body, holders_append,
      holders_reads, Piece.demands, callers_append]
    simp only [hparams]
    exact Nat.add_le_add hparam hexprs

theorem holders_queryImage {q : Query Expr} (h : q.Each (FewHolders s g)) (hg : g ∉ querySpelled q)
    (path : Path) :
    holders g (queryImage s path q).walk ≤ callers g s.name (queryDemands s.config path q) := by
  have hpieces : ∀ ps : List Piece, (∀ p ∈ ps, p ∈ q.pieces) →
      holders g (ps.flatMap (Piece.walk s path)) ≤
        callers g s.name (ps.flatMap (Piece.demands s.config path)) := by
    intro ps hps
    induction ps with
    | nil => exact Nat.le_refl 0
    | cons p ps ih =>
      obtain ⟨hspelled, hrows⟩ := spelled_pieces (hps p List.mem_cons_self) hg
      have hp := holders_piece (h.pieces p (hps p List.mem_cons_self)) hspelled hrows path
      rw [List.flatMap_cons, List.flatMap_cons, holders_append, callers_append]
      exact Nat.add_le_add hp (ih fun p hm => hps p (List.mem_cons_of_mem _ hm))
  have hcallers : callers g s.name (queryDemands s.config path q) =
      callers g s.name (q.pieces.flatMap (Piece.demands s.config path)) := by
    rw [callers, ← asked_wanted, wanted_queryDemands, asked_wanted]
    rfl
  rw [walk_queryImage, holders_walkDeclarations, hcallers]
  exact hpieces q.pieces fun p hp => hp

theorem holders_attach (c : Config) (place : Place) (param : String) (bound free : List String)
    (e : Expr) : holders g (place.attach c param bound free e).walk = holders g e.walk := by
  have hbs := place.readsOfGroup_readsOnly c param bound free
  rw [Place.attach, walk_bind, holders_walkBound _ (hbs.filter _), walk_bind,
    holders_walkBound _ (hbs.filter _)]

theorem fewHolders (e : Expr) : FewHolders s g e := by
  induction e using Expr.written_induction with
  | literal | letIn | record | postIncrement | subquery =>
    intro hg place param path bound searched hplace
    exact Nat.zero_le _
  | var p n =>
    intro hg place param path bound searched hplace
    rw [Expr.image, walk_varImage, holders_reads]
    exact Nat.zero_le _
  | unary p f e ih =>
    intro hg place param path bound searched hplace
    exact ih hg place param (.part 0 :: path) bound false hplace
  | binary p f l r ihl ihr =>
    intro hg place param path bound searched hplace
    rw [Expr.spelled, List.mem_append, not_or] at hg
    have hl := ihl hg.1 place param (.part 0 :: path) bound false hplace
    have hr (searched : Bool) := ihr hg.2 place param (.part 1 :: path) bound searched hplace
    cases f <;>
      (simp only [Expr.image, Expr.walk, Expr.demands, holders_append, callers_append]
       exact Nat.add_le_add hl (hr _))
  | sequence p f es ih =>
    intro hg place param path bound searched hplace
    have hes := holders_imageAll ih hg hplace param path bound .part 0
    cases f with
    | call n =>
      have hform := callForm s place param path bound searched p n es
      generalize (Expr.sequence p (.call n) es).image s place param path bound searched = e at hform ⊢
      generalize (Expr.sequence p (.call n) es).demands s.config place path bound = ds at hform ⊢
      have hrows : holders g (GroupView.rows param).walk = 0 := holders_reads [param]
      cases hform with
      | plain ds es h =>
        rw [Expr.walk, callers_append]
        exact Nat.le_trans hes (Nat.le_add_left _ _)
      | allRows es prior names into h => exact Nat.zero_le _
      | eachRow ds arg rest prior names into h hds =>
        have hprior : g ∉ prior.aliases := hplace (.grouped prior names into) h
        rw [Expr.spelled, spelledAll, List.mem_append, not_or] at hg
        have harg := ih arg List.mem_cons_self hg.1 ⟨some prior, place.numbering⟩
          (prior.parameter s.name (.part 0 :: path)) (.part 0 :: path) [] false
          fun r hr => by cases hr; exact hprior
        have hparam := holders_parameter s.name hprior (.part 0 :: path)
        simp only [Expr.walk, walkAll, holders_append, holders_walkFunction, Row.close,
          Row.closeOver, walk_bind, holders_walkBound _ (prior.bindings_readsOnly _ _),
          hrows, holders_nil, Nat.zero_add, Nat.add_zero]
        rw [callers_append, callers_append, callers_of_not_wants hds, Nat.zero_add]
        exact Nat.add_le_add hparam harg
      | rowsAtOnce arg rest prior names into h =>
        rw [Expr.spelled, spelledAll, List.mem_append, not_or] at hg
        have harg := ih arg List.mem_cons_self hg.1 place param (.part 0 :: path) bound false hplace
        simp only [Expr.walk, walkAll, holders_append, hrows, holders_nil, Nat.zero_add,
          Nat.add_zero]
        exact harg
    | list | tuple | construct => exact hes
  | method p r n es ihr ih =>
    intro hg place param path bound searched hplace
    rw [Expr.spelled, List.mem_append, not_or] at hg
    have hr := ihr hg.1 place param (.part 0 :: path) bound false hplace
    have hes := holders_imageAll ih hg.2 hplace param path bound .part 1
    rw [Expr.image, Expr.walk, Expr.demands, holders_append, callers_append]
    exact Nat.add_le_add hr hes
  | lambda p ps e ih =>
    intro hg place param path bound searched hplace
    rw [Expr.spelled, List.mem_append, not_or] at hg
    rw [Expr.image, Expr.walk, holders_walkFunction, if_neg hg.1, Nat.zero_add]
    exact ih hg.2 place param (.part 0 :: path) (ps ++ bound) false hplace
  | query p q hq =>
    intro hg place param path bound searched hplace
    have hquery := holders_queryImage hq hg path
    have hcallers : callers g s.name ((queryDemands s.config path q).filter (·.outlivesQuery)) =
        callers g s.name (queryDemands s.config path q) := by
      rw [callers, asked_filter fun _ => rfl]
      rfl
    rw [Expr.image, holders_attach, Expr.demands, hcallers]
    cases searched with
    | false => exact hquery
    | true => simpa [Expr.send, Expr.walk, walkAll] using hquery

end Holders

/-! ## Readings outside of a function with the parameter -/

section Open

/-- The name is read somewhere outside of any function that has it for a parameter. -/
def Open (g : String) (fs : List Finding) : Prop :=
  ∃ sc, (sc, .read g) ∈ fs ∧ ∀ chain ps, Binder.lambda chain ps ∈ sc → g ∉ ps

variable {g : String}

theorem open_append {fs gs : List Finding} : Open g (fs ++ gs) ↔ Open g fs ∨ Open g gs := by
  simp only [Open, List.mem_append, or_and_right, exists_or]

theorem not_open_nil : ¬Open g [] := by
  rintro ⟨sc, hmem, -⟩
  cases hmem

theorem open_reads {ns : List String} (h : Open g (reads ns)) : g ∈ ns := by
  obtain ⟨sc, hmem, -⟩ := h
  obtain ⟨n, hn, heq⟩ := List.mem_map.mp hmem
  cases heq
  exact hn

theorem open_flatMap {α : Type} {f : α → List Finding} {as : List α}
    (h : Open g (as.flatMap f)) : ∃ a ∈ as, Open g (f a) := by
  obtain ⟨sc, hmem, hsc⟩ := h
  obtain ⟨a, ha, hmem⟩ := List.mem_flatMap.mp hmem
  exact ⟨a, ha, sc, hmem, hsc⟩

theorem open_under {b : Binder} {fs : List Finding} (h : Open g (under b fs)) :
    Open g fs ∧ ∀ chain ps, b = .lambda chain ps → g ∉ ps := by
  obtain ⟨sc, hmem, hsc⟩ := h
  obtain ⟨⟨sc', item⟩, hf, heq⟩ := List.mem_map.mp hmem
  cases heq
  refine ⟨⟨sc', hf, fun chain ps hb => hsc chain ps (List.mem_cons_of_mem _ hb)⟩, ?_⟩
  rintro chain ps rfl
  exact hsc chain ps List.mem_cons_self

theorem open_walkFunction {chain ps : List String} {body : List Finding}
    (h : Open g (walkFunction chain ps body)) : g ∉ ps ∧ Open g body := by
  rw [walkFunction, ← List.singleton_append, open_append] at h
  rcases h with ⟨sc, hmem, -⟩ | h
  · cases List.mem_singleton.mp hmem
  · obtain ⟨hbody, hps⟩ := open_under h
    exact ⟨hps chain ps rfl, hbody⟩

theorem open_walkLocals {body : List Finding} {bs : List (Binding Expr)}
    (h : Open g (walkLocals body bs)) : Open g body ∨ ∃ b ∈ bs, Open g b.value.walk := by
  induction bs with
  | nil => exact Or.inl h
  | cons b bs ih =>
    rw [walkLocals, open_append] at h
    rcases h with h | h
    · exact Or.inr ⟨b, List.mem_cons_self, h⟩
    · rcases ih (open_under h).1 with h | ⟨b', hb', h⟩
      · exact Or.inl h
      · exact Or.inr ⟨b', List.mem_cons_of_mem _ hb', h⟩

theorem open_replace {fs : List Finding} {bs : List (Binding Expr)} (hbs : ReadsOnly bs)
    (h : Open g (fs.flatMap (Finding.replace bs))) :
    Open g fs ∨ ∃ b ∈ bs, Open g b.value.walk := by
  obtain ⟨sc, hmem, hsc⟩ := h
  obtain ⟨⟨sc', item⟩, hf, hmem⟩ := List.mem_flatMap.mp hmem
  cases item with
  | read n =>
    rcases hbs.replace_read sc' n with hsame | ⟨b, hb, -, ns, hns, hreads⟩
    · rw [hsame, List.mem_singleton] at hmem
      cases hmem
      exact Or.inl ⟨sc, hf, hsc⟩
    · rw [hreads] at hmem
      obtain ⟨m, hm, heq⟩ := List.mem_map.mp hmem
      cases heq
      refine Or.inr ⟨b, mem_of_mem_pass hb, [], ?_, fun _ _ hnil => nomatch hnil⟩
      rw [hns]
      exact List.mem_map_of_mem hm
  | function ps =>
    cases List.mem_singleton.mp hmem
  | table names =>
    cases List.mem_singleton.mp hmem

theorem open_walkBound {inline : Bool} {body : List Finding} {bs : List (Binding Expr)}
    (hbs : ReadsOnly bs) (h : Open g (walkBound inline bs body)) :
    Open g body ∨ ∃ b ∈ bs, Open g b.value.walk := by
  cases inline with
  | true => exact open_replace hbs h
  | false => exact open_walkLocals h

theorem open_walkDeclarations {body : List Finding} {ds : List Declaration}
    (h : Open g (walkDeclarations body ds)) : Open g body := by
  induction ds with
  | nil => exact h
  | cons d ds ih =>
    cases d with
    | table n names =>
      rw [walkDeclarations, ← List.singleton_append, open_append] at h
      rcases h with ⟨sc, hmem, -⟩ | h
      · cases List.mem_singleton.mp hmem
      · exact ih (open_under h).1
    | counter n => exact ih (open_under h).1

/-- Paths read the parameter of their row and nothing else. -/
theorem open_bindings {row : Row} {param : String} {es : List Expr} {b : Binding Expr}
    (hb : b ∈ row.bindings param es) (h : Open g b.value.walk) : g = param := by
  simp only [Row.bindings, List.mem_map] at hb
  obtain ⟨p, -, rfl⟩ := hb
  have hpath : (p.2.read (Expr.name param)).walk = reads [param] := PairPath.walk_read p.2 _
  rw [hpath] at h
  exact List.mem_singleton.mp (open_reads h)

/-- A function of a row is closed to a made-up name where its body is, its parameter aside. -/
theorem not_open_closeOver {chain ps : List String} {row : Row} {param : String} {es : List Expr}
    {inline : Bool} {body : List Finding} (hparam : param ∈ ps)
    (hbody : Open g body → g = param) :
    ¬Open g (walkFunction chain ps (walkBound inline (row.bindings param es) body)) := by
  intro h
  obtain ⟨hps, h⟩ := open_walkFunction h
  rcases open_walkBound (row.bindings_readsOnly param es) h with h | ⟨b, hb, h⟩
  · exact hps (hbody h ▸ hparam)
  · exact hps (open_bindings hb h ▸ hparam)

variable (s : Naming)

/-- In the image of an expression that does not spell the name, it is open only as the parameter of
a row of groups around it. -/
def OpenAsParameter (g : String) (e : Expr) : Prop :=
  g ∉ e.spelled → ∀ (place : Place) param path bound searched,
    Open g (e.image s place param path bound searched).walk →
      g = param ∧ ∃ prior names into, place.row = some (.grouped prior names into)

variable {s}

theorem open_imageAll {es : List Expr} (h : ∀ e ∈ es, OpenAsParameter s g e)
    (hg : g ∉ spelledAll es) {place : Place} {param : String} {path : Path} {bound : List String}
    {step : Nat → Step} {i : Nat}
    (hopen : Open g (walkAll (imageAll s place param path bound step i es))) :
    g = param ∧ ∃ prior names into, place.row = some (.grouped prior names into) := by
  induction es generalizing i with
  | nil => exact absurd hopen not_open_nil
  | cons e es ih =>
    rw [spelledAll, List.mem_append, not_or] at hg
    rw [imageAll, walkAll, open_append] at hopen
    rcases hopen with hopen | hopen
    · exact h e List.mem_cons_self hg.1 _ _ _ _ _ hopen
    · exact ih (fun e hm => h e (List.mem_cons_of_mem _ hm)) hg.2 hopen

theorem not_open_piece {p : Piece} (h : ∀ e ∈ p.exprs, OpenAsParameter s g e)
    (hg : ∀ e ∈ p.exprs, g ∉ e.spelled) (htable : g ≠ s.config.table) (path : Path) :
    ¬Open g (p.walk s path) := by
  cases p with
  | value slot e =>
    intro hopen
    have he : e ∈ (Piece.value slot e).exprs := List.mem_cons_self
    obtain ⟨-, prior, names, into, hrow⟩ := h e he (hg e he) _ _ _ _ _ hopen
    cases hrow
  | function f =>
    refine not_open_closeOver List.mem_cons_self fun hopen => ?_
    rw [RowFunction.body, open_append] at hopen
    rcases hopen with hopen | hopen
    · obtain ⟨p, hp, hopen⟩ := open_flatMap hopen
      have hmem : p.2 ∈ (Piece.function f).exprs := List.mem_map_of_mem hp
      exact (h p.2 hmem (hg p.2 hmem) _ _ _ _ _ hopen).1
    · have hextras := open_reads hopen
      rw [RowFunction.extras] at hextras
      cases hrecord : f.record with
      | none =>
        rw [hrecord] at hextras
        cases hextras
      | some keeps =>
        rw [hrecord] at hextras
        cases keeps
        · simp [htable] at hextras
        · simpa [htable] using hextras

theorem not_open_queryImage {q : Query Expr} (h : q.Each (OpenAsParameter s g))
    (hg : g ∉ querySpelled q) (htable : g ≠ s.config.table) (path : Path) :
    ¬Open g (queryImage s path q).walk := by
  intro hopen
  rw [walk_queryImage] at hopen
  obtain ⟨p, hp, hopen⟩ := open_flatMap (open_walkDeclarations hopen)
  exact not_open_piece (h.pieces p hp) (spelled_pieces hp hg).1 htable path hopen

theorem open_readsOfGroup {place : Place} {param : String} {bound free : List String}
    {b : Binding Expr} (hb : b ∈ place.readsOfGroup s.config param bound free)
    (htable : g ≠ s.config.table) (h : Open g b.value.walk) :
    g = param ∧ ∃ prior names into, place.row = some (.grouped prior names into) := by
  have hread := Place.read?_of_mem hb
  refine ⟨?_, Place.row_of_read? hread⟩
  rw [Place.walk_read? hread] at h
  have hmem := open_reads h
  split at hmem <;> simpa [htable] using hmem

theorem open_attach {place : Place} {param : String} {bound free : List String} {e : Expr}
    (htable : g ≠ s.config.table)
    (h : Open g (place.attach s.config param bound free e).walk) :
    Open g e.walk ∨
      g = param ∧ ∃ prior names into, place.row = some (.grouped prior names into) := by
  have hbs := place.readsOfGroup_readsOnly s.config param bound free
  rw [Place.attach, walk_bind] at h
  rcases open_walkBound (hbs.filter _) h with h | ⟨b, hb, h⟩
  · rw [walk_bind] at h
    rcases open_walkBound (hbs.filter _) h with h | ⟨b, hb, h⟩
    · exact Or.inl h
    · exact Or.inr (open_readsOfGroup (List.mem_filter.mp hb).1 htable h)
  · exact Or.inr (open_readsOfGroup (List.mem_filter.mp hb).1 htable h)

theorem openAsParameter (htable : g ≠ s.config.table) (e : Expr) : OpenAsParameter s g e := by
  induction e using Expr.written_induction with
  | literal | letIn | record | postIncrement | subquery =>
    intro hg place param path bound searched hopen
    exact absurd hopen not_open_nil
  | var p n =>
    intro hg place param path bound searched hopen
    rw [Expr.spelled, List.mem_singleton] at hg
    rw [Expr.image, walk_varImage] at hopen
    have hmem := open_reads hopen
    rw [Place.varReads] at hmem
    split at hmem
    · exact absurd (List.mem_singleton.mp hmem) hg
    · split at hmem
      · cases hmem
      · split at hmem
        · rename_i hread
          refine ⟨?_, Place.row_of_read? hread⟩
          split at hmem <;> simpa [htable] using hmem
        · exact absurd (List.mem_singleton.mp hmem) hg
  | unary p f e ih =>
    intro hg place param path bound searched hopen
    exact ih hg place param (.part 0 :: path) bound false hopen
  | binary p f l r ihl ihr =>
    intro hg place param path bound searched hopen
    rw [Expr.spelled, List.mem_append, not_or] at hg
    cases f <;>
      (simp only [Expr.image, Expr.walk, open_append] at hopen
       exact hopen.elim (ihl hg.1 _ _ _ _ _) (ihr hg.2 _ _ _ _ _))
  | sequence p f es ih =>
    intro hg place param path bound searched hopen
    cases f with
    | call n =>
      have hform := callForm s place param path bound searched p n es
      generalize (Expr.sequence p (.call n) es).image s place param path bound searched = e
        at hform hopen
      generalize (Expr.sequence p (.call n) es).demands s.config place path bound = ds at hform
      have hcall (args : List Expr)
          (h : Open g (Expr.method p (GroupView.rows param) n args).walk) :
          g = param ∨ Open g (walkAll args) := by
        have h : Open g (reads [param] ++ walkAll args) := h
        rw [open_append] at h
        exact h.imp_left fun h => List.mem_singleton.mp (open_reads h)
      cases hform with
      | plain ds es h => exact open_imageAll ih hg hopen
      | allRows es prior names into h =>
        rcases hcall _ hopen with hopen | hopen
        · exact ⟨hopen, prior, names, into, h⟩
        · exact absurd hopen not_open_nil
      | eachRow ds arg rest prior names into h hds =>
        rw [Expr.spelled, spelledAll, List.mem_append, not_or] at hg
        rcases hcall _ hopen with hopen | hopen
        · exact ⟨hopen, prior, names, into, h⟩
        · rw [walkAll, walkAll, List.append_nil, Expr.walk, Row.close, Row.closeOver, walk_bind]
            at hopen
          exact absurd hopen (not_open_closeOver List.mem_cons_self fun hopen =>
            (ih arg List.mem_cons_self hg.1 _ _ _ _ _ hopen).1)
      | rowsAtOnce arg rest prior names into h =>
        rw [Expr.spelled, spelledAll, List.mem_append, not_or] at hg
        rcases hcall _ hopen with hopen | hopen
        · exact ⟨hopen, prior, names, into, h⟩
        · rw [walkAll, walkAll, List.append_nil] at hopen
          exact ih arg List.mem_cons_self hg.1 _ _ _ _ _ hopen
    | list | tuple | construct => exact open_imageAll ih hg hopen
  | method p r n es ihr ih =>
    intro hg place param path bound searched hopen
    rw [Expr.spelled, List.mem_append, not_or] at hg
    rw [Expr.image, Expr.walk, open_append] at hopen
    exact hopen.elim (ihr hg.1 _ _ _ _ _) (open_imageAll ih hg.2)
  | lambda p ps e ih =>
    intro hg place param path bound searched hopen
    rw [Expr.spelled, List.mem_append, not_or] at hg
    rw [Expr.image, Expr.walk] at hopen
    exact ih hg.2 _ _ _ _ _ (open_walkFunction hopen).2
  | query p q hq =>
    intro hg place param path bound searched hopen
    rw [Expr.image] at hopen
    rcases open_attach htable hopen with hopen | hopen
    · refine absurd ?_ (not_open_queryImage hq hg htable path)
      cases searched with
      | false => exact hopen
      | true => simpa [Expr.send, Expr.walk, walkAll] using hopen
    · exact hopen

end Open

/-! ## Whole queries -/

theorem callers_le_one {g : String} {name : Path → String} {ds : List Demand}
    (hnodup : (asked ds).Nodup)
    (hname : ∀ m ∈ asked ds, ∀ m' ∈ asked ds, name m = name m' → m = m') :
    callers g name ds ≤ 1 := by
  rw [callers]
  generalize asked ds = nodes at hnodup hname
  induction nodes with
  | nil => exact Nat.zero_le 1
  | cons m nodes ih =>
    obtain ⟨hfresh, hnodup⟩ := List.nodup_cons.mp hnodup
    by_cases hm : name m = g
    · have hnone : nodes.countP (name · = g) = 0 := by
        refine List.countP_eq_zero.mpr fun m' hm' h => hfresh ?_
        have heq : name m = name m' := hm.trans (of_decide_eq_true h).symm
        rwa [hname m List.mem_cons_self m' (List.mem_cons_of_mem _ hm') heq]
      rw [List.countP_cons, hnone]
      split <;> simp
    · rw [List.countP_cons_of_neg (by simpa using hm)]
      exact ih hnodup fun m hm m' hm' =>
        hname m (List.mem_cons_of_mem _ hm) m' (List.mem_cons_of_mem _ hm')

/-- A name that is made up while a query is lowered is none of the identifiers of the query nor one
of the names of the configuration, at most one function of the thunk has it for a parameter, and the
thunk reads it only inside of such a function. -/
theorem madeUp_hygienic {c : Config} {q : Query Expr} {node : Path} {t : Thunk} {ctx : Context}
    (h : (Context.new c).lower node q = (.ok t, ctx)) {m : Path} {g : String}
    (hg : (m, g) ∈ ctx.names.assigned) :
    (g ∉ q.identifiers ∧ g ≠ c.table ∧ g ≠ c.counter) ∧
      ((functions t.walk).filter (g ∈ ·)).length ≤ 1 ∧
      ∀ sc, (sc, .read g) ∈ t.walk → ∃ chain ps, Binder.lambda chain ps ∈ sc ∧ g ∈ ps := by
  have hlowered := Lowered.ofLower h
  have havoid : g ∉ q.avoided c := hlowered.clear.avoids _ hg
  have hquery : g ∉ q.identifiers := fun h => havoid (List.mem_append_left _ h)
  have hspelled : g ∉ querySpelled q := by
    rwa [Query.identifiers, mem_distinct] at hquery
  have htable : g ≠ c.table := by
    rintro rfl
    exact havoid (List.mem_append_right _ List.mem_cons_self)
  have hcounter : g ≠ c.counter := by
    rintro rfl
    exact havoid (List.mem_append_right _ (by simp))
  have hconfig : ctx.naming.config = c := hlowered.config
  refine ⟨⟨hquery, htable, hcounter⟩, ?_, ?_⟩
  · have hfew := holders_queryImage (s := ctx.naming) (q.each_of_forall fewHolders) hspelled node
    have hone : callers g ctx.naming.name (queryDemands c node q) ≤ 1 := by
      refine callers_le_one (nodup_asked c node q) fun m hm m' _ => ?_
      exact hlowered.name_injective (mem_asked.mp hm)
    rw [hconfig, ← hlowered.image] at hfew
    rw [← List.countP_eq_length_filter]
    exact Nat.le_trans hfew hone
  · intro sc hsc
    refine Classical.byContradiction fun hnone => ?_
    have hopen : Open g t.walk :=
      ⟨sc, hsc, fun chain ps hmem hps => hnone ⟨chain, ps, hmem, hps⟩⟩
    rw [hlowered.image] at hopen
    have htable : g ≠ ctx.naming.config.table := by rwa [hconfig]
    exact not_open_queryImage (q.each_of_forall (openAsParameter htable)) hspelled htable node hopen

/-- `from a in as crossjoin b in bs select b`. -/
def crossSelect : Query Expr where
  table := ⟨"a", Expr.name "as", .nowhere⟩
  joins := [⟨.cross, "b", Expr.name "bs", none, .nowhere⟩]
  filter := none
  grouping := none
  sorting := none
  limit := none
  projection := some ⟨[Expr.name "b"], .nowhere⟩
  pos := .nowhere

/-- The row of `select` gets the name `__t_0`. -/
theorem madeUp_hygienic_crossSelect :
    ∃ t ctx, (Context.new .standard).lower [] crossSelect = (.ok t, ctx) ∧
      ("__t_0" ∉ crossSelect.identifiers ∧ "__t_0" ≠ Config.standard.table ∧
        "__t_0" ≠ Config.standard.counter) ∧
      ((functions t.walk).filter ("__t_0" ∈ ·)).length ≤ 1 ∧
      ∀ sc, (sc, .read "__t_0") ∈ t.walk →
        ∃ chain ps, Binder.lambda chain ps ∈ sc ∧ "__t_0" ∈ ps := by
  obtain ⟨t, ctx, h, hg⟩ : ∃ t ctx, (Context.new .standard).lower [] crossSelect = (.ok t, ctx) ∧
      ([.slot (.item 0)], "__t_0") ∈ ctx.names.assigned :=
    ⟨_, _, rfl, by decide⟩
  exact ⟨t, ctx, h, madeUp_hygienic h hg⟩

end Comprehension
