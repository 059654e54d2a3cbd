import Comprehension.Proofs.Arguments
import Comprehension.Proofs.OwnParts
import Comprehension.Proofs.Runs

/-!
Row counters. The row number becomes a post-increment of the counter where rows are counted, which is
in the selected values. A thunk declares the counter just if its own `select` increments it; no other
call of a thunk does.
-/

namespace Comprehension

/-! ## Post-increments -/

/-- Where a post-increment stands, and the counter it names. -/
def Expr.increment? : Expr → Option (Position × String)
  | .postIncrement p n => some (p, n)
  | _ => none

/-- The post-increments in an expression, those in its thunks apart. -/
def Expr.increments (e : Expr) : List (Position × String) := e.own.filterMap Expr.increment?

def Argument.increments : Argument → List (Position × String)
  | value e => e.increments
  | lambda f => f.body.increments

theorem Expr.increment?_eq_some {e : Expr} {i : Position × String} :
    e.increment? = some i ↔ e = .postIncrement i.1 i.2 := by
  cases e with
  | postIncrement p n => simp [increment?, Prod.ext_iff]
  | _ => simp [increment?]

theorem mem_increments {e : Expr} {i : Position × String} :
    i ∈ e.increments ↔ .postIncrement i.1 i.2 ∈ e.own := by
  simp [Expr.increments, List.mem_filterMap, Expr.increment?_eq_some]

theorem incrementsAll (es : List Expr) :
    (ownAll es).filterMap Expr.increment? = es.flatMap Expr.increments := by
  induction es with
  | nil => rfl
  | cons e es ih => rw [ownAll, List.filterMap_append, ih, List.flatMap_cons, Expr.increments]

namespace Expr

theorem increments_binary (p : Position) (f : Binary) (l r : Expr) :
    (binary p f l r).increments = l.increments ++ r.increments :=
  List.filterMap_append

theorem increments_sequence (p : Position) (f : Sequence) (es : List Expr) :
    (sequence p f es).increments = es.flatMap increments :=
  incrementsAll es

theorem increments_method (p : Position) (r : Expr) (n : String) (es : List Expr) :
    (method p r n es).increments = r.increments ++ es.flatMap increments := by
  rw [← incrementsAll es]
  exact List.filterMap_append

theorem increments_withPos (p : Position) {e : Expr} (h : e.increments = []) :
    (e.withPos p).increments = [] := by
  cases e with
  | postIncrement q n => cases h
  | record q vs ns as row => cases row <;> exact h
  | _ => exact h

theorem increments_of_isPath {e : Expr} (h : e.isPath = true) : e.increments = [] := by
  refine List.filterMap_eq_nil_iff.mpr fun e' he => ?_
  have hpath := isPath_of_mem_own h he
  cases e' with
  | postIncrement p n => cases hpath
  | _ => rfl

end Expr

theorem increments_of_read? {c : Config} {place : Place} {param n : String} {e : Expr}
    (h : place.read? c param n = some e) : e.increments = [] := by
  rcases Place.read?_cases h with ⟨-, rfl⟩ | ⟨-, rfl | rfl⟩ <;> rfl

/-! ### Bindings -/

/-- The values of the bindings count nothing. -/
def Countless (σ : List (Binding Expr)) : Prop := ∀ b ∈ σ, b.value.increments = []

theorem ArePaths.countless {σ : List (Binding Expr)} (h : ArePaths σ) : Countless σ :=
  fun b hb => Expr.increments_of_isPath (h b hb)

section

variable {σ : List (Binding Expr)} (hσ : Countless σ)

include hσ

theorem increments_substitute {e : Expr} {i : Position × String} :
    i ∈ (e.substitute σ).increments ↔ i ∈ e.increments := by
  have hbecomes := own_substitute σ e
  constructor
  · intro hi
    rcases hbecomes.traced _ (mem_increments.mp hi) with ⟨e₀, he₀, σ', hσ', heq⟩ | ⟨b, hb, p, hp⟩
    · cases e₀ with
      | postIncrement p n =>
        rw [Expr.substitute] at heq
        exact mem_increments.mpr (heq ▸ he₀)
      | var p n =>
        rw [Expr.substitute] at heq
        cases hn : valueOf? n σ' with
        | none =>
          rw [hn] at heq
          cases heq
        | some v =>
          -- No value is a post-increment.
          rw [hn] at heq
          have heq : Expr.postIncrement i.1 i.2 = v.withPos p := heq
          have hv : (v.withPos p).increments = [] :=
            Expr.increments_withPos p (hσ _ (hσ' (mem_of_valueOf? hn)))
          rw [← heq] at hv
          cases hv
      | record p vs ns as row => cases row <;> cases heq
      | _ => cases heq
    · have hvalue := Expr.increments_withPos p (hσ b hb)
      have hmem := mem_increments.mpr hp
      rw [hvalue] at hmem
      cases hmem
  · intro hi
    obtain ⟨σ', -, hkept⟩ := hbecomes.kept _ (mem_increments.mp hi)
    exact mem_increments.mpr hkept

theorem increments_bind {e : Expr} {inline : Bool} {i : Position × String} :
    i ∈ (bind σ e inline).increments ↔ i ∈ e.increments := by
  have hlocals : (ownLocals σ).filterMap Expr.increment? = [] := by
    refine List.filterMap_eq_nil_iff.mpr fun e' he => ?_
    obtain ⟨b, hb, he⟩ := mem_ownLocals.mp he
    exact List.filterMap_eq_nil_iff.mp (hσ b hb) e' he
  have hlet : (Expr.letIn e.pos σ e).increments =
      (ownLocals σ).filterMap Expr.increment? ++ e.increments := List.filterMap_append
  rcases bind_cases σ e inline with h | ⟨-, h⟩ | h
  · rw [h]
  · rw [h]
    exact increments_substitute hσ
  · rw [h, hlet, hlocals, List.nil_append]

omit hσ in
theorem Argument.increments_substituteEach {σs : List (List (Binding Expr))}
    (h : ∀ σ ∈ σs, Countless σ) (a : Argument) (i : Position × String) :
    i ∈ (a.substituteEach σs).increments ↔ i ∈ a.increments := by
  induction σs generalizing a with
  | nil => rfl
  | cons σ σs ih =>
    obtain ⟨hσ, hσs⟩ := List.forall_mem_cons.mp h
    refine (ih hσs (a.substitute σ)).trans ?_
    cases a with
    | value e => exact increments_substitute hσ
    | lambda f => exact increments_substitute fun b hb => hσ b (mem_of_mem_without hb)

end

theorem increments_bindings (row : Row) (param : String) (es : List Expr) :
    Countless (row.bindings param es) := by
  intro b hb
  simp only [Row.bindings, List.mem_map] at hb
  obtain ⟨p, -, rfl⟩ := hb
  exact Expr.increments_of_isPath (p.2.read_isPath rfl)

theorem increments_attach {c : Config} {place : Place} {param : String} {bound free : List String}
    {e : Expr} {i : Position × String} :
    i ∈ (place.attach c param bound free e).increments ↔ i ∈ e.increments := by
  have hvalues (p : Binding Expr → Bool) :
      Countless ((place.readsOfGroup c param bound free).filter p) :=
    fun b hb => increments_of_read? (Place.read?_of_mem (List.mem_filter.mp hb).1)
  exact (increments_bind (hvalues _)).trans (increments_bind (hvalues _))

theorem increments_renamed (e : Expr) : e.renamed.increments = e.increments := by
  cases e with
  | unary p f e => cases f <;> rfl
  | _ => rfl

theorem increments_recordOf (table : String) (l : NameList) (values : List Expr)
    (row : Option String) :
    (recordOf table l values (row.map Expr.name)).increments = values.flatMap Expr.increments := by
  have hvalues : (ownAll (values.map Expr.renamed)).filterMap Expr.increment? =
      values.flatMap Expr.increments := by
    rw [incrementsAll, List.flatMap_map]
    simp only [increments_renamed]
  have haccess (l : NameList) : (l.access table).own.filterMap Expr.increment? = [] := rfl
  have hrow : (row.toList.map Expr.name).filterMap Expr.increment? = [] := by
    cases row <;> rfl
  rw [Expr.increments, own_recordOf, List.filterMap_cons_none rfl, List.filterMap_append,
    List.filterMap_append, List.filterMap_append, hvalues, haccess, haccess, hrow]
  simp only [List.append_nil]

/-! ## Images -/

/-- All name the counter of the configuration. There is one just if a counter is asked for, which is
only where rows are counted. -/
structure Accounts (c : Config) (numbering : Numbering) (is : List (Position × String))
    (ds : List Demand) : Prop where
  named : ∀ i ∈ is, i.2 = c.counter
  asked : (∃ i, i ∈ is) ↔ .countRow ∈ ds
  counted : .countRow ∈ ds → numbering = .counted

namespace Accounts

variable {c : Config} {numbering : Numbering} {is is' : List (Position × String)}
  {ds ds' : List Demand}

theorem none (h : .countRow ∉ ds) : Accounts c numbering [] ds :=
  ⟨List.forall_mem_nil _, by simp [h], fun hd => absurd hd h⟩

theorem append (h : Accounts c numbering is ds) (h' : Accounts c numbering is' ds') :
    Accounts c numbering (is ++ is') (ds ++ ds') where
  named := List.forall_mem_append.mpr ⟨h.named, h'.named⟩
  asked := by simp only [List.mem_append, exists_or, h.asked, h'.asked]
  counted hd := (List.mem_append.mp hd).elim h.counted h'.counted

/-- Demands for something else. -/
theorem after (h : Accounts c numbering is ds) {before : List Demand}
    (hbefore : .countRow ∉ before) : Accounts c numbering is (before ++ ds) :=
  (none hbefore).append h

/-- The same post-increments. -/
theorem of_mem_iff (h : Accounts c numbering is ds) (his : ∀ i, i ∈ is' ↔ i ∈ is) :
    Accounts c numbering is' ds where
  named i hi := h.named i ((his i).mp hi)
  asked := (exists_congr his).trans h.asked
  counted := h.counted

theorem eq_nil (h : Accounts c numbering is ds) (hnumbering : numbering ≠ .counted) : is = [] := by
  refine List.eq_nil_iff_forall_not_mem.mpr fun i hi => hnumbering ?_
  exact h.counted (h.asked.mp ⟨i, hi⟩)

end Accounts

theorem countRow_not_mem_nameDemands (row : Row) (node : Path) :
    .countRow ∉ row.nameDemands node := by
  cases row <;> simp [Row.nameDemands]

section

variable (s : Naming)

/-- Wherever the expression stands, its image counts rows just if its demands say so. -/
def AccountsFor (e : Expr) : Prop :=
  ∀ (place : Place) param path bound searched,
    Accounts s.config place.numbering (e.image s place param path bound searched).increments
      (e.demands s.config place path bound)

variable {s}

theorem accounts_imageAll {es : List Expr} (h : ∀ e ∈ es, AccountsFor s e) (place : Place)
    (param : String) (path : Path) (bound : List String) (step : Nat → Step) (i : Nat) :
    Accounts s.config place.numbering
      ((imageAll s place param path bound step i es).flatMap Expr.increments)
      (demandsAll s.config place path bound step i es) := by
  induction es generalizing i with
  | nil => exact .none List.not_mem_nil
  | cons e es ih =>
    exact (h e List.mem_cons_self place param (step i :: path) bound false).append
      (ih (fun e he => h e (List.mem_cons_of_mem _ he)) (i + 1))

/-- Only the row number is counted. -/
theorem increments_varImage {c : Config} {place : Place} {param : String} {bound : List String}
    {p : Position} {n : String} (h : ¬(n = c.rowNumber ∧ place.numbering = .counted)) :
    (place.varImage c param bound p n).increments = [] := by
  rw [Place.varImage, if_neg h]
  split
  · rfl
  · split
    · rename_i hread
      exact Expr.increments_withPos p (increments_of_read? hread)
    · rfl

theorem accounts_varImage (place : Place) (param : String) (bound : List String) (p : Position)
    (n : String) :
    Accounts s.config place.numbering (place.varImage s.config param bound p n).increments
      (place.varDemands s.config bound n) := by
  by_cases hbound : n ∈ bound ∨ n = s.config.table
  · rw [Place.varImage, Place.varDemands, if_pos hbound, if_pos hbound]
    exact .none List.not_mem_nil
  · by_cases hcounts : n = s.config.rowNumber ∧ place.numbering = .counted
    · rw [Place.varImage, Place.varDemands, if_neg hbound, if_neg hbound, if_pos hcounts,
        if_pos hcounts.1, hcounts.2]
      exact ⟨List.forall_mem_singleton.mpr rfl,
        iff_of_true ⟨_, List.mem_singleton_self _⟩ (List.mem_singleton_self _), fun _ => rfl⟩
    · rw [increments_varImage hcounts, Place.varDemands, if_neg hbound]
      refine .none ?_
      split
      · rename_i hrow
        cases hnumbering : place.numbering with
        | counted => exact absurd ⟨hrow, hnumbering⟩ hcounts
        | plain | noQuery => simp
      · exact List.not_mem_nil

theorem accounts_call {es : List Expr} (h : ∀ e ∈ es, AccountsFor s e) (p : Position) (n : String)
    (place : Place) (param : String) (path : Path) (bound : List String) (searched : Bool) :
    Accounts s.config place.numbering
      ((Expr.sequence p (.call n) es).image s place param path bound searched).increments
      ((Expr.sequence p (.call n) es).demands s.config place path bound) := by
  have hother {ds : List Demand} (hds : ∀ d ∈ ds, d.wants = false) : .countRow ∉ ds := by
    intro hd
    cases hds _ hd
  have hform := callForm s place param path bound searched p n es
  generalize (Expr.sequence p (.call n) es).image s place param path bound searched = e
    at hform ⊢
  generalize (Expr.sequence p (.call n) es).demands s.config place path bound = ds at hform ⊢
  cases hform with
  | plain ds es hds hcase =>
    rw [Expr.increments_sequence]
    exact (accounts_imageAll h place param path bound .part 0).after (hother hds)
  | allRows es prior names into _ hcase => exact .none List.not_mem_nil
  | eachRow ds arg rest prior names into _ hds hcase =>
    have harg := h arg List.mem_cons_self ⟨some prior, place.numbering⟩
      (prior.parameter s.name (.part 0 :: path)) (.part 0 :: path) [] false
    refine .after ?_ (hother hds)
    refine .after (harg.of_mem_iff fun i => ?_) (countRow_not_mem_nameDemands prior _)
    rw [Expr.increments_method, List.flatMap_singleton]
    exact increments_bind (increments_bindings prior _ _)
  | rowsAtOnce arg rest prior names into _ hcase =>
    have harg := h arg List.mem_cons_self place param (.part 0 :: path) bound false
    rw [Expr.increments_method, List.flatMap_singleton]
    exact harg

theorem accountsFor (e : Expr) : AccountsFor s e := by
  induction e using Expr.written_induction with
  | literal | letIn | record | postIncrement | subquery =>
    intro place param path bound searched
    exact .none (by simp [Expr.demands])
  | var p n =>
    intro place param path bound searched
    exact accounts_varImage place param bound p n
  | unary p f e ih =>
    intro place param path bound searched
    exact ih place param (.part 0 :: path) bound false
  | binary p f l r ihl ihr =>
    intro place param path bound searched
    have hl := ihl place param (.part 0 :: path) bound false
    have hr (searched : Bool) := ihr place param (.part 1 :: path) bound searched
    cases f with
    | operator op =>
      rw [Expr.image, Expr.increments_binary]
      exact hl.append (hr op.searches)
    | _ =>
      rw [Expr.image, Expr.increments_binary]
      · exact hl.append (hr false)
      · intro op h
        cases h
  | sequence p f es ih =>
    intro place param path bound searched
    cases f with
    | call n => exact accounts_call ih p n place param path bound searched
    | list | tuple | construct =>
      have hes := accounts_imageAll ih place param path bound .part 0
      rw [← Expr.increments_sequence p] at hes
      exact hes
  | method p r n es ihr ih =>
    intro place param path bound searched
    have hr := ihr place param (.part 0 :: path) bound false
    have hes := accounts_imageAll ih place param path bound .part 1
    rw [Expr.image, Expr.increments_method]
    exact hr.append hes
  | lambda p ps e ih =>
    intro place param path bound searched
    exact ih place param (.part 0 :: path) (ps ++ bound) false
  | query p q hq =>
    intro place param path bound searched
    have hquery : Accounts s.config place.numbering []
        ((queryDemands s.config path q).filter (·.outlivesQuery)) :=
      .none fun hd => by cases (List.mem_filter.mp hd).2
    refine hquery.of_mem_iff fun i => ?_
    rw [Expr.image, increments_attach]
    cases searched <;> rfl

/-! ## Functions of rows -/

variable (s) (path : Path)

/-- A function counts what its expressions count. -/
theorem increments_lambda {f : RowFunction} (h : f.WellFormed) (i : Position × String) :
    i ∈ (f.lambda s path).body.increments ↔
      ∃ p ∈ f.exprs, i ∈ (f.image s path p).increments := by
  have hpaths := increments_bindings f.row (f.param s path) (f.exprs.map (·.2))
  have hvalue : i ∈ (f.value s path).increments ↔
      ∃ p ∈ f.exprs, i ∈ (f.image s path p).increments := by
    cases hrecord : f.record with
    | none =>
      obtain ⟨p, hp⟩ := h hrecord
      rw [RowFunction.value_of_single s path hrecord hp, hp]
      simp
    | some keeps =>
      rw [RowFunction.value_of_record s path hrecord, NameList.record, increments_recordOf,
        List.flatMap_map, List.mem_flatMap]
  exact (increments_bind hpaths).trans hvalue

/-- Nothing is counted before the selected values. -/
theorem increments_before {q : Query Expr} {a : Argument}
    (h : a ∈ (queryImage s path q).argumentsBefore) : a.increments = [] := by
  rcases argumentsBefore_queryImage s path q a h with rfl | ⟨p, hp, rfl⟩
  · rfl
  · cases p with
    | value slot e => exact (accountsFor e _ _ _ _ _).eq_nil nofun
    | function f =>
      obtain ⟨hplain, hf⟩ := q.isPlain_before _ hp
      refine List.eq_nil_iff_forall_not_mem.mpr fun i hi => ?_
      obtain ⟨p, -, hi⟩ := (increments_lambda s path hf i).mp hi
      have hnone : (f.image s path p).increments = [] :=
        (accountsFor p.2 f.place _ _ _ _).eq_nil (by simp [RowFunction.place, hplain])
      rw [hnone] at hi
      cases hi

/-- A query wants a counter just if its selected values do. -/
theorem countRow_mem_queryDemands (q : Query Expr) :
    .countRow ∈ queryDemands s.config path q ↔
      ∃ f ∈ q.projector?, ∃ p ∈ f.exprs,
        .countRow ∈ p.2.demands s.config f.place (.slot p.1 :: path) [] := by
  have hwanted (ds : List Demand) : .countRow ∈ wanted ds ↔ .countRow ∈ ds := by
    simp [wanted, Demand.wants]
  have hfunction (f : RowFunction) : .countRow ∈ (Piece.function f).demands s.config path ↔
      ∃ p ∈ f.exprs, .countRow ∈ p.2.demands s.config f.place (.slot p.1 :: path) [] := by
    rw [Piece.demands, List.mem_append, or_iff_right (countRow_not_mem_nameDemands _ _),
      List.mem_flatMap]
    rfl
  have hbefore : .countRow ∉ q.piecesBefore.flatMap (Piece.demands s.config path) := by
    intro hd
    obtain ⟨p, hp, hd⟩ := List.mem_flatMap.mp hd
    cases p with
    | value slot e => cases (accountsFor e ⟨none, .plain⟩ "" _ [] false).counted hd
    | function f =>
      obtain ⟨p, -, hd⟩ := (hfunction f).mp hd
      have hcounted := (accountsFor p.2 f.place "" _ [] false).counted hd
      rw [RowFunction.place, (q.isPlain_before _ hp).1] at hcounted
      cases hcounted
  rw [← hwanted, wanted_queryDemands, hwanted, q.pieces_eq, List.flatMap_append, List.mem_append,
    or_iff_right hbefore]
  cases q.projector? with
  | none => simp
  | some f => simp [hfunction]

/-- A thunk counts rows just if its `select` increments the counter. -/
theorem countsRows_iff (q : Query Expr) :
    countsRows s.config path q = true ↔
      ∃ f ∈ (queryImage s path q).projectors, f.body.increments ≠ [] := by
  rw [countsRows, List.contains_iff_mem, countRow_mem_queryDemands, projectors_queryImage]
  cases hf : q.projector? with
  | none => simp
  | some f =>
    have hcounts : (f.lambda s path).body.increments ≠ [] ↔
        ∃ p ∈ f.exprs, ∃ i, i ∈ (f.image s path p).increments := by
      rw [ne_eq, List.eq_nil_iff_forall_not_mem, not_forall_not]
      simp only [increments_lambda s path (Query.projector?_wellFormed hf)]
      constructor
      · rintro ⟨i, p, hp, hi⟩
        exact ⟨p, hp, i, hi⟩
      · rintro ⟨p, hp, i, hi⟩
        exact ⟨i, p, hp, hi⟩
    have hdemands : (∃ p ∈ f.exprs,
          .countRow ∈ p.2.demands s.config f.place (.slot p.1 :: path) []) ↔
        ∃ p ∈ f.exprs, ∃ i, i ∈ (f.image s path p).increments :=
      exists_congr fun p => and_congr_right fun _ =>
        (accountsFor p.2 f.place (f.param s path) (.slot p.1 :: path) [] false).asked.symm
    simpa [hcounts] using hdemands

theorem named_arguments {q : Query Expr} {a : Argument}
    (h : a ∈ (queryImage s path q).pipeline.arguments) :
    ∀ i ∈ a.increments, i.2 = s.config.counter := by
  rcases Thunk.mem_arguments.mp h with hbefore | ⟨f, hf, rfl⟩
  · rw [increments_before s path hbefore]
    exact List.forall_mem_nil _
  · rw [projectors_queryImage] at hf
    obtain ⟨f, hprojector, rfl⟩ := List.mem_map.mp hf
    have hwell := Query.projector?_wellFormed (Option.mem_toList.mp hprojector)
    intro i hi
    obtain ⟨p, -, hi⟩ := (increments_lambda s path hwell i).mp hi
    exact (accountsFor p.2 f.place _ _ _ _).named i hi

end

/-! ## Thunks -/

/-- The counter is declared, once and after the name table, just if the own `select` of the thunk
increments it. No other call increments a counter, and each counter is that of the configuration. -/
structure Thunk.CountsRows (c : Config) (t : Thunk) : Prop where
  declared : ∃ names, t.declarations = .table c.table names ::
    if ∃ f ∈ t.projectors, f.body.increments ≠ [] then [.counter c.counter] else []
  before : ∀ a ∈ t.argumentsBefore, a.increments = []
  named : ∀ a ∈ t.pipeline.arguments, ∀ i ∈ a.increments, i.2 = c.counter

theorem Thunk.countsRows_queryImage (s : Naming) (path : Path) (q : Query Expr) :
    (queryImage s path q).CountsRows s.config where
  declared := by
    refine ⟨q.nameTable, ?_⟩
    have hcounts := countsRows_iff s path q
    by_cases hcounted : countsRows s.config path q = true
    · rw [if_pos (hcounts.mp hcounted), declarations_queryImage, if_pos hcounted]
    · rw [if_neg fun h => hcounted (hcounts.mpr h), declarations_queryImage, if_neg hcounted]
  before _ ha := increments_before s path ha
  named _ ha := named_arguments s path ha

/-- What is put in place in a thunk changes nothing of what it counts. -/
theorem Thunk.CountsRows.substituteEach {c : Config} {t : Thunk} (h : t.CountsRows c)
    {σs : List (List (Binding Expr))} (hσs : ∀ σ ∈ σs, Countless σ) :
    (t.substituteEach σs).CountsRows c := by
  have hsame := Argument.increments_substituteEach hσs
  have hfunction (f : Lambda Expr) (i : Position × String) :
      i ∈ (f.substituteEach σs).body.increments ↔ i ∈ f.body.increments := by
    have hlambda := hsame (.lambda f) i
    rwa [Argument.substituteEach_lambda] at hlambda
  have hnil (a : Argument) : (a.substituteEach σs).increments = [] ↔ a.increments = [] := by
    simp only [List.eq_nil_iff_forall_not_mem, hsame]
  have hcounts : (∃ f ∈ (t.substituteEach σs).projectors, f.body.increments ≠ []) ↔
      ∃ f ∈ t.projectors, f.body.increments ≠ [] := by
    simp only [projectors_substituteEach, List.mem_map, exists_exists_and_eq_and, ne_eq,
      List.eq_nil_iff_forall_not_mem, hfunction]
  constructor
  · obtain ⟨names, hdeclared⟩ := h.declared
    refine ⟨names, ?_⟩
    rw [declarations_substituteEach, hdeclared]
    by_cases hprojector : ∃ f ∈ t.projectors, f.body.increments ≠ []
    · rw [if_pos hprojector, if_pos (hcounts.mpr hprojector)]
    · rw [if_neg hprojector, if_neg fun h => hprojector (hcounts.mp h)]
  · rw [argumentsBefore_substituteEach]
    exact List.forall_mem_map.mpr fun a ha => (hnil a).mpr (h.before a ha)
  · intro a ha i hi
    rcases mem_arguments.mp ha with ha | ⟨f, hf, rfl⟩
    · rw [argumentsBefore_substituteEach] at ha
      obtain ⟨a, hmem, rfl⟩ := List.mem_map.mp ha
      exact h.named a (mem_arguments.mpr (.inl hmem)) i ((hsame a i).mp hi)
    · rw [projectors_substituteEach] at hf
      obtain ⟨f, hmem, rfl⟩ := List.mem_map.mp hf
      exact h.named (.lambda f) (mem_arguments.mpr (.inr ⟨f, hmem, rfl⟩)) i ((hfunction f i).mp hi)

/-- A thunk whose `select` increments the counter declares it. -/
theorem Thunk.CountsRows.counter_mem {c : Config} {t : Thunk} (h : t.CountsRows c) {f : Lambda Expr}
    (hf : f ∈ t.projectors) (hcounts : f.body.increments ≠ []) :
    .counter c.counter ∈ t.declarations := by
  obtain ⟨names, hdeclared⟩ := h.declared
  rw [hdeclared, if_pos ⟨f, hf, hcounts⟩]
  exact List.mem_cons_of_mem _ (List.mem_singleton_self _)

theorem Supplied.countless {s : Naming} {ns : List String} {σ : List (Binding Expr)}
    (h : Supplied s ns σ) : Countless σ :=
  fun b hb => Expr.increments_of_isPath (h b hb).2.1

theorem LoweredIn.countsRows {s : Naming} {ds : List Demand} {ns : List String} {q : Query Expr}
    {t : Thunk} (h : LoweredIn s ds ns q t) : t.CountsRows s.config := by
  obtain ⟨node, σs, rfl, hσs, -⟩ := h
  exact (Thunk.countsRows_queryImage s node q).substituteEach fun σ hσ => (hσs σ hσ).2.countless

/-- Lowering declares counters where they are incremented: in the thunk of a query, and in the
thunks of its nested queries at every depth. -/
theorem counters_declared_where_incremented {ctx ctx' : Context} {node : Path} {q : Query Expr}
    {t : Thunk} (h : Run.lower node q ctx = (.ok t, ctx')) :
    ∀ t' ∈ t :: t.thunks, t'.CountsRows ctx.config := by
  obtain ⟨hconfig, rfl⟩ := Context.lower_image (Run.lower_ok h)
  rw [← hconfig]
  exact (nests_self node q).forall_thunks fun q' t' hlowered => hlowered.countsRows

/-- `from x in xs select (from y in ys select _rn)`. -/
def numberedInside : Query Expr where
  table := ⟨"x", Expr.name "xs", .nowhere⟩
  joins := []
  filter := none
  grouping := none
  sorting := none
  limit := none
  projection := some ⟨[.query ⟨1, 19⟩
    { table := ⟨"y", Expr.name "ys", .nowhere⟩, joins := [], filter := none, grouping := none,
      sorting := none, limit := none, projection := some ⟨[.var ⟨1, 40⟩ "_rn"], .nowhere⟩,
      pos := .nowhere }], .nowhere⟩
  pos := .nowhere

/-- The counter belongs to the thunk whose `select` increments it, not to the one around it. -/
theorem counters_declared_where_incremented_inside :
    ∃ t ctx, Run.lower [] numberedInside (Context.new .standard) = (.ok t, ctx) ∧
      (∀ t' ∈ t :: t.thunks, t'.CountsRows .standard) ∧
        (t :: t.thunks).map Thunk.hasCounter = [false, true] := by
  obtain ⟨t, ctx, h⟩ : ∃ t ctx, (Context.new .standard).lower [] numberedInside = (.ok t, ctx) :=
    ⟨_, _, rfl⟩
  have hrun : Run.lower [] numberedInside (Context.new .standard) = (.ok t, ctx) := by
    rw [Run.lower_eq, h]
    rfl
  refine ⟨t, ctx, hrun, counters_declared_where_incremented hrun, ?_⟩
  obtain ⟨hconfig, rfl⟩ := Context.lower_image h
  obtain ⟨config, mistakes, names, frames⟩ := ctx
  obtain rfl : config = .standard := hconfig
  rfl

end Comprehension
