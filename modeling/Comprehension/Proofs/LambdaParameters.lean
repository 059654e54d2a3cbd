import Comprehension.Proofs.Dangling
import Comprehension.Proofs.LambdaUses

/-!
Parameters of the lambdas that a query is written with. An occurrence that such a lambda binds is
kept by lowering: in what is emitted it is still a variable that the image of that lambda binds.
The exceptions are occurrences that are captured, and they are noted as such. The argument of an
aggregate that is read for each row is lowered anew on the row before grouping, so that the aliases
of that row win over the lambdas around the aggregate. The table and the counter that a lowered
nested query declares win over the lambdas around it.
-/

namespace Comprehension

/-- A lambda in reach, and whether something between it and this place takes the name from it. -/
structure Held where
  lambda : Abstraction
  captured : Bool

structure Occurrence where
  use : Use
  captured : Bool
  deriving DecidableEq, Repr

/-- The names that pass the test are captured from here on. -/
def capture (p : String → Bool) (η : String → Option Held) (n : String) : Option Held :=
  (η n).map fun h => { h with captured := h.captured || p n }

namespace Place

/-- The name has a meaning at the place: an alias of the row, the row number where it counts, or
what is in reach after grouping. -/
def owns (c : Config) (place : Place) (n : String) : Bool :=
  (place.row.elim [] Row.aliases).contains n ||
    decide (n = c.rowNumber ∧ place.numbering = .counted) || (place.read? c "" n).isSome

end Place

/-- The names that the thunk of a query declares. -/
def Query.declares (c : Config) (q : Query Expr) (n : String) : Bool :=
  n = c.table || (countsRows c [] q && n = c.counter)

/-! ## Occurrences -/

mutual
/-- The occurrences of lambda parameters in an expression, each with the lambda that binds it. The
lambdas in reach are kept by name. In a nested query the names of its own rows hide them; its
sources and the bounds of its limit stand on no row. -/
def Expr.occurrences (c : Config) (place : Place) (η : String → Option Held) :
    Expr → List Occurrence
  | .literal _ _ => []
  | .var p n =>
    match η n with
    | some h => [⟨⟨h.lambda, n, p⟩, h.captured⟩]
    | none => []
  | .unary _ _ e => e.occurrences c place η
  | .binary _ _ l r => l.occurrences c place η ++ r.occurrences c place η
  | .sequence _ (.call n) es =>
    match place.callCase n es.length with
    | .plain => occurrencesAll c place η es
    | .allRows => []
    | .eachRow prior =>
      occurrencesFirst c ⟨some prior, place.numbering⟩
        (capture (Place.owns c ⟨some prior, place.numbering⟩) η) es
    | .rowsAtOnce => occurrencesFirst c place η es
  | .sequence _ _ es => occurrencesAll c place η es
  | .method _ r _ es => r.occurrences c place η ++ occurrencesAll c place η es
  | .lambda p ⟨ps, e⟩ => e.occurrences c place (enter ps ⟨⟨p, e.pos, ps⟩, false⟩ η)
  | .query _ q => queryOccurrences c (capture (q.declares c) η) q
  | .letIn _ _ _ | .record _ _ _ _ _ | .postIncrement _ _ | .subquery _ _ => []

def occurrencesAll (c : Config) (place : Place) (η : String → Option Held) :
    List Expr → List Occurrence
  | [] => []
  | e :: es => e.occurrences c place η ++ occurrencesAll c place η es

def occurrencesFirst (c : Config) (place : Place) (η : String → Option Held) :
    List Expr → List Occurrence
  | [] => []
  | e :: _ => e.occurrences c place η

def queryOccurrences (c : Config) (η : String → Option Held) : Query Expr → List Occurrence
  | q@⟨⟨name, source, _⟩, joins, filter, grouping, sorting, limit, projection, _⟩ =>
    source.occurrences c ⟨none, .plain⟩ η ++
      (joinsOccurrences c η (.table name) joins ++ filterOccurrences c η q.joinedRow filter ++
        groupingOccurrences c η q.joinedRow grouping ++ sortingOccurrences c η q.row sorting ++
        limitOccurrences c η limit ++ projectionOccurrences c η q.row projection)

def joinsOccurrences (c : Config) (η : String → Option Held) (row : Row) :
    List (Join Expr) → List Occurrence
  | [] => []
  | ⟨kind, name, source, on, _⟩ :: js =>
    source.occurrences c ⟨none, .plain⟩ η ++ matchOccurrences c η row kind name on ++
      joinsOccurrences c η (row.joined name) js

def matchOccurrences (c : Config) (η : String → Option Held) (row : Row) (kind : JoinKind)
    (name : String) : Option Expr → List Occurrence
  | some e =>
    if kind.takesPredicate then
      e.occurrences c ⟨some row, .plain⟩
        (hide (fun n => n = name || Place.owns c ⟨some row, .plain⟩ n) η)
    else []
  | none => []

def filterOccurrences (c : Config) (η : String → Option Held) (row : Row) :
    Option (Filter Expr) → List Occurrence
  | some ⟨e, _⟩ => e.occurrences c ⟨some row, .plain⟩ (hide (Place.owns c ⟨some row, .plain⟩) η)
  | none => []

def groupingOccurrences (c : Config) (η : String → Option Held) (row : Row) :
    Option (Grouping Expr) → List Occurrence
  | some ⟨cs, into, having, _⟩ =>
    occurrencesAll c ⟨some row, .plain⟩ (hide (Place.owns c ⟨some row, .plain⟩) η) cs ++
      havingOccurrences c η (.grouped row (labels cs) into) having
  | none => []

def havingOccurrences (c : Config) (η : String → Option Held) (row : Row) :
    Option Expr → List Occurrence
  | some e => e.occurrences c ⟨some row, .plain⟩ (hide (Place.owns c ⟨some row, .plain⟩) η)
  | none => []

def sortingOccurrences (c : Config) (η : String → Option Held) (row : Row) :
    Option (Sorting Expr) → List Occurrence
  | some ⟨terms, _⟩ => termsOccurrences c η row terms
  | none => []

def termsOccurrences (c : Config) (η : String → Option Held) (row : Row) :
    List (SortTerm Expr) → List Occurrence
  | [] => []
  | ⟨key, _⟩ :: ts =>
    key.occurrences c ⟨some row, .plain⟩ (hide (Place.owns c ⟨some row, .plain⟩) η) ++
      termsOccurrences c η row ts

def limitOccurrences (c : Config) (η : String → Option Held) :
    Option (Limit Expr) → List Occurrence
  | some ⟨some offset, size, _⟩ =>
    offset.occurrences c ⟨none, .plain⟩ η ++ size.occurrences c ⟨none, .plain⟩ η
  | some ⟨none, size, _⟩ => size.occurrences c ⟨none, .plain⟩ η
  | none => []

def projectionOccurrences (c : Config) (η : String → Option Held) (row : Row) :
    Option (Projection Expr) → List Occurrence
  | some ⟨items, _⟩ =>
    occurrencesAll c ⟨some row, .counted⟩ (hide (Place.owns c ⟨some row, .counted⟩) η) items
  | none => []
end

/-! ## Names of rows -/

theorem mem_addPaths {row : Row} {path : PairPath} {ps : List (String × PairPath)}
    {p : String × PairPath} (h : p ∈ row.addPaths path ps) : p ∈ ps ∨ p.1 ∈ row.aliases := by
  induction row generalizing path ps with
  | table a =>
    rcases Assoc.mem_put h with rfl | h
    · exact .inr List.mem_cons_self
    · exact .inl h
  | joined prior a ih =>
    rcases Assoc.mem_put h with rfl | h
    · exact .inr (List.mem_append_right _ List.mem_cons_self)
    · exact (ih h).imp_right (List.mem_append_left _)
  | grouped prior names into => exact .inl h

/-- A function of a row binds no names but aliases of the row. -/
theorem named_bindings {row : Row} {param : String} {es : List Expr} {n : String}
    (h : named (row.bindings param es) n = true) : n ∈ row.aliases := by
  obtain ⟨e, he⟩ := Option.isSome_iff_exists.mp h
  have hb := mem_of_valueOf? he
  simp only [Row.bindings, List.mem_map, List.mem_filter] at hb
  obtain ⟨p, ⟨hp, -⟩, hname⟩ := hb
  cases hname
  cases row with
  | joined prior a => exact (mem_addPaths hp).resolve_left List.not_mem_nil
  | _ => cases hp

/-- The parameter of a function of a row is an alias or a made-up name. -/
theorem parameter_cases (s : Naming) (row : Row) (node : Path) :
    row.parameter s.name node ∈ row.aliases ∨ ∃ m, s.name m = row.parameter s.name node := by
  cases row with
  | table a => exact .inl List.mem_cons_self
  | _ => exact .inr ⟨node, rfl⟩

namespace Place

theorem not_alias_of_not_owns {c : Config} {row : Row} {numbering : Numbering} {n : String}
    (h : Place.owns c ⟨some row, numbering⟩ n = false) : n ∉ row.aliases := by
  intro halias
  simp [owns, halias] at h

/-- A name without a meaning at the place stays a variable. -/
theorem varImage_of_not_owns {c : Config} {place : Place} {n : String}
    (h : place.owns c n = false) (param : String) (bound : List String) (p : Position) :
    place.varImage c param bound p n = .var p n := by
  simp only [owns, Bool.or_eq_false_iff, decide_eq_false_iff_not] at h
  obtain ⟨⟨-, hnumber⟩, hread⟩ := h
  have hnone : place.read? c param n = none := by
    rw [← Option.not_isSome_iff_eq_none, read?_isSome c place param "", hread]
    exact Bool.false_ne_true
  rw [varImage]
  split
  · rfl
  · rw [hnone]

/-- A nested query reads nothing from the group under a name that is bound or means nothing. -/
theorem not_named_readsOfGroup {c : Config} {place : Place} {n : String} {bound : List String}
    (h : n ∈ bound ∨ place.owns c n = false) (param : String) (free : List String) :
    named (place.readsOfGroup c param bound free) n = false := by
  rw [Bool.eq_false_iff]
  intro hnamed
  obtain ⟨e, he⟩ := Option.isSome_iff_exists.mp hnamed
  obtain ⟨m, -, hm⟩ := List.mem_filterMap.mp (mem_of_valueOf? he)
  split at hm
  · cases hm
  · rename_i hbound
    obtain ⟨v, hv, hb⟩ := Option.map_eq_some_iff.mp hm
    cases hb
    rcases h with h | h
    · exact hbound h
    · have hread := read?_isSome c place param "" n
      simp only [owns, Bool.or_eq_false_iff] at h
      rw [hv, h.2] at hread
      cases hread

end Place

/-- An image stands where its expression stood. -/
theorem pos_image (s : Naming) (place : Place) (param : String) (path : Path) (bound : List String)
    (searched : Bool) (e : Expr) :
    (e.image s place param path bound searched).pos = e.pos := by
  cases e with
  | var p n =>
    rw [Expr.image, Place.varImage]
    split
    · rfl
    · split
      · rfl
      · split
        · exact Expr.pos_withPos ..
        · rfl
  | binary p f l r => cases f <;> rfl
  | sequence p f es =>
    cases f with
    | call n =>
      have hform := callForm s place param path bound searched p n es
      generalize (Expr.sequence p (.call n) es).image s place param path bound searched = e
        at hform ⊢
      generalize (Expr.sequence p (.call n) es).demands s.config place path bound = ds at hform
      cases hform <;> rfl
    | _ => rfl
  | query p q =>
    rw [Expr.image, Place.attach, pos_bind, pos_bind]
    cases searched <;> rfl
  | _ => rfl

/-! ## What is kept -/

/-- What is not captured is among the uses, unless its name is a made-up one. -/
def Keeps (s : Naming) (os : List Occurrence) (us : List Use) : Prop :=
  ∀ o ∈ os, o.captured = false → (∀ m, s.name m ≠ o.use.name) → o.use ∈ us

namespace Keeps

variable {s : Naming} {os os' : List Occurrence} {us us' : List Use}

theorem nil : Keeps s [] us := List.forall_mem_nil _

theorem append (h : Keeps s os us) (h' : Keeps s os' us') : Keeps s (os ++ os') (us ++ us') := by
  refine List.forall_mem_append.mpr ⟨fun o ho hc hn => ?_, fun o ho hc hn => ?_⟩
  · exact List.mem_append_left _ (h o ho hc hn)
  · exact List.mem_append_right _ (h' o ho hc hn)

theorem mono (h : Keeps s os us) (hsub : us.Sublist us') : Keeps s os us' :=
  fun o ho hc hn => hsub.subset (h o ho hc hn)

end Keeps

/-- The lambdas in reach are in reach of what is lowered, captured and made-up names aside. -/
def Fits (s : Naming) (η : String → Option Held) (ρ : String → Option Abstraction) : Prop :=
  ∀ n a, η n = some ⟨a, false⟩ → (∀ m, s.name m ≠ n) → ρ n = some a

/-- At the place the names of lambdas in reach are bound or mean nothing. -/
def Stays (c : Config) (place : Place) (bound : List String) (η : String → Option Held) : Prop :=
  ∀ n a, η n = some ⟨a, false⟩ → n ∈ bound ∨ place.owns c n = false

section

variable {s : Naming} {η : String → Option Held} {ρ : String → Option Abstraction}

/-- What is hidden or captured needs no lambda in reach. -/
theorem Fits.hide {η' : String → Option Held} {p : String → Bool} (h : Fits s η ρ)
    (hη : ∀ n a, η' n = some ⟨a, false⟩ → η n = some ⟨a, false⟩)
    (hp : ∀ n a, η' n = some ⟨a, false⟩ → (∀ m, s.name m ≠ n) → p n = false) :
    Fits s η' (hide p ρ) := by
  intro n a hn hmade
  rw [Comprehension.hide, hp n a hn hmade]
  exact h n a (hη n a hn) hmade

theorem Fits.lambda (h : Fits s η ρ) (a : Abstraction) :
    Fits s (enter a.params ⟨a, false⟩ η) (enter a.params a ρ) := by
  intro n b hn hmade
  rw [enter] at hn ⊢
  split at hn
  · rename_i hmem
    cases hn
    rw [if_pos hmem]
  · rename_i hmem
    rw [if_neg hmem]
    exact h n b hn hmade

theorem Stays.lambda {c : Config} {place : Place} {bound : List String}
    (h : Stays c place bound η) (a : Abstraction) :
    Stays c place (a.params ++ bound) (enter a.params ⟨a, false⟩ η) := by
  intro n b hn
  rw [enter] at hn
  split at hn
  · rename_i hmem
    exact .inl (List.mem_append_left _ hmem)
  · exact (h n b hn).imp_left (List.mem_append_right _)

theorem of_hide {p : String → Bool} {n : String} {a : Abstraction}
    (h : hide p η n = some ⟨a, false⟩) : η n = some ⟨a, false⟩ ∧ p n = false := by
  rw [hide] at h
  split at h
  · cases h
  · rename_i hp
    exact ⟨h, by simpa using hp⟩

theorem of_capture {p : String → Bool} {n : String} {a : Abstraction}
    (h : capture p η n = some ⟨a, false⟩) : η n = some ⟨a, false⟩ ∧ p n = false := by
  obtain ⟨⟨b, captured⟩, hheld, heq⟩ := Option.map_eq_some_iff.mp h
  rw [Held.mk.injEq, Bool.or_eq_false_iff] at heq
  obtain ⟨rfl, rfl, hp⟩ := heq
  exact ⟨hheld, hp⟩

end

theorem stays_offRows (c : Config) (bound : List String) (η : String → Option Held) :
    Stays c ⟨none, .plain⟩ bound η :=
  fun n _ _ => .inr (by simp [Place.owns, Place.read?, Place.group?])

/-! ## Functions of rows -/

section

variable {s : Naming} {η η' : String → Option Held} {ρ : String → Option Abstraction}

/-- The lambdas in reach of a function of a row are those whose parameters mean nothing there. -/
structure Narrows (c : Config) (place : Place) (joined : Option String)
    (η η' : String → Option Held) : Prop where
  held : ∀ n a, η' n = some ⟨a, false⟩ → η n = some ⟨a, false⟩
  unowned : ∀ n a, η' n = some ⟨a, false⟩ → place.owns c n = false
  unjoined : ∀ n a, η' n = some ⟨a, false⟩ → joined ≠ some n

theorem Narrows.stays {c : Config} {place : Place} {joined : Option String}
    (h : Narrows c place joined η η') : Stays c place [] η' :=
  fun n a hn => .inr (h.unowned n a hn)

theorem narrows_hide (c : Config) (place : Place) (η : String → Option Held) :
    Narrows c place none η (hide (place.owns c) η) :=
  ⟨fun _ _ h => (of_hide h).1, fun _ _ h => (of_hide h).2, fun _ _ _ => nofun⟩

theorem narrows_capture (c : Config) (place : Place) (η : String → Option Held) :
    Narrows c place none η (capture (place.owns c) η) :=
  ⟨fun _ _ h => (of_capture h).1, fun _ _ h => (of_capture h).2, fun _ _ _ => nofun⟩

/-- What is kept in the body is kept in the function, whatever its parameters reach. -/
theorem keeps_closeOver {row : Row} {numbering : Numbering} {joined : Option String}
    {os : List Occurrence} {body : Expr} (node : Path) (es : List Expr) (h : Fits s η ρ)
    (hη : Narrows s.config ⟨some row, numbering⟩ joined η η')
    (hbody : ∀ ρ', Fits s η' ρ' → Keeps s os (body.uses ρ')) {ρ₁ : String → Option Abstraction}
    (hρ : ∀ n, n ∉ row.parameter s.name node :: joined.toList → ρ₁ n = ρ n) :
    let param := row.parameter s.name node
    Keeps s os ((row.closeOver s.config (param :: joined.toList) param es body).body.uses ρ₁) := by
  intro param
  have hfits : Fits s η' ρ₁ := by
    intro n a hn hmade
    rw [hρ]
    · exact h n a (hη.held n a hn) hmade
    · rw [List.mem_cons, not_or]
      refine ⟨?_, fun hjoined => hη.unjoined n a hn (Option.mem_toList.mp hjoined)⟩
      rintro rfl
      rcases parameter_cases s row node with halias | ⟨m, hm⟩
      · exact Place.not_alias_of_not_owns (hη.unowned _ a hn) halias
      · exact hmade m hm
  have hinner : Fits s η' (hide (named (row.bindings param es)) ρ₁) := by
    refine hfits.hide (fun _ _ hn => hn) fun n a hn _ => ?_
    rw [Bool.eq_false_iff]
    exact fun hnamed => Place.not_alias_of_not_owns (hη.unowned n a hn) (named_bindings hnamed)
  exact (hbody _ hinner).mono (uses_bind ..)

end

/-! ## Expressions and clauses -/

section

variable {s : Naming}

variable (s) in
/-- Wherever the expression stands, lowering it keeps the occurrences of lambda parameters. -/
def KeepsLambdas (e : Expr) : Prop :=
  ∀ place param path bound searched {η ρ}, Fits s η ρ → Stays s.config place bound η →
    Keeps s (e.occurrences s.config place η) ((e.image s place param path bound searched).uses ρ)

variable {η : String → Option Held} {ρ : String → Option Abstraction}

theorem keeps_imageAll {es : List Expr} (h : ∀ e ∈ es, KeepsLambdas s e) (hfits : Fits s η ρ)
    {place : Place} {bound : List String} (hstays : Stays s.config place bound η)
    (param : String) (path : Path) (step : Nat → Step) (i : Nat) :
    Keeps s (occurrencesAll s.config place η es)
      (usesAll ρ (imageAll s place param path bound step i es)) := by
  induction es generalizing i with
  | nil => exact .nil
  | cons e es ih =>
    exact (h e List.mem_cons_self place param _ bound false hfits hstays).append
      (ih (fun e he => h e (List.mem_cons_of_mem _ he)) (i + 1))

variable (path : Path)

/-- The uses in a function that a stage may have. -/
def functionUses (ρ : String → Option Abstraction) : Option (Lambda Expr) → List Use
  | some ⟨ps, e⟩ => e.uses (hide (fun n => n ∈ ps) ρ)
  | none => []

theorem keeps_matchImage {o : Option Expr} (h : ∀ e ∈ o, KeepsLambdas s e) (hfits : Fits s η ρ)
    (i : Nat) (row : Row) (kind : JoinKind) (name : String) :
    Keeps s (matchOccurrences s.config η row kind name o)
      (functionUses ρ (matchImage s path i row kind name o)) := by
  cases o with
  | none => exact .nil
  | some e =>
    rw [matchOccurrences, matchImage]
    cases kind.takesPredicate with
    | false => exact .nil
    | true =>
      have hnarrows : Narrows s.config ⟨some row, .plain⟩ (some name) η
          (hide (fun n => n = name || Place.owns s.config ⟨some row, .plain⟩ n) η) := by
        refine ⟨fun _ _ h => (of_hide h).1, fun n a h => ?_, fun n a h heq => ?_⟩
        · exact (Bool.or_eq_false_iff.mp (of_hide h).2).2
        · cases heq
          simpa using (of_hide h).2
      exact keeps_closeOver (.slot (.joinOn i) :: path) [e] hfits hnarrows
        (fun ρ' hfits' => h e rfl _ _ _ _ _ hfits' hnarrows.stays) fun _ => hide_of_not_mem

theorem keeps_joinsImage {js : List (Join Expr)}
    (h : ∀ j ∈ js, KeepsLambdas s j.source ∧ ∀ e ∈ j.on, KeepsLambdas s e) (hfits : Fits s η ρ)
    (i : Nat) (row : Row) :
    Keeps s (joinsOccurrences s.config η row js) (usesStages ρ (joinsImage s path i row js)) := by
  induction js generalizing i row with
  | nil => exact .nil
  | cons j js ih =>
    obtain ⟨kind, name, source, on, p⟩ := j
    obtain ⟨hsource, hon⟩ := h _ List.mem_cons_self
    have hjoined := hsource ⟨none, .plain⟩ "" (.slot (.joinSource i) :: path) [] false hfits
      (stays_offRows s.config [] η)
    have hmatch := keeps_matchImage path hon hfits i row kind name
    have hjs := ih (fun j hj => h j (List.mem_cons_of_mem _ hj)) (i + 1) (row.joined name)
    have hpipeline := hjoined.mono (List.sublist_append_left _ (usesStages ρ []))
    rw [joinsOccurrences, joinsImage]
    cases hfunction : matchImage s path i row kind name on with
    | none =>
      rw [hfunction] at hmatch
      exact (hpipeline.append hmatch).append hjs
    | some f =>
      rw [hfunction] at hmatch
      exact (hpipeline.append hmatch).append hjs

/-- A function of the row alone that one expression makes. -/
theorem keeps_single {e : Expr} (h : KeepsLambdas s e) (hfits : Fits s η ρ) (row : Row)
    (numbering : Numbering) (node : Path) :
    let param := row.parameter s.name node
    Keeps s (e.occurrences s.config ⟨some row, numbering⟩
        (hide (Place.owns s.config ⟨some row, numbering⟩) η))
      (functionUses ρ (some (row.close s.config param [e]
        (e.image s ⟨some row, numbering⟩ param node [] false)))) :=
  keeps_closeOver node [e] hfits (narrows_hide s.config ⟨some row, numbering⟩ η)
    (fun _ hfits' => h ⟨some row, numbering⟩ _ node [] false hfits' (narrows_hide ..).stays)
    fun _ => hide_of_not_mem

theorem keeps_filterImage {o : Option (Filter Expr)} (h : ∀ f ∈ o, KeepsLambdas s f.predicate)
    (hfits : Fits s η ρ) (row : Row) :
    Keeps s (filterOccurrences s.config η row o) (usesStages ρ (filterImage s path row o)) := by
  cases o with
  | none => exact .nil
  | some f =>
    exact (keeps_single (h f rfl) hfits row .plain (.slot .predicate :: path)).mono
      (List.sublist_append_left ..)

theorem keeps_havingImage {o : Option Expr} (h : ∀ e ∈ o, KeepsLambdas s e) (hfits : Fits s η ρ)
    (row : Row) :
    Keeps s (havingOccurrences s.config η row o) (functionUses ρ (havingImage s path row o)) := by
  cases o with
  | none => exact .nil
  | some e => exact keeps_single (h e rfl) hfits row .plain (.slot .having :: path)

theorem uses_renamed (e : Expr) : e.renamed.uses ρ = e.uses ρ := by
  cases e with
  | unary p f e => cases f <;> rfl
  | _ => rfl

theorem keeps_recordOf {os : List Occurrence} {values : List Expr}
    (h : Keeps s os (usesAll ρ values)) (table : String) (l : NameList) (row : Option Expr) :
    Keeps s os ((recordOf table l values row).uses ρ) := by
  have hvalues : usesAll ρ (values.map Expr.renamed) = usesAll ρ values := by
    clear h
    induction values with
    | nil => rfl
    | cons e es ih => rw [List.map_cons, usesAll, usesAll, uses_renamed, ih]
  rw [← hvalues] at h
  have hnames := (h.mono (List.sublist_append_left _ ((l.access table).uses ρ))).mono
    (List.sublist_append_left _ ((NameList.aliases.access table).uses ρ))
  cases row with
  | none => exact hnames.mono (List.sublist_append_left ..)
  | some r => exact hnames.mono (List.sublist_append_left ..)

theorem keeps_groupingImage {o : Option (Grouping Expr)}
    (h : ∀ g ∈ o, (∀ e ∈ g.classifiers, KeepsLambdas s e) ∧ ∀ e ∈ g.having, KeepsLambdas s e)
    (hfits : Fits s η ρ) (row : Row) :
    Keeps s (groupingOccurrences s.config η row o)
      (usesStages ρ (groupingImage s path row o)) := by
  cases o with
  | none => exact .nil
  | some g =>
    obtain ⟨cs, into, having, p⟩ := g
    obtain ⟨hcs, hhaving⟩ := h _ rfl
    have hnarrows := narrows_hide s.config ⟨some row, .plain⟩ η
    have hkey := keeps_closeOver (.slot (.classifier 0) :: path) cs hfits hnarrows
      (fun ρ' hfits' => keeps_recordOf (keeps_imageAll hcs hfits' hnarrows.stays
        (row.parameter s.name (.slot (.classifier 0) :: path)) path (.slot ∘ .classifier) 0)
        s.config.table .groups none) fun _ => hide_of_not_mem
    have hhaving := keeps_havingImage path hhaving hfits (.grouped row (labels cs) into)
    rw [groupingOccurrences, groupingImage]
    cases hfunction : havingImage s path (.grouped row (labels cs) into) having with
    | none =>
      rw [hfunction] at hhaving
      exact (hkey.append hhaving).mono (List.sublist_append_left ..)
    | some f =>
      rw [hfunction] at hhaving
      exact (hkey.append hhaving).mono (List.sublist_append_left ..)

theorem keeps_termsImage {ts : List (SortTerm Expr)} (h : ∀ t ∈ ts, KeepsLambdas s t.key)
    (hfits : Fits s η ρ) (row : Row) (i : Nat) :
    Keeps s (termsOccurrences s.config η row ts) (usesSpecs ρ (termsImage s path row i ts)) := by
  induction ts generalizing i with
  | nil => exact .nil
  | cons t ts ih =>
    have hkey := keeps_single (h t List.mem_cons_self) hfits row .plain (.slot (.orderKey i) :: path)
    exact hkey.append (ih (fun t ht => h t (List.mem_cons_of_mem _ ht)) (i + 1))

theorem keeps_sortingImage {o : Option (Sorting Expr)}
    (h : ∀ s' ∈ o, ∀ t ∈ s'.terms, KeepsLambdas s t.key) (hfits : Fits s η ρ) (row : Row) :
    Keeps s (sortingOccurrences s.config η row o) (usesStages ρ (sortingImage s path row o)) := by
  cases o with
  | none => exact .nil
  | some sorting =>
    exact (keeps_termsImage path (h sorting rfl) hfits row 0).mono (List.sublist_append_left ..)

theorem keeps_limitImage {o : Option (Limit Expr)}
    (h : ∀ l ∈ o, (∀ e ∈ l.offset, KeepsLambdas s e) ∧ KeepsLambdas s l.size)
    (hfits : Fits s η ρ) :
    Keeps s (limitOccurrences s.config η o) (usesStages ρ (limitImage s path o)) := by
  cases o with
  | none => exact .nil
  | some l =>
    obtain ⟨offset, size, p⟩ := l
    obtain ⟨hoffset, hsize⟩ := h _ rfl
    have hbound := hsize ⟨none, .plain⟩ "" (.slot .size :: path) [] false hfits
      (stays_offRows s.config [] η)
    cases offset with
    | none => exact hbound.mono (List.sublist_append_left ..)
    | some offset =>
      have hfirst := hoffset offset rfl ⟨none, .plain⟩ "" (.slot .offset :: path) [] false hfits
        (stays_offRows s.config [] η)
      exact (hfirst.append hbound).mono (List.sublist_append_left ..)

theorem keeps_projectionImage {o : Option (Projection Expr)}
    (h : ∀ p ∈ o, ∀ e ∈ p.items, KeepsLambdas s e) (hfits : Fits s η ρ) (row : Row) :
    Keeps s (projectionOccurrences s.config η row o)
      (usesStages ρ (projectionImage s path row o)) := by
  obtain _ | ⟨_ | ⟨e, es⟩, p⟩ := o
  · exact .nil
  · exact .nil
  · let place : Place := ⟨some row, .counted⟩
    let param := row.parameter s.name (.slot (.item 0) :: path)
    have hnarrows := narrows_hide s.config place η
    have hitems {ρ'} (hfits' : Fits s (hide (place.owns s.config) η) ρ') :=
      keeps_imageAll (h _ rfl) hfits' hnarrows.stays param path (.slot ∘ .item) 0
    have hselect {body : Expr} (hbody : ∀ ρ', Fits s (hide (place.owns s.config) η) ρ' →
        Keeps s (occurrencesAll s.config place (hide (place.owns s.config) η) (e :: es))
          (body.uses ρ')) :=
      (keeps_closeOver (.slot (.item 0) :: path) (e :: es) hfits hnarrows hbody
        fun _ => hide_of_not_mem).mono (List.sublist_append_left _ (usesStages ρ []))
    rw [projectionOccurrences, projectionImage]
    refine hselect fun ρ' hfits' => ?_
    split
    · exact keeps_recordOf (hitems hfits') s.config.table .selected _
    · -- A value without a record around it is the only one.
      rename_i hrecord
      cases es with
      | nil =>
        have hitem := hitems hfits'
        rwa [imageAll, usesAll, imageAll, usesAll, List.append_nil] at hitem
      | cons e' es => exact absurd rfl hrecord

theorem usesStages_append (ρ : String → Option Abstraction) (ss ss' : List Stage) :
    usesStages ρ (ss ++ ss') = usesStages ρ ss ++ usesStages ρ ss' := by
  induction ss with
  | nil => rfl
  | cons s ss ih => rw [List.cons_append, usesStages, usesStages, ih, List.append_assoc]

/-- A thunk declares the table and, if the query counts rows, the counter. -/
theorem declares_queryImage (q : Query Expr) (n : String) :
    n ∈ (queryImage s path q).declarations.map (·.name) ↔ q.declares s.config n = true := by
  have hdeclarations : (queryImage s path q).declarations =
      .table s.config.table q.nameTable ::
        if countsRows s.config path q then [.counter s.config.counter] else [] := by rw [queryImage]
  rw [hdeclarations, Query.declares, countsRows_path s.config q path []]
  cases countsRows s.config [] q <;> simp [Declaration.name]

/-- In the thunk of a query is kept what is kept in its clauses. -/
theorem keeps_queryImage {q : Query Expr} (h : q.Each (KeepsLambdas s)) (hfits : Fits s η ρ) :
    Keeps s (queryOccurrences s.config (capture (q.declares s.config) η) q)
      ((queryImage s path q).uses ρ) := by
  let η' := capture (q.declares s.config) η
  let ρ' := hide (fun n => n ∈ (queryImage s path q).declarations.map (·.name)) ρ
  have hinner : Fits s η' ρ' := by
    refine hfits.hide (fun _ _ hn => (of_capture hn).1) fun n a hn _ => ?_
    rw [decide_eq_false_iff_not, declares_queryImage, (of_capture hn).2]
    exact Bool.false_ne_true
  have hsource := h.source ⟨none, .plain⟩ "" (.slot .source :: path) [] false hinner
    (stays_offRows s.config [] η')
  have hjoins := keeps_joinsImage path h.joins hinner 0 (.table q.table.name)
  have hfilter := keeps_filterImage path h.filter hinner q.joinedRow
  have hgrouping := keeps_groupingImage path h.grouping hinner q.joinedRow
  have hsorting := keeps_sortingImage path h.sorting hinner q.row
  have hlimit := keeps_limitImage path h.limit hinner
  have hprojection := keeps_projectionImage path h.projection hinner q.row
  have hstages := ((((hjoins.append hfilter).append hgrouping).append hsorting).append
    hlimit).append hprojection
  simp only [← usesStages_append] at hstages
  have hpipeline : (queryImage s path q).pipeline =
      ⟨q.table.source.image s ⟨none, .plain⟩ "" (.slot .source :: path) [] false,
        joinsImage s path 0 (.table q.table.name) q.joins ++
          filterImage s path q.joinedRow q.filter ++ groupingImage s path q.joinedRow q.grouping ++
          sortingImage s path q.row q.sorting ++ limitImage s path q.limit ++
          projectionImage s path q.row q.projection⟩ := by
    rw [queryImage]
  rw [Thunk.uses_pipeline, hpipeline, queryOccurrences]
  exact hsource.append hstages

/-- What a nested query reads from a group hides no lambda in reach. -/
theorem keeps_attach {place : Place} {bound : List String} (hfits : Fits s η ρ)
    (hstays : Stays s.config place bound η) {os : List Occurrence} {e : Expr}
    (he : ∀ ρ', Fits s η ρ' → Keeps s os (e.uses ρ')) (param : String) (free : List String) :
    Keeps s os ((place.attach s.config param bound free e).uses ρ) := by
  let bs := place.readsOfGroup s.config param bound free
  have hnamed (p : Binding Expr → Bool) (n : String) (a : Abstraction)
      (hn : η n = some ⟨a, false⟩) : named (bs.filter p) n = false := by
    have hnot := Place.not_named_readsOfGroup (hstays n a hn) param free
    rw [named, Option.isSome_eq_false_iff, Option.isNone_iff_eq_none, valueOf?_eq_none] at hnot ⊢
    intro hmem
    obtain ⟨b, hb, rfl⟩ := List.mem_map.mp hmem
    exact hnot (List.mem_map_of_mem (List.mem_filter.mp hb).1)
  let consults (b : Binding Expr) : Bool := s.config.table ∈ b.value.free
  have hconsulting : Fits s η (hide (named (bs.filter consults)) ρ) :=
    hfits.hide (fun _ _ hn => hn) fun n a hn _ => hnamed consults n a hn
  have hothers : Fits s η (hide (named (bs.filter (!consults ·)))
      (hide (named (bs.filter consults)) ρ)) :=
    hconsulting.hide (fun _ _ hn => hn) fun n a hn _ => hnamed (!consults ·) n a hn
  exact ((he _ hothers).mono (uses_bind ..)).mono (uses_bind ..)

theorem keeps_call {es : List Expr} (ih : ∀ e ∈ es, KeepsLambdas s e) (p : Position) (n : String) :
    KeepsLambdas s (.sequence p (.call n) es) := by
  intro place param path bound searched η ρ hfits hstays
  have hform := callForm s place param path bound searched p n es
  generalize (Expr.sequence p (.call n) es).image s place param path bound searched = e
    at hform ⊢
  generalize (Expr.sequence p (.call n) es).demands s.config place path bound = ds at hform
  rw [Expr.occurrences]
  cases hform with
  | plain ds es h hcase =>
    rw [hcase]
    exact keeps_imageAll ih hfits hstays param path .part 0
  | allRows es prior names into h hcase =>
    rw [hcase]
    exact .nil
  | eachRow ds arg rest prior names into h hds hcase =>
    rw [List.length_cons, hcase]
    let row := prior.parameter s.name (.part 0 :: path)
    have hnarrows := narrows_capture s.config ⟨some prior, place.numbering⟩ η
    have hselector (a : Abstraction) := keeps_closeOver (.part 0 :: path) [arg] hfits hnarrows
      (fun _ hfits' => ih arg List.mem_cons_self ⟨some prior, place.numbering⟩ row
        (.part 0 :: path) [] false hfits' hnarrows.stays) fun _ => enter_of_not_mem (a := a)
    exact ((hselector _).mono (List.sublist_append_left _ (usesAll ρ []))).mono
      (List.sublist_append_right ..)
  | rowsAtOnce arg rest prior names into h hcase =>
    rw [List.length_cons, hcase]
    have harg := ih arg List.mem_cons_self place param (.part 0 :: path) bound false hfits hstays
    exact (harg.mono (List.sublist_append_left _ (usesAll ρ []))).mono
      (List.sublist_append_right ..)

theorem keepsLambdas (e : Expr) : KeepsLambdas s e := by
  induction e using Expr.written_induction with
  | literal p v => intro place param path bound searched η ρ _ _; exact .nil
  | var p n =>
    intro place param path bound searched η ρ hfits hstays
    rw [Expr.occurrences, Expr.image]
    cases hn : η n with
    | none => exact .nil
    | some held =>
      obtain ⟨a, captured⟩ := held
      refine List.forall_mem_singleton.mpr fun hcaptured hmade => ?_
      cases hcaptured
      have himage : place.varImage s.config param bound p n = .var p n := by
        rcases hstays n a hn with hbound | howns
        · exact if_pos (.inl hbound)
        · exact Place.varImage_of_not_owns howns param bound p
      rw [himage, Expr.uses, hfits n a hn hmade]
      exact List.mem_cons_self
  | unary p f e ih => intro place param path bound searched η ρ; exact ih place param _ bound false
  | binary p f l r ihl ihr =>
    intro place param path bound searched η ρ hfits hstays
    have hl := ihl place param (.part 0 :: path) bound false hfits hstays
    cases f with
    | operator op =>
      exact hl.append (ihr place param (.part 1 :: path) bound op.searches hfits hstays)
    | index | computedField =>
      exact hl.append (ihr place param (.part 1 :: path) bound false hfits hstays)
  | sequence p f es ih =>
    cases f with
    | call n => exact keeps_call ih p n
    | list | tuple | construct =>
      intro place param path bound searched η ρ hfits hstays
      exact keeps_imageAll ih hfits hstays param path .part 0
  | method p r n es ihr ih =>
    intro place param path bound searched η ρ hfits hstays
    exact (ihr place param (.part 0 :: path) bound false hfits hstays).append
      (keeps_imageAll ih hfits hstays param path .part 1)
  | lambda p ps e ih =>
    intro place param path bound searched η ρ hfits hstays
    rw [Expr.occurrences, Expr.image, Expr.uses, pos_image]
    exact ih place param (.part 0 :: path) (ps ++ bound) false (hfits.lambda ⟨p, e.pos, ps⟩)
      (hstays.lambda ⟨p, e.pos, ps⟩)
  | query p q hq =>
    intro place param path bound searched η ρ hfits hstays
    rw [Expr.occurrences, Expr.image]
    refine keeps_attach hfits hstays (fun ρ' hfits' => ?_) param _
    have hthunk := keeps_queryImage path hq hfits'
    cases searched with
    | false => exact hthunk
    | true => exact hthunk.mono (List.sublist_append_left ..)
  | letIn | record | postIncrement | subquery =>
    intro place param path bound searched η ρ _ _
    exact .nil

end

/-! ## Names of occurrences -/

section

variable {c : Config} {P : Occurrence → Prop}

/-- Wherever the expression stands, the property holds of its occurrences. -/
def EachOccurrence (c : Config) (P : Occurrence → Prop) (e : Expr) : Prop :=
  ∀ place η, ∀ o ∈ e.occurrences c place η, P o

theorem each_occurrencesAll {es : List Expr} (h : ∀ e ∈ es, EachOccurrence c P e) (place : Place)
    (η : String → Option Held) : ∀ o ∈ occurrencesAll c place η es, P o := by
  induction es with
  | nil => exact List.forall_mem_nil _
  | cons e es ih =>
    exact List.forall_mem_append.mpr ⟨h e List.mem_cons_self place η,
      ih fun e he => h e (List.mem_cons_of_mem _ he)⟩

theorem each_joinsOccurrences {js : List (Join Expr)}
    (h : ∀ j ∈ js, EachOccurrence c P j.source ∧ ∀ e ∈ j.on, EachOccurrence c P e)
    (η : String → Option Held) (row : Row) : ∀ o ∈ joinsOccurrences c η row js, P o := by
  induction js generalizing row with
  | nil => exact List.forall_mem_nil _
  | cons j js ih =>
    obtain ⟨kind, name, source, on, p⟩ := j
    obtain ⟨hsource, hon⟩ := h _ List.mem_cons_self
    have hjs := ih (fun j hj => h j (List.mem_cons_of_mem _ hj)) (row.joined name)
    rw [joinsOccurrences]
    refine List.forall_mem_append.mpr ⟨List.forall_mem_append.mpr ⟨hsource _ η, ?_⟩, hjs⟩
    cases on with
    | none => exact List.forall_mem_nil _
    | some e =>
      rw [matchOccurrences]
      split
      · exact hon e rfl _ _
      · exact List.forall_mem_nil _

theorem each_termsOccurrences {ts : List (SortTerm Expr)}
    (h : ∀ t ∈ ts, EachOccurrence c P t.key) (η : String → Option Held) (row : Row) :
    ∀ o ∈ termsOccurrences c η row ts, P o := by
  induction ts with
  | nil => exact List.forall_mem_nil _
  | cons t ts ih =>
    exact List.forall_mem_append.mpr ⟨h t List.mem_cons_self _ _,
      ih fun t ht => h t (List.mem_cons_of_mem _ ht)⟩

/-- What holds of the occurrences in each expression holds of those in the query. -/
theorem each_queryOccurrences {q : Query Expr} (h : q.Each (EachOccurrence c P))
    (η : String → Option Held) : ∀ o ∈ queryOccurrences c η q, P o := by
  obtain ⟨⟨name, source, _⟩, joins, filter, grouping, sorting, limit, projection, _⟩ := q
  rw [queryOccurrences]
  simp only [List.forall_mem_append]
  refine ⟨h.source _ η, ⟨⟨⟨⟨?_, ?_⟩, ?_⟩, ?_⟩, ?_⟩, ?_⟩
  · exact each_joinsOccurrences h.joins η _
  · cases filter with
    | none => exact List.forall_mem_nil _
    | some f => exact h.filter f rfl _ _
  · obtain _ | ⟨cs, into, having, p⟩ := grouping
    · exact List.forall_mem_nil _
    · obtain ⟨hcs, hhaving⟩ := h.grouping _ rfl
      refine List.forall_mem_append.mpr ⟨each_occurrencesAll hcs _ _, ?_⟩
      cases having with
      | none => exact List.forall_mem_nil _
      | some e => exact hhaving e rfl _ _
  · cases sorting with
    | none => exact List.forall_mem_nil _
    | some sorting => exact each_termsOccurrences (h.sorting sorting rfl) η _
  · obtain _ | ⟨_ | offset, size, p⟩ := limit
    · exact List.forall_mem_nil _
    · exact (h.limit _ rfl).2 _ η
    · obtain ⟨hoffset, hsize⟩ := h.limit _ rfl
      exact List.forall_mem_append.mpr ⟨hoffset offset rfl _ η, hsize _ η⟩
  · cases projection with
    | none => exact List.forall_mem_nil _
    | some p => exact each_occurrencesAll (h.projection p rfl) _ _

/-- The name of an occurrence is spelled in the expression. -/
theorem name_occurrence (c : Config) (e : Expr) :
    EachOccurrence c (fun o => o.use.name ∈ e.spelled) e := by
  have widen {e : Expr} {ns : List String} (hns : ∀ n ∈ e.spelled, n ∈ ns)
      (h : EachOccurrence c (fun o => o.use.name ∈ e.spelled) e) :
      EachOccurrence c (fun o => o.use.name ∈ ns) e :=
    fun place η o ho => hns _ (h place η o ho)
  induction e using Expr.written_induction with
  | literal | letIn | record | postIncrement | subquery =>
    intro place η
    exact List.forall_mem_nil _
  | var p n =>
    intro place η
    rw [Expr.occurrences]
    split
    · exact List.forall_mem_singleton.mpr List.mem_cons_self
    · exact List.forall_mem_nil _
  | unary p f e ih => exact ih
  | binary p f l r ihl ihr =>
    intro place η
    refine List.forall_mem_append.mpr ⟨?_, ?_⟩
    · exact widen (fun n hn => List.mem_append_left _ hn) ihl place η
    · exact widen (fun n hn => List.mem_append_right _ hn) ihr place η
  | sequence p f es ih =>
    have hes : ∀ e ∈ es, EachOccurrence c (fun o => o.use.name ∈ spelledAll es) e :=
      fun e he => widen (fun n hn => mem_spelledAll.mpr ⟨e, he, hn⟩) (ih e he)
    intro place η
    cases f with
    | call n =>
      rw [Expr.occurrences]
      split
      · exact each_occurrencesAll hes place η
      · exact List.forall_mem_nil _
      · cases es with
        | nil => exact List.forall_mem_nil _
        | cons e es => exact hes e List.mem_cons_self _ _
      · cases es with
        | nil => exact List.forall_mem_nil _
        | cons e es => exact hes e List.mem_cons_self _ _
    | list | tuple | construct => exact each_occurrencesAll hes place η
  | method p r n es ihr ih =>
    intro place η
    refine List.forall_mem_append.mpr ⟨?_, ?_⟩
    · exact widen (fun n hn => List.mem_append_left _ hn) ihr place η
    · exact each_occurrencesAll (fun e he => widen (fun n hn =>
        List.mem_append_right _ (mem_spelledAll.mpr ⟨e, he, hn⟩)) (ih e he)) place η
  | lambda p ps e ih =>
    intro place η
    exact widen (fun n hn => List.mem_append_right _ hn) ih place _
  | query p q hq =>
    intro place η
    refine each_queryOccurrences ?_ _
    have hspelled := each_spelled q
    exact hq.and hspelled fun e he hns => widen hns he

end

/-! ## Runs -/

/-- No lambda is in reach. -/
def outermost {α : Type} (_ : String) : Option α := none

theorem fits_outermost (s : Naming) (ρ : String → Option Abstraction) : Fits s outermost ρ := nofun

theorem imageOnRow_keeps {ctx ctx' : Context} {row : Row} {node : Path} {e : Expr} {r : RowImage}
    (h : ctx.imageOnRow row [(node, e)] = (.ok r, ctx')) (inline : Bool) :
    Keeps ctx'.naming (e.occurrences ctx.config ⟨some row, ctx.numbering⟩ outermost)
      ((r.lambda inline).body.uses outermost) := by
  let ds := row.nameDemands node ++
    [(node, e)].flatMap fun n => n.2.demands ctx.config ⟨some row, ctx.numbering⟩ n.1 []
  obtain ⟨hr, hctx⟩ := Prod.mk.inj h
  have hctx : (ctx.perform ds).2 = ctx' := hctx
  have hconfig : ctx'.naming.config = ctx.config := hctx ▸ ctx.perform_config ds
  cases hperform : (ctx.perform ds).1 with
  | error f =>
    change ((ctx.perform ds).1.map _) = _ at hr
    rw [hperform] at hr
    cases hr
  | ok u =>
    change ((ctx.perform ds).1.map _) = _ at hr
    rw [hperform, hctx] at hr
    cases hr
    have hbody (ρ : String → Option Abstraction) := keepsLambdas (s := ctx'.naming) e
      ⟨some row, ctx.numbering⟩ (row.parameter ctx'.naming.name node) node [] false
      (fits_outermost _ ρ) nofun
    rw [hconfig] at hbody
    exact (hbody _).mono (uses_bind ..)

theorem lower_keeps {q : Query Expr} {c : Config} {node : Path} {t : Thunk} {ctx : Context}
    (h : (Context.new c).lower node q = (.ok t, ctx)) {o : Occurrence}
    (ho : o ∈ queryOccurrences c outermost q) (hfree : o.captured = false) :
    o.use ∈ t.uses outermost := by
  have hlowered := Lowered.ofLower h
  have hkeeps := keeps_queryImage (s := ctx.naming) node (q.each_of_forall keepsLambdas)
    (fits_outermost _ outermost)
  have hcapture : capture (q.declares ctx.naming.config) outermost = outermost := rfl
  rw [hcapture, hlowered.naming_config, ← hlowered.image] at hkeeps
  refine hkeeps o ho hfree fun m hm => hlowered.name_not_mem m ?_
  have hspelled := each_queryOccurrences
    ((q.each_of_forall (name_occurrence c)).and (each_spelled q) fun e he hns =>
      fun place η o ho => hns _ (he place η o ho)) outermost o ho
  rw [hm]
  exact List.mem_append_left _ (mem_distinct.mpr hspelled)

/-- Every occurrence of a lambda parameter that is not captured is still a variable bound by its own
lambda: in the function that an expression becomes, made-up names aside, and in the thunk that a
query becomes. -/
theorem lambda_parameters_kept (c : Config) :
    (∀ {ctx ctx' : Context} {row : Row} {node : Path} {e : Expr} {r : RowImage}, ctx.config = c →
      ctx.imageOnRow row [(node, e)] = (.ok r, ctx') → ∀ (inline : Bool),
        ∀ o ∈ e.occurrences c ⟨some row, ctx.numbering⟩ outermost, o.captured = false →
          (∀ m, ctx'.naming.name m ≠ o.use.name) → o.use ∈ (r.lambda inline).body.uses outermost) ∧
      ∀ {q : Query Expr} {node : Path} {t : Thunk} {ctx : Context},
        (Context.new c).lower node q = (.ok t, ctx) →
          ∀ o ∈ queryOccurrences c outermost q, o.captured = false → o.use ∈ t.uses outermost := by
  refine ⟨?_, fun h _ ho hfree => lower_keeps h ho hfree⟩
  rintro ctx ctx' row node e r rfl h inline
  exact imageOnRow_keeps h inline

/-- `ys.map(x -> x.v + sum(x.v))`. -/
def mapped : Expr :=
  (Expr.name "ys").send "map" [.lambda ⟨1, 8⟩ ⟨["x"], .binary ⟨1, 13⟩ (.operator .add)
    ((Expr.var ⟨1, 13⟩ "x").field "v") (Expr.call "sum" [(Expr.var ⟨1, 23⟩ "x").field "v"])⟩]

/-- `from x in xs groupby x.k select ys.map(x -> x.v + sum(x.v))`. -/
def groupedMap : Query Expr where
  table := ⟨"x", Expr.name "xs", .nowhere⟩
  joins := []
  filter := none
  grouping := some ⟨[(Expr.name "x").field "k"], none, none, .nowhere⟩
  sorting := none
  limit := none
  projection := some ⟨[mapped], .nowhere⟩
  pos := .nowhere

/-- The variable `x` at the given place, bound by the lambda of `mapped`. -/
def mappedUse (pos : Position) : Use := ⟨⟨⟨1, 8⟩, ⟨1, 13⟩, ["x"]⟩, "x", pos⟩

/-- The first `x` stays with its lambda. -/
theorem lambda_parameters_kept_mapped :
    (∃ r ctx, ((Context.new .standard).reserve ["x"]).imageOnRow (.grouped (.table "x") ["k"] none)
        [([], mapped)] = (.ok r, ctx) ∧ mappedUse ⟨1, 13⟩ ∈ (r.lambda false).body.uses outermost) ∧
      ∃ t ctx, (Context.new .standard).lower [] groupedMap = (.ok t, ctx) ∧
        mappedUse ⟨1, 13⟩ ∈ t.uses outermost := by
  obtain ⟨hrow, hquery⟩ := lambda_parameters_kept .standard
  constructor
  · have hstart : ((Context.new .standard).reserve ["x"]).names.Clear ["x"] :=
      ⟨fun _ hn => hn, List.forall_mem_nil _, List.forall_mem_nil _, List.nodup_nil⟩
    obtain ⟨r, ctx, h, hclear⟩ :
        ∃ r ctx, ((Context.new .standard).reserve ["x"]).imageOnRow
          (.grouped (.table "x") ["k"] none) [([], mapped)] = (.ok r, ctx) ∧
            ctx.names.Clear ["x"] := ⟨_, _, rfl, Context.perform_clear (hstart.nameOf []) _⟩
    refine ⟨r, ctx, h, hrow rfl h false ⟨mappedUse ⟨1, 13⟩, false⟩ (by decide) rfl fun m hm => ?_⟩
    exact hclear.nameOf_not_mem m (List.mem_singleton.mpr hm)
  · obtain ⟨t, ctx, h⟩ : ∃ t ctx, (Context.new .standard).lower [] groupedMap = (.ok t, ctx) :=
      ⟨_, _, rfl⟩
    exact ⟨t, ctx, h, hquery h ⟨mappedUse ⟨1, 13⟩, false⟩ (by decide) rfl⟩

/-- The second `x` is captured: the row function that the aggregate makes takes it from its lambda,
in both modes. -/
theorem groupedMap_captured :
    (∃ t, groupedMap.lower .standard = .ok t ∧ mappedUse ⟨1, 23⟩ ∉ t.uses outermost) ∧
      (∃ t, groupedMap.lower .inlined = .ok t ∧ mappedUse ⟨1, 23⟩ ∉ t.uses outermost) ∧
        ⟨mappedUse ⟨1, 23⟩, true⟩ ∈ queryOccurrences .standard outermost groupedMap :=
  ⟨⟨_, rfl, by decide⟩, ⟨_, rfl, by decide⟩, by decide⟩

end Comprehension
