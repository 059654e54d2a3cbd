import Comprehension.Proofs.Arguments
import Comprehension.Proofs.GroupNames
import Comprehension.Proofs.OwnParts

/-!
Navigation of groups. The current group is shown under the aliases of the query: a call looks up the
list of aliases in the name table, and each thunk has a name table of its own under the same name. All
such calls stand in functions that are called with groups, outside of the thunks in them, so that each
call finds the aliases of the query that made the group.
-/

namespace Comprehension

/-! ## Calls that look up the aliases -/

/-- `table['aliasNameList']`. -/
def Expr.looksUp (table : String) : Expr → Bool
  | .binary _ .index (.var _ n) (.literal _ (.string k)) => n = table ∧ k = NameList.aliases.key
  | _ => false

/-- What a call shows under the aliases: `rows.withAliases(table['aliasNameList'])`. -/
def Expr.navigated? (table : String) : Expr → Option Expr
  | .method _ rows n [arg] => if n = "withAliases" ∧ arg.looksUp table then some rows else none
  | _ => none

def Argument.own : Argument → List Expr
  | value e => e.own
  | lambda f => f.body.own

theorem Expr.looksUp_iff {table : String} {e : Expr} :
    e.looksUp table = true ↔ ∃ p p' p'',
      e = .binary p .index (.var p' table) (.literal p'' (.string NameList.aliases.key)) := by
  constructor
  · intro h
    rw [looksUp.eq_def] at h
    split at h
    · obtain ⟨rfl, rfl⟩ := of_decide_eq_true h
      exact ⟨_, _, _, rfl⟩
    · cases h
  · rintro ⟨p, p', p'', rfl⟩
    exact decide_eq_true ⟨rfl, rfl⟩

theorem Expr.navigated?_iff {table : String} {e rows : Expr} :
    e.navigated? table = some rows ↔
      ∃ p arg, e = .method p rows "withAliases" [arg] ∧ arg.looksUp table = true := by
  constructor
  · intro h
    rw [navigated?.eq_def] at h
    split at h
    · split at h
      · rename_i hcall
        cases h
        exact ⟨_, _, by rw [hcall.1], hcall.2⟩
      · cases h
    · cases h
  · rintro ⟨p, arg, rfl, hlookup⟩
    exact if_pos ⟨rfl, hlookup⟩

theorem navigated?_of_isPath {table : String} {e : Expr} (h : e.isPath = true) :
    e.navigated? table = none := by
  cases e with
  | method p r n es => cases h
  | _ => rfl

/-! ## Navigation at a place -/

/-- Each call among the expressions that looks up the aliases shows the rows of the group at the
place. -/
def Navigates (c : Config) (place : Place) (param : String) (es : List Expr) : Prop :=
  ∀ e ∈ es, ∀ rows, e.navigated? c.table = some rows →
    place.group?.isSome ∧ rows = GroupView.rows param

/-- What is put in place: field paths, which never are the name table itself. -/
def ApartFrom (table : String) (σ : List (Binding Expr)) : Prop :=
  ∀ b ∈ σ, b.value.isPath = true ∧ ∀ p, b.value ≠ .var p table

section

variable {table : String} {σ : List (Binding Expr)}

theorem ApartFrom.paths (h : ApartFrom table σ) : ArePaths σ := fun b hb => (h b hb).1

theorem ApartFrom.subset (h : ApartFrom table σ) {σ' : List (Binding Expr)} (hσ' : σ' ⊆ σ) :
    ApartFrom table σ' :=
  fun b hb => h b (hσ' hb)

/-- A value that replaces a variable is a field path. -/
theorem substitute_var_cases (h : ArePaths σ) (p : Position) (n : String) :
    (Expr.var p n).substitute σ = .var p n ∨
      ((Expr.var p n).substitute σ).isPath = true ∧
        ∃ v, valueOf? n σ = some v ∧ (Expr.var p n).substitute σ = v.withPos p := by
  rw [Expr.substitute]
  cases hn : valueOf? n σ with
  | none => exact .inl rfl
  | some v => exact .inr ⟨(isPath_withPos p v).trans (h _ (mem_of_valueOf? hn)), v, rfl, rfl⟩

/-- No lookup comes from what is put in place. -/
theorem looksUp_of_substitute (h : ApartFrom table σ) {e : Expr}
    (he : (e.substitute σ).looksUp table = true) : e.looksUp table = true := by
  obtain ⟨p, p', p'', heq⟩ := Expr.looksUp_iff.mp he
  cases e with
  | var q n =>
    rcases substitute_var_cases h.paths q n with hvar | ⟨hpath, -⟩
    · rw [hvar] at heq
      cases heq
    · rw [heq] at hpath
      cases hpath
  | binary q f l r =>
    rw [Expr.substitute] at heq
    obtain ⟨-, rfl, hl, hr⟩ := Expr.binary.inj heq
    have htarget : ∃ p, l = .var p table := by
      cases l with
      | var q n =>
        rcases substitute_var_cases h.paths q n with hvar | ⟨-, v, hv, hvalue⟩
        · exact ⟨p', hvar.symm.trans hl⟩
        · -- The value would be the name table.
          rw [hvalue] at hl
          cases v with
          | var q' m =>
            cases hl
            exact absurd rfl ((h _ (mem_of_valueOf? hv)).2 q')
          | _ => cases hl
      | record q vs ns as row => cases row <;> cases hl
      | _ => cases hl
    have hindex : ∃ p, r = .literal p (.string NameList.aliases.key) := by
      cases r with
      | literal q v => exact ⟨p'', hr⟩
      | var q n =>
        rcases substitute_var_cases h.paths q n with hvar | ⟨hpath, -⟩
        · rw [hvar] at hr
          cases hr
        · rw [hr] at hpath
          cases hpath
      | record q vs ns as row => cases row <;> cases hr
      | _ => cases hr
    obtain ⟨q', rfl⟩ := htarget
    obtain ⟨q'', rfl⟩ := hindex
    exact Expr.looksUp_iff.mpr ⟨q, q', q'', rfl⟩
  | record q vs ns as row => cases row <;> cases heq
  | _ => cases heq

/-- No navigation comes from what is put in place. -/
theorem navigated?_of_substitute (h : ApartFrom table σ) {e rows : Expr} (hpath : e.isPath = false)
    (he : (e.substitute σ).navigated? table = some rows) :
    ∃ rows₀, e.navigated? table = some rows₀ ∧ rows = rows₀.substitute σ := by
  obtain ⟨p, arg, heq, hlookup⟩ := Expr.navigated?_iff.mp he
  cases e with
  | method q r n es =>
    rw [Expr.substitute] at heq
    obtain ⟨-, rfl, rfl, hes⟩ := Expr.method.inj heq
    cases es with
    | nil => cases hes
    | cons e es =>
      cases es with
      | nil =>
        obtain ⟨rfl, -⟩ := List.cons.inj hes
        exact ⟨r, Expr.navigated?_iff.mpr ⟨q, e, rfl, looksUp_of_substitute h hlookup⟩, rfl⟩
      | cons e' es => cases hes
  | var q n => cases hpath
  | record q vs ns as row => cases row <;> cases heq
  | _ => cases heq

theorem rows_substitute {param : String} (h : param ∉ σ.map (·.name)) :
    (GroupView.rows param).substitute σ = GroupView.rows param := by
  have hvalue : valueOf? param σ = none := valueOf?_eq_none.mpr h
  simp [GroupView.rows, Expr.field, Expr.name, Expr.substitute, hvalue]

end

namespace Navigates

variable {c : Config} {place : Place} {param : String} {es es' : List Expr}

theorem nil : Navigates c place param [] := List.forall_mem_nil _

theorem cons {e : Expr} (he : e.navigated? c.table = none) (h : Navigates c place param es) :
    Navigates c place param (e :: es) := by
  refine List.forall_mem_cons.mpr ⟨fun rows hrows => ?_, h⟩
  rw [he] at hrows
  cases hrows

theorem append (h : Navigates c place param es) (h' : Navigates c place param es') :
    Navigates c place param (es ++ es') :=
  List.forall_mem_append.mpr ⟨h, h'⟩

theorem mono (h : Navigates c place param es) (hes : es' ⊆ es) : Navigates c place param es' :=
  fun e he => h e (hes he)

theorem all {es : List Expr} (h : ∀ e ∈ es, Navigates c place param e.own) :
    Navigates c place param (ownAll es) := by
  intro e' he'
  obtain ⟨e, he, hmem⟩ := mem_ownAll.mp he'
  exact h e he e' hmem

/-- Where there is no group, nothing is navigated. -/
theorem elsewhere (h : Navigates c place param es) (hplace : place.group? = none) (place' : Place)
    (param' : String) : Navigates c place' param' es := by
  intro e he rows hrows
  have hgroup := (h e he rows hrows).1
  rw [hplace] at hgroup
  cases hgroup

theorem path {e : Expr} (h : e.isPath = true) : Navigates c place param e.own := by
  intro e' he' rows hrows
  rw [navigated?_of_isPath (isPath_of_mem_own h he')] at hrows
  cases hrows

/-- Bindings that leave the parameter alone. -/
theorem substitute {e : Expr} (h : Navigates c place param e.own) {σ : List (Binding Expr)}
    (hσ : ApartFrom c.table σ) (hparam : place.group?.isSome → param ∉ σ.map (·.name)) :
    Navigates c place param (e.substitute σ).own := by
  intro e' he' rows hrows
  have hpath : e'.isPath = false := by
    cases hp : e'.isPath with
    | false => rfl
    | true =>
      rw [navigated?_of_isPath hp] at hrows
      cases hrows
  obtain ⟨e₀, he₀, hpath₀, σ', hσ', rfl⟩ := traced_of_not_isPath hσ.paths he' hpath
  obtain ⟨rows₀, hrows₀, rfl⟩ := navigated?_of_substitute (hσ.subset hσ') hpath₀ hrows
  obtain ⟨hgroup, rfl⟩ := h e₀ he₀ rows₀ hrows₀
  exact ⟨hgroup, rows_substitute fun hmem => hparam hgroup (List.map_subset _ hσ' hmem)⟩

theorem bind {e : Expr} (h : Navigates c place param e.own) {σ : List (Binding Expr)}
    (hσ : ApartFrom c.table σ) (hparam : place.group?.isSome → param ∉ σ.map (·.name))
    (inline : Bool) : Navigates c place param (bind σ e inline).own := by
  have hlocals : Navigates c place param (ownLocals σ) := by
    intro e' he'
    obtain ⟨b, hb, hmem⟩ := mem_ownLocals.mp he'
    exact path (hσ b hb).1 e' hmem
  rcases bind_cases σ e inline with heq | ⟨-, heq⟩ | heq
  · rwa [heq]
  · rw [heq]
    exact h.substitute hσ hparam
  · rw [heq]
    exact (hlocals.append h).cons rfl

end Navigates

/-! ## Images -/

section

variable {c : Config}

/-- What a name reads from the row of a group navigates it just if it is the current group. -/
theorem navigates_read? {place : Place} {param n : String} {e : Expr}
    (h : place.read? c param n = some e) (p : Position) :
    Navigates c place param (e.withPos p).own := by
  obtain ⟨prior, names, into, hrow⟩ := Place.row_of_read? h
  have hgroup : place.group?.isSome := by
    rw [Place.group?, hrow]
    rfl
  rcases Place.read?_cases h with ⟨-, rfl⟩ | ⟨-, rfl | rfl⟩
  · intro e' he' rows hrows
    obtain ⟨p', arg, rfl, -⟩ := Expr.navigated?_iff.mp hrows
    have hcall : rows = GroupView.rows param ∧ arg = NameList.aliases.access c.table := by
      simp [GroupView.current, Expr.send, Expr.withPos, Expr.own, ownAll, NameList.access,
        GroupView.rows, Expr.field, Expr.name, Expr.index, Expr.string] at he'
      exact ⟨he'.2.1, he'.2.2⟩
    exact ⟨hgroup, hcall.1⟩
  · exact Navigates.path rfl
  · exact Navigates.path rfl

theorem apartFrom_bindings {s : Naming} (havoids : ∀ node, s.name node ≠ s.config.table)
    (row : Row) (node : Path) (es : List Expr) :
    ApartFrom s.config.table (row.bindings (row.parameter s.name node) es) := by
  intro b hb
  have hfree := row.bindings_free hb
  simp only [Row.bindings, List.mem_map] at hb
  obtain ⟨q, -, rfl⟩ := hb
  refine ⟨q.2.read_isPath rfl, fun p heq => havoids node ?_⟩
  rw [show q.2.read (.name (row.parameter s.name node)) = .var p s.config.table from heq] at hfree
  exact (List.singleton_inj.mp hfree).symm

/-- What is bound around a nested query navigates the group at the place, in front of the query. -/
theorem navigates_attach {place : Place} {param : String} {e : Expr}
    (h : Navigates c ⟨none, .plain⟩ "" e.own) (bound free : List String) :
    Navigates c place param (place.attach c param bound free e).own := by
  let bs := place.readsOfGroup c param bound free
  have hlocals (p : Binding Expr → Bool) : Navigates c place param (ownLocals (bs.filter p)) := by
    intro e' he'
    obtain ⟨b, hb, hmem⟩ := mem_ownLocals.mp he'
    have hread := Place.read?_of_mem (List.mem_filter.mp hb).1
    have hvalue := navigates_read? hread b.value.pos
    rw [Expr.withPos_pos] at hvalue
    exact hvalue e' hmem
  have hapart : ApartFrom c.table (bs.filter fun b => !decide (c.table ∈ b.value.free)) := by
    intro b hb
    obtain ⟨hb, hfree⟩ := List.mem_filter.mp hb
    have hfree : c.table ∉ b.value.free := by simpa using hfree
    have hread := Place.read?_of_mem hb
    refine ⟨Place.read?_isPath hread (Place.ne_group_of_read? hread hfree), fun p heq => hfree ?_⟩
    rw [heq]
    exact List.mem_singleton_self _
  have hinner := (h.bind hapart (fun hsome => by cases hsome) c.inlinePaths).elsewhere rfl place param
  let lowered := Comprehension.bind (bs.filter fun b => !decide (c.table ∈ b.value.free)) e
    c.inlinePaths
  rw [Place.attach]
  rcases bind_cases (bs.filter fun b => decide (c.table ∈ b.value.free)) lowered false
    with heq | ⟨hinline, -⟩ | heq
  · exact heq ▸ hinner
  · cases hinline
  · exact heq ▸ ((hlocals _).append hinner).cons rfl

/-! ### Forms of images -/

/-- A call, a list, a thunk, or a block in front of one. -/
def Expr.isCall : Expr → Bool
  | .sequence _ _ _ | .method _ _ _ _ | .subquery _ _ | .letIn _ _ _ => true
  | _ => false

theorem isCall_bind {e : Expr} (h : e.isCall = true) (σ : List (Binding Expr)) (inline : Bool) :
    (bind σ e inline).isCall = true := by
  rcases bind_cases σ e inline with heq | ⟨-, heq⟩ | heq
  · rwa [heq]
  · rw [heq]
    cases e with
    | sequence | method | subquery | letIn => rfl
    | _ => cases h
  · rw [heq]
    rfl

variable {s : Naming} {place : Place} {param : String} {path : Path} {bound : List String}
  {searched : Bool}

theorem isCall_image_sequence (p : Position) (f : Sequence) (es : List Expr) :
    ((Expr.sequence p f es).image s place param path bound searched).isCall = true := by
  cases f with
  | call n =>
    have hform := callForm s place param path bound searched p n es
    generalize (Expr.sequence p (.call n) es).image s place param path bound searched = e
      at hform ⊢
    generalize (Expr.sequence p (.call n) es).demands s.config place path bound = ds at hform
    cases hform <;> rfl
  | list | tuple | construct => rfl

theorem isCall_image_query (p : Position) (q : Query Expr) :
    ((Expr.query p q).image s place param path bound searched).isCall = true := by
  rw [Expr.image]
  refine isCall_bind (isCall_bind ?_ _ _) _ _
  cases searched <;> rfl

/-- Only a variable stays one. -/
theorem var_of_image {e : Expr} {p : Position} {n : String}
    (h : e.image s place param path bound searched = .var p n) : e = .var p n := by
  have hcall : ¬(Expr.var p n).isCall = true := nofun
  cases e with
  | var q m =>
    rw [Expr.image, Place.varImage] at h
    split at h
    · exact h
    · split at h
      · cases h
      · split at h
        · rename_i hread
          rcases Place.read?_cases hread with ⟨-, rfl⟩ | ⟨-, rfl | rfl⟩ <;> cases h
        · exact h
  | binary q f l r => cases f <;> cases h
  | sequence q f es => exact absurd (h ▸ isCall_image_sequence q f es) hcall
  | query q query => exact absurd (h ▸ isCall_image_query q query) hcall
  | _ => cases h

/-- A lookup of the aliases that nobody wrote is in no image, but where a group is navigated. -/
theorem looksUp_image {e : Expr} (h : s.config.table ∉ e.spelled) :
    (e.image s place param path bound searched).looksUp s.config.table = false := by
  refine eq_false_of_ne_true fun hlookup => ?_
  obtain ⟨p, p', p'', heq⟩ := Expr.looksUp_iff.mp hlookup
  have hcall : ¬(Expr.binary p .index (.var p' s.config.table)
      (.literal p'' (.string NameList.aliases.key))).isCall = true := nofun
  cases e with
  | var q m =>
    rw [Expr.image, Place.varImage] at heq
    split at heq
    · cases heq
    · split at heq
      · cases heq
      · split at heq
        · rename_i hread
          rcases Place.read?_cases hread with ⟨-, rfl⟩ | ⟨-, rfl | rfl⟩ <;> cases heq
        · cases heq
  | binary q f l r =>
    have htarget : l.image s place param (.part 0 :: path) bound false =
        .var p' s.config.table := by
      cases f <;> exact (Expr.binary.inj heq).2.2.1
    rw [var_of_image htarget] at h
    exact h (List.mem_append_left _ (List.mem_singleton_self _))
  | sequence q f es => exact absurd (heq ▸ isCall_image_sequence q f es) hcall
  | query q query => exact absurd (heq ▸ isCall_image_query q query) hcall
  | _ => cases heq

/-! ### Navigation in images -/

/-- The rows of a group at the place are no groups themselves. -/
def Place.Flat (place : Place) : Prop :=
  ∀ prior names into, place.row = some (.grouped prior names into) → prior.isGrouped = false

variable (s) in
/-- Wherever the expression stands, its image navigates the group of the place only. -/
def NavigatesGroup (e : Expr) : Prop :=
  s.config.table ∉ e.spelled →
    ∀ (place : Place) param path bound searched, place.Flat →
      Navigates s.config place param (e.image s place param path bound searched).own

theorem navigates_imageAll {es : List Expr} (h : ∀ e ∈ es, NavigatesGroup s e)
    (hspelled : s.config.table ∉ spelledAll es)
    (hplace : place.Flat) (step : Nat → Step) (i : Nat) :
    Navigates s.config place param (ownAll (imageAll s place param path bound step i es)) := by
  induction es generalizing i with
  | nil => exact .nil
  | cons e es ih =>
    rw [spelledAll, List.mem_append, not_or] at hspelled
    exact (h e List.mem_cons_self hspelled.1 place param (step i :: path) bound false hplace).append
      (ih (fun e he => h e (List.mem_cons_of_mem _ he)) hspelled.2 (i + 1))

/-- A method that is no navigation: no argument of it looks up the aliases. -/
theorem navigated?_method {table : String} {p : Position} {rows : Expr} {n : String}
    {es : List Expr} (h : ∀ e ∈ es, e.looksUp table = false) :
    (Expr.method p rows n es).navigated? table = none := by
  refine Option.eq_none_iff_forall_ne_some.mpr fun rows' hrows => ?_
  obtain ⟨p', arg, heq, hlookup⟩ := Expr.navigated?_iff.mp hrows
  cases heq
  rw [h arg List.mem_cons_self] at hlookup
  cases hlookup

theorem looksUp_imageAll {es : List Expr} (h : s.config.table ∉ spelledAll es)
    (step : Nat → Step) (i : Nat) :
    ∀ e ∈ imageAll s place param path bound step i es, e.looksUp s.config.table = false := by
  induction es generalizing i with
  | nil => exact List.forall_mem_nil _
  | cons e es ih =>
    rw [spelledAll, List.mem_append, not_or] at h
    exact List.forall_mem_cons.mpr ⟨looksUp_image h.1, ih h.2 (i + 1)⟩

variable (havoids : ∀ node, s.name node ≠ s.config.table)

include havoids

theorem navigates_call {es : List Expr} (h : ∀ e ∈ es, NavigatesGroup s e)
    (hspelled : s.config.table ∉ spelledAll es)
    (hplace : place.Flat) (p : Position) (n : String) :
    Navigates s.config place param
      ((Expr.sequence p (.call n) es).image s place param path bound searched).own := by
  have hrows : Navigates s.config place param (GroupView.rows param).own := .path rfl
  have harg {arg : Expr} {rest : List Expr} (hes : es = arg :: rest) :
      s.config.table ∉ arg.spelled := by
    rw [hes, spelledAll, List.mem_append, not_or] at hspelled
    exact hspelled.1
  have hform := callForm s place param path bound searched p n es
  generalize (Expr.sequence p (.call n) es).image s place param path bound searched = e
    at hform ⊢
  generalize (Expr.sequence p (.call n) es).demands s.config place path bound = ds at hform
  cases hform with
  | plain ds es _ hcase => exact (navigates_imageAll h hspelled hplace .part 0).cons rfl
  | allRows es prior names into hrow hcase =>
    exact (hrows.append .nil).cons (navigated?_method (List.forall_mem_nil _))
  | eachRow ds arg rest prior names into hrow hds hcase =>
    -- The argument is read for each row before grouping, where nothing is navigated.
    have hprior := hplace prior names into hrow
    have hungrouped : Place.group? ⟨some prior, place.numbering⟩ = none := by
      simpa [Place.group?, Row.isGrouped] using hprior
    have himage := h arg List.mem_cons_self (harg rfl) ⟨some prior, place.numbering⟩
      (prior.parameter s.name (.part 0 :: path)) (.part 0 :: path) [] false
      (fun prior' names' into' hrow' => by
        cases hrow'
        cases hprior)
    have hbound := himage.bind (apartFrom_bindings havoids prior (.part 0 :: path) [arg])
      (fun hsome => by simp [hungrouped] at hsome) s.config.inlinePaths
    have hbody := hbound.elsewhere hungrouped place param
    refine (hrows.append (Navigates.append (.cons rfl hbody) .nil)).cons (navigated?_method ?_)
    exact List.forall_mem_singleton.mpr rfl
  | rowsAtOnce arg rest prior names into hrow hcase =>
    have himage := h arg List.mem_cons_self (harg rfl) place param (.part 0 :: path) bound false
      hplace
    exact (hrows.append (himage.append .nil)).cons
      (navigated?_method (List.forall_mem_singleton.mpr (looksUp_image (harg rfl))))

theorem navigatesGroup (e : Expr) : NavigatesGroup s e := by
  induction e using Expr.written_induction with
  | literal | letIn | record | postIncrement | subquery =>
    intro hspelled place param path bound searched hplace
    exact .cons rfl .nil
  | var p n =>
    intro hspelled place param path bound searched hplace
    rw [Expr.image, Place.varImage]
    split
    · exact .path rfl
    · split
      · exact .cons rfl .nil
      · split
        · rename_i hread
          exact navigates_read? hread p
        · exact .path rfl
  | unary p f e ih =>
    intro hspelled place param path bound searched hplace
    exact (ih hspelled place param (.part 0 :: path) bound false hplace).cons rfl
  | binary p f l r ihl ihr =>
    intro hspelled place param path bound searched hplace
    rw [Expr.spelled, List.mem_append, not_or] at hspelled
    have hl := ihl hspelled.1 place param (.part 0 :: path) bound false hplace
    have hr (searched : Bool) := ihr hspelled.2 place param (.part 1 :: path) bound searched hplace
    cases f with
    | operator op => exact (hl.append (hr op.searches)).cons rfl
    | _ => exact (hl.append (hr false)).cons rfl
  | sequence p f es ih =>
    intro hspelled place param path bound searched hplace
    cases f with
    | call n => exact navigates_call havoids ih hspelled hplace p n
    | list | tuple | construct =>
      exact (navigates_imageAll ih hspelled hplace .part 0).cons rfl
  | method p r n es ihr ih =>
    intro hspelled place param path bound searched hplace
    rw [Expr.spelled, List.mem_append, not_or] at hspelled
    have hr := ihr hspelled.1 place param (.part 0 :: path) bound false hplace
    exact (hr.append (navigates_imageAll ih hspelled.2 hplace .part 1)).cons
      (navigated?_method (looksUp_imageAll hspelled.2 .part 1))
  | lambda p ps e ih =>
    intro hspelled place param path bound searched hplace
    rw [Expr.spelled, List.mem_append, not_or] at hspelled
    exact (ih hspelled.2 place param (.part 0 :: path) (ps ++ bound) false hplace).cons rfl
  | query p q hq =>
    intro hspelled place param path bound searched hplace
    rw [Expr.image]
    refine navigates_attach ?_ bound (queryFree q)
    cases searched with
    | false => exact .cons rfl .nil
    | true => exact ((Navigates.cons rfl .nil).append .nil).cons rfl

/-! ## Functions of rows -/

omit havoids in
/-- A clause on groups binds no path. -/
theorem lambda_onGroup {q : Query Expr} {f : RowFunction} (h : f ∈ q.onGroups) (path : Path) :
    f.lambda s path = f.onGroup s path ∧ (f.onGroup s path).body = f.value s path := by
  obtain ⟨g, -, hrow, hjoined, hrecord⟩ := Query.onGroups_cases h
  have hparams : f.param s path :: f.joined.toList = [f.param s path] := by rw [hjoined]; rfl
  have hbindings : f.row.bindings (f.param s path) (f.exprs.map (·.2)) = [] := by rw [hrow]; rfl
  have hvalue : f.onGroup s path = ⟨[f.param s path], f.value s path⟩ := by
    rw [RowFunction.onGroup, RowFunction.value]
    rcases hrecord with hrecord | ⟨hrecord, -⟩ <;> rw [hrecord]
  rw [RowFunction.lambda, Row.closeOver, hparams, hbindings, hvalue]
  exact ⟨rfl, rfl⟩

theorem navigates_value {f : RowFunction} (hplace : f.place.Flat)
    (hspelled : ∀ p ∈ f.exprs, s.config.table ∉ p.2.spelled) (path : Path) :
    Navigates s.config f.place (f.param s path) (f.value s path).own := by
  have himage : ∀ p ∈ f.exprs,
      Navigates s.config f.place (f.param s path) (f.image s path p).own := fun p hp =>
    navigatesGroup havoids p.2 (hspelled p hp) f.place _ _ [] false hplace
  cases hrecord : f.record with
  | none =>
    rw [RowFunction.value, hrecord]
    cases hexprs : f.exprs with
    | nil => exact .cons rfl .nil
    | cons p ps => exact himage p (hexprs ▸ List.mem_cons_self)
  | some keeps =>
    have haccess (l : NameList) :
        Navigates s.config f.place (f.param s path) (l.access s.config.table).own :=
      .cons rfl ((Navigates.path rfl).append (.cons rfl .nil))
    have hvalues : Navigates s.config f.place (f.param s path)
        (ownAll ((f.exprs.map (f.image s path)).map Expr.renamed)) := by
      refine .all (List.forall_mem_map.mpr (List.forall_mem_map.mpr fun p hp => ?_))
      exact (himage p hp).mono (own_renamed_subset _)
    have hrow (row : Option String) : Navigates s.config f.place (f.param s path)
        (row.toList.map Expr.name) := by
      cases row with
      | none => exact .nil
      | some n => exact .path (e := Expr.name n) rfl
    rw [RowFunction.value_of_record s path hrecord, NameList.record, own_recordOf]
    exact (((hvalues.append (haccess _)).append (haccess _)).append (hrow _)).cons rfl

/-- Nothing is navigated in what a piece becomes, or it is the function of a group. -/
theorem navigates_piece {q : Query Expr} (hspelled : s.config.table ∉ querySpelled q) {p : Piece}
    (hp : p ∈ q.pieces) (path : Path) :
    Navigates s.config ⟨none, .plain⟩ "" (p.argument s path).own ∨
      ∃ f ∈ q.onGroups, p.argument s path = .lambda (f.onGroup s path) ∧
        Navigates s.config f.place (f.param s path) (f.onGroup s path).body.own := by
  have hexprs : ∀ e ∈ p.exprs, s.config.table ∉ e.spelled := fun e he hmem =>
    hspelled ((each_spelled q).pieces p hp e he _ hmem)
  cases p with
  | value slot e =>
    exact .inl (navigatesGroup havoids e (hexprs e (List.mem_singleton_self _))
      ⟨none, .plain⟩ "" (.slot slot :: path) [] false fun _ _ _ hrow => by cases hrow)
  | function f =>
    have hspelled : ∀ p ∈ f.exprs, s.config.table ∉ p.2.spelled := fun p hp =>
      hexprs p.2 (List.mem_map_of_mem hp)
    cases hgrouped : f.row.isGrouped with
    | true =>
      have hf : f ∈ q.onGroups :=
        List.mem_filterMap.mpr ⟨_, hp, by rw [Piece.onGroups?, if_pos hgrouped]⟩
      have hflat : f.place.Flat := by
        obtain ⟨g, -, hrow, -⟩ := Query.onGroups_cases hf
        intro prior names into hplace
        rw [RowFunction.place, hrow] at hplace
        cases hplace
        exact joinedRow_ungrouped q
      obtain ⟨hlambda, hbody⟩ := lambda_onGroup (s := s) hf path
      refine .inr ⟨f, hf, congrArg Argument.lambda hlambda, ?_⟩
      rw [hbody]
      exact navigates_value havoids hflat hspelled path
    | false =>
      have hungrouped : f.place.group? = none := by
        simpa [RowFunction.place, Place.group?, Row.isGrouped] using hgrouped
      have hflat : f.place.Flat := by
        intro prior names into hplace
        rw [Option.some.inj hplace] at hgrouped
        cases hgrouped
      have hbody := (navigates_value havoids hflat hspelled path).bind
        (apartFrom_bindings havoids f.row (.slot f.slot :: path) (f.exprs.map (·.2)))
        (fun hsome => by simp [hungrouped] at hsome) s.config.inlinePaths
      exact .inl (hbody.elsewhere hungrouped _ _)

end

/-! ## Thunks -/

theorem Supplied.apartFrom {s : Naming} (havoids : ∀ node, s.name node ≠ s.config.table)
    {ns : List String} {σ : List (Binding Expr)} (h : Supplied s ns σ) :
    ApartFrom s.config.table σ := by
  intro b hb
  obtain ⟨-, hpath, node, hwalk⟩ := h b hb
  refine ⟨hpath, fun p heq => ?_⟩
  rw [heq] at hwalk
  exact havoids node (by simpa [Expr.walk, reads] using hwalk.symm)

section

variable {c : Config} {place : Place} {param : String} {σs : List (List (Binding Expr))}
  (hσs : ∀ σ ∈ σs, ApartFrom c.table σ)

include hσs

/-- What is put in place in a function does not touch its parameters. -/
theorem Navigates.substituteEach_lambda {f : Lambda Expr} (h : Navigates c place param f.body.own)
    (hparam : param ∈ f.params) : Navigates c place param (f.substituteEach σs).body.own := by
  induction σs generalizing f with
  | nil => exact h
  | cons σ σs ih =>
    obtain ⟨hσ, hσs⟩ := List.forall_mem_cons.mp hσs
    have hkept : param ∉ (without f.params σ).map (·.name) := by
      rw [← valueOf?_eq_none, valueOf?_without, if_pos hparam]
    have hbody := h.substitute (hσ.subset fun _ hb => mem_of_mem_without hb) fun _ => hkept
    exact ih hσs hbody hparam

theorem Navigates.substituteEach {a : Argument} (h : Navigates c place param a.own)
    (hplace : place.group? = none) : Navigates c place param (a.substituteEach σs).own := by
  induction σs generalizing a with
  | nil => exact h
  | cons σ σs ih =>
    obtain ⟨hσ, hσs⟩ := List.forall_mem_cons.mp hσs
    have hnone (σ : List (Binding Expr)) : place.group?.isSome → param ∉ σ.map (·.name) := by
      simp [hplace]
    refine ih hσs ?_
    cases a with
    | value e => exact Navigates.substitute h hσ (hnone _)
    | lambda f =>
      exact Navigates.substitute h (hσ.subset fun _ hb => mem_of_mem_without hb) (hnone _)

end

/-- In the thunk of a query, only functions of its groups navigate, and they navigate their own row. -/
theorem navigated_argument {s : Naming} (havoids : ∀ node, s.name node ≠ s.config.table)
    {q : Query Expr} (hspelled : s.config.table ∉ querySpelled q)
    {σs : List (List (Binding Expr))} (hσs : ∀ σ ∈ σs, ApartFrom s.config.table σ) {path : Path}
    {a : Argument} (ha : a ∈ ((queryImage s path q).substituteEach σs).pipeline.arguments)
    {e rows : Expr} (he : e ∈ a.own) (hrows : e.navigated? s.config.table = some rows) :
    q.grouping.isSome ∧ ∃ f ∈ ((queryImage s path q).substituteEach σs).groupFunctions, ∃ p,
      a = .lambda f ∧ f.params = [p] ∧ rows = GroupView.rows p := by
  rw [Thunk.arguments_substituteEach] at ha
  obtain ⟨a, hargument, rfl⟩ := List.mem_map.mp ha
  have hnone (h : Navigates s.config ⟨none, .plain⟩ "" a.own) : False := by
    cases (h.substituteEach hσs rfl e he rows hrows).1
  rcases arguments_queryImage s path q a hargument with rfl | ⟨p, hp, rfl⟩
  · exact (hnone (.cons rfl .nil)).elim
  · rcases navigates_piece havoids hspelled hp path with hnavigates | ⟨f, hf, hlambda, hbody⟩
    · exact (hnone hnavigates).elim
    · rw [hlambda, Argument.substituteEach_lambda] at he ⊢
      have hparam : f.param s path ∈ (f.onGroup s path).params := List.mem_singleton_self _
      obtain ⟨g, hgrouping, -⟩ := Query.onGroups_cases hf
      refine ⟨by rw [hgrouping]; rfl, _, ?_, f.param s path, rfl,
        Lambda.params_substituteEach _ σs, ?_⟩
      · rw [Thunk.groupFunctions_substituteEach, groupFunctions_queryImage, List.map_map]
        exact List.mem_map_of_mem hf
      · exact (hbody.substituteEach_lambda hσs hparam e he rows hrows).2

/-- Lowering shows a group under the aliases of the query that made it. In the thunk of a query, and
in the thunks of its nested queries at every depth, each call that looks up the aliases shows the rows
of the group that a function of the same thunk is called with, and no thunk lies between the function
and the call; the table of the thunk has the aliases of its query. -/
theorem groups_navigated_under_own_aliases {q : Query Expr} {c : Config} {node : Path} {t : Thunk}
    {ctx : Context} (h : (Context.new c).lower node q = (.ok t, ctx))
    (htable : c.table ∉ q.identifiers) :
    List.Forall₂
      (fun q' t' =>
        t'.table?.map (·.get .aliases) = some q'.aliases ∧
          ∀ a ∈ t'.pipeline.arguments, ∀ e ∈ a.own, ∀ rows,
            e.navigated? c.table = some rows →
              q'.grouping.isSome ∧ ∃ f ∈ t'.groupFunctions, ∃ p,
                a = .lambda f ∧ f.params = [p] ∧ rows = GroupView.rows p)
      (q :: queryNested q) (t :: t.thunks) := by
  have hlowered := Lowered.ofLower h
  obtain ⟨hconfig, rfl⟩ := Context.lower_image h
  have hconfig : ctx.naming.config = c := hconfig
  subst hconfig
  have havoids (node : Path) : ctx.naming.name node ≠ ctx.naming.config.table :=
    madeUp_ne_table hlowered.name_not_mem node
  have hspelled : ctx.naming.config.table ∉ querySpelled q := by
    rwa [Query.identifiers, mem_distinct] at htable
  refine (nests_self node q).imp fun q' t' hnested => ?_
  have hspelled' : ctx.naming.config.table ∉ querySpelled q' := fun hmem =>
    hspelled (hnested.spelled _ hmem)
  obtain ⟨node', σs, rfl, hσs, -⟩ := hnested
  have hapart : ∀ σ ∈ σs, ApartFrom ctx.naming.config.table σ := fun σ hσ =>
    (hσs σ hσ).2.apartFrom havoids
  refine ⟨?_, fun a ha e he rows hrows => navigated_argument havoids hspelled' hapart ha he hrows⟩
  rw [Thunk.table?, Thunk.declarations_substituteEach, declarations_queryImage]
  exact congrArg some (nameTable_aliases q')

/-- `from x in xs groupby x.k select (from y in _g select y.v)`. -/
def groupInside : Query Expr :=
  groupedSelect none (.query ⟨1, 33⟩
    { table := ⟨"y", .var ⟨1, 44⟩ "_g", .nowhere⟩, joins := [], filter := none, grouping := none,
      sorting := none, limit := none, projection := some ⟨[(Expr.name "y").field "v"], .nowhere⟩,
      pos := .nowhere })

/-- The current group is shown in front of the nested query that reads it. -/
theorem groups_navigated_under_own_aliases_inside :
    ∃ t ctx, (Context.new .inlined).lower [] groupInside = (.ok t, ctx) ∧
      t.table?.map (·.get .aliases) = some ["x"] ∧
        ∃ f ∈ t.groupFunctions, ∃ e ∈ f.body.own, ∃ p, f.params = [p] ∧
          e.navigated? Config.inlined.table = some (GroupView.rows p) := by
  obtain ⟨t, ctx, h⟩ : ∃ t ctx, (Context.new .inlined).lower [] groupInside = (.ok t, ctx) :=
    ⟨_, _, rfl⟩
  have hqueries := groups_navigated_under_own_aliases h (by decide)
  obtain ⟨⟨htable, hcalls⟩, -⟩ := List.forall₂_cons.mp hqueries
  refine ⟨t, ctx, h, htable, ?_⟩
  obtain ⟨f, e, rows, hargument, he, hrows⟩ : ∃ f e rows, .lambda f ∈ t.pipeline.arguments ∧
      e ∈ f.body.own ∧ e.navigated? Config.inlined.table = some rows := by
    obtain ⟨hconfig, rfl⟩ := Context.lower_image h
    obtain ⟨config, mistakes, names, frames⟩ := ctx
    obtain rfl : config = .inlined := hconfig
    let param := (names.nameOf [.slot (.item 0)]).1
    let group := GroupView.current .inlined param
    let place : Place := ⟨some groupInside.row, .counted⟩
    refine ⟨_, group, _, List.mem_of_getElem? (i := 2) rfl, ?_, rfl⟩
    have hreads : place.readsOfGroup .inlined param [] ["_g"] = [⟨"_g", group⟩] := rfl
    have hfree : Config.inlined.table ∈ group.free := List.mem_cons_of_mem _ List.mem_cons_self
    change group ∈ (place.attach .inlined param [] ["_g"] _).own
    rw [Place.attach, hreads]
    simp [hfree, bind, Expr.own, ownLocals, Expr.mem_own]
  obtain ⟨-, f', hf, p, hlambda, hparams, rfl⟩ := hcalls _ hargument e he rows hrows
  cases hlambda
  exact ⟨f, hf, e, he, p, hparams, hrows⟩

end Comprehension
