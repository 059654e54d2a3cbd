import Comprehension.Proofs.BindingModes
import Comprehension.Proofs.Parts

/-!
Names that are fetched from a group. An occurrence that is fetched is, in the function of a group,
what the group has under the name, as it stands or through a local name. It stays so whatever the
functions around it put in place.
-/

namespace Comprehension

/-! ## Places where a value is read -/

/-- At the position the expression uses the name, and nothing in it binds the name there. -/
def Expr.UsesAt (e : Expr) (n : String) (p : Position) : Prop :=
  ⟨outside, n, p⟩ ∈ e.uses (boundOutside n)

/-- At the position the expression reads the value, which stands there, or which a `let` block binds
to the variable that stands there. -/
def Expr.Fetches (e : Expr) (v : Expr) (p : Position) : Prop :=
  v.withPos p ∈ e.parts ∨
    ∃ q bs body n, .letIn q bs body ∈ e.parts ∧ valueOf? n bs = some v ∧ body.UsesAt n p

/-- Substitution of any of the bindings leaves the value as it is, wherever it stands. -/
def Fixed (v : Expr) (σ : List (Binding Expr)) : Prop :=
  ∀ σ', σ' ⊆ σ → v.substitute σ' = v ∧ ∀ p, (v.withPos p).substitute σ' = v.withPos p

theorem Fixed.mono {v : Expr} {σ σ' : List (Binding Expr)} (h : Fixed v σ) (hσ : σ' ⊆ σ) :
    Fixed v σ' :=
  fun τ hτ => h τ fun _ hb => hσ (hτ hb)

theorem valueOf?_substituteLocals {v : Expr} {σ bs : List (Binding Expr)} {n : String}
    (hσ : Fixed v σ) (h : valueOf? n bs = some v) : valueOf? n (substituteLocals σ bs) = some v := by
  induction bs generalizing σ with
  | nil => cases h
  | cons b bs ih =>
    rw [substituteLocals]
    rw [valueOf?] at h ⊢
    split at h
    · rename_i hname
      cases h
      rw [if_pos hname, (hσ σ (List.Subset.refl σ)).1]
    · rename_i hname
      rw [if_neg hname]
      exact ih (hσ.mono fun _ hb => mem_of_mem_without hb) h

namespace Expr

/-- Bindings of other names leave a use of the name. -/
theorem hide_boundOutside {σ : List (Binding Expr)} {n : String} (h : named σ n = false) :
    hide (named σ) (boundOutside n) = boundOutside n := by
  funext m
  by_cases hm : m = n
  · rw [hide, hm, h]
    rfl
  · simp [hide, boundOutside, hm]

theorem UsesAt.substitute {e : Expr} {n : String} {p : Position} (h : e.UsesAt n p)
    {σ : List (Binding Expr)} (hσ : named σ n = false) : (e.substitute σ).UsesAt n p := by
  have huses := uses_substitute σ (boundOutside n) e
  rw [hide_boundOutside hσ] at huses
  exact huses.subset h

theorem UsesAt.bind {e : Expr} {n : String} {p : Position} (h : e.UsesAt n p)
    {σ : List (Binding Expr)} (hσ : named σ n = false) (inline : Bool) :
    (bind σ e inline).UsesAt n p := by
  have huses := uses_bind σ e inline (boundOutside n)
  rw [hide_boundOutside hσ] at huses
  exact huses.subset h

namespace Fetches

variable {e e' v : Expr} {p : Position}

theorem mono (h : e.Fetches v p) (hparts : e.parts ⊆ e'.parts) : e'.Fetches v p := by
  rcases h with h | ⟨q, bs, body, n, hlet, hvalue, huse⟩
  · exact .inl (hparts h)
  · exact .inr ⟨q, bs, body, n, hparts hlet, hvalue, huse⟩

/-- What is put in place from outside leaves what is read. -/
theorem substitute (h : e.Fetches v p) {σ : List (Binding Expr)} (hσ : Fixed v σ) :
    (e.substitute σ).Fetches v p := by
  rcases h with h | ⟨q, bs, body, n, hlet, hvalue, huse⟩
  · obtain ⟨σ', hsub, hmem⟩ := (parts_substitute σ e).kept _ h
    rw [(hσ σ' hsub).2] at hmem
    exact .inl hmem
  · obtain ⟨σ', hsub, hmem⟩ := (parts_substitute σ e).kept _ hlet
    rw [Expr.substitute] at hmem
    have hbound : n ∈ bs.map (·.name) := List.mem_map_of_mem (mem_of_valueOf? hvalue)
    have hhidden : named (without (bs.map (·.name)) σ') n = false := by
      rw [named_without, if_pos hbound]
    exact .inr ⟨q, _, _, n, hmem, valueOf?_substituteLocals (hσ.mono hsub) hvalue,
      huse.substitute hhidden⟩

/-- A rename gives way to its value in a record. -/
theorem renamed (h : e.Fetches v p) (hv : v.isRename = false) : e.renamed.Fetches v p := by
  cases he : e.isRename with
  | false => rwa [renamed_of_not_isRename he]
  | true =>
    obtain ⟨q, a, operand, rfl⟩ : ∃ q a operand, e = .unary q (.rename a) operand := by
      unfold Expr.isRename at he
      split at he
      · exact ⟨_, _, _, rfl⟩
      · cases he
    rcases h with h | ⟨q', bs, body, n, hlet, hvalue, huse⟩
    · rcases List.mem_cons.mp h with heq | h
      · rw [← isRename_withPos p, heq] at hv
        cases hv
      · exact .inl h
    · rcases List.mem_cons.mp hlet with heq | hlet
      · cases heq
      · exact .inr ⟨q', bs, body, n, hlet, hvalue, huse⟩

end Fetches
end Expr

/-! ## Values of groups -/

theorem valueOf?_eq_none_of_subset {σ σ' : List (Binding Expr)} {n : String}
    (h : ∀ b ∈ σ, b.name ≠ n) (hσ : σ' ⊆ σ) : valueOf? n σ' = none := by
  rw [valueOf?_eq_none]
  intro hmem
  obtain ⟨b, hb, hname⟩ := List.mem_map.mp hmem
  exact h b (hσ hb) hname

theorem fixed_key {param : String} {σ : List (Binding Expr)} (h : ∀ b ∈ σ, b.name ≠ param) :
    Fixed (GroupView.key param) σ := by
  intro σ' hσ
  have hparam := valueOf?_eq_none_of_subset h hσ
  have hname : (Expr.name param).substitute σ' = .name param := by
    rw [Expr.name, Expr.substitute, hparam]
  exact ⟨congrArg (Expr.unary _ _) hname, fun p => congrArg (Expr.unary p _) hname⟩

theorem fixed_current {c : Config} {param : String} {σ : List (Binding Expr)}
    (h : ∀ b ∈ σ, b.name ≠ param) (htable : ∀ b ∈ σ, b.name ≠ c.table) :
    Fixed (GroupView.current c param) σ := by
  intro σ' hσ
  have hname {m : String} (h : ∀ b ∈ σ, b.name ≠ m) :
      (Expr.name m).substitute σ' = .name m := by
    rw [Expr.name, Expr.substitute, valueOf?_eq_none_of_subset h hσ]
  have hrows : (GroupView.rows param).substitute σ' = GroupView.rows param :=
    congrArg (Expr.unary _ _) (hname h)
  have haliases : substituteAll σ' [NameList.aliases.access c.table] =
      [NameList.aliases.access c.table] :=
    congrArg (fun e => [Expr.binary _ .index e (Expr.string NameList.aliases.key)]) (hname htable)
  have hsend (p : Position) :
      (Expr.method p (GroupView.rows param) "withAliases"
        [NameList.aliases.access c.table]).substitute σ' =
        .method p (GroupView.rows param) "withAliases" [NameList.aliases.access c.table] := by
    rw [Expr.substitute, hrows, haliases]
  exact ⟨hsend _, hsend⟩

/-! ## Nested queries -/

section

variable {s : Naming} {n : String} {v : Expr} {place : Place} {param : String}
  {bound free : List String}

/-- A nested query that reads the name is given what the group has under it. -/
theorem valueOf?_readsOfGroup (hread : place.read? s.config param n = some v) (hbound : n ∉ bound)
    (hfree : n ∈ free) {select : Binding Expr → Bool} (hselect : select ⟨n, v⟩ = true) :
    valueOf? n ((place.readsOfGroup s.config param bound free).filter select) = some v := by
  have hmem : ⟨n, v⟩ ∈ (place.readsOfGroup s.config param bound free).filter select := by
    refine List.mem_filter.mpr ⟨List.mem_filterMap.mpr ⟨n, mem_distinct.mpr hfree, ?_⟩, hselect⟩
    rw [if_neg hbound, hread]
    rfl
  cases hvalue : valueOf? n ((place.readsOfGroup s.config param bound free).filter select) with
  | none => exact absurd (List.mem_map_of_mem hmem) (valueOf?_eq_none.mp hvalue)
  | some w =>
    have hw := Place.read?_of_mem (List.mem_filter.mp (mem_of_valueOf? hvalue)).1
    exact hw.symm.trans hread

theorem named_readsOfGroup (hread : place.read? s.config param n = some v)
    {select : Binding Expr → Bool} (hselect : select ⟨n, v⟩ = false) :
    named ((place.readsOfGroup s.config param bound free).filter select) n = false := by
  rw [named, Option.isSome_eq_false_iff, Option.isNone_iff_eq_none]
  cases hvalue : valueOf? n ((place.readsOfGroup s.config param bound free).filter select) with
  | none => rfl
  | some w =>
    obtain ⟨hmem, hselected⟩ := List.mem_filter.mp (mem_of_valueOf? hvalue)
    have hw : w = v := Option.some.inj ((Place.read?_of_mem hmem).symm.trans hread)
    rw [hw, hselect] at hselected
    cases hselected

theorem parts_bind (bs : List (Binding Expr)) (e : Expr) :
    e.parts ⊆ (bind bs e false).parts := by
  rw [bind]
  split
  · exact List.Subset.refl _
  · exact fun f hf => List.mem_cons_of_mem _ (List.mem_append_right _ hf)

/-- A `let` block reads its values where their names are used. -/
theorem fetches_locals {bs : List (Binding Expr)} (hvalue : valueOf? n bs = some v) {e : Expr}
    {p : Position} (h : e.UsesAt n p) : (bind bs e false).Fetches v p := by
  cases bs with
  | nil => cases hvalue
  | cons b bs => exact .inr ⟨e.pos, b :: bs, e, n, Expr.mem_parts _, hvalue, h⟩

/-- What is attached is read where the lowered query uses its name. -/
theorem fetches_attach (hread : place.read? s.config param n = some v) (hbound : n ∉ bound)
    (hfree : n ∈ free) {e : Expr} {p : Position} (h : e.UsesAt n p) :
    (place.attach s.config param bound free e).Fetches v p := by
  rw [Place.attach]
  cases hconsults : decide (s.config.table ∈ v.free) with
  | true =>
    have hothers : named ((place.readsOfGroup s.config param bound free).filter
        fun b => !decide (s.config.table ∈ b.value.free)) n = false :=
      named_readsOfGroup hread (by simpa using hconsults)
    exact fetches_locals (valueOf?_readsOfGroup hread hbound hfree hconsults)
      (h.bind hothers s.config.inlinePaths)
  | false =>
    have hvalue : valueOf? n ((place.readsOfGroup s.config param bound free).filter
        fun b => !decide (s.config.table ∈ b.value.free)) = some v :=
      valueOf?_readsOfGroup hread hbound hfree (by simpa using hconsults)
    refine Expr.Fetches.mono ?_ (parts_bind _ _)
    cases s.config.inlinePaths with
    | false => exact fetches_locals hvalue h
    | true =>
      -- The value is put in the place of the name.
      have hput : PutFor v (boundOutside n)
          ((place.readsOfGroup s.config param bound free).filter
            fun b => !decide (s.config.table ∈ b.value.free)) := by
        intro m hm
        rw [boundOutside] at hm
        split at hm
        · rename_i heq
          exact heq ▸ hvalue
        · cases hm
      rw [bind]
      split
      · rename_i hempty
        rw [List.isEmpty_iff.mp hempty] at hvalue
        cases hvalue
      · exact .inl (fetched_uses v _ _ hput e _ h rfl)

end

/-! ## Clauses on groups -/

section

variable {s : Naming} {n : String} {v : Expr} (hn : Ordinary s n)

include hn

/-- The places of the name in a nested query are uses of it in the lowered one. -/
theorem usesAt_places {q : Query Expr} {p : Position} (h : p ∈ q.places s.config n) (path : Path) :
    ⟨outside, n, p⟩ ∈ (queryImage s path q).uses (boundOutside n) := by
  obtain ⟨o, ho, hplace⟩ := List.mem_filterMap.mp h
  split at hplace
  · rename_i heq
    cases hplace
    have hfits : Fits s (heldOutside n) (boundOutside n) := by
      intro m a hm _
      rw [heldOutside] at hm
      split at hm
      · rename_i hmn
        cases hm
        rw [boundOutside, if_pos hmn]
      · cases hm
    have hkeeps := keeps_queryImage path (q.each_of_forall keepsLambdas) hfits
    have huse := hkeeps o ho (heq ▸ rfl) fun m => heq ▸ hn.madeUp m
    exact heq ▸ huse
  · cases hplace

variable (s n v) in
/-- Wherever the expression stands on a group that has the value under the name, its image reads the
value where an occurrence is fetched. -/
def FetchesFates (e : Expr) : Prop :=
  ∀ (place : Place) param path bound searched, place.read? s.config param n = some v → n ∉ bound →
    ∀ p, .fetched p ∈ e.fates s.config n true place →
      (e.image s place param path bound searched).Fetches v p

omit hn in
theorem fetches_imageAll {es : List Expr} (h : ∀ e ∈ es, FetchesFates s n v e) {place : Place}
    {param : String} (hread : place.read? s.config param n = some v) {bound : List String}
    (hbound : n ∉ bound) (path : Path) (step : Nat → Step) (i : Nat) {p : Position}
    (hp : .fetched p ∈ fatesAll s.config n true place es) :
    ∃ e ∈ imageAll s place param path bound step i es, e.Fetches v p := by
  induction es generalizing i with
  | nil => cases hp
  | cons e es ih =>
    rw [imageAll]
    rcases List.mem_append.mp hp with hp | hp
    · exact ⟨_, List.mem_cons_self, h e List.mem_cons_self _ _ _ _ _ hread hbound p hp⟩
    · obtain ⟨f, hf, hfetches⟩ := ih (fun e he => h e (List.mem_cons_of_mem _ he)) (i + 1) hp
      exact ⟨f, List.mem_cons_of_mem _ hf, hfetches⟩

omit hn in
/-- What an argument reads, its aggregate or another call reads. -/
theorem fetches_call {es : List Expr} (ih : ∀ e ∈ es, FetchesFates s n v e) (q : Position)
    (m : String) : FetchesFates s n v (.sequence q (.call m) es) := by
  intro place param path bound searched hread hbound p hp
  have hform := callForm s place param path bound searched q m es
  generalize (Expr.sequence q (.call m) es).image s place param path bound searched = e
    at hform ⊢
  generalize (Expr.sequence q (.call m) es).demands s.config place path bound = ds at hform
  rw [Expr.fates] at hp
  cases hform with
  | plain ds es h hcase =>
    rw [hcase] at hp
    obtain ⟨f, hf, hfetches⟩ := fetches_imageAll ih hread hbound path .part 0 hp
    exact hfetches.mono fun g hg => List.mem_cons_of_mem _ (parts_subset_partsAll hf hg)
  | allRows es prior names into h hcase =>
    rw [hcase] at hp
    cases hp
  | eachRow ds arg rest prior names into h hds hcase =>
    -- Nothing is fetched in the argument of an aggregate that is read for each row.
    rw [List.length_cons, hcase] at hp
    obtain ⟨f, -, hp⟩ := List.mem_flatMap.mp hp
    split at hp
    · cases List.mem_singleton.mp hp
    · cases hp
  | rowsAtOnce arg rest prior names into h hcase =>
    rw [List.length_cons, hcase] at hp
    have harg := ih arg List.mem_cons_self place param (.part 0 :: path) bound false hread hbound p hp
    refine harg.mono fun g hg => ?_
    rw [Expr.parts, partsAll]
    exact List.mem_cons_of_mem _ (List.mem_append_right _ (List.mem_append_left _ hg))

theorem fetchesFates (e : Expr) : FetchesFates s n v e := by
  induction e using Expr.written_induction with
  | literal | letIn | record | postIncrement | subquery =>
    intro place param path bound searched hread hbound p hp
    cases hp
  | var q m =>
    intro place param path bound searched hread hbound p hp
    rw [Expr.fates] at hp
    split at hp
    · rename_i hm
      subst hm
      cases List.mem_singleton.mp hp
      rw [Expr.image, Place.varImage_of_read? hbound hn.table (fun h => hn.rowNumber h.1) hread]
      exact .inl (v.withPos q).mem_parts
    · cases hp
  | unary q f e ih =>
    intro place param path bound searched hread hbound p hp
    exact (ih place param (.part 0 :: path) bound false hread hbound p hp).mono
      (List.subset_cons_self ..)
  | binary q f l r ihl ihr =>
    intro place param path bound searched hread hbound p hp
    have hsides (searched : Bool) :=
      (List.mem_append.mp hp).imp (ihl place param (.part 0 :: path) bound false hread hbound p)
        (ihr place param (.part 1 :: path) bound searched hread hbound p)
    have hleft (f : Binary) {l r : Expr} : l.parts ⊆ (Expr.binary q f l r).parts :=
      fun g hg => List.mem_cons_of_mem _ (List.mem_append_left _ hg)
    have hright (f : Binary) {l r : Expr} : r.parts ⊆ (Expr.binary q f l r).parts :=
      fun g hg => List.mem_cons_of_mem _ (List.mem_append_right _ hg)
    cases f with
    | operator op =>
      exact (hsides op.searches).elim (fun h => h.mono (hleft _)) fun h => h.mono (hright _)
    | index | computedField =>
      exact (hsides false).elim (fun h => h.mono (hleft _)) fun h => h.mono (hright _)
  | sequence q f es ih =>
    cases f with
    | call m => exact fetches_call ih q m
    | list | tuple | construct =>
      intro place param path bound searched hread hbound p hp
      obtain ⟨f, hf, hfetches⟩ := fetches_imageAll ih hread hbound path .part 0 hp
      exact hfetches.mono fun g hg => List.mem_cons_of_mem _ (parts_subset_partsAll hf hg)
  | method q r m es ihr ih =>
    intro place param path bound searched hread hbound p hp
    rw [Expr.image]
    rcases List.mem_append.mp hp with hp | hp
    · exact (ihr place param (.part 0 :: path) bound false hread hbound p hp).mono
        fun g hg => List.mem_cons_of_mem _ (List.mem_append_left _ hg)
    · obtain ⟨f, hf, hfetches⟩ := fetches_imageAll ih hread hbound path .part 1 hp
      exact hfetches.mono fun g hg =>
        List.mem_cons_of_mem _ (List.mem_append_right _ (parts_subset_partsAll hf hg))
  | lambda q ps e ih =>
    intro place param path bound searched hread hbound p hp
    rw [Expr.fates] at hp
    split at hp
    · cases hp
    · rename_i hps
      exact (ih place param (.part 0 :: path) (ps ++ bound) false hread
        (List.not_mem_append hps hbound) p hp).mono (List.subset_cons_self ..)
  | query q query hq =>
    intro place param path bound searched hread hbound p hp
    rw [Expr.fates] at hp
    split at hp
    · rename_i hattached
      obtain ⟨p', hp', heq⟩ := List.mem_map.mp hp
      cases heq
      have huse := usesAt_places hn hp' path
      rw [Expr.image]
      apply fetches_attach hread hbound hattached.2
      cases searched with
      | false => exact huse
      | true => exact List.mem_append_left _ huse
    · split at hp
      · cases List.mem_singleton.mp hp
      · cases hp

/-- The function of a group reads the value where an occurrence is fetched. -/
theorem fetches_onGroup {q : Query Expr} {f : RowFunction} (h : f ∈ q.onGroups) (path : Path)
    (hread : f.place.read? s.config (f.param s path) n = some v) (hv : v.isRename = false)
    {p : Position} (hp : .fetched p ∈ f.fates s.config n true) :
    (f.onGroup s path).body.Fetches v p := by
  obtain ⟨pair, hpair, hp⟩ := List.mem_flatMap.mp hp
  have hfetches : (f.image s path pair).Fetches v p :=
    fetchesFates hn pair.2 f.place _ _ [] false hread List.not_mem_nil p hp
  obtain ⟨g, -, -, -, hrecord | ⟨hrecord, pair', hexprs⟩⟩ := Query.onGroups_cases h
  · have hrenamed := hfetches.renamed hv
    have hmem : (f.image s path pair).renamed ∈ (f.exprs.map (f.image s path)).map Expr.renamed :=
      List.mem_map_of_mem (List.mem_map_of_mem hpair)
    rw [RowFunction.onGroup, hrecord]
    refine hrenamed.mono fun g hg => List.mem_cons_of_mem _ ?_
    exact List.mem_append_left _ (List.mem_append_left _ (List.mem_append_left _
      (parts_subset_partsAll hmem hg)))
  · rw [hexprs, List.mem_singleton] at hpair
    rw [RowFunction.onGroup, hrecord, hexprs, ← hpair]
    exact hfetches

end

/-! ## Functions under what is put in place -/

/-- The function of a group reads the value that the group has where an occurrence is fetched. -/
def Lambda.FetchesAt (f : Lambda Expr) (value : String → Expr) (fates : List Fate) : Prop :=
  ∃ param, f.params = [param] ∧ ∀ p, .fetched p ∈ fates → f.body.Fetches (value param) p

theorem Lambda.params_substituteEach (f : Lambda Expr) (σs : List (List (Binding Expr))) :
    (f.substituteEach σs).params = f.params := by
  induction σs generalizing f with
  | nil => rfl
  | cons σ σs ih => exact ih (f.substitute σ)

theorem Lambda.fetches_substituteEach {v : Expr} {p : Position} {σs : List (List (Binding Expr))}
    (hσs : ∀ σ ∈ σs, Fixed v σ) {f : Lambda Expr} (h : f.body.Fetches v p) :
    (f.substituteEach σs).body.Fetches v p := by
  induction σs generalizing f with
  | nil => exact h
  | cons σ σs ih =>
    obtain ⟨hσ, hσs⟩ := List.forall_mem_cons.mp hσs
    exact ih hσs (h.substitute (hσ.mono fun _ hb => mem_of_mem_without hb))

end Comprehension
