import Comprehension.Proofs.Parts
import Comprehension.Proofs.Semantics

/-!
Putting values in place. An expression rests on the names that it needs, and substitution is
evaluation where each replaced name has the value put for it, as long as nothing on the way down to
the name binds what the value needs. A `let` block of values that need none of its names gives just
these values, so that a body means the same with its bindings before it and with its bindings in it.
-/

namespace Comprehension

/-! ## Needed names -/

mutual
/-- The names of the environment that the value depends on. Thunks are looked into, and a counter is
needed where it is incremented. -/
def Expr.needs : Expr → List String
  | .literal _ _ => []
  | .var _ n => [n]
  | .unary _ _ e => e.needs
  | .binary _ _ l r => l.needs ++ r.needs
  | .sequence _ _ es => needsAll es
  | .method _ r _ es => r.needs ++ needsAll es
  | .lambda _ ⟨ps, e⟩ => unbound ps e.needs
  | .query _ q => queryFree q
  | .letIn _ bs e => needsLocals e.needs bs
  | .record _ vs ns as row =>
    needsAll vs ++ ns.needs ++ as.needs ++
      (match row with
        | some r => r.needs
        | none => [])
  | .postIncrement _ n => [n]
  | .subquery _ t => t.needs
termination_by structural x => x

def needsAll : List Expr → List String
  | [] => []
  | e :: es => e.needs ++ needsAll es
termination_by structural x => x

/-- A local name is bound in what follows it. -/
def needsLocals (body : List String) : List (Binding Expr) → List String
  | [] => body
  | ⟨n, e⟩ :: bs => e.needs ++ unbound [n] (needsLocals body bs)
termination_by structural x => x

def Thunk.needs : Thunk → List String
  | ⟨ds, pipeline⟩ => unbound (ds.map Declaration.name) pipeline.needs
termination_by structural x => x

def Pipeline.needs : Pipeline → List String
  | ⟨source, stages⟩ => source.needs ++ needsStages stages
termination_by structural x => x

def needsStages : List Stage → List String
  | [] => []
  | s :: ss => s.needs ++ needsStages ss
termination_by structural x => x

def Stage.needs : Stage → List String
  | .join _ joined on =>
    joined.needs ++
      (match on with
        | some ⟨ps, e⟩ => unbound ps e.needs
        | none => [])
  | .filter ⟨ps, e⟩ => unbound ps e.needs
  | .groupBy ⟨ps, e⟩ having =>
    unbound ps e.needs ++
      (match having with
        | some ⟨qs, h⟩ => unbound qs h.needs
        | none => [])
  | .orderBy specs => needsSpecs specs
  | .limit offset size => offset.needs ++ size.needs
  | .select ⟨ps, e⟩ => unbound ps e.needs
termination_by structural x => x

def needsSpecs : List (SortSpec Expr) → List String
  | [] => []
  | ⟨⟨ps, e⟩, _⟩ :: ss => unbound ps e.needs ++ needsSpecs ss
termination_by structural x => x
end

/-! ## Names at a node -/

def Argument.params : Argument → List String
  | .value _ => []
  | .lambda f => f.params

/-- The parameters of the functions that the calls of a chain are given. -/
def paramsOf (as : List Argument) : List String := as.flatMap Argument.params

theorem paramsOf_append (as as' : List Argument) :
    paramsOf (as ++ as') = paramsOf as ++ paramsOf as' := List.flatMap_append

/-- The names that the node binds in some of its parts. -/
def Expr.binds : Expr → List String
  | .lambda _ f => f.params
  | .letIn _ bs _ => bs.map (·.name)
  | .subquery _ t => t.declarations.map Declaration.name ++ paramsOf t.pipeline.arguments
  | _ => []

/-- The names that stand at the node beyond the reach of substitution. -/
def Expr.carries : Expr → List String
  | .postIncrement _ n => [n]
  | .subquery _ t => t.declarations.map Declaration.name
  | _ => []

section

variable {V : Type} {M : Meanings V}

/-- What the query means does not depend on names that are not free in it. -/
def Meanings.ReadsFree (M : Meanings V) (q : Query Expr) : Prop :=
  ∀ env env' : Env V, (∀ n ∈ queryFree q, env n = env' n) → M.query q env = M.query q env'

/-- The value depends on no names but those that the expression needs. -/
def Expr.RestsOnNeeds (M : Meanings V) (e : Expr) : Prop :=
  ∀ env env' : Env V, (∀ n ∈ e.needs, env n = env' n) → e.meaning M env = e.meaning M env'

/-- The node lets the bindings through to its parts. -/
structure Expr.Admits (M : Meanings V) (σ : List (Binding Expr)) (e : Expr) : Prop where
  query : ∀ p q, e = .query p q → M.ReadsFree q ∧ ∀ n ∈ queryFree q, n ∉ σ.map (·.name)
  binds : ∀ n ∈ e.binds, ∀ b ∈ σ, n ∉ b.value.needs
  carries : ∀ n ∈ e.carries, n ∉ σ.map (·.name)

theorem Expr.Admits.mono {σ σ' : List (Binding Expr)} {e : Expr} (h : e.Admits M σ) (hσ : σ' ⊆ σ) :
    e.Admits M σ' where
  query p q hq := ⟨(h.query p q hq).1,
    fun n hn hm => (h.query p q hq).2 n hn (List.map_subset _ hσ hm)⟩
  binds n hn b hb := h.binds n hn b (hσ hb)
  carries n hn hm := h.carries n hn (List.map_subset _ hσ hm)

theorem meaning_withPos (M : Meanings V) (env : Env V) (p : Position) (e : Expr) :
    (e.withPos p).meaning M env = e.meaning M env := by
  cases e with
  | record _ _ _ _ row => cases row <;> rfl
  | _ => rfl

/-! ## Environments that agree -/

/-- Each bound name takes the value of its expression, all computed beforehand. -/
def Env.binding (M : Meanings V) (env : Env V) (σ : List (Binding Expr)) : Env V :=
  fun n =>
    match valueOf? n σ with
    | some e => e.meaning M env
    | none => env n

/-- With the values put for their names, the first environment is the second one on the names. -/
def Agree (M : Meanings V) (σ : List (Binding Expr)) (env env' : Env V) (ns : List String) : Prop :=
  ∀ n ∈ ns, env.binding M σ n = env' n

theorem without_subset (ps : List String) (σ : List (Binding Expr)) : without ps σ ⊆ σ :=
  List.filter_subset_self _

namespace Agree

variable {σ : List (Binding Expr)} {env env' : Env V} {ns ns' : List String}

theorem left (h : Agree M σ env env' (ns ++ ns')) : Agree M σ env env' ns :=
  fun n hn => h n (List.mem_append_left _ hn)

theorem right (h : Agree M σ env env' (ns ++ ns')) : Agree M σ env env' ns' :=
  fun n hn => h n (List.mem_append_right _ hn)

/-- A name for which nothing is put. -/
theorem name (h : Agree M σ env env' ns) {n : String} (hn : n ∈ ns) (hσ : n ∉ σ.map (·.name)) :
    env n = env' n := by
  rw [← h n hn, Env.binding, valueOf?_eq_none.mpr hσ]

/-- New names hide the bindings, and the values do not see the new names. -/
theorem merge (hσ : ∀ b ∈ σ, b.value.RestsOnNeeds M) {ps : List String}
    (hps : ∀ n ∈ ps, ∀ b ∈ σ, n ∉ b.value.needs) (h : Agree M σ env env' (unbound ps ns))
    (ρ : Env V) : Agree M (without ps σ) (env.merge ps ρ) (env'.merge ps ρ) ns := by
  intro n hn
  by_cases hnps : n ∈ ps
  · simp [Env.binding, valueOf?_without, hnps, Env.merge]
  · have hbefore := h n (mem_unbound.mpr ⟨hn, hnps⟩)
    rw [Env.merge, if_neg hnps, ← hbefore]
    simp only [Env.binding, valueOf?_without, if_neg hnps]
    cases hv : valueOf? n σ with
    | none => exact if_neg hnps
    | some e =>
      have hb := mem_of_valueOf? hv
      exact hσ _ hb _ _ fun m hm => if_neg fun hmps => hps m hmps _ hb hm

theorem set (hσ : ∀ b ∈ σ, b.value.RestsOnNeeds M) {n : String}
    (hn : ∀ b ∈ σ, n ∉ b.value.needs) (h : Agree M σ env env' (unbound [n] ns)) (v : V) :
    Agree M (without [n] σ) (env.set n v) (env'.set n v) ns := by
  have hset (env : Env V) : env.set n v = env.merge [n] fun _ => v := by
    funext m
    simp [Env.set, Env.merge]
  rw [hset, hset]
  refine merge hσ (fun m hm => ?_) h _
  rw [List.mem_singleton.mp hm]
  exact hn

/-- A declaration that no binding goes by hides none. -/
theorem declare (hσ : ∀ b ∈ σ, b.value.RestsOnNeeds M) {ds : List Declaration}
    (hbinds : ∀ n ∈ ds.map Declaration.name, ∀ b ∈ σ, n ∉ b.value.needs)
    (hcarries : ∀ n ∈ ds.map Declaration.name, n ∉ σ.map (·.name))
    (h : Agree M σ env env' (unbound (ds.map Declaration.name) ns)) :
    Agree M σ (ds.foldl (Declaration.declare M) env) (ds.foldl (Declaration.declare M) env') ns := by
  induction ds generalizing env env' with
  | nil => simpa [unbound] using h
  | cons d ds ih =>
    rw [List.map_cons] at hbinds hcarries h
    obtain ⟨hd, hds⟩ := List.forall_mem_cons.mp hbinds
    obtain ⟨hd', hds'⟩ := List.forall_mem_cons.mp hcarries
    have hhidden : without [d.name] σ = σ := by
      refine List.filter_eq_self.mpr fun b hb => ?_
      have hne : b.name ≠ d.name := fun heq => hd' (heq ▸ List.mem_map_of_mem hb)
      simpa using hne
    have hset (v : V) : Agree M σ (env.set d.name v) (env'.set d.name v)
        (unbound (ds.map Declaration.name) ns) := by
      rw [← hhidden]
      refine set hσ hd (fun n hn => h n ?_) v
      simp only [mem_unbound, List.mem_cons, List.not_mem_nil, not_or] at hn ⊢
      exact ⟨hn.1.1, hn.2.1, hn.1.2⟩
    cases d with
    | table n names => exact ih hds hds' (hset (M.table names))
    | counter n => exact ih hds hds' (hset M.zero)

end Agree

/-! ## Substitution -/

/-- The values rest on the names that they need. -/
def Resting (M : Meanings V) (σ : List (Binding Expr)) : Prop := ∀ b ∈ σ, b.value.RestsOnNeeds M

theorem Resting.without {σ : List (Binding Expr)} (h : Resting M σ) (ps : List String) :
    Resting M (without ps σ) := fun b hb => h b (without_subset ps σ hb)

/-- Each of the nodes lets the bindings through. -/
def AdmitAll (M : Meanings V) (σ : List (Binding Expr)) (es : List Expr) : Prop :=
  ∀ e ∈ es, e.Admits M σ

namespace AdmitAll

variable {σ : List (Binding Expr)} {es es' : List Expr}

theorem left (h : AdmitAll M σ (es ++ es')) : AdmitAll M σ es :=
  fun e he => h e (List.mem_append_left _ he)

theorem right (h : AdmitAll M σ (es ++ es')) : AdmitAll M σ es' :=
  fun e he => h e (List.mem_append_right _ he)

theorem head {e : Expr} (h : AdmitAll M σ (e :: es)) : e.Admits M σ := h e List.mem_cons_self

theorem tail {e : Expr} (h : AdmitAll M σ (e :: es)) : AdmitAll M σ es :=
  fun e' he => h e' (List.mem_cons_of_mem _ he)

theorem without (h : AdmitAll M σ es) (ps : List String) :
    AdmitAll M (Comprehension.without ps σ) es :=
  fun e he => (h e he).mono (without_subset ps σ)

end AdmitAll

/-- The values put do not need the parameters of the functions. -/
def Unneeded (σ : List (Binding Expr)) (ns : List String) : Prop :=
  ∀ n ∈ ns, ∀ b ∈ σ, n ∉ b.value.needs

namespace Unneeded

variable {σ : List (Binding Expr)} {ns ns' : List String}

theorem left (h : Unneeded σ (ns ++ ns')) : Unneeded σ ns :=
  fun n hn => h n (List.mem_append_left _ hn)

theorem right (h : Unneeded σ (ns ++ ns')) : Unneeded σ ns' :=
  fun n hn => h n (List.mem_append_right _ hn)

end Unneeded

/-- The function that a lambda is, once values are put in its body. -/
theorem meaning_function {σ : List (Binding Expr)} (hσ : Resting M σ) {ps : List String}
    (hps : Unneeded σ ps) {e : Expr} {env env' : Env V} (h : Agree M σ env env' (unbound ps e.needs))
    (he : ∀ env env' : Env V, Agree M (without ps σ) env env' e.needs →
      (e.substitute (without ps σ)).meaning M env = e.meaning M env') :
    (fun ρ => (e.substitute (without ps σ)).meaning M (env.merge ps ρ)) =
      fun ρ => e.meaning M (env'.merge ps ρ) := by
  funext ρ
  exact he _ _ (h.merge hσ hps ρ)

mutual
/-- Where each node on the way lets the bindings through, an expression with values put in has the
value that it has where their names have these values. -/
theorem meaning_substitute {σ : List (Binding Expr)} (hσ : Resting M σ) {env env' : Env V} :
    (e : Expr) → AdmitAll M σ e.parts → Agree M σ env env' e.needs →
      (e.substitute σ).meaning M env = e.meaning M env'
  | .literal _ _, _, _ => rfl
  | .var p n, _, h => by
    have hn : env.binding M σ n = env' n := h n (List.mem_singleton_self n)
    rw [Expr.meaning, ← hn, Expr.substitute, Env.binding]
    cases valueOf? n σ with
    | none => rfl
    | some e => exact meaning_withPos M env p e
  | .unary _ _ e, hparts, h => by
    rw [Expr.substitute, Expr.meaning, Expr.meaning, meaning_substitute hσ e hparts.tail h]
  | .binary _ _ l r, hparts, h => by
    rw [Expr.substitute, Expr.meaning, Expr.meaning, meaning_substitute hσ l hparts.tail.left h.left,
      meaning_substitute hσ r hparts.tail.right h.right]
  | .sequence _ _ es, hparts, h => by
    rw [Expr.substitute, Expr.meaning, Expr.meaning, meaningAll_substitute hσ es hparts.tail h]
  | .method _ r _ es, hparts, h => by
    rw [Expr.substitute, Expr.meaning, Expr.meaning, meaning_substitute hσ r hparts.tail.left h.left,
      meaningAll_substitute hσ es hparts.tail.right h.right]
  | .lambda _ ⟨ps, e⟩, hparts, h => by
    have hps : Unneeded σ ps := hparts.head.binds
    rw [Expr.substitute, Expr.meaning, Expr.meaning, meaning_function hσ hps h fun _ _ =>
      meaning_substitute (hσ.without ps) e (hparts.tail.without ps)]
  | .query p q, hparts, h => by
    obtain ⟨hfree, hσq⟩ := hparts.head.query p q rfl
    exact hfree env env' fun n hn => h.name hn (hσq n hn)
  | .letIn _ bs e, hparts, h => by
    rw [Expr.substitute, Expr.meaning, Expr.meaning]
    exact meaning_substitute (hσ.without _) e (hparts.tail.right.without _)
      (agree_substituteLocals hσ bs hparts.tail.left hparts.head.binds h)
  | .record _ vs ns as none, hparts, h => by
    simp only [Expr.substitute, Expr.meaning,
      meaningAll_substitute hσ vs hparts.tail.left.left.left h.left.left.left,
      meaning_substitute hσ ns hparts.tail.left.left.right h.left.left.right,
      meaning_substitute hσ as hparts.tail.left.right h.left.right]
  | .record _ vs ns as (some r), hparts, h => by
    simp only [Expr.substitute, Expr.meaning,
      meaningAll_substitute hσ vs hparts.tail.left.left.left h.left.left.left,
      meaning_substitute hσ ns hparts.tail.left.left.right h.left.left.right,
      meaning_substitute hσ as hparts.tail.left.right h.left.right,
      meaning_substitute hσ r hparts.tail.right h.right]
  | .postIncrement _ n, hparts, h => by
    have hn : n ∉ σ.map (·.name) := hparts.head.carries n (List.mem_singleton_self n)
    exact congrArg M.increment (h.name (List.mem_singleton_self n) hn)
  | .subquery _ ⟨ds, pipeline⟩, hparts, h => by
    have hbinds : Unneeded σ (ds.map Declaration.name ++ paramsOf pipeline.arguments) :=
      hparts.head.binds
    rw [Expr.substitute, Thunk.substitute, Expr.meaning, Expr.meaning, Thunk.meaning, Thunk.meaning]
    exact Pipeline.meaning_substitute hσ pipeline hbinds.right hparts.tail
      (Agree.declare hσ hbinds.left hparts.head.carries h)
termination_by structural x => x

theorem meaningAll_substitute {σ : List (Binding Expr)} (hσ : Resting M σ) {env env' : Env V} :
    (es : List Expr) → AdmitAll M σ (partsAll es) → Agree M σ env env' (needsAll es) →
      meaningAll M env (substituteAll σ es) = meaningAll M env' es
  | [], _, _ => rfl
  | e :: es, hparts, h => by
    rw [substituteAll, meaningAll, meaningAll, meaning_substitute hσ e hparts.left h.left,
      meaningAll_substitute hσ es hparts.right h.right]
termination_by structural x => x

theorem agree_substituteLocals {σ : List (Binding Expr)} (hσ : Resting M σ) {env env' : Env V}
    {ns : List String} :
    (bs : List (Binding Expr)) → AdmitAll M σ (partsLocals bs) → Unneeded σ (bs.map (·.name)) →
      Agree M σ env env' (needsLocals ns bs) →
      Agree M (without (bs.map (·.name)) σ) (meaningLocals M env (substituteLocals σ bs))
        (meaningLocals M env' bs) ns
  | [], _, _, h => by
    have hnone : without [] σ = σ := List.filter_eq_self.mpr (by simp)
    rw [List.map_nil, hnone]
    exact h
  | ⟨n, e⟩ :: bs, hparts, hnames, h => by
    obtain ⟨hn, hbs⟩ := List.forall_mem_cons.mp hnames
    have hunneeded : Unneeded (without [n] σ) (bs.map (·.name)) :=
      fun m hm b hb => hbs m hm b (without_subset _ _ hb)
    rw [substituteLocals, meaningLocals, meaningLocals, List.map_cons, without_cons,
      meaning_substitute hσ e hparts.left h.left]
    exact agree_substituteLocals (hσ.without [n]) bs (hparts.right.without [n]) hunneeded
      (h.right.set hσ hn _)
termination_by structural x => x

theorem Pipeline.meaning_substitute {σ : List (Binding Expr)} (hσ : Resting M σ)
    {env env' : Env V} :
    (p : Pipeline) → Unneeded σ (paramsOf p.arguments) → AdmitAll M σ p.parts →
      Agree M σ env env' p.needs → (p.substitute σ).meaning M env = p.meaning M env'
  | ⟨source, stages⟩, hparams, hparts, h => by
    rw [Pipeline.substitute, Pipeline.meaning, Pipeline.meaning,
      meaning_substitute hσ source hparts.left h.left]
    exact meaningStages_substitute hσ stages hparams hparts.right h.right _
termination_by structural x => x

theorem meaningStages_substitute {σ : List (Binding Expr)} (hσ : Resting M σ) {env env' : Env V} :
    (ss : List Stage) → Unneeded σ (paramsOf (stageArguments ss)) → AdmitAll M σ (partsStages ss) →
      Agree M σ env env' (needsStages ss) → (input : V) →
      meaningStages M env input (substituteStages σ ss) = meaningStages M env' input ss
  | [], _, _, _, _ => rfl
  | s :: ss, hparams, hparts, h, input => by
    rw [stageArguments, paramsOf_append] at hparams
    rw [substituteStages, meaningStages, meaningStages,
      Stage.meaning_substitute hσ s hparams.left hparts.left h.left]
    exact meaningStages_substitute hσ ss hparams.right hparts.right h.right _
termination_by structural x => x

theorem Stage.meaning_substitute {σ : List (Binding Expr)} (hσ : Resting M σ) {env env' : Env V} :
    (s : Stage) → Unneeded σ (paramsOf s.arguments) → AdmitAll M σ s.parts →
      Agree M σ env env' s.needs → {input : V} →
      (s.substitute σ).meaning M env input = s.meaning M env' input
  | .join _ joined none, hparams, hparts, h, _ => by
    simp only [Stage.substitute, Stage.meaning]
    rw [Stage.arguments, paramsOf_append] at hparams
    rw [Pipeline.meaning_substitute hσ joined hparams.left hparts.left h.left]
  | .join _ joined (some ⟨ps, e⟩), hparams, hparts, h, _ => by
    simp only [Stage.substitute, Stage.meaning]
    rw [Stage.arguments, paramsOf_append] at hparams
    have hps : Unneeded σ (ps ++ paramsOf []) := hparams.right
    rw [Pipeline.meaning_substitute hσ joined hparams.left hparts.left h.left,
      meaning_function hσ hps.left h.right fun _ _ =>
        meaning_substitute (hσ.without ps) e (hparts.right.without ps)]
  | .filter ⟨ps, e⟩, hparams, hparts, h, _ => by
    have hps : Unneeded σ (ps ++ paramsOf []) := hparams
    rw [Stage.substitute, Stage.meaning, Stage.meaning, meaning_function hσ hps.left h fun _ _ =>
      meaning_substitute (hσ.without ps) e (AdmitAll.without hparts ps)]
  | .groupBy ⟨ps, e⟩ none, hparams, hparts, h, _ => by
    have hps : Unneeded σ (ps ++ paramsOf []) := hparams
    simp only [Stage.substitute, Stage.meaning]
    rw [meaning_function hσ hps.left h.left fun _ _ =>
      meaning_substitute (hσ.without ps) e (hparts.left.without ps)]
  | .groupBy ⟨ps, e⟩ (some ⟨qs, f⟩), hparams, hparts, h, _ => by
    have hps : Unneeded σ (ps ++ (qs ++ paramsOf [])) := hparams
    simp only [Stage.substitute, Stage.meaning]
    rw [meaning_function hσ hps.left h.left fun _ _ =>
        meaning_substitute (hσ.without ps) e (hparts.left.without ps),
      meaning_function hσ hps.right.left h.right fun _ _ =>
        meaning_substitute (hσ.without qs) f (hparts.right.without qs)]
  | .orderBy specs, hparams, hparts, h, _ => by
    rw [Stage.substitute, Stage.meaning, Stage.meaning,
      meaningSpecs_substitute hσ specs hparams hparts h]
  | .limit offset size, hparams, hparts, h, _ => by
    rw [Stage.substitute, Stage.meaning, Stage.meaning,
      meaning_substitute hσ offset hparts.left h.left,
      meaning_substitute hσ size hparts.right h.right]
  | .select ⟨ps, e⟩, hparams, hparts, h, _ => by
    have hps : Unneeded σ (ps ++ paramsOf []) := hparams
    rw [Stage.substitute, Stage.meaning, Stage.meaning, meaning_function hσ hps.left h fun _ _ =>
      meaning_substitute (hσ.without ps) e (AdmitAll.without hparts ps)]
termination_by structural x => x

theorem meaningSpecs_substitute {σ : List (Binding Expr)} (hσ : Resting M σ) {env env' : Env V} :
    (specs : List (SortSpec Expr)) → Unneeded σ (paramsOf (Stage.orderBy specs).arguments) →
      AdmitAll M σ (partsSpecs specs) → Agree M σ env env' (needsSpecs specs) →
      meaningSpecs M env (substituteSpecs σ specs) = meaningSpecs M env' specs
  | [], _, _, _ => rfl
  | ⟨⟨ps, e⟩, _⟩ :: ss, hparams, hparts, h => by
    have hps : Unneeded σ (ps ++ paramsOf (Stage.orderBy ss).arguments) := hparams
    rw [substituteSpecs, meaningSpecs, meaningSpecs, meaning_function hσ hps.left h.left fun _ _ =>
        meaning_substitute (hσ.without ps) e (hparts.left.without ps),
      meaningSpecs_substitute hσ ss hps.right hparts.right h.right]
termination_by structural x => x
end

/-- With nothing put in place: an expression rests on what it needs, if its queries do. -/
theorem Expr.restsOnNeeds {e : Expr} (h : ∀ p q, .query p q ∈ e.parts → M.ReadsFree q) :
    e.RestsOnNeeds M := by
  intro env env' hagree
  have hadmits : AdmitAll M [] e.parts := fun part hpart =>
    { query := fun p q hq => ⟨h p q (hq ▸ hpart), fun _ _ => List.not_mem_nil⟩
      binds := fun _ _ => List.forall_mem_nil _
      carries := fun _ _ => List.not_mem_nil }
  have hnil (env' : Env V) (h : ∀ n ∈ e.needs, env n = env' n) :
      (e.substitute []).meaning M env = e.meaning M env' :=
    meaning_substitute (List.forall_mem_nil _) e hadmits h
  exact (hnil env fun _ _ => rfl).symm.trans (hnil env' hagree)

/-! ## Bindings -/

/-- A block whose values need none of its names gives each name the value that it has before the
block. -/
theorem meaningLocals_eq_binding {bs : List (Binding Expr)} (hdistinct : (bs.map (·.name)).Nodup)
    (hrest : Resting M bs) (hneeds : ∀ b ∈ bs, ∀ n ∈ b.value.needs, n ∉ bs.map (·.name))
    (env : Env V) : meaningLocals M env bs = env.binding M bs := by
  induction bs generalizing env with
  | nil => rfl
  | cons b bs ih =>
    obtain ⟨n, e⟩ := b
    obtain ⟨hn, hdistinct⟩ := List.nodup_cons.mp hdistinct
    obtain ⟨-, hrest⟩ := List.forall_mem_cons.mp hrest
    obtain ⟨-, hneeds⟩ := List.forall_mem_cons.mp hneeds
    rw [meaningLocals, ih hdistinct hrest fun b hb m hm hmem =>
      hneeds b hb m hm (List.mem_cons_of_mem _ hmem)]
    funext m
    simp only [Env.binding, valueOf?]
    by_cases hmn : n = m
    · subst hmn
      simp [valueOf?_eq_none.mpr hn, Env.set]
    · rw [if_neg hmn]
      cases hv : valueOf? m bs with
      | none => exact if_neg (Ne.symm hmn)
      | some v =>
        have hb := mem_of_valueOf? hv
        refine hrest _ hb _ _ fun k hk => if_neg ?_
        rintro rfl
        exact hneeds _ hb k hk List.mem_cons_self

/-- Inlining equals let. Bindings with distinct names, none of which a value needs, mean the same put
in a body as put before it, in every environment and under all meanings of the forms: the body is
lowered, nothing in it binds a name that a value needs, and neither a declaration nor an increment in
it goes by a name that is bound. A value that is not lowered may hold queries that mean what the names
free in them say. -/
theorem meaning_bind_inline {V : Type} (M : Meanings V) {bs : List (Binding Expr)} {body : Expr}
    (hdistinct : (bs.map (·.name)).Nodup)
    (hvalues : ∀ b ∈ bs, ∀ n ∈ b.value.needs, n ∉ bs.map (·.name))
    (hqueries : ∀ b ∈ bs, ∀ p q, .query p q ∈ b.value.parts → M.ReadsFree q)
    (hlowered : ∀ p q, .query p q ∉ body.parts)
    (hbinds : ∀ part ∈ body.parts, ∀ n ∈ part.binds, ∀ b ∈ bs, n ∉ b.value.needs)
    (hcarries : ∀ part ∈ body.parts, ∀ n ∈ part.carries, n ∉ bs.map (·.name)) (env : Env V) :
    (bind bs body true).meaning M env = (bind bs body false).meaning M env := by
  have hrest : Resting M bs := fun b hb => Expr.restsOnNeeds (hqueries b hb)
  have hadmits : AdmitAll M bs body.parts := fun part hpart =>
    { query := fun p q hq => absurd (hq ▸ hpart) (hlowered p q)
      binds := hbinds part hpart
      carries := hcarries part hpart }
  have hbody : (body.substitute bs).meaning M env = body.meaning M (env.binding M bs) :=
    meaning_substitute hrest body hadmits fun _ _ => rfl
  rw [bind, bind]
  split
  · rfl
  · rw [if_pos rfl, if_neg Bool.false_ne_true, hbody, Expr.meaning,
      meaningLocals_eq_binding hdistinct hrest hvalues]

/-! ## Plain expressions -/

theorem needsAll_eq_freeAll {es : List Expr} (h : ∀ e ∈ es, e.needs = e.free) :
    needsAll es = freeAll es := by
  induction es with
  | nil => rfl
  | cons e es ih =>
    obtain ⟨he, hes⟩ := List.forall_mem_cons.mp h
    rw [needsAll, freeAll, he, ih hes]

theorem mem_partsAll {part : Expr} {es : List Expr} :
    part ∈ partsAll es ↔ ∃ e ∈ es, part ∈ e.parts := by
  induction es with
  | nil => simp [partsAll]
  | cons e es ih => simp [partsAll, ih]

namespace Expr

theorem needs_of_isPlain {e : Expr} (he : e.isPlain = true) : e.needs = e.free := by
  induction e using Expr.written_induction with
  | literal | var => rfl
  | letIn | record | postIncrement | subquery | query => simp [isPlain] at he
  | unary p f e ih => exact ih he
  | binary p f l r ihl ihr =>
    rw [isPlain, Bool.and_eq_true] at he
    rw [needs, free, ihl he.1, ihr he.2]
  | sequence p f es ih =>
    rw [isPlain, allPlain_iff] at he
    exact needsAll_eq_freeAll fun e hm => ih e hm (he e hm)
  | method p r n es ihr ih =>
    rw [isPlain, Bool.and_eq_true, allPlain_iff] at he
    rw [needs, free, ihr he.1, needsAll_eq_freeAll fun e hm => ih e hm (he.2 e hm)]
  | lambda p ps e ih =>
    rw [needs, free, ih he]

theorem parts_of_isPlain {e : Expr} (he : e.isPlain = true) :
    ∀ part ∈ e.parts, part.isPlain = true ∧ part.spelled ⊆ e.spelled := by
  induction e using Expr.written_induction with
  | literal | var => simp [parts, isPlain]
  | letIn | record | postIncrement | subquery | query => simp [isPlain] at he
  | unary p f e ih => exact List.forall_mem_cons.mpr ⟨⟨he, List.Subset.refl _⟩, ih he⟩
  | binary p f l r ihl ihr =>
    refine List.forall_mem_cons.mpr ⟨⟨he, List.Subset.refl _⟩, ?_⟩
    rw [isPlain, Bool.and_eq_true] at he
    rw [List.forall_mem_append, spelled]
    exact ⟨fun part hpart => (ihl he.1 part hpart).imp_right (List.subset_append_of_subset_left _),
      fun part hpart => (ihr he.2 part hpart).imp_right (List.subset_append_of_subset_right _)⟩
  | sequence p f es ih =>
    refine List.forall_mem_cons.mpr ⟨⟨he, List.Subset.refl _⟩, fun part hpart => ?_⟩
    rw [isPlain, allPlain_iff] at he
    obtain ⟨e, hm, hpart⟩ := mem_partsAll.mp hpart
    obtain ⟨hplain, hspelled⟩ := ih e hm (he e hm) part hpart
    exact ⟨hplain, fun n hn => mem_spelledAll.mpr ⟨e, hm, hspelled hn⟩⟩
  | method p r n es ihr ih =>
    refine List.forall_mem_cons.mpr ⟨⟨he, List.Subset.refl _⟩, ?_⟩
    rw [isPlain, Bool.and_eq_true, allPlain_iff] at he
    rw [List.forall_mem_append, spelled]
    refine ⟨fun part hpart =>
      (ihr he.1 part hpart).imp_right (List.subset_append_of_subset_left _), fun part hpart => ?_⟩
    obtain ⟨e, hm, hpart⟩ := mem_partsAll.mp hpart
    obtain ⟨hplain, hspelled⟩ := ih e hm (he.2 e hm) part hpart
    exact ⟨hplain, fun n hn =>
      List.mem_append_right _ (mem_spelledAll.mpr ⟨e, hm, hspelled hn⟩)⟩
  | lambda p ps e ih =>
    refine List.forall_mem_cons.mpr ⟨⟨he, List.Subset.refl _⟩, fun part hpart => ?_⟩
    exact (ih he part hpart).imp_right (List.subset_append_of_subset_right _)

theorem restsOnNeeds_of_isPlain (M : Meanings V) {e : Expr} (he : e.isPlain = true) :
    e.RestsOnNeeds M := by
  refine restsOnNeeds fun p q hq => ?_
  have hplain := (parts_of_isPlain he _ hq).1
  simp [isPlain] at hplain

theorem meaning_congr {e : Expr} (he : e.isPlain = true) {env env' : Env V}
    (h : ∀ n ∈ e.free, env n = env' n) : e.meaning M env = e.meaning M env' :=
  restsOnNeeds_of_isPlain M he env env' (needs_of_isPlain he ▸ h)

theorem eval_congr {I : Interpretation V} {e : Expr} (he : e.isPlain = true) {env env' : Env V}
    (h : ∀ n ∈ e.free, env n = env' n) : e.eval I env = e.eval I env' := meaning_congr he h

/-- In a plain expression nothing binds what is not spelled there. -/
theorem admitAll_of_isPlain {e : Expr} (he : e.isPlain = true) {σ : List (Binding Expr)}
    (hσ : ∀ b ∈ σ, ∀ n ∈ b.value.needs, n ∉ e.spelled) : AdmitAll M σ e.parts := by
  intro part hpart
  obtain ⟨hplain, hspelled⟩ := parts_of_isPlain he part hpart
  have hquery : ∀ p q, part ≠ .query p q := by
    rintro p q rfl
    simp [isPlain] at hplain
  refine ⟨fun p q hq => absurd hq (hquery p q), fun n hn b hb hneeds => ?_, fun n hn => ?_⟩
  · have hn : n ∈ part.spelled := by
      cases part <;> simp_all [binds, isPlain, spelled]
    exact hσ b hb n hneeds (hspelled hn)
  · cases part <;> simp_all [carries, isPlain]

theorem meaning_substitute_of_isPlain {e : Expr} (he : e.isPlain = true) {σ : List (Binding Expr)}
    (env : Env V)
    (hσ : ∀ b ∈ σ, b.value.isPlain = true ∧ ∀ n ∈ b.value.free, n ∉ e.spelled) :
    (e.substitute σ).meaning M env = e.meaning M (env.binding M σ) := by
  have hneeds : ∀ b ∈ σ, ∀ n ∈ b.value.needs, n ∉ e.spelled := fun b hb =>
    needs_of_isPlain (hσ b hb).1 ▸ (hσ b hb).2
  exact meaning_substitute (fun b hb => restsOnNeeds_of_isPlain M (hσ b hb).1) e
    (admitAll_of_isPlain he hneeds) fun _ _ => rfl

end Expr
end

/-- The value is what is read, in order. A parameter reads a dot. -/
def trace : Meanings (List String) where
  literal _ := []
  unary _ v := v
  binary _ v w := v ++ w
  sequence _ vs := vs.flatten
  method v _ vs := v ++ vs.flatten
  lambda _ f := f fun _ => ["."]
  query _ _ := []
  record vs v w u := vs.flatten ++ v ++ w ++ u.getD []
  increment v := v
  table _ := []
  zero := []
  source v := v
  join _ v w u := v ++ w ++ u.getD []
  filter v w := v ++ w
  groupBy v w u := v ++ w ++ u.getD []
  orderBy v ws := v ++ (ws.map (·.1)).flatten
  limit v w u := v ++ w ++ u
  select v w := v ++ w

/-- `[x, x -> x + y, let x = y in x, from(y).select(x -> x)]`, where `x` has four meanings. -/
def shadowing : Expr :=
  .list
    [.name "x",
      .lambda .nowhere ⟨["x"], .binary .nowhere (.operator .add) (.name "x") (.name "y")⟩,
      .letIn .nowhere [⟨"x", .name "y"⟩] (.name "x"),
      .subquery .nowhere
        ⟨[.table "__metaDataMap" .new], ⟨.name "y", [.select ⟨["x"], .name "x"⟩]⟩⟩]

def halves : List (Binding Expr) :=
  [⟨"x", (Expr.name "row").field "first"⟩, ⟨"y", (Expr.name "row").field "second"⟩]

theorem meaning_bind_inline_shadowed :
    (halves.map (·.name)).Nodup ∧ (∀ p q, .query p q ∉ shadowing.parts) ∧
      (bind halves shadowing true).meaning trace (fun n => [n]) =
        (bind halves shadowing false).meaning trace (fun n => [n]) ∧
      (bind halves shadowing true).meaning trace (fun n => [n]) =
        ["row", ".", "row", "row", "row", "."] := by
  have hlowered : ∀ p q, .query p q ∉ shadowing.parts := by
    simp [shadowing, Expr.list, Expr.name, Expr.parts, partsAll, partsLocals, Thunk.parts,
      Pipeline.parts, partsStages, Stage.parts]
  have hplain : ∀ b ∈ halves, b.value.isPlain = true := by decide
  have hqueries : ∀ b ∈ halves, ∀ p q, .query p q ∈ b.value.parts → trace.ReadsFree q := by
    intro b hb p q hq
    cases (Expr.parts_of_isPlain (hplain b hb) _ hq).1
  exact ⟨by decide, hlowered,
    meaning_bind_inline trace (by decide) (by decide) hqueries hlowered (by decide) (by decide) _,
    rfl⟩

end Comprehension
