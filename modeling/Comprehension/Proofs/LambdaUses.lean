import Comprehension.Proofs.LetElimination
import Comprehension.Proofs.Scopes

/-!
Which lambda binds which variable in what is lowered. The lambdas in reach are kept by name; locals,
the declarations of a thunk and the parameters of its functions hide them. Bringing names to an
expression, as a `let` block or by substitution, hides no lambda but those whose parameters go by
one of these names.
-/

namespace Comprehension

/-- A lambda, told by where it stands, where its body stands, and its parameters. -/
structure Abstraction where
  pos : Position
  body : Position
  params : List String
  deriving DecidableEq, Repr

/-- An occurrence of a parameter of a lambda. -/
structure Use where
  lambda : Abstraction
  name : String
  pos : Position
  deriving DecidableEq, Repr

/-! ## Lambdas in reach -/

section

variable {α : Type}

/-- The names that pass the test reach nothing any more. -/
def hide (p : String → Bool) (ρ : String → Option α) (n : String) : Option α :=
  if p n then none else ρ n

/-- The names reach `a`. -/
def enter (names : List String) (a : α) (ρ : String → Option α) (n : String) : Option α :=
  if n ∈ names then some a else ρ n

theorem hide_comm (p p' : String → Bool) (ρ : String → Option α) :
    hide p (hide p' ρ) = hide p' (hide p ρ) := by
  funext n
  by_cases h : p n <;> simp [hide, h]

theorem hide_of_not_mem {names : List String} {ρ : String → Option α} {n : String}
    (h : n ∉ names) : hide (fun n => n ∈ names) ρ n = ρ n := if_neg (by simpa using h)

theorem enter_of_not_mem {names : List String} {a : α} {ρ : String → Option α} {n : String}
    (h : n ∉ names) : enter names a ρ n = ρ n := if_neg h

end

/-- The name is one of those of the bindings. -/
def named (σ : List (Binding Expr)) (n : String) : Bool := (valueOf? n σ).isSome

theorem named_without (ps : List String) (σ : List (Binding Expr)) (n : String) :
    named (without ps σ) n = if n ∈ ps then false else named σ n := by
  rw [named, valueOf?_without]
  split <;> rfl

theorem named_substituteLocals (σ : List (Binding Expr)) (bs : List (Binding Expr)) :
    named (substituteLocals σ bs) = named bs := by
  funext n
  induction bs generalizing σ with
  | nil => rfl
  | cons b bs ih =>
    have hbs := ih (without [b.name] σ)
    simp only [named, substituteLocals, valueOf?] at hbs ⊢
    split
    · rfl
    · exact hbs

/-- Names that a binder hides are not replaced below it. -/
theorem hide_without (ps : List String) (σ : List (Binding Expr)) {α : Type}
    (ρ : String → Option α) :
    hide (named (without ps σ)) (hide (fun n => decide (n ∈ ps)) ρ) =
      hide (fun n => decide (n ∈ ps)) (hide (named σ) ρ) := by
  funext n
  by_cases hps : n ∈ ps <;> simp [hide, named_without, hps]

theorem hide_named_without (bs σ : List (Binding Expr)) {α : Type} (ρ : String → Option α) :
    hide (named (without (bs.map (·.name)) σ)) (hide (named bs) ρ) =
      hide (named bs) (hide (named σ) ρ) := by
  funext n
  have hbs : n ∈ bs.map (·.name) ↔ named bs n = true := by
    rw [named, Option.isSome_iff_ne_none, ne_eq, valueOf?_eq_none, Decidable.not_not]
  cases hn : named bs n <;> simp [hide, named_without, hbs, hn]

theorem enter_without (ps : List String) (σ : List (Binding Expr)) {α : Type} (a : α)
    (ρ : String → Option α) :
    hide (named (without ps σ)) (enter ps a ρ) = enter ps a (hide (named σ) ρ) := by
  funext n
  by_cases hps : n ∈ ps <;> simp [hide, enter, named_without, hps]

/-! ## Uses -/

mutual
/-- The variables that lambdas in reach bind, each with its lambda, in order. -/
def Expr.uses (ρ : String → Option Abstraction) : Expr → List Use
  | .literal _ _ => []
  | .var p n =>
    match ρ n with
    | some a => [⟨a, n, p⟩]
    | none => []
  | .unary _ _ e => e.uses ρ
  | .binary _ _ l r => l.uses ρ ++ r.uses ρ
  | .sequence _ _ es => usesAll ρ es
  | .method _ r _ es => r.uses ρ ++ usesAll ρ es
  | .lambda p ⟨ps, e⟩ => e.uses (enter ps ⟨p, e.pos, ps⟩ ρ)
  | .query _ _ => []
  | .letIn _ bs e => usesLocals ρ bs ++ e.uses (hide (named bs) ρ)
  | .record _ vs ns as row =>
    usesAll ρ vs ++ ns.uses ρ ++ as.uses ρ ++
      (match row with
        | some r => r.uses ρ
        | none => [])
  | .postIncrement _ _ => []
  | .subquery _ t => t.uses ρ
termination_by structural x => x

def usesAll (ρ : String → Option Abstraction) : List Expr → List Use
  | [] => []
  | e :: es => e.uses ρ ++ usesAll ρ es
termination_by structural x => x

/-- A local name is hidden in what follows it. -/
def usesLocals (ρ : String → Option Abstraction) : List (Binding Expr) → List Use
  | [] => []
  | ⟨n, e⟩ :: bs => e.uses ρ ++ usesLocals (hide (fun m => m ∈ [n]) ρ) bs
termination_by structural x => x

def Thunk.uses (ρ : String → Option Abstraction) : Thunk → List Use
  | ⟨declarations, pipeline⟩ => pipeline.uses (hide (fun n => n ∈ declarations.map (·.name)) ρ)
termination_by structural x => x

def Pipeline.uses (ρ : String → Option Abstraction) : Pipeline → List Use
  | ⟨source, stages⟩ => source.uses ρ ++ usesStages ρ stages
termination_by structural x => x

def usesStages (ρ : String → Option Abstraction) : List Stage → List Use
  | [] => []
  | s :: ss => s.uses ρ ++ usesStages ρ ss
termination_by structural x => x

/-- The functions of a stage are no lambdas of what was written, and hide them. -/
def Stage.uses (ρ : String → Option Abstraction) : Stage → List Use
  | .join _ joined on =>
    joined.uses ρ ++
      (match on with
        | some ⟨ps, e⟩ => e.uses (hide (fun n => n ∈ ps) ρ)
        | none => [])
  | .filter ⟨ps, e⟩ => e.uses (hide (fun n => n ∈ ps) ρ)
  | .groupBy ⟨ps, e⟩ having =>
    e.uses (hide (fun n => n ∈ ps) ρ) ++
      (match having with
        | some ⟨qs, h⟩ => h.uses (hide (fun n => n ∈ qs) ρ)
        | none => [])
  | .orderBy specs => usesSpecs ρ specs
  | .limit offset size => offset.uses ρ ++ size.uses ρ
  | .select ⟨ps, e⟩ => e.uses (hide (fun n => n ∈ ps) ρ)
termination_by structural x => x

def usesSpecs (ρ : String → Option Abstraction) : List (SortSpec Expr) → List Use
  | [] => []
  | ⟨⟨ps, e⟩, _⟩ :: ss => e.uses (hide (fun n => n ∈ ps) ρ) ++ usesSpecs ρ ss
termination_by structural x => x
end

theorem Thunk.uses_pipeline (ρ : String → Option Abstraction) (t : Thunk) :
    t.uses ρ = t.pipeline.uses (hide (fun n => n ∈ t.declarations.map (·.name)) ρ) := by
  cases t
  rfl

/-! ## Substitution -/

mutual
theorem uses_substitute (σ : List (Binding Expr)) (ρ : String → Option Abstraction) :
    (e : Expr) → (e.uses (hide (named σ) ρ)).Sublist ((e.substitute σ).uses ρ)
  | .literal _ _ => .slnil
  | .var p n => by
    rw [Expr.substitute]
    cases h : valueOf? n σ with
    | none =>
      have hn : hide (named σ) ρ n = ρ n := by simp [hide, named, h]
      have huses : (Expr.var p n).uses (hide (named σ) ρ) = (Expr.var p n).uses ρ := by
        rw [Expr.uses, Expr.uses, hn]
      exact huses ▸ List.Sublist.refl _
    | some e =>
      have hn : hide (named σ) ρ n = none := by simp [hide, named, h]
      rw [Expr.uses, hn]
      exact List.nil_sublist _
  | .unary _ _ e => uses_substitute σ ρ e
  | .binary _ _ l r => (uses_substitute σ ρ l).append (uses_substitute σ ρ r)
  | .sequence _ _ es => usesAll_substitute σ ρ es
  | .method _ r _ es => (uses_substitute σ ρ r).append (usesAll_substitute σ ρ es)
  | .lambda p ⟨ps, e⟩ => by
    have h := uses_substitute (without ps σ) (enter ps ⟨p, e.pos, ps⟩ ρ) e
    rw [enter_without] at h
    rw [Expr.substitute, Expr.uses, Expr.uses, Expr.pos_substitute]
    exact h
  | .query _ _ => .slnil
  | .letIn _ bs e => by
    have h := uses_substitute (without (bs.map (·.name)) σ) (hide (named bs) ρ) e
    rw [hide_named_without] at h
    rw [Expr.substitute, Expr.uses, Expr.uses, named_substituteLocals]
    exact (usesLocals_substitute σ ρ bs).append h
  | .record _ vs ns as none =>
    (((usesAll_substitute σ ρ vs).append (uses_substitute σ ρ ns)).append
      (uses_substitute σ ρ as)).append .slnil
  | .record _ vs ns as (some r) =>
    (((usesAll_substitute σ ρ vs).append (uses_substitute σ ρ ns)).append
      (uses_substitute σ ρ as)).append (uses_substitute σ ρ r)
  | .postIncrement _ _ => .slnil
  | .subquery _ t => t.uses_substitute σ ρ
termination_by structural x => x

theorem usesAll_substitute (σ : List (Binding Expr)) (ρ : String → Option Abstraction) :
    (es : List Expr) → (usesAll (hide (named σ) ρ) es).Sublist (usesAll ρ (substituteAll σ es))
  | [] => .slnil
  | e :: es => (uses_substitute σ ρ e).append (usesAll_substitute σ ρ es)
termination_by structural x => x

theorem usesLocals_substitute (σ : List (Binding Expr)) (ρ : String → Option Abstraction) :
    (bs : List (Binding Expr)) →
      (usesLocals (hide (named σ) ρ) bs).Sublist (usesLocals ρ (substituteLocals σ bs))
  | [] => .slnil
  | ⟨n, e⟩ :: bs => by
    have h := usesLocals_substitute (without [n] σ) (hide (fun m => m ∈ [n]) ρ) bs
    rw [hide_without] at h
    exact (uses_substitute σ ρ e).append h
termination_by structural x => x

theorem Thunk.uses_substitute (σ : List (Binding Expr)) (ρ : String → Option Abstraction) :
    (t : Thunk) → (t.uses (hide (named σ) ρ)).Sublist ((t.substitute σ).uses ρ)
  | ⟨ds, pipeline⟩ => by
    have h := pipeline.uses_substitute σ (hide (fun n => n ∈ ds.map (·.name)) ρ)
    rw [hide_comm] at h
    exact h
termination_by structural x => x

theorem Pipeline.uses_substitute (σ : List (Binding Expr)) (ρ : String → Option Abstraction) :
    (p : Pipeline) → (p.uses (hide (named σ) ρ)).Sublist ((p.substitute σ).uses ρ)
  | ⟨source, stages⟩ =>
    (Comprehension.uses_substitute σ ρ source).append (usesStages_substitute σ ρ stages)
termination_by structural x => x

theorem usesStages_substitute (σ : List (Binding Expr)) (ρ : String → Option Abstraction) :
    (ss : List Stage) →
      (usesStages (hide (named σ) ρ) ss).Sublist (usesStages ρ (substituteStages σ ss))
  | [] => .slnil
  | s :: ss => (s.uses_substitute σ ρ).append (usesStages_substitute σ ρ ss)
termination_by structural x => x

theorem Stage.uses_substitute (σ : List (Binding Expr)) (ρ : String → Option Abstraction) :
    (s : Stage) → (s.uses (hide (named σ) ρ)).Sublist ((s.substitute σ).uses ρ)
  | .join _ joined none => (joined.uses_substitute σ ρ).append .slnil
  | .join _ joined (some ⟨ps, e⟩) => by
    have h := Comprehension.uses_substitute (without ps σ) (hide (fun n => n ∈ ps) ρ) e
    rw [hide_without] at h
    exact (joined.uses_substitute σ ρ).append h
  | .filter ⟨ps, e⟩ => by
    have h := Comprehension.uses_substitute (without ps σ) (hide (fun n => n ∈ ps) ρ) e
    rw [hide_without] at h
    exact h
  | .groupBy ⟨ps, e⟩ none => by
    have h := Comprehension.uses_substitute (without ps σ) (hide (fun n => n ∈ ps) ρ) e
    rw [hide_without] at h
    exact h.append .slnil
  | .groupBy ⟨ps, e⟩ (some ⟨qs, having⟩) => by
    have h := Comprehension.uses_substitute (without ps σ) (hide (fun n => n ∈ ps) ρ) e
    have h' := Comprehension.uses_substitute (without qs σ) (hide (fun n => n ∈ qs) ρ) having
    rw [hide_without] at h h'
    exact h.append h'
  | .orderBy specs => usesSpecs_substitute σ ρ specs
  | .limit offset size =>
    (Comprehension.uses_substitute σ ρ offset).append (Comprehension.uses_substitute σ ρ size)
  | .select ⟨ps, e⟩ => by
    have h := Comprehension.uses_substitute (without ps σ) (hide (fun n => n ∈ ps) ρ) e
    rw [hide_without] at h
    exact h
termination_by structural x => x

theorem usesSpecs_substitute (σ : List (Binding Expr)) (ρ : String → Option Abstraction) :
    (ss : List (SortSpec Expr)) →
      (usesSpecs (hide (named σ) ρ) ss).Sublist (usesSpecs ρ (substituteSpecs σ ss))
  | [] => .slnil
  | ⟨⟨ps, e⟩, _⟩ :: ss => by
    have h := Comprehension.uses_substitute (without ps σ) (hide (fun n => n ∈ ps) ρ) e
    rw [hide_without] at h
    exact h.append (usesSpecs_substitute σ ρ ss)
termination_by structural x => x
end

/-! ## Binding -/

/-- A `let` block and substitution both keep what lambdas bind whose parameters are not bound anew.
-/
theorem uses_bind (bs : List (Binding Expr)) (body : Expr) (inline : Bool)
    (ρ : String → Option Abstraction) :
    (body.uses (hide (named bs) ρ)).Sublist ((bind bs body inline).uses ρ) := by
  rw [bind]
  split
  · rename_i hbs
    rw [List.isEmpty_iff] at hbs
    subst hbs
    have hnil : hide (named []) ρ = ρ := by
      funext n
      rfl
    exact hnil ▸ List.Sublist.refl _
  · split
    · exact uses_substitute bs ρ body
    · rw [Expr.uses]
      exact List.sublist_append_right ..

end Comprehension
