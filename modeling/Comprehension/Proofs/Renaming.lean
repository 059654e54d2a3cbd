import Comprehension.Proofs.Plain
import Comprehension.Proofs.LetElimination

/-!
Renaming of variables. Variables, parameters, locals and declared names go by new names wherever
they stand, bound or not; fields, functions, methods and the names in a name table are no variables
and stay. A renaming that keeps names apart commutes with substitution, and so with both ways of
bringing bindings to an expression.
-/

namespace Comprehension

def Declaration.rename (ρ : String → String) : Declaration → Declaration
  | .table n names => .table (ρ n) names
  | .counter n => .counter (ρ n)

mutual
/-- A query that is not lowered yet stays as it is. -/
def Expr.rename (ρ : String → String) : Expr → Expr
  | .literal p v => .literal p v
  | .var p n => .var p (ρ n)
  | .unary p f e => .unary p f (e.rename ρ)
  | .binary p f l r => .binary p f (l.rename ρ) (r.rename ρ)
  | .sequence p f es => .sequence p f (renameAll ρ es)
  | .method p r n es => .method p (r.rename ρ) n (renameAll ρ es)
  | .lambda p ⟨ps, e⟩ => .lambda p ⟨ps.map ρ, e.rename ρ⟩
  | .query p q => .query p q
  | .letIn p bs e => .letIn p (renameLocals ρ bs) (e.rename ρ)
  | .record p vs ns as row =>
    .record p (renameAll ρ vs) (ns.rename ρ) (as.rename ρ)
      (match row with
        | some r => some (r.rename ρ)
        | none => none)
  | .postIncrement p n => .postIncrement p (ρ n)
  | .subquery p t => .subquery p (t.rename ρ)
termination_by structural x => x

def renameAll (ρ : String → String) : List Expr → List Expr
  | [] => []
  | e :: es => e.rename ρ :: renameAll ρ es
termination_by structural x => x

def renameLocals (ρ : String → String) : List (Binding Expr) → List (Binding Expr)
  | [] => []
  | ⟨n, e⟩ :: bs => ⟨ρ n, e.rename ρ⟩ :: renameLocals ρ bs
termination_by structural x => x

def Thunk.rename (ρ : String → String) : Thunk → Thunk
  | ⟨declarations, pipeline⟩ => ⟨declarations.map (Declaration.rename ρ), pipeline.rename ρ⟩
termination_by structural x => x

def Pipeline.rename (ρ : String → String) : Pipeline → Pipeline
  | ⟨source, stages⟩ => ⟨source.rename ρ, renameStages ρ stages⟩
termination_by structural x => x

def renameStages (ρ : String → String) : List Stage → List Stage
  | [] => []
  | s :: ss => s.rename ρ :: renameStages ρ ss
termination_by structural x => x

def Stage.rename (ρ : String → String) : Stage → Stage
  | .join kind joined on =>
    .join kind (joined.rename ρ)
      (match on with
        | some ⟨ps, e⟩ => some ⟨ps.map ρ, e.rename ρ⟩
        | none => none)
  | .filter ⟨ps, e⟩ => .filter ⟨ps.map ρ, e.rename ρ⟩
  | .groupBy ⟨ps, e⟩ having =>
    .groupBy ⟨ps.map ρ, e.rename ρ⟩
      (match having with
        | some ⟨qs, h⟩ => some ⟨qs.map ρ, h.rename ρ⟩
        | none => none)
  | .orderBy specs => .orderBy (renameSpecs ρ specs)
  | .limit offset size => .limit (offset.rename ρ) (size.rename ρ)
  | .select ⟨ps, e⟩ => .select ⟨ps.map ρ, e.rename ρ⟩
termination_by structural x => x

def renameSpecs (ρ : String → String) : List (SortSpec Expr) → List (SortSpec Expr)
  | [] => []
  | ⟨⟨ps, e⟩, ascending⟩ :: ss => ⟨⟨ps.map ρ, e.rename ρ⟩, ascending⟩ :: renameSpecs ρ ss
termination_by structural x => x
end

/-- Renaming in a function. -/
def Lambda.rename (ρ : String → String) (f : Lambda Expr) : Lambda Expr :=
  ⟨f.params.map ρ, f.body.rename ρ⟩

/-! ## Lists and positions -/

section

variable {ρ : String → String}

theorem renameAll_eq_map (es : List Expr) : renameAll ρ es = es.map (Expr.rename ρ) := by
  induction es with
  | nil => rfl
  | cons e es ih => rw [renameAll, ih, List.map_cons]

theorem renameLocals_eq_map (bs : List (Binding Expr)) :
    renameLocals ρ bs = bs.map fun b => ⟨ρ b.name, b.value.rename ρ⟩ := by
  induction bs with
  | nil => rfl
  | cons b bs ih => rw [renameLocals, ih, List.map_cons]

theorem names_renameLocals (bs : List (Binding Expr)) :
    (renameLocals ρ bs).map (·.name) = (bs.map (·.name)).map ρ := by
  rw [renameLocals_eq_map, List.map_map, List.map_map]
  rfl

theorem renameStages_append (ss ss' : List Stage) :
    renameStages ρ (ss ++ ss') = renameStages ρ ss ++ renameStages ρ ss' := by
  induction ss with
  | nil => rfl
  | cons s ss ih => rw [List.cons_append, renameStages, ih, renameStages, List.cons_append]

theorem pos_rename (e : Expr) : (e.rename ρ).pos = e.pos := by
  cases e with
  | record p vs ns as row => cases row <;> rfl
  | _ => rfl

theorem rename_withPos (p : Position) (e : Expr) :
    (e.withPos p).rename ρ = (e.rename ρ).withPos p := by
  cases e with
  | record q vs ns as row => cases row <;> rfl
  | _ => rfl

theorem rename_read (path : PairPath) (e : Expr) :
    (path.read e).rename ρ = path.read (e.rename ρ) := by
  induction path generalizing e with
  | nil => rfl
  | cons h path ih =>
    have hfield : (e.field h.name).rename ρ = (e.rename ρ).field h.name := by
      rw [Expr.field, Expr.field, pos_rename]
      rfl
    exact (ih (e.field h.name)).trans (congrArg (PairPath.read path) hfield)

end

/-! ## Substitution -/

section

variable {ρ : String → String}

theorem valueOf?_renameLocals (hρ : Function.Injective ρ) (n : String) (σ : List (Binding Expr)) :
    valueOf? (ρ n) (renameLocals ρ σ) = (valueOf? n σ).map (Expr.rename ρ) := by
  induction σ with
  | nil => rfl
  | cons b σ ih =>
    rw [renameLocals, valueOf?, valueOf?, ih]
    by_cases h : b.name = n
    · rw [if_pos h, if_pos (congrArg ρ h)]
      rfl
    · rw [if_neg h, if_neg (fun heq => h (hρ heq))]

theorem without_renameLocals (hρ : Function.Injective ρ) (ps : List String)
    (σ : List (Binding Expr)) :
    without (ps.map ρ) (renameLocals ρ σ) = renameLocals ρ (without ps σ) := by
  rw [renameLocals_eq_map, renameLocals_eq_map, without, without, List.filter_map]
  congr 2
  funext b
  have hmem : ρ b.name ∈ ps.map ρ ↔ b.name ∈ ps := by simp [hρ.eq_iff]
  simp only [Function.comp_apply, hmem]

mutual
theorem rename_substitute (hρ : Function.Injective ρ) (σ : List (Binding Expr)) :
    (e : Expr) → (e.substitute σ).rename ρ = (e.rename ρ).substitute (renameLocals ρ σ)
  | .literal _ _ => rfl
  | .var p n => by
    rw [Expr.substitute, Expr.rename, Expr.substitute, valueOf?_renameLocals hρ]
    cases valueOf? n σ with
    | none => rfl
    | some e => exact rename_withPos p e
  | .unary _ _ e => by rw [Expr.substitute, Expr.rename, rename_substitute hρ σ e]; rfl
  | .binary _ _ l r => by
    rw [Expr.substitute, Expr.rename, rename_substitute hρ σ l, rename_substitute hρ σ r]
    rfl
  | .sequence _ _ es => by
    rw [Expr.substitute, Expr.rename, renameAll_substituteAll hρ σ es]
    rfl
  | .method _ r _ es => by
    rw [Expr.substitute, Expr.rename, rename_substitute hρ σ r, renameAll_substituteAll hρ σ es]
    rfl
  | .lambda _ ⟨ps, e⟩ => by
    rw [Expr.substitute, Expr.rename, rename_substitute hρ (without ps σ) e,
      ← without_renameLocals hρ]
    rfl
  | .query _ _ => rfl
  | .letIn _ bs e => by
    rw [Expr.substitute, Expr.rename, renameLocals_substituteLocals hρ σ bs,
      rename_substitute hρ (without (bs.map (·.name)) σ) e, ← without_renameLocals hρ,
      ← names_renameLocals]
    rfl
  | .record _ vs ns as none => by
    simp only [Expr.substitute, Expr.rename, renameAll_substituteAll hρ σ vs,
      rename_substitute hρ σ ns, rename_substitute hρ σ as]
  | .record _ vs ns as (some r) => by
    simp only [Expr.substitute, Expr.rename, renameAll_substituteAll hρ σ vs,
      rename_substitute hρ σ ns, rename_substitute hρ σ as, rename_substitute hρ σ r]
  | .postIncrement _ _ => rfl
  | .subquery _ t => by rw [Expr.substitute, Expr.rename, t.rename_substitute hρ σ]; rfl
termination_by structural x => x

theorem renameAll_substituteAll (hρ : Function.Injective ρ) (σ : List (Binding Expr)) :
    (es : List Expr) →
      renameAll ρ (substituteAll σ es) = substituteAll (renameLocals ρ σ) (renameAll ρ es)
  | [] => rfl
  | e :: es => by
    rw [substituteAll, renameAll, rename_substitute hρ σ e, renameAll_substituteAll hρ σ es]
    rfl
termination_by structural x => x

theorem renameLocals_substituteLocals (hρ : Function.Injective ρ) (σ : List (Binding Expr)) :
    (bs : List (Binding Expr)) →
      renameLocals ρ (substituteLocals σ bs) =
        substituteLocals (renameLocals ρ σ) (renameLocals ρ bs)
  | [] => rfl
  | ⟨n, e⟩ :: bs => by
    rw [substituteLocals, renameLocals, rename_substitute hρ σ e,
      renameLocals_substituteLocals hρ (without [n] σ) bs, ← without_renameLocals hρ]
    rfl
termination_by structural x => x

theorem Thunk.rename_substitute (hρ : Function.Injective ρ) (σ : List (Binding Expr)) :
    (t : Thunk) → (t.substitute σ).rename ρ = (t.rename ρ).substitute (renameLocals ρ σ)
  | ⟨_, pipeline⟩ => by
    rw [Thunk.substitute, Thunk.rename, pipeline.rename_substitute hρ σ]
    rfl
termination_by structural x => x

theorem Pipeline.rename_substitute (hρ : Function.Injective ρ) (σ : List (Binding Expr)) :
    (p : Pipeline) → (p.substitute σ).rename ρ = (p.rename ρ).substitute (renameLocals ρ σ)
  | ⟨source, stages⟩ => by
    rw [Pipeline.substitute, Pipeline.rename, Comprehension.rename_substitute hρ σ source,
      renameStages_substituteStages hρ σ stages]
    rfl
termination_by structural x => x

theorem renameStages_substituteStages (hρ : Function.Injective ρ) (σ : List (Binding Expr)) :
    (ss : List Stage) →
      renameStages ρ (substituteStages σ ss) =
        substituteStages (renameLocals ρ σ) (renameStages ρ ss)
  | [] => rfl
  | s :: ss => by
    rw [substituteStages, renameStages, s.rename_substitute hρ σ,
      renameStages_substituteStages hρ σ ss]
    rfl
termination_by structural x => x

theorem Stage.rename_substitute (hρ : Function.Injective ρ) (σ : List (Binding Expr)) :
    (s : Stage) → (s.substitute σ).rename ρ = (s.rename ρ).substitute (renameLocals ρ σ)
  | .join _ joined none => by
    simp only [Stage.substitute, Stage.rename, joined.rename_substitute hρ σ]
  | .join _ joined (some ⟨ps, e⟩) => by
    simp only [Stage.substitute, Stage.rename, joined.rename_substitute hρ σ,
      Comprehension.rename_substitute hρ (without ps σ) e, without_renameLocals hρ]
  | .filter ⟨ps, e⟩ => by
    simp only [Stage.substitute, Stage.rename,
      Comprehension.rename_substitute hρ (without ps σ) e, without_renameLocals hρ]
  | .groupBy ⟨ps, e⟩ none => by
    simp only [Stage.substitute, Stage.rename,
      Comprehension.rename_substitute hρ (without ps σ) e, without_renameLocals hρ]
  | .groupBy ⟨ps, e⟩ (some ⟨qs, h⟩) => by
    simp only [Stage.substitute, Stage.rename, Comprehension.rename_substitute hρ (without ps σ) e,
      Comprehension.rename_substitute hρ (without qs σ) h, without_renameLocals hρ]
  | .orderBy specs => by
    rw [Stage.substitute, Stage.rename, renameSpecs_substituteSpecs hρ σ specs]
    rfl
  | .limit offset size => by
    rw [Stage.substitute, Stage.rename, Comprehension.rename_substitute hρ σ offset,
      Comprehension.rename_substitute hρ σ size]
    rfl
  | .select ⟨ps, e⟩ => by
    simp only [Stage.substitute, Stage.rename,
      Comprehension.rename_substitute hρ (without ps σ) e, without_renameLocals hρ]
termination_by structural x => x

theorem renameSpecs_substituteSpecs (hρ : Function.Injective ρ) (σ : List (Binding Expr)) :
    (specs : List (SortSpec Expr)) →
      renameSpecs ρ (substituteSpecs σ specs) =
        substituteSpecs (renameLocals ρ σ) (renameSpecs ρ specs)
  | [] => rfl
  | ⟨⟨ps, e⟩, _⟩ :: ss => by
    simp only [substituteSpecs, renameSpecs, Comprehension.rename_substitute hρ (without ps σ) e,
      renameSpecs_substituteSpecs hρ σ ss, without_renameLocals hρ]
termination_by structural x => x
end

theorem rename_bind (hρ : Function.Injective ρ) (bs : List (Binding Expr)) (body : Expr)
    (inline : Bool) :
    (bind bs body inline).rename ρ = bind (renameLocals ρ bs) (body.rename ρ) inline := by
  cases bs with
  | nil => rfl
  | cons b bs =>
    cases inline
    · rw [renameLocals, bind, bind, pos_rename]
      rfl
    · exact rename_substitute hρ (b :: bs) body

end

/-! ## The identity -/

mutual
/-- A renaming that moves no name changes nothing. -/
theorem Expr.rename_id : (e : Expr) → e.rename id = e
  | .literal _ _ | .var _ _ | .query _ _ | .postIncrement _ _ => rfl
  | .unary _ _ e => by simp only [Expr.rename, e.rename_id]
  | .binary _ _ l r => by simp only [Expr.rename, l.rename_id, r.rename_id]
  | .sequence _ _ es => by simp only [Expr.rename, renameAll_id es]
  | .method _ r _ es => by simp only [Expr.rename, r.rename_id, renameAll_id es]
  | .lambda _ ⟨ps, e⟩ => by simp only [Expr.rename, List.map_id, e.rename_id]
  | .letIn _ bs e => by simp only [Expr.rename, renameLocals_id bs, e.rename_id]
  | .record _ vs ns as none => by
    simp only [Expr.rename, renameAll_id vs, ns.rename_id, as.rename_id]
  | .record _ vs ns as (some r) => by
    simp only [Expr.rename, renameAll_id vs, ns.rename_id, as.rename_id, r.rename_id]
  | .subquery _ t => by simp only [Expr.rename, t.rename_id]
termination_by structural x => x

theorem renameAll_id : (es : List Expr) → renameAll id es = es
  | [] => rfl
  | e :: es => by simp only [renameAll, e.rename_id, renameAll_id es]
termination_by structural x => x

theorem renameLocals_id : (bs : List (Binding Expr)) → renameLocals id bs = bs
  | [] => rfl
  | ⟨_, e⟩ :: bs => by simp only [renameLocals, id_eq, e.rename_id, renameLocals_id bs]
termination_by structural x => x

theorem Thunk.rename_id : (t : Thunk) → t.rename id = t
  | ⟨declarations, pipeline⟩ => by
    have hdeclarations : declarations.map (Declaration.rename id) = declarations :=
      (List.map_congr_left fun d _ => by cases d <;> rfl).trans (List.map_id declarations)
    simp only [Thunk.rename, hdeclarations, pipeline.rename_id]
termination_by structural x => x

theorem Pipeline.rename_id : (p : Pipeline) → p.rename id = p
  | ⟨source, stages⟩ => by simp only [Pipeline.rename, source.rename_id, renameStages_id stages]
termination_by structural x => x

theorem renameStages_id : (ss : List Stage) → renameStages id ss = ss
  | [] => rfl
  | s :: ss => by simp only [renameStages, s.rename_id, renameStages_id ss]
termination_by structural x => x

theorem Stage.rename_id : (s : Stage) → s.rename id = s
  | .join _ joined none => by simp only [Stage.rename, joined.rename_id]
  | .join _ joined (some ⟨ps, e⟩) => by
    simp only [Stage.rename, joined.rename_id, List.map_id, e.rename_id]
  | .filter ⟨ps, e⟩ | .select ⟨ps, e⟩ | .groupBy ⟨ps, e⟩ none => by
    simp only [Stage.rename, List.map_id, e.rename_id]
  | .groupBy ⟨ps, e⟩ (some ⟨qs, h⟩) => by
    simp only [Stage.rename, List.map_id, e.rename_id, h.rename_id]
  | .orderBy specs => by simp only [Stage.rename, renameSpecs_id specs]
  | .limit offset size => by simp only [Stage.rename, offset.rename_id, size.rename_id]
termination_by structural x => x

theorem renameSpecs_id : (ss : List (SortSpec Expr)) → renameSpecs id ss = ss
  | [] => rfl
  | ⟨⟨ps, e⟩, _⟩ :: ss => by simp only [renameSpecs, List.map_id, e.rename_id, renameSpecs_id ss]
termination_by structural x => x
end

end Comprehension
