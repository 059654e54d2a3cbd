import Comprehension.Proofs.Parts

/-!
Own parts. What stands in an expression outside of its thunks is evaluated where the expression is,
under the declarations of the same thunk. Substitution keeps the own parts, and all that it adds to
them stands in the values.
-/

namespace Comprehension

/-! ## Own parts -/

mutual
/-- An expression and all expressions in it, those in its thunks apart. -/
def Expr.own : Expr → List Expr
  | e@(.literal _ _) | e@(.var _ _) | e@(.query _ _) | e@(.postIncrement _ _)
  | e@(.subquery _ _) => [e]
  | e@(.unary _ _ operand) => e :: operand.own
  | e@(.binary _ _ l r) => e :: (l.own ++ r.own)
  | e@(.sequence _ _ es) => e :: ownAll es
  | e@(.method _ r _ es) => e :: (r.own ++ ownAll es)
  | e@(.lambda _ ⟨_, body⟩) => e :: body.own
  | e@(.letIn _ bs body) => e :: (ownLocals bs ++ body.own)
  | e@(.record _ vs ns as row) =>
    e :: (ownAll vs ++ ns.own ++ as.own ++
      (match row with
        | some r => r.own
        | none => []))
termination_by structural x => x

def ownAll : List Expr → List Expr
  | [] => []
  | e :: es => e.own ++ ownAll es
termination_by structural x => x

def ownLocals : List (Binding Expr) → List Expr
  | [] => []
  | ⟨_, e⟩ :: bs => e.own ++ ownLocals bs
termination_by structural x => x
end

theorem Expr.mem_own (e : Expr) : e ∈ e.own := by
  cases e with
  | record p vs ns as row => cases row <;> exact List.mem_cons_self
  | _ => exact List.mem_cons_self

theorem mem_ownAll {e' : Expr} {es : List Expr} : e' ∈ ownAll es ↔ ∃ e ∈ es, e' ∈ e.own := by
  induction es with
  | nil => simp [ownAll]
  | cons e es ih => simp [ownAll, ih]

theorem mem_ownLocals {e' : Expr} {bs : List (Binding Expr)} :
    e' ∈ ownLocals bs ↔ ∃ b ∈ bs, e' ∈ b.value.own := by
  induction bs with
  | nil => simp [ownLocals]
  | cons b bs ih => simp [ownLocals, ih]

/-! ## Field paths -/

theorem isPath_withPos (p : Position) (e : Expr) : (e.withPos p).isPath = e.isPath := by
  cases e with
  | unary q f e => cases f <;> rfl
  | _ => rfl

theorem isPath_of_mem_own {e e' : Expr} (h : e.isPath = true) (he : e' ∈ e.own) :
    e'.isPath = true := by
  induction e using Expr.written_induction with
  | var p n => exact List.mem_singleton.mp he ▸ h
  | unary p f e ih =>
    cases f with
    | field n =>
      rcases List.mem_cons.mp he with rfl | he
      · exact h
      · exact ih h he
    | _ => cases h
  | _ => cases h

/-- The values of the bindings are field paths. -/
def ArePaths (σ : List (Binding Expr)) : Prop := ∀ b ∈ σ, b.value.isPath = true

theorem isPath_substitute {σ : List (Binding Expr)} (hσ : ArePaths σ) {e : Expr}
    (h : e.isPath = true) : (e.substitute σ).isPath = true := by
  induction e using Expr.written_induction with
  | var p n =>
    rw [Expr.substitute]
    cases hn : valueOf? n σ with
    | none => rfl
    | some v =>
      have hv : v.isPath = true := hσ _ (mem_of_valueOf? hn)
      rwa [isPath_withPos]
  | unary p f e ih =>
    cases f with
    | field n => exact ih h
    | _ => cases h
  | _ => cases h

/-! ## Own parts under substitution -/

mutual
theorem own_substitute (σ : List (Binding Expr)) :
    (e : Expr) → Becomes Expr.own σ e.own (e.substitute σ).own
  | .literal _ _ => .cons .nil
  | .var p n => .var Expr.mem_own (fun _ _ => rfl) p n
  | .unary _ _ e => .cons (own_substitute σ e)
  | .binary _ _ l r => .cons ((own_substitute σ l).append (own_substitute σ r))
  | .sequence _ _ es => .cons (ownAll_substitute σ es)
  | .method _ r _ es => .cons ((own_substitute σ r).append (ownAll_substitute σ es))
  | .lambda _ ⟨ps, e⟩ => .cons (own_substitute (without ps σ) e).without
  | .query _ _ => .cons .nil
  | .letIn _ bs e =>
    .cons ((ownLocals_substitute σ bs).append (own_substitute (without _ σ) e).without)
  | .record _ vs ns as none =>
    .cons ((((ownAll_substitute σ vs).append (own_substitute σ ns)).append
      (own_substitute σ as)).append .nil)
  | .record _ vs ns as (some r) =>
    .cons ((((ownAll_substitute σ vs).append (own_substitute σ ns)).append
      (own_substitute σ as)).append (own_substitute σ r))
  | .postIncrement _ _ => .cons .nil
  | .subquery _ _ => .cons .nil
termination_by structural x => x

theorem ownAll_substitute (σ : List (Binding Expr)) :
    (es : List Expr) → Becomes Expr.own σ (ownAll es) (ownAll (substituteAll σ es))
  | [] => .nil
  | e :: es => (own_substitute σ e).append (ownAll_substitute σ es)
termination_by structural x => x

theorem ownLocals_substitute (σ : List (Binding Expr)) :
    (bs : List (Binding Expr)) → Becomes Expr.own σ (ownLocals bs) (ownLocals (substituteLocals σ bs))
  | [] => .nil
  | ⟨n, e⟩ :: bs =>
    (own_substitute σ e).append (ownLocals_substitute (without [n] σ) bs).without
termination_by structural x => x
end

/-- What field paths are put in: an own part that is none itself was there before. -/
theorem traced_of_not_isPath {σ : List (Binding Expr)} (hσ : ArePaths σ) {e e' : Expr}
    (he : e' ∈ (e.substitute σ).own) (hpath : e'.isPath = false) :
    ∃ e₀ ∈ e.own, e₀.isPath = false ∧ ∃ σ', σ' ⊆ σ ∧ e' = e₀.substitute σ' := by
  rcases (own_substitute σ e).traced e' he with ⟨e₀, he₀, σ', hσ', rfl⟩ | ⟨b, hb, p, hp⟩
  · refine ⟨e₀, he₀, ?_, σ', hσ', rfl⟩
    cases h₀ : e₀.isPath with
    | false => rfl
    | true => exact (isPath_substitute (fun b hb => hσ b (hσ' hb)) h₀).symm.trans hpath
  · have hvalue : (b.value.withPos p).isPath = true := by
      rw [isPath_withPos]
      exact hσ b hb
    exact absurd (isPath_of_mem_own hvalue hp) (by simp [hpath])

/-! ## Records and blocks -/

theorem own_renamed_subset (e : Expr) : e.renamed.own ⊆ e.own := by
  cases e with
  | unary p f e =>
    cases f with
    | rename a => exact List.subset_cons_self ..
    | _ => exact List.Subset.refl _
  | _ => exact List.Subset.refl _

theorem own_recordOf (table : String) (l : NameList) (values : List Expr) (row : Option String) :
    (recordOf table l values (row.map Expr.name)).own =
      recordOf table l values (row.map Expr.name) ::
        (ownAll (values.map Expr.renamed) ++ (l.access table).own ++
          (NameList.aliases.access table).own ++ row.toList.map Expr.name) := by
  cases row <;> rfl

theorem bind_cases (σ : List (Binding Expr)) (e : Expr) (inline : Bool) :
    bind σ e inline = e ∨ (inline = true ∧ bind σ e inline = e.substitute σ) ∨
      bind σ e inline = .letIn e.pos σ e := by
  rw [bind]
  split
  · exact .inl rfl
  · split
    · rename_i hinline
      exact .inr (.inl ⟨hinline, rfl⟩)
    · exact .inr (.inr rfl)

end Comprehension
