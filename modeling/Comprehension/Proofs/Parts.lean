import Comprehension.Proofs.NameFates

/-!
The parts of what is lowered, and the places where it reads a value: the value stands there itself, or
a variable that a `let` block binds to it. Substitution keeps the parts, and puts a value at each place
where a variable stood.
-/

namespace Comprehension

/-! ## Parts -/

mutual
/-- An expression and all expressions in it, those in the functions of a thunk included. -/
def Expr.parts : Expr → List Expr
  | e@(.literal _ _) | e@(.var _ _) | e@(.query _ _) | e@(.postIncrement _ _) => [e]
  | e@(.unary _ _ operand) => e :: operand.parts
  | e@(.binary _ _ l r) => e :: (l.parts ++ r.parts)
  | e@(.sequence _ _ es) => e :: partsAll es
  | e@(.method _ r _ es) => e :: (r.parts ++ partsAll es)
  | e@(.lambda _ ⟨_, body⟩) => e :: body.parts
  | e@(.letIn _ bs body) => e :: (partsLocals bs ++ body.parts)
  | e@(.record _ vs ns as row) =>
    e :: (partsAll vs ++ ns.parts ++ as.parts ++
      (match row with
        | some r => r.parts
        | none => []))
  | e@(.subquery _ t) => e :: t.parts
termination_by structural x => x

def partsAll : List Expr → List Expr
  | [] => []
  | e :: es => e.parts ++ partsAll es
termination_by structural x => x

def partsLocals : List (Binding Expr) → List Expr
  | [] => []
  | ⟨_, e⟩ :: bs => e.parts ++ partsLocals bs
termination_by structural x => x

def Thunk.parts : Thunk → List Expr
  | ⟨_, pipeline⟩ => pipeline.parts
termination_by structural x => x

def Pipeline.parts : Pipeline → List Expr
  | ⟨source, stages⟩ => source.parts ++ partsStages stages
termination_by structural x => x

def partsStages : List Stage → List Expr
  | [] => []
  | s :: ss => s.parts ++ partsStages ss
termination_by structural x => x

def Stage.parts : Stage → List Expr
  | .join _ joined on =>
    joined.parts ++
      (match on with
        | some ⟨_, e⟩ => e.parts
        | none => [])
  | .filter ⟨_, e⟩ => e.parts
  | .groupBy ⟨_, e⟩ having =>
    e.parts ++
      (match having with
        | some ⟨_, h⟩ => h.parts
        | none => [])
  | .orderBy specs => partsSpecs specs
  | .limit offset size => offset.parts ++ size.parts
  | .select ⟨_, e⟩ => e.parts
termination_by structural x => x

def partsSpecs : List (SortSpec Expr) → List Expr
  | [] => []
  | ⟨⟨_, e⟩, _⟩ :: ss => e.parts ++ partsSpecs ss
termination_by structural x => x
end

theorem Expr.mem_parts (e : Expr) : e ∈ e.parts := by
  cases e with
  | record p vs ns as row => cases row <;> exact List.mem_cons_self
  | _ => exact List.mem_cons_self

theorem parts_subset_partsAll {e : Expr} {es : List Expr} (h : e ∈ es) :
    e.parts ⊆ partsAll es := by
  induction es with
  | nil => cases h
  | cons e' es ih =>
    rw [partsAll]
    rcases List.mem_cons.mp h with rfl | h
    · exact List.subset_append_left ..
    · exact fun f hf => List.mem_append_right _ (ih h hf)

/-! ### Parts under substitution -/

/-- The expressions with some of the bindings put in place are among the others. -/
def CarriedTo (σ : List (Binding Expr)) (es es' : List Expr) : Prop :=
  ∀ e ∈ es, ∃ σ', σ' ⊆ σ ∧ e.substitute σ' ∈ es'

namespace CarriedTo

variable {σ : List (Binding Expr)} {es es' fs fs' : List Expr}

theorem nil : CarriedTo σ [] es' := List.forall_mem_nil _

theorem cons {e : Expr} (h : CarriedTo σ es es') :
    CarriedTo σ (e :: es) (e.substitute σ :: es') := by
  refine List.forall_mem_cons.mpr ⟨⟨σ, List.Subset.refl σ, List.mem_cons_self⟩, fun f hf => ?_⟩
  obtain ⟨σ', hσ', hmem⟩ := h f hf
  exact ⟨σ', hσ', List.mem_cons_of_mem _ hmem⟩

theorem append (h : CarriedTo σ es es') (h' : CarriedTo σ fs fs') :
    CarriedTo σ (es ++ fs) (es' ++ fs') := by
  refine List.forall_mem_append.mpr ⟨fun e he => ?_, fun e he => ?_⟩
  · obtain ⟨σ', hσ', hmem⟩ := h e he
    exact ⟨σ', hσ', List.mem_append_left _ hmem⟩
  · obtain ⟨σ', hσ', hmem⟩ := h' e he
    exact ⟨σ', hσ', List.mem_append_right _ hmem⟩

/-- Binders between the bindings and the expressions. -/
theorem without {names : List String} (h : CarriedTo (without names σ) es es') :
    CarriedTo σ es es' := by
  intro e he
  obtain ⟨σ', hσ', hmem⟩ := h e he
  exact ⟨σ', fun b hb => mem_of_mem_without (hσ' hb), hmem⟩

end CarriedTo

/-- The expression is one of the others with some of the bindings put in place, or is seen in a value.
-/
def TracedTo (look : Expr → List Expr) (σ : List (Binding Expr)) (es : List Expr) (e' : Expr) :
    Prop :=
  (∃ e ∈ es, ∃ σ', σ' ⊆ σ ∧ e' = e.substitute σ') ∨ ∃ b ∈ σ, ∃ p, e' ∈ look (b.value.withPos p)

theorem TracedTo.mono {look : Expr → List Expr} {σ σ' : List (Binding Expr)} {es es' : List Expr}
    {e' : Expr} (h : TracedTo look σ es e') (hσ : σ ⊆ σ') (hes : es ⊆ es') :
    TracedTo look σ' es' e' := by
  rcases h with ⟨e, he, τ, hτ, rfl⟩ | ⟨b, hb, p, hp⟩
  · exact .inl ⟨e, hes he, τ, List.Subset.trans hτ hσ, rfl⟩
  · exact .inr ⟨b, hσ hb, p, hp⟩

/-- The second expressions are what the first ones become: each of the first stays, with some of the
bindings put in place, and each of the second can be traced back. -/
structure Becomes (look : Expr → List Expr) (σ : List (Binding Expr)) (es es' : List Expr) :
    Prop where
  kept : CarriedTo σ es es'
  traced : ∀ e' ∈ es', TracedTo look σ es e'

namespace Becomes

variable {look : Expr → List Expr} {σ : List (Binding Expr)} {es es' fs fs' : List Expr}

theorem nil : Becomes look σ [] [] := ⟨.nil, List.forall_mem_nil _⟩

theorem cons {e : Expr} (h : Becomes look σ es es') :
    Becomes look σ (e :: es) (e.substitute σ :: es') where
  kept := h.kept.cons
  traced := List.forall_mem_cons.mpr
    ⟨.inl ⟨e, List.mem_cons_self, σ, List.Subset.refl σ, rfl⟩,
      fun e' he => (h.traced e' he).mono (List.Subset.refl σ) (List.subset_cons_self ..)⟩

theorem append (h : Becomes look σ es es') (h' : Becomes look σ fs fs') :
    Becomes look σ (es ++ fs) (es' ++ fs') where
  kept := h.kept.append h'.kept
  traced := List.forall_mem_append.mpr
    ⟨fun e' he => (h.traced e' he).mono (List.Subset.refl σ) (List.subset_append_left ..),
      fun e' he => (h'.traced e' he).mono (List.Subset.refl σ) (List.subset_append_right ..)⟩

/-- Binders between the bindings and the expressions. -/
theorem without {names : List String} (h : Becomes look (without names σ) es es') :
    Becomes look σ es es' where
  kept := h.kept.without
  traced e' he := (h.traced e' he).mono (fun _ hb => mem_of_mem_without hb) (List.Subset.refl es)

/-- A variable gives way to its value. -/
theorem var (hself : ∀ e, e ∈ look e) (hvar : ∀ p n, look (.var p n) = [.var p n]) (p : Position)
    (n : String) : Becomes look σ [.var p n] (look ((Expr.var p n).substitute σ)) := by
  refine ⟨List.forall_mem_singleton.mpr ⟨σ, List.Subset.refl σ, hself _⟩, fun e' he => ?_⟩
  rw [Expr.substitute] at he
  cases hn : valueOf? n σ with
  | none =>
    rw [hn, hvar, List.mem_singleton] at he
    refine .inl ⟨.var p n, List.mem_cons_self, σ, List.Subset.refl σ, ?_⟩
    rw [Expr.substitute, hn, he]
  | some v =>
    rw [hn] at he
    exact .inr ⟨_, mem_of_valueOf? hn, p, he⟩

end Becomes

mutual
theorem parts_substitute (σ : List (Binding Expr)) :
    (e : Expr) → Becomes Expr.parts σ e.parts (e.substitute σ).parts
  | .literal _ _ => .cons .nil
  | .var p n => .var Expr.mem_parts (fun _ _ => rfl) p n
  | .unary _ _ e => .cons (parts_substitute σ e)
  | .binary _ _ l r => .cons ((parts_substitute σ l).append (parts_substitute σ r))
  | .sequence _ _ es => .cons (partsAll_substitute σ es)
  | .method _ r _ es => .cons ((parts_substitute σ r).append (partsAll_substitute σ es))
  | .lambda _ ⟨ps, e⟩ => .cons (parts_substitute (without ps σ) e).without
  | .query _ _ => .cons .nil
  | .letIn _ bs e =>
    .cons ((partsLocals_substitute σ bs).append (parts_substitute (without _ σ) e).without)
  | .record _ vs ns as none =>
    .cons ((((partsAll_substitute σ vs).append (parts_substitute σ ns)).append
      (parts_substitute σ as)).append .nil)
  | .record _ vs ns as (some r) =>
    .cons ((((partsAll_substitute σ vs).append (parts_substitute σ ns)).append
      (parts_substitute σ as)).append (parts_substitute σ r))
  | .postIncrement _ _ => .cons .nil
  | .subquery _ t => .cons (t.parts_substitute σ)
termination_by structural x => x

theorem partsAll_substitute (σ : List (Binding Expr)) :
    (es : List Expr) → Becomes Expr.parts σ (partsAll es) (partsAll (substituteAll σ es))
  | [] => .nil
  | e :: es => (parts_substitute σ e).append (partsAll_substitute σ es)
termination_by structural x => x

theorem partsLocals_substitute (σ : List (Binding Expr)) :
    (bs : List (Binding Expr)) →
      Becomes Expr.parts σ (partsLocals bs) (partsLocals (substituteLocals σ bs))
  | [] => .nil
  | ⟨n, e⟩ :: bs =>
    (parts_substitute σ e).append (partsLocals_substitute (without [n] σ) bs).without
termination_by structural x => x

theorem Thunk.parts_substitute (σ : List (Binding Expr)) :
    (t : Thunk) → Becomes Expr.parts σ t.parts (t.substitute σ).parts
  | ⟨_, pipeline⟩ => pipeline.parts_substitute σ
termination_by structural x => x

theorem Pipeline.parts_substitute (σ : List (Binding Expr)) :
    (p : Pipeline) → Becomes Expr.parts σ p.parts (p.substitute σ).parts
  | ⟨source, stages⟩ =>
    (Comprehension.parts_substitute σ source).append (partsStages_substitute σ stages)
termination_by structural x => x

theorem partsStages_substitute (σ : List (Binding Expr)) :
    (ss : List Stage) → Becomes Expr.parts σ (partsStages ss) (partsStages (substituteStages σ ss))
  | [] => .nil
  | s :: ss => (s.parts_substitute σ).append (partsStages_substitute σ ss)
termination_by structural x => x

theorem Stage.parts_substitute (σ : List (Binding Expr)) :
    (s : Stage) → Becomes Expr.parts σ s.parts (s.substitute σ).parts
  | .join _ joined none => (joined.parts_substitute σ).append .nil
  | .join _ joined (some ⟨ps, e⟩) =>
    (joined.parts_substitute σ).append (Comprehension.parts_substitute (without ps σ) e).without
  | .filter ⟨ps, e⟩ => (Comprehension.parts_substitute (without ps σ) e).without
  | .groupBy ⟨ps, e⟩ none =>
    Becomes.append (Comprehension.parts_substitute (without ps σ) e).without .nil
  | .groupBy ⟨ps, e⟩ (some ⟨qs, having⟩) =>
    Becomes.append (Comprehension.parts_substitute (without ps σ) e).without
      (Comprehension.parts_substitute (without qs σ) having).without
  | .orderBy specs => partsSpecs_substitute σ specs
  | .limit offset size =>
    (Comprehension.parts_substitute σ offset).append (Comprehension.parts_substitute σ size)
  | .select ⟨ps, e⟩ => (Comprehension.parts_substitute (without ps σ) e).without
termination_by structural x => x

theorem partsSpecs_substitute (σ : List (Binding Expr)) :
    (ss : List (SortSpec Expr)) →
      Becomes Expr.parts σ (partsSpecs ss) (partsSpecs (substituteSpecs σ ss))
  | [] => .nil
  | ⟨⟨ps, e⟩, _⟩ :: ss =>
    Becomes.append (Comprehension.parts_substitute (without ps σ) e).without
      (partsSpecs_substitute σ ss)
termination_by structural x => x
end

/-! ## Uses of what is put in place -/

/-- The value is put in the place of the names that are bound outside. -/
def PutFor (v : Expr) (ρ : String → Option Abstraction) (σ : List (Binding Expr)) : Prop :=
  ∀ n, ρ n = some outside → valueOf? n σ = some v

namespace PutFor

variable {v : Expr} {ρ : String → Option Abstraction} {σ : List (Binding Expr)}

theorem hide (h : PutFor v ρ σ) {p : String → Bool} {names : List String}
    (hnames : ∀ n ∈ names, p n = true) : PutFor v (hide p ρ) (without names σ) := by
  intro n hn
  rw [Comprehension.hide] at hn
  split at hn
  · cases hn
  · rename_i hp
    have hmem : n ∉ names := fun hmem => hp (hnames n hmem)
    rw [valueOf?_without, if_neg hmem]
    exact h n hn

theorem hideNone (h : PutFor v ρ σ) (p : String → Bool) : PutFor v (Comprehension.hide p ρ) σ := by
  intro n hn
  rw [Comprehension.hide] at hn
  split at hn
  · cases hn
  · exact h n hn

/-- No lambda that binds a name is mistaken for what binds outside. -/
theorem lambda (h : PutFor v ρ σ) (p body : Position) (ps : List String) :
    PutFor v (enter ps ⟨p, body, ps⟩ ρ) (without ps σ) := by
  intro n hn
  rw [valueOf?_without]
  by_cases hmem : n ∈ ps
  · rw [enter, if_pos hmem] at hn
    cases hn
    cases hmem
  · rw [enter_of_not_mem hmem] at hn
    rw [if_neg hmem]
    exact h n hn

end PutFor

/-- Where a name from outside is used, the value is among the expressions. -/
def FetchedIn (v : Expr) (us : List Use) (es : List Expr) : Prop :=
  ∀ u ∈ us, u.lambda = outside → v.withPos u.pos ∈ es

namespace FetchedIn

variable {v : Expr} {us us' : List Use} {es es' : List Expr}

theorem nil : FetchedIn v [] es := List.forall_mem_nil _

theorem append (h : FetchedIn v us es) (h' : FetchedIn v us' es') :
    FetchedIn v (us ++ us') (es ++ es') :=
  List.forall_mem_append.mpr ⟨fun u hu hout => List.mem_append_left _ (h u hu hout),
    fun u hu hout => List.mem_append_right _ (h' u hu hout)⟩

theorem inside (h : FetchedIn v us es) (e : Expr) : FetchedIn v us (e :: es) :=
  fun u hu hout => List.mem_cons_of_mem _ (h u hu hout)

end FetchedIn

mutual
theorem fetched_uses (v : Expr) (ρ : String → Option Abstraction) (σ : List (Binding Expr))
    (h : PutFor v ρ σ) : (e : Expr) → FetchedIn v (e.uses ρ) (e.substitute σ).parts
  | .literal _ _ => .nil
  | .var p n => by
    intro u hu hout
    rw [Expr.uses] at hu
    cases hn : ρ n with
    | none =>
      rw [hn] at hu
      cases hu
    | some a =>
      rw [hn] at hu
      cases List.mem_singleton.mp hu
      cases hout
      rw [Expr.substitute, h n hn]
      exact (v.withPos p).mem_parts
  | .unary _ _ e => (fetched_uses v ρ σ h e).inside _
  | .binary _ _ l r => ((fetched_uses v ρ σ h l).append (fetched_uses v ρ σ h r)).inside _
  | .sequence _ _ es => (fetched_usesAll v ρ σ h es).inside _
  | .method _ r _ es => ((fetched_uses v ρ σ h r).append (fetched_usesAll v ρ σ h es)).inside _
  | .lambda p ⟨ps, e⟩ => (fetched_uses v _ _ (h.lambda p e.pos ps) e).inside _
  | .query _ _ => .nil
  | .letIn _ bs e => by
    have hbody : PutFor v (hide (named bs) ρ) (without (bs.map (·.name)) σ) := by
      refine h.hide fun n hn => ?_
      rw [named, Option.isSome_iff_ne_none, ne_eq, valueOf?_eq_none]
      exact not_not_intro hn
    exact ((fetched_usesLocals v ρ σ h bs).append (fetched_uses v _ _ hbody e)).inside _
  | .record _ vs ns as none =>
    ((((fetched_usesAll v ρ σ h vs).append (fetched_uses v ρ σ h ns)).append
      (fetched_uses v ρ σ h as)).append .nil).inside _
  | .record _ vs ns as (some r) =>
    ((((fetched_usesAll v ρ σ h vs).append (fetched_uses v ρ σ h ns)).append
      (fetched_uses v ρ σ h as)).append (fetched_uses v ρ σ h r)).inside _
  | .postIncrement _ _ => .nil
  | .subquery _ t => (t.fetched_uses v ρ σ h).inside _
termination_by structural x => x

theorem fetched_usesAll (v : Expr) (ρ : String → Option Abstraction) (σ : List (Binding Expr))
    (h : PutFor v ρ σ) :
    (es : List Expr) → FetchedIn v (usesAll ρ es) (partsAll (substituteAll σ es))
  | [] => .nil
  | e :: es => (fetched_uses v ρ σ h e).append (fetched_usesAll v ρ σ h es)
termination_by structural x => x

theorem fetched_usesLocals (v : Expr) (ρ : String → Option Abstraction) (σ : List (Binding Expr))
    (h : PutFor v ρ σ) :
    (bs : List (Binding Expr)) →
      FetchedIn v (usesLocals ρ bs) (partsLocals (substituteLocals σ bs))
  | [] => .nil
  | ⟨_, e⟩ :: bs =>
    (fetched_uses v ρ σ h e).append (fetched_usesLocals v _ _ (h.hide fun _ => decide_eq_true) bs)
termination_by structural x => x

theorem Thunk.fetched_uses (v : Expr) (ρ : String → Option Abstraction) (σ : List (Binding Expr))
    (h : PutFor v ρ σ) : (t : Thunk) → FetchedIn v (t.uses ρ) (t.substitute σ).parts
  | ⟨_, pipeline⟩ => pipeline.fetched_uses v _ σ (h.hideNone _)
termination_by structural x => x

theorem Pipeline.fetched_uses (v : Expr) (ρ : String → Option Abstraction)
    (σ : List (Binding Expr)) (h : PutFor v ρ σ) :
    (p : Pipeline) → FetchedIn v (p.uses ρ) (p.substitute σ).parts
  | ⟨source, stages⟩ =>
    (Comprehension.fetched_uses v ρ σ h source).append (fetched_usesStages v ρ σ h stages)
termination_by structural x => x

theorem fetched_usesStages (v : Expr) (ρ : String → Option Abstraction) (σ : List (Binding Expr))
    (h : PutFor v ρ σ) :
    (ss : List Stage) → FetchedIn v (usesStages ρ ss) (partsStages (substituteStages σ ss))
  | [] => .nil
  | s :: ss => (s.fetched_uses v ρ σ h).append (fetched_usesStages v ρ σ h ss)
termination_by structural x => x

theorem Stage.fetched_uses (v : Expr) (ρ : String → Option Abstraction) (σ : List (Binding Expr))
    (h : PutFor v ρ σ) : (s : Stage) → FetchedIn v (s.uses ρ) (s.substitute σ).parts
  | .join _ joined none => (joined.fetched_uses v ρ σ h).append .nil
  | .join _ joined (some ⟨_, e⟩) =>
    (joined.fetched_uses v ρ σ h).append
      (Comprehension.fetched_uses v _ _ (h.hide fun _ => decide_eq_true) e)
  | .filter ⟨_, e⟩ => Comprehension.fetched_uses v _ _ (h.hide fun _ => decide_eq_true) e
  | .groupBy ⟨_, e⟩ none =>
    FetchedIn.append (Comprehension.fetched_uses v _ _ (h.hide fun _ => decide_eq_true) e) .nil
  | .groupBy ⟨_, e⟩ (some ⟨_, having⟩) =>
    FetchedIn.append (Comprehension.fetched_uses v _ _ (h.hide fun _ => decide_eq_true) e)
      (Comprehension.fetched_uses v _ _ (h.hide fun _ => decide_eq_true) having)
  | .orderBy specs => fetched_usesSpecs v ρ σ h specs
  | .limit offset size =>
    (Comprehension.fetched_uses v ρ σ h offset).append (Comprehension.fetched_uses v ρ σ h size)
  | .select ⟨_, e⟩ => Comprehension.fetched_uses v _ _ (h.hide fun _ => decide_eq_true) e
termination_by structural x => x

theorem fetched_usesSpecs (v : Expr) (ρ : String → Option Abstraction) (σ : List (Binding Expr))
    (h : PutFor v ρ σ) :
    (ss : List (SortSpec Expr)) →
      FetchedIn v (usesSpecs ρ ss) (partsSpecs (substituteSpecs σ ss))
  | [] => .nil
  | ⟨⟨_, e⟩, _⟩ :: ss =>
    FetchedIn.append (Comprehension.fetched_uses v _ _ (h.hide fun _ => decide_eq_true) e)
      (fetched_usesSpecs v ρ σ h ss)
termination_by structural x => x
end

end Comprehension
