import Comprehension.Proofs.Calls
import Comprehension.Proofs.GroupNavigation

/-!
Calls that reduce a group. An aggregate on a group is a call that is sent to the rows of the group,
the second half of the parameter of a function. Paths that are put in place from outside keep such
calls: none is lost, and none comes from the paths.
-/

namespace Comprehension

/-! ## Calls that reduce -/

/-- A call of an aggregate, as it is written. -/
structure AggregateCall where
  pos : Position
  aggregate : Aggregate
  args : List Expr

mutual
/-- The aggregates that an expression calls on a group. What is read for each row is no expression on
the group, and a nested query has groups of its own. -/
def Expr.aggregates : Expr → List AggregateCall
  | .unary _ _ e => e.aggregates
  | .binary _ _ l r => l.aggregates ++ r.aggregates
  | .sequence p (.call n) es =>
    match Aggregate.ofName? n with
    | some a => ⟨p, a, es⟩ :: if a = .agg then aggregatesAll es else []
    | none => aggregatesAll es
  | .sequence _ _ es => aggregatesAll es
  | .method _ r _ es => r.aggregates ++ aggregatesAll es
  | .lambda _ ⟨_, e⟩ => e.aggregates
  | _ => []

def aggregatesAll : List Expr → List AggregateCall
  | [] => []
  | e :: es => e.aggregates ++ aggregatesAll es
end

/-- A call in a function of a group, sent to the rows of the group or to nothing. -/
structure Reduction where
  pos : Position
  onRows : Bool
  name : String
  args : List Expr

/-- `param.second`. -/
def Expr.isRows (param : String) : Expr → Bool
  | .unary _ (.field half) (.var _ n) => half = "second" ∧ n = param
  | _ => false

/-- What a call sends to the rows of the group, unless it shows them under their aliases. -/
def Expr.sent? (param : String) : Expr → Option Reduction
  | .method p r n es => if r.isRows param ∧ n ≠ "withAliases" then some ⟨p, true, n, es⟩ else none
  | _ => none

mutual
/-- The calls that are sent to the rows of the group, and the calls of aggregates that are sent to
nothing, apart from those in thunks and in selectors. -/
def Expr.reductions (param : String) : Expr → List Reduction
  | .unary _ _ e => e.reductions param
  | .binary _ _ l r => l.reductions param ++ r.reductions param
  | .sequence p (.call n) es =>
    (if (Aggregate.ofName? n).isSome then [⟨p, false, n, es⟩] else []) ++ reductionsAll param es
  | .sequence _ _ es => reductionsAll param es
  | .method p r n es =>
    if r.isRows param ∧ n ≠ "withAliases" then
      ⟨p, true, n, es⟩ :: if n = Aggregate.agg.name then reductionsAll param es else []
    else r.reductions param ++ reductionsAll param es
  | .lambda _ ⟨_, e⟩ => e.reductions param
  | .letIn _ bs e => reductionsLocals param bs ++ e.reductions param
  | .record _ vs ns as row =>
    reductionsAll param vs ++ ns.reductions param ++ as.reductions param ++
      (match row with
        | some r => r.reductions param
        | none => [])
  | _ => []
termination_by structural x => x

def reductionsAll (param : String) : List Expr → List Reduction
  | [] => []
  | e :: es => e.reductions param ++ reductionsAll param es
termination_by structural x => x

def reductionsLocals (param : String) : List (Binding Expr) → List Reduction
  | [] => []
  | ⟨_, e⟩ :: bs => e.reductions param ++ reductionsLocals param bs
termination_by structural x => x
end

theorem Expr.isRows_iff {param : String} {e : Expr} :
    e.isRows param = true ↔ ∃ p p', e = .unary p (.field "second") (.var p' param) := by
  constructor
  · intro h
    rw [isRows.eq_def] at h
    split at h
    · obtain ⟨rfl, rfl⟩ := of_decide_eq_true h
      exact ⟨_, _, rfl⟩
    · cases h
  · rintro ⟨p, p', rfl⟩
    exact decide_eq_true ⟨rfl, rfl⟩

theorem Expr.sent?_iff {param : String} {e : Expr} {r : Reduction} :
    e.sent? param = some r ↔ ∃ p rows n es, e = .method p rows n es ∧ rows.isRows param = true ∧
      n ≠ "withAliases" ∧ r = ⟨p, true, n, es⟩ := by
  constructor
  · intro h
    rw [sent?.eq_def] at h
    split at h
    · split at h
      · rename_i hsent
        cases h
        exact ⟨_, _, _, _, rfl, hsent.1, hsent.2, rfl⟩
      · cases h
    · cases h
  · rintro ⟨p, rows, n, es, rfl, hrows, hn, rfl⟩
    exact if_pos ⟨hrows, hn⟩

theorem sent?_of_isPath {param : String} {e : Expr} (h : e.isPath = true) :
    e.sent? param = none := by
  cases e with
  | method p r n es => cases h
  | _ => rfl

theorem isPath_of_mem_parts {e e' : Expr} (h : e.isPath = true) (he : e' ∈ e.parts) :
    e'.isPath = true := by
  induction e using Expr.written_induction with
  | var p n => exact List.mem_singleton.mp he ▸ h
  | unary p f e ih =>
    cases f with
    | field n =>
      rcases List.mem_cons.mp he with rfl | he
      · exact h
      · exact ih h he
    | _ => cases h
  | _ => cases h

theorem reductions_of_isPath {param : String} {e : Expr} (h : e.isPath = true) :
    e.reductions param = [] := by
  induction e using Expr.written_induction with
  | var p n => rfl
  | unary p f e ih =>
    cases f with
    | field n => exact ih h
    | _ => cases h
  | _ => cases h

/-! ## What is put in place -/

def Reduction.substitute (σ : List (Binding Expr)) (r : Reduction) : Reduction :=
  { r with args := substituteAll σ r.args }

/-- What is put in place are field paths, and none of them leads to the rows of the group. -/
def Misses (param : String) (σ : List (Binding Expr)) : Prop :=
  ∀ b ∈ σ, b.value.isPath = true ∧ (∀ p, b.value ≠ .var p param) ∧ b.value.isRows param = false

namespace Misses

variable {param : String} {σ : List (Binding Expr)}

theorem paths (h : Misses param σ) : ArePaths σ := fun b hb => (h b hb).1

theorem subset (h : Misses param σ) {σ' : List (Binding Expr)} (hσ' : σ' ⊆ σ) : Misses param σ' :=
  fun b hb => h b (hσ' hb)

theorem without (h : Misses param σ) (names : List String) : Misses param (without names σ) :=
  h.subset fun _ hb => mem_of_mem_without hb

theorem var_of_substitute (h : Misses param σ) {e : Expr} {p : Position}
    (he : e.substitute σ = .var p param) : e = .var p param := by
  cases e with
  | var q n =>
    rcases substitute_var_cases h.paths q n with heq | ⟨-, v, hv, heq⟩
    · exact heq.symm.trans he
    · rw [heq] at he
      cases v with
      | var q' m =>
        cases he
        exact absurd rfl ((h _ (mem_of_valueOf? hv)).2.1 q')
      | _ => cases he
  | record q vs ns as row => cases row <;> cases he
  | _ => cases he

/-- The rows of the group do not come from what is put in place. -/
theorem isRows_of_substitute (h : Misses param σ) {e : Expr}
    (he : (e.substitute σ).isRows param = true) : e.isRows param = true := by
  obtain ⟨p, p', heq⟩ := Expr.isRows_iff.mp he
  cases e with
  | var q n =>
    rcases substitute_var_cases h.paths q n with hvar | ⟨-, v, hv, hvalue⟩
    · rw [hvar] at heq
      cases heq
    · rw [hvalue] at heq
      have hrows : v.isRows param = true := by
        cases v with
        | unary q' f e =>
          obtain ⟨-, rfl, rfl⟩ := Expr.unary.inj heq
          exact Expr.isRows_iff.mpr ⟨q', p', rfl⟩
        | _ => cases heq
      rw [(h _ (mem_of_valueOf? hv)).2.2] at hrows
      cases hrows
  | unary q f e =>
    obtain ⟨-, rfl, hvar⟩ := Expr.unary.inj heq
    rw [h.var_of_substitute hvar]
    exact Expr.isRows_iff.mpr ⟨q, p', rfl⟩
  | record q vs ns as row => cases row <;> cases heq
  | _ => cases heq

/-- Nothing is sent to the rows of the group by what is put in place. -/
theorem sent?_of_substitute (h : Misses param σ) {e : Expr} {r : Reduction}
    (he : (e.substitute σ).sent? param = some r) :
    ∃ r₀, e.sent? param = some r₀ ∧ r = r₀.substitute σ := by
  obtain ⟨p, rows, n, es, heq, hrows, hn, rfl⟩ := Expr.sent?_iff.mp he
  cases e with
  | method q r m es₀ =>
    rw [Expr.substitute] at heq
    obtain ⟨rfl, rfl, rfl, rfl⟩ := Expr.method.inj heq
    exact ⟨_, Expr.sent?_iff.mpr ⟨_, _, _, _, rfl, h.isRows_of_substitute hrows, hn, rfl⟩, rfl⟩
  | var q n =>
    rcases substitute_var_cases h.paths q n with hvar | ⟨hpath, -⟩
    · rw [hvar] at heq
      cases heq
    · rw [heq] at hpath
      cases hpath
  | record q vs ns as row => cases row <;> cases heq
  | _ => cases heq

/-- All that is sent was sent before the paths were put in place. -/
theorem sent?_of_mem_parts (h : Misses param σ) {e e' : Expr} (he : e' ∈ (e.substitute σ).parts)
    {r : Reduction} (hr : e'.sent? param = some r) :
    ∃ e₀ ∈ e.parts, ∃ r₀, e₀.sent? param = some r₀ ∧ ∃ σ', r = r₀.substitute σ' := by
  rcases (parts_substitute σ e).traced e' he with ⟨e₀, he₀, σ', hσ', rfl⟩ | ⟨b, hb, p, hp⟩
  · obtain ⟨r₀, hr₀, hr⟩ := (h.subset hσ').sent?_of_substitute hr
    exact ⟨e₀, he₀, r₀, hr₀, σ', hr⟩
  · have hvalue := isPath_of_mem_parts ((isPath_withPos p _).trans (h b hb).1) hp
    rw [sent?_of_isPath hvalue] at hr
    cases hr

end Misses

/-- The parameter is no name of what is put in place. -/
def Spares (param : String) (σ : List (Binding Expr)) : Prop :=
  Misses param σ ∧ ∀ b ∈ σ, b.name ≠ param

namespace Spares

variable {param : String} {σ : List (Binding Expr)}

theorem without (h : Spares param σ) (names : List String) : Spares param (without names σ) :=
  ⟨h.1.without names, fun b hb => h.2 b (mem_of_mem_without hb)⟩

theorem isRows_substitute (h : Spares param σ) (e : Expr) :
    (e.substitute σ).isRows param = e.isRows param := by
  rw [Bool.eq_iff_iff]
  refine ⟨h.1.isRows_of_substitute, fun he => ?_⟩
  obtain ⟨p, p', rfl⟩ := Expr.isRows_iff.mp he
  have hparam : valueOf? param σ = none := valueOf?_eq_none_of_subset h.2 (List.Subset.refl σ)
  rw [Expr.substitute, Expr.substitute, hparam]
  exact he

end Spares

mutual
/-- Putting paths in place keeps the reductions. -/
theorem reductions_substitute {param : String} (σ : List (Binding Expr)) (h : Spares param σ) :
    (e : Expr) →
      PutIn Reduction.substitute σ (e.reductions param) ((e.substitute σ).reductions param)
  | .literal _ _ => .nil
  | .var p n => by
    rcases substitute_var_cases h.1.paths p n with hvar | ⟨hpath, -⟩
    · rw [hvar]
      exact .nil
    · rw [reductions_of_isPath hpath]
      exact .nil
  | .unary _ _ e => reductions_substitute σ h e
  | .binary _ _ l r => (reductions_substitute σ h l).append (reductions_substitute σ h r)
  | .sequence _ (.call n) es => by
    rw [Expr.substitute, Expr.reductions, Expr.reductions]
    refine PutIn.append ?_ (reductionsAll_substitute σ h es)
    split
    · exact .cons ⟨σ, List.Subset.refl σ, rfl⟩ .nil
    · exact .nil
  | .sequence _ .list es => reductionsAll_substitute σ h es
  | .sequence _ .tuple es => reductionsAll_substitute σ h es
  | .sequence _ (.construct _) es => reductionsAll_substitute σ h es
  | .method _ r n es => by
    rw [Expr.substitute, Expr.reductions, Expr.reductions, h.isRows_substitute r]
    split
    · refine .cons ⟨σ, List.Subset.refl σ, rfl⟩ ?_
      split
      · exact reductionsAll_substitute σ h es
      · exact .nil
    · exact (reductions_substitute σ h r).append (reductionsAll_substitute σ h es)
  | .lambda _ ⟨ps, e⟩ => (reductions_substitute _ (h.without ps) e).without
  | .query _ _ => .nil
  | .letIn _ bs e =>
    (reductionsLocals_substitute σ h bs).append (reductions_substitute _ (h.without _) e).without
  | .record _ vs ns as none =>
    (((reductionsAll_substitute σ h vs).append (reductions_substitute σ h ns)).append
      (reductions_substitute σ h as)).append .nil
  | .record _ vs ns as (some r) =>
    (((reductionsAll_substitute σ h vs).append (reductions_substitute σ h ns)).append
      (reductions_substitute σ h as)).append (reductions_substitute σ h r)
  | .postIncrement _ _ => .nil
  | .subquery _ _ => .nil
termination_by structural x => x

theorem reductionsAll_substitute {param : String} (σ : List (Binding Expr)) (h : Spares param σ) :
    (es : List Expr) →
      PutIn Reduction.substitute σ (reductionsAll param es)
        (reductionsAll param (substituteAll σ es))
  | [] => .nil
  | e :: es => (reductions_substitute σ h e).append (reductionsAll_substitute σ h es)
termination_by structural x => x

theorem reductionsLocals_substitute {param : String} (σ : List (Binding Expr))
    (h : Spares param σ) :
    (bs : List (Binding Expr)) →
      PutIn Reduction.substitute σ (reductionsLocals param bs)
        (reductionsLocals param (substituteLocals σ bs))
  | [] => .nil
  | ⟨n, e⟩ :: bs =>
    (reductions_substitute σ h e).append (reductionsLocals_substitute _ (h.without [n]) bs).without
termination_by structural x => x
end

/-! ## What is sent to a group -/

/-- What a call of an aggregate becomes on a group: a call of the same name that is sent to the rows
of the group. It has no argument, or a selector, which is the function of the row before grouping that
is made of the argument, or for `agg` one argument on the group. Paths that functions around a thunk
put in place go into the selector. -/
inductive Reduces (s : Naming) (names : NameSupply) (prior : Row) (numbering : Numbering)
    (param : String) : AggregateCall → Reduction → Prop
  | allRows {p} :
      Reduces s names prior numbering param ⟨p, .count, []⟩ ⟨p, true, Aggregate.count.name, []⟩
  | eachRow {p a arg node row σs} (ha : a ≠ .agg) (hrow : prior.GoesBy names row)
      (hne : row ≠ param) (hσs : s.config.inlinePaths = false → σs = []) :
      Reduces s names prior numbering param ⟨p, a, [arg]⟩
        ⟨p, true, a.name, [.lambda arg.pos ((prior.close s.config row [arg]
          (arg.image s ⟨some prior, numbering⟩ row node [] false)).substituteEach σs)]⟩
  | rowsAtOnce {p arg arg'} :
      Reduces s names prior numbering param ⟨p, .agg, [arg]⟩ ⟨p, true, Aggregate.agg.name, [arg']⟩

theorem Reduces.selector {s : Naming} {names : NameSupply} {prior : Row} {numbering : Numbering}
    {param : String} {p : Position} {a : Aggregate} {arg : Expr} {node : Path} {row : String}
    (ha : a ≠ .agg) (hrow : prior.GoesBy names row) (hne : row ≠ param) :
    Reduces s names prior numbering param ⟨p, a, [arg]⟩
      ⟨p, true, a.name, [.lambda arg.pos (prior.close s.config row [arg]
        (arg.image s ⟨some prior, numbering⟩ row node [] false))]⟩ :=
  @Reduces.eachRow s names prior numbering param p a arg node row [] ha hrow hne fun _ => rfl

/-- Paths are put in place in a reduction only where they are not bound in blocks. -/
theorem Reduces.substitute {s : Naming} {names : NameSupply} {prior : Row} {numbering : Numbering}
    {param : String} {call : AggregateCall} {r : Reduction}
    (h : Reduces s names prior numbering param call r) (hinline : s.config.inlinePaths = true)
    (σ : List (Binding Expr)) : Reduces s names prior numbering param call (r.substitute σ) := by
  cases h with
  | allRows => exact .allRows
  | rowsAtOnce => exact .rowsAtOnce
  | @eachRow p a arg node row σs ha hrow hne hσs =>
    let f := prior.close s.config row [arg] (arg.image s ⟨some prior, numbering⟩ row node [] false)
    have hput : Reduction.substitute σ ⟨p, true, a.name, [.lambda arg.pos (f.substituteEach σs)]⟩ =
        ⟨p, true, a.name, [.lambda arg.pos (f.substituteEach (σs ++ [σ]))]⟩ := by
      rw [Lambda.substituteEach, Lambda.substituteEach, List.foldl_append]
      rfl
    rw [hput]
    exact .eachRow ha hrow hne (by simp [hinline])

/-- Nothing is sent to the rows of the group. -/
def Quiet (param : String) (es : List Expr) : Prop := ∀ e ∈ es, e.sent? param = none

namespace Quiet

variable {param : String} {es es' : List Expr}

theorem nil : Quiet param [] := List.forall_mem_nil _

theorem cons {e : Expr} (he : e.sent? param = none) (h : Quiet param es) : Quiet param (e :: es) :=
  List.forall_mem_cons.mpr ⟨he, h⟩

theorem append (h : Quiet param es) (h' : Quiet param es') : Quiet param (es ++ es') :=
  List.forall_mem_append.mpr ⟨h, h'⟩

theorem path {e : Expr} (h : e.isPath = true) : Quiet param e.parts :=
  fun _ he => sent?_of_isPath (isPath_of_mem_parts h he)

theorem locals {σ : List (Binding Expr)} (h : ∀ b ∈ σ, Quiet param b.value.parts) :
    Quiet param (partsLocals σ) := by
  induction σ with
  | nil => exact nil
  | cons b σ ih =>
    obtain ⟨hb, hσ⟩ := List.forall_mem_cons.mp h
    exact append hb (ih hσ)

theorem substitute {e : Expr} (h : Quiet param e.parts) {σ : List (Binding Expr)}
    (hσ : Misses param σ) : Quiet param (e.substitute σ).parts := by
  intro e' he'
  refine Option.eq_none_iff_forall_ne_some.mpr fun r hr => ?_
  obtain ⟨e₀, he₀, r₀, hr₀, -⟩ := hσ.sent?_of_mem_parts he' hr
  rw [h e₀ he₀] at hr₀
  cases hr₀

theorem bind {e : Expr} (h : Quiet param e.parts) {σ : List (Binding Expr)} (hσ : Misses param σ)
    (inline : Bool) : Quiet param (bind σ e inline).parts := by
  rcases bind_cases σ e inline with heq | ⟨-, heq⟩ | heq
  · rwa [heq]
  · rw [heq]
    exact h.substitute hσ
  · rw [heq]
    exact cons rfl (append (locals fun b hb => path (hσ b hb).1) h)

end Quiet

/-- What the expressions send to the rows of the group `g` is what became of one of the calls, and
only where that group is read. -/
def Sends (s : Naming) (names : NameSupply) (g : String) (place : Place) (param : String)
    (calls : List AggregateCall) (es : List Expr) : Prop :=
  ∀ e ∈ es, ∀ r, e.sent? g = some r →
    param = g ∧ ∃ prior ns into, place.row = some (.grouped prior ns into) ∧
      ∃ call ∈ calls, Reduces s names prior place.numbering g call r

namespace Sends

variable {s : Naming} {names : NameSupply} {g : String} {place : Place} {param : String}
  {calls calls' : List AggregateCall} {es es' : List Expr}

theorem ofQuiet (h : Quiet g es) : Sends s names g place param calls es := by
  intro e he r hr
  rw [h e he] at hr
  cases hr

theorem cons {e : Expr} (he : e.sent? g = none) (h : Sends s names g place param calls es) :
    Sends s names g place param calls (e :: es) := by
  refine List.forall_mem_cons.mpr ⟨fun r hr => ?_, h⟩
  rw [he] at hr
  cases hr

theorem append (h : Sends s names g place param calls es)
    (h' : Sends s names g place param calls es') :
    Sends s names g place param calls (es ++ es') :=
  List.forall_mem_append.mpr ⟨h, h'⟩

theorem mono (h : Sends s names g place param calls es) (hcalls : calls ⊆ calls') :
    Sends s names g place param calls' es := by
  intro e he r hr
  obtain ⟨hparam, prior, ns, into, hrow, call, hcall, hreduces⟩ := h e he r hr
  exact ⟨hparam, prior, ns, into, hrow, call, hcalls hcall, hreduces⟩

end Sends

end Comprehension
