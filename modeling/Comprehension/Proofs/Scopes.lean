import Comprehension.Expr.Binding
import Comprehension.Proofs.Plain

/-!
Scopes of what is lowered. A walk through a lowered expression finds its variables, its functions
and its name tables at every depth, each with the binders around it. Scoping is lexical: functions,
locals and the declarations of a thunk bind. Substitution changes what a walk finds by putting what
it finds in the values in the place of variables. Counting a row reads no variable.
-/

namespace Comprehension

/-- A binder around a place. A function that a stage runs on a chain of joins reads the values of
the aliases in `chain`; other functions have none. -/
inductive Binder where
  | lambda (chain params : List String)
  | bound (name : String)
  | declared (name : String)
  deriving DecidableEq

/-- The binders around a place, the outermost first. -/
abbrev Scope := List Binder

inductive Item where
  | read (name : String)
  | function (params : List String)
  | table (names : NameTable)
  deriving DecidableEq

abbrev Finding := Scope × Item

def under (b : Binder) (fs : List Finding) : List Finding := fs.map fun f => (b :: f.1, f.2)

/-- A function and what is found in its body. -/
def walkFunction (chain params : List String) (body : List Finding) : List Finding :=
  ([], .function params) :: under (.lambda chain params) body

/-- Names that are read right where a body stands. -/
def reads (ns : List String) : List Finding := ns.map fun n => ([], .read n)

def Declaration.name : Declaration → String
  | .table n _ | .counter n => n

/-- Declarations and what is found after them. -/
def walkDeclarations (body : List Finding) : List Declaration → List Finding
  | [] => body
  | .table n names :: ds => ([], .table names) :: under (.declared n) (walkDeclarations body ds)
  | .counter n :: ds => under (.declared n) (walkDeclarations body ds)

/-- The aliases that the rows of a pipeline have reached, and those that joins are to add. Rows of
groups have no aliases. -/
structure Chain where
  reached : List String
  ahead : List String

namespace Chain

def start (aliases : List String) : Chain := ⟨aliases.take 1, aliases.drop 1⟩

def after (chain : Chain) : Stage → Chain
  | .join _ _ _ => ⟨chain.reached ++ chain.ahead.take 1, chain.ahead.drop 1⟩
  | .groupBy _ _ => ⟨[], []⟩
  | _ => chain

end Chain

/-- The aliases of a lowered query, as its name table has them. -/
def Thunk.aliases (t : Thunk) : List String :=
  match t.table? with
  | some names => names.get .aliases
  | none => []

mutual
def Expr.walk : Expr → List Finding
  | .literal _ _ => []
  | .var _ n => [([], .read n)]
  | .unary _ _ e => e.walk
  | .binary _ _ l r => l.walk ++ r.walk
  | .sequence _ _ es => walkAll es
  | .method _ r _ es => r.walk ++ walkAll es
  | .lambda _ ⟨ps, e⟩ => walkFunction [] ps e.walk
  | .query _ _ => []
  | .letIn _ bs e => walkLocals e.walk bs
  | .record _ vs ns as row =>
    walkAll vs ++ ns.walk ++ as.walk ++
      (match row with
        | some r => r.walk
        | none => [])
  | .postIncrement _ _ => []
  | .subquery _ t => t.walk
termination_by structural x => x

def walkAll : List Expr → List Finding
  | [] => []
  | e :: es => e.walk ++ walkAll es
termination_by structural x => x

/-- Locals and what is found after them, each under those before it. -/
def walkLocals (body : List Finding) : List (Binding Expr) → List Finding
  | [] => body
  | ⟨n, e⟩ :: bs => e.walk ++ under (.bound n) (walkLocals body bs)
termination_by structural x => x

def Thunk.walk : Thunk → List Finding
  | ⟨ds, pipeline⟩ =>
    walkDeclarations (pipeline.walk (Thunk.aliases ⟨ds, pipeline⟩)) ds
termination_by structural x => x

def Pipeline.walk (aliases : List String) : Pipeline → List Finding
  | ⟨source, stages⟩ => source.walk ++ walkStages (.start aliases) stages
termination_by structural x => x

def walkStages (chain : Chain) : List Stage → List Finding
  | [] => []
  | s :: ss => s.walk chain.reached ++ walkStages (chain.after s) ss
termination_by structural x => x

def Stage.walk (aliases : List String) : Stage → List Finding
  | .join _ joined on =>
    joined.walk [] ++
      (match on with
        | some ⟨ps, e⟩ => walkFunction aliases ps e.walk
        | none => [])
  | .filter ⟨ps, e⟩ => walkFunction aliases ps e.walk
  | .groupBy ⟨ps, e⟩ having =>
    walkFunction aliases ps e.walk ++
      (match having with
        | some ⟨qs, h⟩ => walkFunction [] qs h.walk
        | none => [])
  | .orderBy specs => walkSpecs aliases specs
  | .limit offset size => offset.walk ++ size.walk
  | .select ⟨ps, e⟩ => walkFunction aliases ps e.walk
termination_by structural x => x

def walkSpecs (aliases : List String) : List (SortSpec Expr) → List Finding
  | [] => []
  | ⟨⟨ps, e⟩, _⟩ :: ss => walkFunction aliases ps e.walk ++ walkSpecs aliases ss
termination_by structural x => x
end

/-! ## Substitution -/

/-- The bindings that still replace variables under the binder. Declarations hide none. -/
def Binder.pass (b : Binder) (σ : List (Binding Expr)) : List (Binding Expr) :=
  match b with
  | lambda _ ps => without ps σ
  | bound n => without [n] σ
  | declared _ => σ

def Scope.pass (sc : Scope) (σ : List (Binding Expr)) : List (Binding Expr) :=
  sc.foldl (fun σ b => b.pass σ) σ

/-- What is found once the bindings have replaced variables. -/
def Finding.replace (σ : List (Binding Expr)) (f : Finding) : List Finding :=
  match f.2 with
  | .read n =>
    match valueOf? n (Scope.pass f.1 σ) with
    | some e => e.walk.map fun g => (f.1 ++ g.1, g.2)
    | none => [f]
  | _ => [f]

theorem replace_under (b : Binder) (σ : List (Binding Expr)) (fs : List Finding) :
    (under b fs).flatMap (Finding.replace σ) =
      under b (fs.flatMap (Finding.replace (b.pass σ))) := by
  induction fs with
  | nil => rfl
  | cons f fs ih =>
    have hone : Finding.replace σ (b :: f.1, f.2) = under b (f.replace (b.pass σ)) := by
      obtain ⟨sc, item⟩ := f
      cases item with
      | read n =>
        have hpass : Scope.pass (b :: sc) σ = Scope.pass sc (b.pass σ) := rfl
        cases h : valueOf? n (Scope.pass sc (b.pass σ)) <;>
          simp [Finding.replace, hpass, h, under]
      | function ps => rfl
      | table names => rfl
    simp only [under, List.map_cons, List.flatMap_cons, List.map_append] at ih hone ⊢
    rw [hone, ih]

theorem replace_walkFunction (chain ps : List String) (σ : List (Binding Expr))
    (body : List Finding) :
    (walkFunction chain ps body).flatMap (Finding.replace σ) =
      walkFunction chain ps (body.flatMap (Finding.replace (without ps σ))) := by
  rw [walkFunction, List.flatMap_cons, replace_under]
  rfl

theorem replace_walkDeclarations (σ : List (Binding Expr)) (body : List Finding)
    (ds : List Declaration) :
    (walkDeclarations body ds).flatMap (Finding.replace σ) =
      walkDeclarations (body.flatMap (Finding.replace σ)) ds := by
  induction ds with
  | nil => rfl
  | cons d ds ih =>
    cases d with
    | table n names =>
      rw [walkDeclarations, List.flatMap_cons, replace_under, Binder.pass, ih]
      rfl
    | counter n => rw [walkDeclarations, replace_under, Binder.pass, ih, walkDeclarations]

theorem without_cons (n : String) (ns : List String) (σ : List (Binding Expr)) :
    without (n :: ns) σ = without ns (without [n] σ) := by
  simp only [without, List.filter_filter]
  congr 1
  funext b
  simp [Bool.and_comm]

theorem walk_withPos (p : Position) (e : Expr) : (e.withPos p).walk = e.walk := by
  cases e with
  | record q vs ns as row => cases row <;> rfl
  | _ => rfl

theorem Chain.after_substitute (chain : Chain) (σ : List (Binding Expr)) (s : Stage) :
    chain.after (s.substitute σ) = chain.after s := by
  cases s <;> rfl

mutual
theorem walk_substitute (σ : List (Binding Expr)) :
    (e : Expr) → (e.substitute σ).walk = e.walk.flatMap (Finding.replace σ)
  | .literal _ _ => rfl
  | .var p n => by
    rw [Expr.substitute, Expr.walk]
    cases h : valueOf? n σ with
    | none => simp [Finding.replace, Scope.pass, h, Expr.walk]
    | some e => simp [Finding.replace, Scope.pass, h, walk_withPos]
  | .unary _ _ e => walk_substitute σ e
  | .binary _ _ l r => by
    rw [Expr.substitute, Expr.walk, Expr.walk, walk_substitute σ l, walk_substitute σ r,
      List.flatMap_append]
  | .sequence _ _ es => walkAll_substitute σ es
  | .method _ r _ es => by
    rw [Expr.substitute, Expr.walk, Expr.walk, walk_substitute σ r, walkAll_substitute σ es,
      List.flatMap_append]
  | .lambda _ ⟨ps, e⟩ => by
    rw [Expr.substitute, Expr.walk, Expr.walk, walk_substitute (without ps σ) e,
      replace_walkFunction]
  | .query _ _ => rfl
  | .letIn _ bs e => by
    rw [Expr.substitute, Expr.walk, Expr.walk, walk_substitute (without (bs.map (·.name)) σ) e,
      walkLocals_substitute σ e.walk bs]
  | .record _ vs ns as none => by
    simp only [Expr.substitute, Expr.walk, walkAll_substitute σ vs, walk_substitute σ ns,
      walk_substitute σ as, List.flatMap_append, List.flatMap_nil]
  | .record _ vs ns as (some r) => by
    simp only [Expr.substitute, Expr.walk, walkAll_substitute σ vs, walk_substitute σ ns,
      walk_substitute σ as, walk_substitute σ r, List.flatMap_append]
  | .postIncrement _ _ => rfl
  | .subquery _ t => Thunk.walk_substitute σ t
termination_by structural x => x

theorem walkAll_substitute (σ : List (Binding Expr)) :
    (es : List Expr) → walkAll (substituteAll σ es) = (walkAll es).flatMap (Finding.replace σ)
  | [] => rfl
  | e :: es => by
    rw [substituteAll, walkAll, walkAll, walk_substitute σ e, walkAll_substitute σ es,
      List.flatMap_append]
termination_by structural x => x

theorem walkLocals_substitute (σ : List (Binding Expr)) (body : List Finding) :
    (bs : List (Binding Expr)) →
      walkLocals (body.flatMap (Finding.replace (without (bs.map (·.name)) σ)))
          (substituteLocals σ bs) =
        (walkLocals body bs).flatMap (Finding.replace σ)
  | [] => by
    have hnone : without [] σ = σ := List.filter_eq_self.mpr (by simp)
    rw [List.map_nil, hnone]
    rfl
  | ⟨n, e⟩ :: bs => by
    rw [substituteLocals, walkLocals, walkLocals, walk_substitute σ e, List.map_cons,
      without_cons, walkLocals_substitute (without [n] σ) body bs, List.flatMap_append,
      replace_under]
    rfl
termination_by structural x => x

theorem Thunk.walk_substitute (σ : List (Binding Expr)) :
    (t : Thunk) → (t.substitute σ).walk = t.walk.flatMap (Finding.replace σ)
  | ⟨ds, pipeline⟩ => by
    rw [Thunk.substitute, Thunk.walk, Thunk.walk, Pipeline.walk_substitute σ _ pipeline,
      replace_walkDeclarations]
    rfl
termination_by structural x => x

theorem Pipeline.walk_substitute (σ : List (Binding Expr)) (aliases : List String) :
    (p : Pipeline) → (p.substitute σ).walk aliases = (p.walk aliases).flatMap (Finding.replace σ)
  | ⟨source, stages⟩ => by
    rw [Pipeline.substitute, Pipeline.walk, Pipeline.walk, walk_substitute σ source,
      walkStages_substitute σ _ stages, List.flatMap_append]
termination_by structural x => x

theorem walkStages_substitute (σ : List (Binding Expr)) (chain : Chain) :
    (ss : List Stage) →
      walkStages chain (substituteStages σ ss) =
        (walkStages chain ss).flatMap (Finding.replace σ)
  | [] => rfl
  | s :: ss => by
    rw [substituteStages, walkStages, walkStages, Stage.walk_substitute σ chain.reached s,
      Chain.after_substitute, walkStages_substitute σ _ ss, List.flatMap_append]
termination_by structural x => x

theorem Stage.walk_substitute (σ : List (Binding Expr)) (aliases : List String) :
    (s : Stage) → (s.substitute σ).walk aliases = (s.walk aliases).flatMap (Finding.replace σ)
  | .join _ joined none => by
    simp only [Stage.substitute, Stage.walk, Pipeline.walk_substitute σ [] joined, List.append_nil]
  | .join _ joined (some ⟨ps, e⟩) => by
    simp only [Stage.substitute, Stage.walk, Pipeline.walk_substitute σ [] joined,
      walk_substitute (without ps σ) e, List.flatMap_append, replace_walkFunction]
  | .filter ⟨ps, e⟩ => by
    rw [Stage.substitute, Stage.walk, Stage.walk, walk_substitute (without ps σ) e,
      replace_walkFunction]
  | .groupBy ⟨ps, e⟩ none => by
    simp only [Stage.substitute, Stage.walk, walk_substitute (without ps σ) e, List.append_nil,
      replace_walkFunction]
  | .groupBy ⟨ps, e⟩ (some ⟨qs, h⟩) => by
    simp only [Stage.substitute, Stage.walk, walk_substitute (without ps σ) e,
      walk_substitute (without qs σ) h, List.flatMap_append, replace_walkFunction]
  | .orderBy specs => walkSpecs_substitute σ aliases specs
  | .limit offset size => by
    rw [Stage.substitute, Stage.walk, Stage.walk, walk_substitute σ offset,
      walk_substitute σ size, List.flatMap_append]
  | .select ⟨ps, e⟩ => by
    rw [Stage.substitute, Stage.walk, Stage.walk, walk_substitute (without ps σ) e,
      replace_walkFunction]
termination_by structural x => x

theorem walkSpecs_substitute (σ : List (Binding Expr)) (aliases : List String) :
    (specs : List (SortSpec Expr)) →
      walkSpecs aliases (substituteSpecs σ specs) =
        (walkSpecs aliases specs).flatMap (Finding.replace σ)
  | [] => rfl
  | ⟨⟨ps, e⟩, _⟩ :: ss => by
    rw [substituteSpecs, walkSpecs, walkSpecs, walk_substitute (without ps σ) e,
      walkSpecs_substitute σ aliases ss, List.flatMap_append, replace_walkFunction]
termination_by structural x => x
end

/-- What is found once bindings are brought to a body. -/
def walkBound (inline : Bool) (bs : List (Binding Expr)) (body : List Finding) : List Finding :=
  if inline then body.flatMap (Finding.replace bs) else walkLocals body bs

theorem pass_nil (sc : Scope) : sc.pass [] = [] := by
  induction sc with
  | nil => rfl
  | cons b sc ih =>
    have hb : b.pass [] = [] := by cases b <;> rfl
    rw [Scope.pass, List.foldl_cons, hb]
    exact ih

theorem mem_of_mem_pass {sc : Scope} {bs : List (Binding Expr)} {b : Binding Expr}
    (h : b ∈ sc.pass bs) : b ∈ bs := by
  induction sc generalizing bs with
  | nil => exact h
  | cons binder sc ih =>
    have hb : b ∈ binder.pass bs := ih h
    cases binder with
    | lambda chain ps => exact (List.mem_filter.mp hb).1
    | bound n => exact (List.mem_filter.mp hb).1
    | declared n => exact hb

theorem replace_nil (fs : List Finding) : fs.flatMap (Finding.replace []) = fs := by
  have hone (f : Finding) : f.replace [] = [f] := by
    obtain ⟨sc, item⟩ := f
    cases item with
    | read n => simp [Finding.replace, pass_nil, valueOf?]
    | function ps => rfl
    | table names => rfl
  rw [funext hone, List.flatMap_singleton']

theorem walk_bind (bs : List (Binding Expr)) (body : Expr) (inline : Bool) :
    (bind bs body inline).walk = walkBound inline bs body.walk := by
  cases bs with
  | nil =>
    cases inline
    · rfl
    · exact (replace_nil body.walk).symm
  | cons b bs =>
    cases inline
    · rfl
    · exact walk_substitute (b :: bs) body

theorem walkAll_eq_flatMap (es : List Expr) : walkAll es = es.flatMap Expr.walk := by
  induction es with
  | nil => rfl
  | cons e es ih => rw [walkAll, ih, List.flatMap_cons]

theorem walkStages_append (chain : Chain) (ss ss' : List Stage) :
    walkStages chain (ss ++ ss') =
      walkStages chain ss ++ walkStages (ss.foldl Chain.after chain) ss' := by
  induction ss generalizing chain with
  | nil => rfl
  | cons s ss ih =>
    rw [List.cons_append, walkStages, ih, walkStages, List.foldl_cons, List.append_assoc]

/-! ## Functions and tables -/

/-- What a choice of items picks from the findings, in their order. -/
def pick {α : Type} (choose : Item → Option α) (fs : List Finding) : List α :=
  fs.filterMap fun f => choose f.2

/-- The parameters of each function. -/
def functions : List Finding → List (List String) :=
  pick fun
    | .function ps => some ps
    | _ => none

/-- The name tables. -/
def tables : List Finding → List NameTable :=
  pick fun
    | .table names => some names
    | _ => none

/-- The values read names and hold nothing else. -/
def ReadsOnly (bs : List (Binding Expr)) : Prop :=
  ∀ b ∈ bs, ∃ ns, b.value.walk = reads ns

theorem ReadsOnly.without {bs : List (Binding Expr)} (h : ReadsOnly bs) (ns : List String) :
    ReadsOnly (without ns bs) :=
  fun b hb => h b (List.mem_filter.mp hb).1

theorem ReadsOnly.pass {bs : List (Binding Expr)} (h : ReadsOnly bs) (sc : Scope) :
    ReadsOnly (sc.pass bs) := by
  induction sc generalizing bs with
  | nil => exact h
  | cons b sc ih =>
    refine ih ?_
    cases b with
    | lambda chain ps => exact h.without ps
    | bound n => exact h.without [n]
    | declared n => exact h

/-- A variable stays, or names that a value reads stand in its place. -/
theorem ReadsOnly.replace_read {bs : List (Binding Expr)} (h : ReadsOnly bs) (sc : Scope)
    (n : String) :
    Finding.replace bs (sc, .read n) = [(sc, .read n)] ∨
      ∃ b ∈ sc.pass bs, b.name = n ∧ ∃ ns, b.value.walk = reads ns ∧
        Finding.replace bs (sc, .read n) = ns.map fun m => (sc, .read m) := by
  cases hv : valueOf? n (sc.pass bs) with
  | none => exact Or.inl (by simp only [Finding.replace, hv])
  | some e =>
    have hb := mem_of_valueOf? hv
    obtain ⟨ns, hns⟩ := h.pass sc _ hb
    refine Or.inr ⟨_, hb, rfl, ns, hns, ?_⟩
    simp only [Finding.replace, hv]
    rw [show e.walk = reads ns from hns, reads, List.map_map]
    exact List.map_congr_left fun m _ => by simp

section

variable {α : Type} {choose : Item → Option α}

theorem pick_append (fs gs : List Finding) :
    pick choose (fs ++ gs) = pick choose fs ++ pick choose gs :=
  List.filterMap_append

theorem pick_under (b : Binder) (fs : List Finding) :
    pick choose (under b fs) = pick choose fs := by
  rw [pick, under, List.filterMap_map]
  rfl

variable (h : ∀ n, choose (.read n) = none)

include h

theorem pick_reads (ns : List String) : pick choose (reads ns) = [] := by
  induction ns with
  | nil => rfl
  | cons n ns ih =>
    rw [reads, List.map_cons, ← List.singleton_append, pick_append, ← reads, ih]
    simp [pick, h]

theorem pick_walkLocals (body : List Finding) {bs : List (Binding Expr)} (hbs : ReadsOnly bs) :
    pick choose (walkLocals body bs) = pick choose body := by
  induction bs with
  | nil => rfl
  | cons b bs ih =>
    obtain ⟨ns, hns⟩ := hbs b List.mem_cons_self
    rw [walkLocals, hns, pick_append, pick_reads h, pick_under,
      ih fun b hb => hbs b (List.mem_cons_of_mem _ hb), List.nil_append]

theorem pick_replace {bs : List (Binding Expr)} (hbs : ReadsOnly bs) (fs : List Finding) :
    pick choose (fs.flatMap (Finding.replace bs)) = pick choose fs := by
  induction fs with
  | nil => rfl
  | cons f fs ih =>
    have hone : pick choose (f.replace bs) = pick choose [f] := by
      obtain ⟨sc, item⟩ := f
      cases item with
      | read n =>
        rcases hbs.replace_read sc n with hsame | ⟨b, -, -, ns, -, hns⟩
        · rw [hsame]
        · have hnone : pick choose [(sc, Item.read n)] = [] := by simp [pick, h]
          rw [hns, hnone, pick, List.filterMap_eq_nil_iff]
          intro g hg
          obtain ⟨m, -, rfl⟩ := List.mem_map.mp hg
          exact h m
      | function ps => rfl
      | table names => rfl
    rw [List.flatMap_cons, pick_append, ih, hone, ← pick_append, List.singleton_append]

/-- Values that only read bring neither functions nor tables. -/
theorem pick_walkBound (inline : Bool) {bs : List (Binding Expr)} (hbs : ReadsOnly bs)
    (body : List Finding) : pick choose (walkBound inline bs body) = pick choose body := by
  cases inline with
  | true => exact pick_replace h hbs body
  | false => exact pick_walkLocals h body hbs

end

end Comprehension
