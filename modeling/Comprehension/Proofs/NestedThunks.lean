import Mathlib.Data.List.Forall2
import Comprehension.Proofs.AskedNodes
import Comprehension.Proofs.SpelledNames

/-!
Nested queries and their thunks. The nested queries of a query that lowering reaches, at every
depth, are the thunks in what it is lowered to, in the same order: each thunk is the image of its
query at a node of its own, and what the query asks for is among what the whole asks for. Where paths
are put in place, the thunk is that image with what the functions around it have put there.
-/

namespace Comprehension

/-! ## Nested queries -/

mutual
/-- The queries in an expression at every depth, each before those in it. Nothing looks into the
predicate of a crossjoin. -/
def Expr.nested : Expr → List (Query Expr)
  | .literal _ _ | .var _ _ => []
  | .unary _ _ e => e.nested
  | .binary _ _ l r => l.nested ++ r.nested
  | .sequence _ _ es => nestedAll es
  | .method _ r _ es => r.nested ++ nestedAll es
  | .lambda _ ⟨_, e⟩ => e.nested
  | .query _ q => q :: queryNested q
  | .letIn _ _ _ | .record _ _ _ _ _ | .postIncrement _ _ | .subquery _ _ => []

def nestedAll : List Expr → List (Query Expr)
  | [] => []
  | e :: es => e.nested ++ nestedAll es

/-- The queries in a query, itself apart. -/
def queryNested : Query Expr → List (Query Expr)
  | ⟨⟨_, source, _⟩, joins, filter, grouping, sorting, limit, projection, _⟩ =>
    source.nested ++
      (joinsNested joins ++ filterNested filter ++ groupingNested grouping ++
        sortingNested sorting ++ limitNested limit ++ projectionNested projection)

def joinsNested : List (Join Expr) → List (Query Expr)
  | [] => []
  | ⟨kind, _, source, on, _⟩ :: js => source.nested ++ matchNested kind on ++ joinsNested js

def matchNested (kind : JoinKind) : Option Expr → List (Query Expr)
  | some e => if kind.takesPredicate then e.nested else []
  | none => []

def filterNested : Option (Filter Expr) → List (Query Expr)
  | some ⟨e, _⟩ => e.nested
  | none => []

def groupingNested : Option (Grouping Expr) → List (Query Expr)
  | some ⟨cs, _, having, _⟩ => nestedAll cs ++ havingNested having
  | none => []

def havingNested : Option Expr → List (Query Expr)
  | some e => e.nested
  | none => []

def sortingNested : Option (Sorting Expr) → List (Query Expr)
  | some ⟨terms, _⟩ => termsNested terms
  | none => []

def termsNested : List (SortTerm Expr) → List (Query Expr)
  | [] => []
  | ⟨key, _⟩ :: ts => key.nested ++ termsNested ts

def limitNested : Option (Limit Expr) → List (Query Expr)
  | some ⟨some offset, size, _⟩ => offset.nested ++ size.nested
  | some ⟨none, size, _⟩ => size.nested
  | none => []

def projectionNested : Option (Projection Expr) → List (Query Expr)
  | some ⟨items, _⟩ => nestedAll items
  | none => []
end

/-! ## Thunks -/

mutual
/-- The thunks in what is lowered at every depth, each before those in it. -/
def Expr.thunks : Expr → List Thunk
  | .literal _ _ | .var _ _ | .query _ _ | .postIncrement _ _ => []
  | .unary _ _ e => e.thunks
  | .binary _ _ l r => l.thunks ++ r.thunks
  | .sequence _ _ es => thunksAll es
  | .method _ r _ es => r.thunks ++ thunksAll es
  | .lambda _ ⟨_, e⟩ => e.thunks
  | .letIn _ bs e => thunksLocals bs ++ e.thunks
  | .record _ vs ns as row =>
    thunksAll vs ++ ns.thunks ++ as.thunks ++
      (match row with
        | some r => r.thunks
        | none => [])
  | .subquery _ t => t :: t.thunks
termination_by structural x => x

def thunksAll : List Expr → List Thunk
  | [] => []
  | e :: es => e.thunks ++ thunksAll es
termination_by structural x => x

def thunksLocals : List (Binding Expr) → List Thunk
  | [] => []
  | ⟨_, e⟩ :: bs => e.thunks ++ thunksLocals bs
termination_by structural x => x

/-- The thunks in a thunk, itself apart. -/
def Thunk.thunks : Thunk → List Thunk
  | ⟨_, pipeline⟩ => pipeline.thunks
termination_by structural x => x

def Pipeline.thunks : Pipeline → List Thunk
  | ⟨source, stages⟩ => source.thunks ++ thunksStages stages
termination_by structural x => x

def thunksStages : List Stage → List Thunk
  | [] => []
  | s :: ss => s.thunks ++ thunksStages ss
termination_by structural x => x

def Stage.thunks : Stage → List Thunk
  | .join _ joined on =>
    joined.thunks ++
      (match on with
        | some ⟨_, e⟩ => e.thunks
        | none => [])
  | .filter ⟨_, e⟩ => e.thunks
  | .groupBy ⟨_, e⟩ having =>
    e.thunks ++
      (match having with
        | some ⟨_, h⟩ => h.thunks
        | none => [])
  | .orderBy specs => thunksSpecs specs
  | .limit offset size => offset.thunks ++ size.thunks
  | .select ⟨_, e⟩ => e.thunks
termination_by structural x => x

def thunksSpecs : List (SortSpec Expr) → List Thunk
  | [] => []
  | ⟨⟨_, e⟩, _⟩ :: ss => e.thunks ++ thunksSpecs ss
termination_by structural x => x
end

/-- The thunks in a function that a stage may have. -/
def functionThunks : Option (Lambda Expr) → List Thunk
  | some ⟨_, e⟩ => e.thunks
  | none => []

/-! ## Thunks of what lowering makes -/

theorem thunks_join (kind : JoinKind) (joined : Pipeline) (on : Option (Lambda Expr)) :
    (Stage.join kind joined on).thunks = joined.thunks ++ functionThunks on := by
  cases on <;> rfl

theorem thunks_groupBy (f : Lambda Expr) (having : Option (Lambda Expr)) :
    (Stage.groupBy f having).thunks = f.body.thunks ++ functionThunks having := by
  cases having <;> rfl

theorem thunks_withPos (p : Position) (e : Expr) : (e.withPos p).thunks = e.thunks := by
  cases e with
  | record q vs ns as row => cases row <;> rfl
  | _ => rfl

theorem thunksStages_append (ss ss' : List Stage) :
    thunksStages (ss ++ ss') = thunksStages ss ++ thunksStages ss' := by
  induction ss with
  | nil => rfl
  | cons s ss ih => rw [List.cons_append, thunksStages, thunksStages, ih, List.append_assoc]

theorem thunks_read? {c : Config} {place : Place} {param n : String} {e : Expr}
    (h : place.read? c param n = some e) : e.thunks = [] := by
  rcases Place.read?_cases h with ⟨-, rfl⟩ | ⟨-, rfl | rfl⟩ <;> rfl

theorem thunks_varImage (c : Config) (place : Place) (param : String) (bound : List String)
    (p : Position) (n : String) : (place.varImage c param bound p n).thunks = [] := by
  rw [Place.varImage]
  split
  · rfl
  · split
    · rfl
    · split
      · rename_i hread
        rw [thunks_withPos, thunks_read? hread]
      · rfl

theorem thunks_recordOf (table : String) (l : NameList) (values : List Expr)
    (row : Option String) :
    (recordOf table l values (row.map Expr.name)).thunks = thunksAll values := by
  have hrenamed (e : Expr) : e.renamed.thunks = e.thunks := by
    cases e with
    | unary p f e => cases f <;> rfl
    | _ => rfl
  have hvalues : thunksAll (values.map Expr.renamed) = thunksAll values := by
    induction values with
    | nil => rfl
    | cons e es ih => rw [List.map_cons, thunksAll, thunksAll, hrenamed, ih]
  have hthunks : (recordOf table l values (row.map Expr.name)).thunks =
      thunksAll (values.map Expr.renamed) ++ [] ++ [] ++ [] := by
    cases row <;> rfl
  rw [hthunks, hvalues, List.append_nil, List.append_nil, List.append_nil]

/-! ## Field paths -/

/-- A variable, or a field of a field path. -/
def Expr.isPath : Expr → Bool
  | .var _ _ => true
  | .unary _ (.field _) e => e.isPath
  | _ => false

theorem thunks_of_isPath {e : Expr} (h : e.isPath = true) : e.thunks = [] := by
  induction e using Expr.written_induction with
  | var => rfl
  | unary p f e ih =>
    cases f with
    | field n => exact ih h
    | _ => cases h
  | _ => cases h

theorem PairPath.read_isPath (path : PairPath) {e : Expr} (he : e.isPath = true) :
    (path.read e).isPath = true := by
  induction path generalizing e with
  | nil => exact he
  | cons h path ih => exact ih he

/-- What a name reads from the row of a group is a field path, the current group apart. -/
theorem Place.read?_isPath {c : Config} {place : Place} {param n : String} {e : Expr}
    (h : place.read? c param n = some e) (hn : n ≠ c.group) : e.isPath = true := by
  rcases Place.read?_cases h with ⟨hgroup, -⟩ | ⟨-, rfl | rfl⟩
  · exact absurd hgroup hn
  · rfl
  · rfl

/-- Only the current group looks into the name table. -/
theorem Place.ne_group_of_read? {c : Config} {place : Place} {param n : String} {e : Expr}
    (h : place.read? c param n = some e) (hfree : c.table ∉ e.free) : n ≠ c.group := by
  rcases Place.read?_cases h with ⟨-, rfl⟩ | ⟨hn, -⟩
  · simp [GroupView.current, Expr.send, Expr.free, freeAll, NameList.access, Expr.index,
      Expr.name] at hfree
  · exact hn

/-! ## Bindings around thunks -/

/-- Lists one to one, the second one with some of the bindings put in place in what it has. -/
def PutIn {α : Type} (put : List (Binding Expr) → α → α) (σ : List (Binding Expr))
    (as as' : List α) : Prop :=
  List.Forall₂ (fun a a' => ∃ σ', σ' ⊆ σ ∧ a' = put σ' a) as as'

namespace PutIn

variable {α : Type} {put : List (Binding Expr) → α → α} {σ : List (Binding Expr)}
  {as as' bs bs' : List α}

theorem nil : PutIn put σ [] [] := List.Forall₂.nil

theorem append (h : PutIn put σ as as') (h' : PutIn put σ bs bs') :
    PutIn put σ (as ++ bs) (as' ++ bs') :=
  List.rel_append h h'

/-- Binders between the bindings and the lists. -/
theorem without {names : List String} (h : PutIn put (without names σ) as as') :
    PutIn put σ as as' := by
  refine h.imp ?_
  rintro a a' ⟨τ, hτ, rfl⟩
  exact ⟨τ, fun b hb => mem_of_mem_without (hτ hb), rfl⟩

end PutIn

/-- The values of the bindings have no thunks. -/
def Thunkless (σ : List (Binding Expr)) : Prop := ∀ b ∈ σ, b.value.thunks = []

theorem Thunkless.without {σ : List (Binding Expr)} (h : Thunkless σ) (names : List String) :
    Thunkless (without names σ) :=
  fun b hb => h b (mem_of_mem_without hb)

theorem Thunkless.locals {σ : List (Binding Expr)} (h : Thunkless σ) : thunksLocals σ = [] := by
  induction σ with
  | nil => rfl
  | cons b σ ih =>
    rw [thunksLocals, h b List.mem_cons_self, ih fun b hb => h b (List.mem_cons_of_mem _ hb)]
    rfl

mutual
theorem thunks_substitute (σ : List (Binding Expr)) (h : Thunkless σ) :
    (e : Expr) → PutIn Thunk.substitute σ e.thunks (e.substitute σ).thunks
  | .literal _ _ => .nil
  | .var p n => by
    rw [Expr.substitute]
    cases hn : valueOf? n σ with
    | none => exact .nil
    | some e =>
      have hvalue : e.thunks = [] := h _ (mem_of_valueOf? hn)
      rw [thunks_withPos, hvalue]
      exact .nil
  | .unary _ _ e => thunks_substitute σ h e
  | .binary _ _ l r => (thunks_substitute σ h l).append (thunks_substitute σ h r)
  | .sequence _ _ es => thunksAll_substitute σ h es
  | .method _ r _ es => (thunks_substitute σ h r).append (thunksAll_substitute σ h es)
  | .lambda _ ⟨ps, e⟩ => (thunks_substitute _ (h.without ps) e).without
  | .query _ _ => .nil
  | .letIn _ bs e =>
    (thunksLocals_substitute σ h bs).append (thunks_substitute _ (h.without _) e).without
  | .record _ vs ns as none =>
    (((thunksAll_substitute σ h vs).append (thunks_substitute σ h ns)).append
      (thunks_substitute σ h as)).append .nil
  | .record _ vs ns as (some r) =>
    (((thunksAll_substitute σ h vs).append (thunks_substitute σ h ns)).append
      (thunks_substitute σ h as)).append (thunks_substitute σ h r)
  | .postIncrement _ _ => .nil
  | .subquery _ t => .cons ⟨σ, List.Subset.refl σ, rfl⟩ (t.thunks_substitute σ h)
termination_by structural x => x

theorem thunksAll_substitute (σ : List (Binding Expr)) (h : Thunkless σ) :
    (es : List Expr) → PutIn Thunk.substitute σ (thunksAll es) (thunksAll (substituteAll σ es))
  | [] => .nil
  | e :: es => (thunks_substitute σ h e).append (thunksAll_substitute σ h es)
termination_by structural x => x

theorem thunksLocals_substitute (σ : List (Binding Expr)) (h : Thunkless σ) :
    (bs : List (Binding Expr)) →
      PutIn Thunk.substitute σ (thunksLocals bs) (thunksLocals (substituteLocals σ bs))
  | [] => .nil
  | ⟨n, e⟩ :: bs =>
    (thunks_substitute σ h e).append (thunksLocals_substitute _ (h.without [n]) bs).without
termination_by structural x => x

theorem Thunk.thunks_substitute (σ : List (Binding Expr)) (h : Thunkless σ) :
    (t : Thunk) → PutIn Thunk.substitute σ t.thunks (t.substitute σ).thunks
  | ⟨_, pipeline⟩ => pipeline.thunks_substitute σ h
termination_by structural x => x

theorem Pipeline.thunks_substitute (σ : List (Binding Expr)) (h : Thunkless σ) :
    (p : Pipeline) → PutIn Thunk.substitute σ p.thunks (p.substitute σ).thunks
  | ⟨source, stages⟩ =>
    (Comprehension.thunks_substitute σ h source).append (thunksStages_substitute σ h stages)
termination_by structural x => x

theorem thunksStages_substitute (σ : List (Binding Expr)) (h : Thunkless σ) :
    (ss : List Stage) →
      PutIn Thunk.substitute σ (thunksStages ss) (thunksStages (substituteStages σ ss))
  | [] => .nil
  | s :: ss => (s.thunks_substitute σ h).append (thunksStages_substitute σ h ss)
termination_by structural x => x

theorem Stage.thunks_substitute (σ : List (Binding Expr)) (h : Thunkless σ) :
    (s : Stage) → PutIn Thunk.substitute σ s.thunks (s.substitute σ).thunks
  | .join _ joined none => (joined.thunks_substitute σ h).append .nil
  | .join _ joined (some ⟨ps, e⟩) =>
    (joined.thunks_substitute σ h).append
      (Comprehension.thunks_substitute _ (h.without ps) e).without
  | .filter ⟨ps, e⟩ => (Comprehension.thunks_substitute _ (h.without ps) e).without
  | .groupBy ⟨ps, e⟩ none =>
    PutIn.append (Comprehension.thunks_substitute _ (h.without ps) e).without .nil
  | .groupBy ⟨ps, e⟩ (some ⟨qs, having⟩) =>
    PutIn.append (Comprehension.thunks_substitute _ (h.without ps) e).without
      (Comprehension.thunks_substitute _ (h.without qs) having).without
  | .orderBy specs => thunksSpecs_substitute σ h specs
  | .limit offset size =>
    (Comprehension.thunks_substitute σ h offset).append
      (Comprehension.thunks_substitute σ h size)
  | .select ⟨ps, e⟩ => (Comprehension.thunks_substitute _ (h.without ps) e).without
termination_by structural x => x

theorem thunksSpecs_substitute (σ : List (Binding Expr)) (h : Thunkless σ) :
    (ss : List (SortSpec Expr)) →
      PutIn Thunk.substitute σ (thunksSpecs ss) (thunksSpecs (substituteSpecs σ ss))
  | [] => .nil
  | ⟨⟨ps, e⟩, _⟩ :: ss =>
    PutIn.append (Comprehension.thunks_substitute _ (h.without ps) e).without
      (thunksSpecs_substitute σ h ss)
termination_by structural x => x
end

/-! ## Queries with their thunks -/

/-- The names are among the given ones, and each value is a field path from a made-up name. -/
def Supplied (s : Naming) (ns : List String) (σ : List (Binding Expr)) : Prop :=
  ∀ b ∈ σ, b.name ∈ ns ∧ b.value.isPath = true ∧ ∃ node, b.value.walk = reads [s.name node]

theorem Supplied.mono {s : Naming} {ns ns' : List String} {σ σ' : List (Binding Expr)}
    (h : Supplied s ns σ) (hns : ns ⊆ ns') (hσ : σ' ⊆ σ) : Supplied s ns' σ' :=
  fun b hb => ⟨hns (h b (hσ hb)).1, (h b (hσ hb)).2⟩

theorem Supplied.thunkless {s : Naming} {ns : List String} {σ : List (Binding Expr)}
    (h : Supplied s ns σ) : Thunkless σ :=
  fun b hb => thunks_of_isPath (h b hb).2.1

/-- Each value reads from the name of a node that asks for none among the demands. -/
def ReadsElsewhere (s : Naming) (ds : List Demand) (σ : List (Binding Expr)) : Prop :=
  ∀ b ∈ σ, ∃ node, .name node ∉ ds ∧ b.value.walk = reads [s.name node]

/-- The thunk with lists of bindings put in place, one after the other. -/
def Thunk.substituteEach (t : Thunk) (σs : List (List (Binding Expr))) : Thunk :=
  σs.foldl (fun t σ => t.substitute σ) t

/-- The thunk is the image of the query at some node, with what the functions around it put in place.
What the query asks for is among the demands, and what it spells is among the names. What is put in
place reads from nodes outside of the query. -/
def LoweredIn (s : Naming) (ds : List Demand) (ns : List String) (q : Query Expr) (t : Thunk) :
    Prop :=
  ∃ node σs, t = (queryImage s node q).substituteEach σs ∧
    (∀ σ ∈ σs, s.config.inlinePaths = true ∧ Supplied s ns σ) ∧
      (∀ d ∈ queryDemands s.config node q, d.outlivesQuery = true → d ∈ ds) ∧
        (∀ n ∈ querySpelled q, n ∈ ns) ∧
          ∀ σ ∈ σs, ReadsElsewhere s (queryDemands s.config node q) σ

/-- Queries and thunks, one to one and in the same order. -/
def Nests (s : Naming) (ds : List Demand) (ns : List String) (qs : List (Query Expr))
    (ts : List Thunk) : Prop :=
  List.Forall₂ (LoweredIn s ds ns) qs ts

namespace Nests

variable {s : Naming} {ds ds' : List Demand} {ns ns' : List String} {qs qs' : List (Query Expr)}
  {ts ts' : List Thunk}

theorem nil (s : Naming) (ds : List Demand) (ns : List String) : Nests s ds ns [] [] :=
  List.Forall₂.nil

theorem mono (h : Nests s ds ns qs ts) (hds : ds ⊆ ds') (hns : ns ⊆ ns') :
    Nests s ds' ns' qs ts := by
  refine h.imp ?_
  rintro q t ⟨node, σs, himage, hσs, hdemands, hspelled, helsewhere⟩
  exact ⟨node, σs, himage, fun σ hσ => ⟨(hσs σ hσ).1, (hσs σ hσ).2.mono hns (List.Subset.refl σ)⟩,
    fun d hd hout => hds (hdemands d hd hout), fun n hn => hns (hspelled n hn), helsewhere⟩

theorem append (h : Nests s ds ns qs ts) (h' : Nests s ds' ns qs' ts') :
    Nests s (ds ++ ds') ns (qs ++ qs') (ts ++ ts') :=
  List.rel_append (h.mono (List.subset_append_left ..) (List.Subset.refl ns))
    (h'.mono (List.subset_append_right ..) (List.Subset.refl ns))

/-- Other demands before. -/
theorem after (h : Nests s ds ns qs ts) (before : List Demand) :
    Nests s (before ++ ds) ns qs ts :=
  h.mono (List.subset_append_right ..) (List.Subset.refl ns)

/-- What holds of what a query is lowered to holds of the thunks. -/
theorem forall_thunks (h : Nests s ds ns qs ts) {P : Thunk → Prop}
    (hP : ∀ q t, LoweredIn s ds ns q t → P t) : ∀ t ∈ ts, P t := by
  induction h with
  | nil => exact List.forall_mem_nil _
  | cons hlowered _ ih => exact List.forall_mem_cons.mpr ⟨hP _ _ hlowered, ih⟩

/-- Bindings put in place around the thunks. -/
theorem putIn (h : Nests s ds ns qs ts) {σ : List (Binding Expr)}
    (hinline : s.config.inlinePaths = true) (hσ : Supplied s ns σ) (hreads : ReadsElsewhere s ds σ)
    (hts : PutIn Thunk.substitute σ ts ts') : Nests s ds ns qs ts' := by
  induction h generalizing ts' with
  | nil =>
    cases hts
    exact .nil ..
  | cons hlowered _ ih =>
    obtain _ | ⟨⟨σ', hσ', rfl⟩, hrest⟩ := hts
    obtain ⟨node, σs, rfl, hσs, hdemands, hspelled, helsewhere⟩ := hlowered
    refine .cons ⟨node, σs ++ [σ'], ?_, ?_, hdemands, hspelled, ?_⟩ (ih hrest)
    · rw [Thunk.substituteEach, Thunk.substituteEach, List.foldl_append]
      rfl
    · refine List.forall_mem_append.mpr ⟨hσs, List.forall_mem_singleton.mpr ⟨hinline, ?_⟩⟩
      exact hσ.mono (List.Subset.refl ns) hσ'
    · refine List.forall_mem_append.mpr ⟨helsewhere, List.forall_mem_singleton.mpr fun b hb => ?_⟩
      obtain ⟨m, hm, hwalk⟩ := hreads b (hσ' hb)
      exact ⟨m, fun hasked => hm (hdemands _ hasked rfl), hwalk⟩

/-- Bindings brought to what has the thunks. -/
theorem bind {e : Expr} (h : Nests s ds ns qs e.thunks) {σ : List (Binding Expr)}
    (hσ : Thunkless σ) {inline : Bool}
    (hinline : inline = true →
      s.config.inlinePaths = true ∧ Supplied s ns σ ∧ ReadsElsewhere s ds σ) :
    Nests s ds ns qs (bind σ e inline).thunks := by
  rw [Comprehension.bind]
  split
  · exact h
  · split
    · rename_i hset
      obtain ⟨hinline, hsupplied, hreads⟩ := hinline hset
      exact h.putIn hinline hsupplied hreads (thunks_substitute σ hσ e)
    · rw [Expr.thunks, hσ.locals]
      exact h

end Nests

/-! ## Bindings that lowering makes -/

/-- A function of a row reads the paths from its parameter, which is made up. -/
theorem walk_bindings {s : Naming} {row : Row} {node : Path} {es : List Expr} {b : Binding Expr}
    (hb : b ∈ row.bindings (row.parameter s.name node) es) :
    b.value.walk = reads [s.name node] := by
  simp only [Row.bindings, List.mem_map, List.mem_filter] at hb
  obtain ⟨p, ⟨hp, -⟩, rfl⟩ := hb
  rw [PairPath.walk_read]
  cases row with
  | joined prior a => rfl
  | _ => cases hp

theorem supplied_bindings (s : Naming) (row : Row) (node : Path) {es : List Expr}
    {ns : List String} (hes : ∀ n ∈ freeAll es, n ∈ ns) :
    Supplied s ns (row.bindings (row.parameter s.name node) es) := by
  intro b hb
  have hwalk := walk_bindings hb
  simp only [Row.bindings, List.mem_map, List.mem_filter, decide_eq_true_eq] at hb
  obtain ⟨p, ⟨-, hfree⟩, rfl⟩ := hb
  exact ⟨hes _ hfree, p.2.read_isPath rfl, node, hwalk⟩

theorem Nests.closeOver {s : Naming} {ds : List Demand} {ns : List String}
    {qs : List (Query Expr)} {body : Expr} (h : Nests s ds ns qs body.thunks) (row : Row)
    {node : Path} (hnode : .name node ∉ ds) {es : List Expr} (hes : ∀ n ∈ freeAll es, n ∈ ns) :
    Nests s ds ns qs
      (Comprehension.bind (row.bindings (row.parameter s.name node) es) body
        s.config.inlinePaths).thunks :=
  have hσ := supplied_bindings s row node hes
  h.bind hσ.thunkless fun hinline =>
    ⟨hinline, hσ, fun _ hb => ⟨node, hnode, walk_bindings hb⟩⟩

/-- The parameter of the row of a group is made up for a node that stands as high as the path. -/
def Place.MakesUp (s : Naming) (place : Place) (param : String) (path : Path) : Prop :=
  ∀ prior names into, place.row = some (.grouped prior names into) →
    ∃ node, node.length ≤ path.length ∧ param = s.name node

namespace Place.MakesUp

variable {s : Naming} {place : Place} {param : String} {path : Path}

theorem deeper (h : place.MakesUp s param path) (step : Step) :
    place.MakesUp s param (step :: path) := by
  intro prior names into hrow
  obtain ⟨node, hlength, hparam⟩ := h prior names into hrow
  exact ⟨node, Nat.le_succ_of_le hlength, hparam⟩

/-- The steps do not matter, only how many there are. -/
theorem beside (h : place.MakesUp s param path) {path' : Path}
    (hlength : path'.length = path.length) : place.MakesUp s param path' := by
  intro prior names into hrow
  rw [hlength]
  exact h prior names into hrow

end Place.MakesUp

theorem Place.makesUp_parameter (s : Naming) (row : Row) (numbering : Numbering) (node : Path) :
    Place.MakesUp s ⟨some row, numbering⟩ (row.parameter s.name node) node := by
  intro prior names into hrow
  cases hrow
  exact ⟨node, Nat.le_refl _, rfl⟩

theorem Place.makesUp_offRows (s : Naming) (param : String) (path : Path) :
    Place.MakesUp s ⟨none, .plain⟩ param path := nofun

/-- What a nested query reads from the row of a group, the current group apart, is supplied too. -/
theorem Nests.attach {s : Naming} {ds : List Demand} {ns : List String} {qs : List (Query Expr)}
    {e : Expr} (h : Nests s ds ns qs e.thunks) {place : Place} {param : String} {path : Path}
    (hplace : place.MakesUp s param path)
    (hpath : ∀ node : Path, node.length ≤ path.length → .name node ∉ ds) (bound : List String)
    {free : List String} (hfree : ∀ n ∈ free, n ∈ ns) :
    Nests s ds ns qs (place.attach s.config param bound free e).thunks := by
  have hvalues (p : Binding Expr → Bool) :
      Thunkless ((place.readsOfGroup s.config param bound free).filter p) :=
    fun b hb => thunks_read? (Place.read?_of_mem (List.mem_filter.mp hb).1)
  suffices hall : ∀ b ∈ (place.readsOfGroup s.config param bound free).filter
      fun b => !decide (s.config.table ∈ b.value.free),
      b.name ∈ ns ∧ b.value.isPath = true ∧
        ∃ node, .name node ∉ ds ∧ b.value.walk = reads [s.name node] by
    refine (h.bind (hvalues _) fun hinline => ⟨hinline, fun b hb => ?_, fun b hb => ?_⟩).bind
      (hvalues _) nofun
    · obtain ⟨hname, hvalue, node, -, hwalk⟩ := hall b hb
      exact ⟨hname, hvalue, node, hwalk⟩
    · exact (hall b hb).2.2
  intro b hb
  obtain ⟨hb, hconsults⟩ := List.mem_filter.mp hb
  have hread := Place.read?_of_mem hb
  obtain ⟨prior, names, into, hrow⟩ := Place.row_of_read? hread
  obtain ⟨node, hlength, rfl⟩ := hplace prior names into hrow
  have hwalk := Place.walk_read? hread
  have hgroup : b.name ≠ s.config.group := Place.ne_group_of_read? hread (by simpa using hconsults)
  obtain ⟨m, hm, hname⟩ := List.mem_filterMap.mp hb
  refine ⟨?_, Place.read?_isPath hread hgroup, node, hpath node hlength,
    by rwa [if_neg hgroup] at hwalk⟩
  split at hname
  · cases hname
  · obtain ⟨v, -, rfl⟩ := Option.map_eq_some_iff.mp hname
    exact hfree _ (mem_distinct.mp hm)

/-! ## Expressions and clauses -/

section

variable {s : Naming} {ns : List String}

variable (s ns) in
/-- The expression spells none but the given names, and wherever it stands, its queries are the
thunks of its image. -/
def NestsThunks (e : Expr) : Prop :=
  (∀ n ∈ e.spelled, n ∈ ns) ∧
    ∀ (place : Place) param path bound searched, place.MakesUp s param path →
      Nests s (e.demands s.config place path bound) ns e.nested
        (e.image s place param path bound searched).thunks

theorem NestsThunks.among {e : Expr} (h : NestsThunks s e.spelled e)
    (hns : ∀ n ∈ e.spelled, n ∈ ns) : NestsThunks s ns e :=
  ⟨hns, fun place param path bound searched hplace =>
    (h.2 place param path bound searched hplace).mono (List.Subset.refl _) hns⟩

/-- What the expressions read is spelled in them. -/
theorem NestsThunks.free {es : List Expr} (h : ∀ e ∈ es, NestsThunks s ns e) :
    ∀ n ∈ freeAll es, n ∈ ns := by
  intro n hn
  obtain ⟨e, he, hspelled⟩ := mem_spelledAll.mp (freeAll_subset_spelled es hn)
  exact (h e he).1 n hspelled

/-- An expression on its own, outside of any row. -/
theorem NestsThunks.offRows {e : Expr} (h : NestsThunks s ns e) (path : Path) :
    Nests s (e.demands s.config ⟨none, .plain⟩ path []) ns e.nested
      (e.image s ⟨none, .plain⟩ "" path [] false).thunks :=
  h.2 ⟨none, .plain⟩ "" path [] false (Place.makesUp_offRows s "" path)

theorem nests_imageAll {es : List Expr} (h : ∀ e ∈ es, NestsThunks s ns e) {place : Place}
    {param : String} {path : Path} (step : Nat → Step) (i : Nat)
    (hplace : place.MakesUp s param (step i :: path)) (bound : List String) :
    Nests s (demandsAll s.config place path bound step i es) ns (nestedAll es)
      (thunksAll (imageAll s place param path bound step i es)) := by
  induction es generalizing i with
  | nil => exact .nil ..
  | cons e es ih =>
    exact ((h e List.mem_cons_self).2 place param (step i :: path) bound false hplace).append
      (ih (fun e he => h e (List.mem_cons_of_mem _ he)) (i + 1) (hplace.beside rfl))

/-- The body of a function of a row that one expression makes. -/
theorem nests_close {e : Expr} (h : NestsThunks s ns e) (row : Row) (numbering : Numbering)
    (node : Path) :
    let param := row.parameter s.name node
    Nests s (row.nameDemands node ++ e.demands s.config ⟨some row, numbering⟩ node []) ns e.nested
      (bind (row.bindings param [e]) (e.image s ⟨some row, numbering⟩ param node [] false)
        s.config.inlinePaths).thunks := by
  intro param
  have hfree := NestsThunks.free (List.forall_mem_singleton.mpr h)
  have hplace := Place.makesUp_parameter s row numbering node
  have hnode : .name node ∉ e.demands s.config ⟨some row, numbering⟩ node [] :=
    not_asked_above e (Nat.le_refl node.length)
  exact ((h.2 _ _ node [] false hplace).closeOver row hnode hfree).after _

variable (path : Path)

theorem nests_matchImage {o : Option Expr} (h : ∀ e ∈ o, NestsThunks s ns e) (i : Nat) (row : Row)
    (kind : JoinKind) (name : String) (p : Position) :
    Nests s (matchDemands s.config path i row kind p o) ns (matchNested kind o)
      (functionThunks (matchImage s path i row kind name o)) := by
  cases o with
  | none => exact .nil ..
  | some e =>
    rw [matchDemands, matchNested, matchImage]
    cases kind.takesPredicate with
    | false => exact .nil ..
    | true => exact nests_close (h e rfl) row .plain (.slot (.joinOn i) :: path)

theorem nests_joinsImage {js : List (Join Expr)}
    (h : ∀ j ∈ js, NestsThunks s ns j.source ∧ ∀ e ∈ j.on, NestsThunks s ns e) (i : Nat)
    (row : Row) :
    Nests s (joinsDemands s.config path i row js) ns (joinsNested js)
      (thunksStages (joinsImage s path i row js)) := by
  induction js generalizing i row with
  | nil => exact .nil ..
  | cons j js ih =>
    obtain ⟨kind, name, source, on, p⟩ := j
    obtain ⟨hsource, hon⟩ := h _ List.mem_cons_self
    have hjoined := hsource.offRows (.slot (.joinSource i) :: path)
    have hmatch := nests_matchImage path hon i row kind name p
    have hjs := ih (fun j hj => h j (List.mem_cons_of_mem _ hj)) (i + 1) (row.joined name)
    have hstage := ((hjoined.after (row.declareDemands name p)).append hmatch).append hjs
    have hthunks : thunksStages (joinsImage s path i row (⟨kind, name, source, on, p⟩ :: js)) =
        (source.image s ⟨none, .plain⟩ "" (.slot (.joinSource i) :: path) [] false).thunks ++
          functionThunks (matchImage s path i row kind name on) ++
          thunksStages (joinsImage s path (i + 1) (row.joined name) js) := by
      rw [joinsImage, thunksStages, thunks_join, Pipeline.thunks, thunksStages, List.append_nil]
    rw [joinsDemands, joinsNested, hthunks]
    exact hstage

theorem nests_filterImage {o : Option (Filter Expr)} (h : ∀ f ∈ o, NestsThunks s ns f.predicate)
    (row : Row) :
    Nests s (filterDemands s.config path row o) ns (filterNested o)
      (thunksStages (filterImage s path row o)) := by
  cases o with
  | none => exact .nil ..
  | some f =>
    rw [filterImage, thunksStages, thunksStages, List.append_nil]
    exact nests_close (h f rfl) row .plain (.slot .predicate :: path)

theorem nests_havingImage {o : Option Expr} (h : ∀ e ∈ o, NestsThunks s ns e) (row : Row) :
    Nests s (havingDemands s.config path row o) ns (havingNested o)
      (functionThunks (havingImage s path row o)) := by
  cases o with
  | none => exact .nil ..
  | some e => exact nests_close (h e rfl) row .plain (.slot .having :: path)

theorem nests_groupingImage {o : Option (Grouping Expr)}
    (h : ∀ g ∈ o, (∀ e ∈ g.classifiers, NestsThunks s ns e) ∧ ∀ e ∈ g.having, NestsThunks s ns e)
    (row : Row) :
    Nests s (groupingDemands s.config path row o) ns (groupingNested o)
      (thunksStages (groupingImage s path row o)) := by
  obtain _ | ⟨cs, into, having, p⟩ := o
  · exact .nil ..
  · obtain ⟨hcs, hhaving⟩ := h _ rfl
    let node : Path := .slot (.classifier 0) :: path
    have hvalues := nests_imageAll hcs (.slot ∘ .classifier) 0
      (Place.makesUp_parameter s row .plain node) []
    rw [← thunks_recordOf s.config.table .groups _ none] at hvalues
    have hkey := hvalues.closeOver row (not_asked_above_all cs (Nat.le_refl node.length))
      (NestsThunks.free hcs)
    rw [groupingImage, thunksStages, thunksStages, List.append_nil, thunks_groupBy]
    cases into <;>
      exact (hkey.after _).append (nests_havingImage path hhaving (.grouped row _ _))

theorem nests_termsImage {ts : List (SortTerm Expr)} (h : ∀ t ∈ ts, NestsThunks s ns t.key)
    (row : Row) (i : Nat) :
    Nests s (termsDemands s.config path row i ts) ns (termsNested ts)
      (thunksSpecs (termsImage s path row i ts)) := by
  induction ts generalizing i with
  | nil => exact .nil ..
  | cons t ts ih =>
    obtain ⟨key, direction⟩ := t
    have hkey := nests_close (h _ List.mem_cons_self) row .plain (.slot (.orderKey i) :: path)
    have hts := ih (fun t ht => h t (List.mem_cons_of_mem _ ht)) (i + 1)
    cases direction with
    | none => exact hkey.append hts
    | some d =>
      rw [termsDemands, List.append_assoc d.demands]
      exact (hkey.after d.demands).append hts

theorem nests_sortingImage {o : Option (Sorting Expr)}
    (h : ∀ s' ∈ o, ∀ t ∈ s'.terms, NestsThunks s ns t.key) (row : Row) :
    Nests s (sortingDemands s.config path row o) ns (sortingNested o)
      (thunksStages (sortingImage s path row o)) := by
  cases o with
  | none => exact .nil ..
  | some sorting =>
    have hterms := nests_termsImage path (h sorting rfl) row 0
    rw [← List.append_nil (thunksSpecs _)] at hterms
    exact hterms

theorem nests_limitImage {o : Option (Limit Expr)}
    (h : ∀ l ∈ o, (∀ e ∈ l.offset, NestsThunks s ns e) ∧ NestsThunks s ns l.size) :
    Nests s (limitDemands s.config path o) ns (limitNested o)
      (thunksStages (limitImage s path o)) := by
  obtain _ | ⟨offset, size, p⟩ := o
  · exact .nil ..
  · obtain ⟨hoffset, hsize⟩ := h _ rfl
    have hsize := hsize.offRows (.slot .size :: path)
    cases offset with
    | none =>
      rw [limitImage, thunksStages, thunksStages, List.append_nil]
      exact hsize
    | some e =>
      rw [limitImage, thunksStages, thunksStages, List.append_nil]
      exact ((hoffset e rfl).offRows (.slot .offset :: path)).append hsize

theorem nests_projectionImage {o : Option (Projection Expr)}
    (h : ∀ p ∈ o, ∀ e ∈ p.items, NestsThunks s ns e) (row : Row) :
    Nests s (projectionDemands s.config path row o) ns (projectionNested o)
      (thunksStages (projectionImage s path row o)) := by
  rcases o with _ | ⟨_ | ⟨e, es⟩, p⟩
  · exact .nil ..
  · exact .nil ..
  · let node : Path := .slot (.item 0) :: path
    let param := row.parameter s.name node
    have hitems := nests_imageAll (h _ rfl) (.slot ∘ .item) 0
      (Place.makesUp_parameter s row .counted node) []
    have hselect {body : Expr} (hbody : body.thunks =
        thunksAll (imageAll s ⟨some row, .counted⟩ param path [] (.slot ∘ .item) 0 (e :: es))) :=
      Nests.closeOver (hbody ▸ hitems) row (not_asked_above_all _ (Nat.le_refl node.length))
        (NestsThunks.free (h _ rfl))
    rw [projectionImage, thunksStages, thunksStages, List.append_nil]
    refine (hselect ?_).after _
    split
    · exact thunks_recordOf _ _ _ (some _)
    · -- A value without a record around it is the only one.
      rename_i hrecord
      cases es with
      | nil => exact (List.append_nil _).symm
      | cons e' es => exact absurd rfl hrecord

/-! ## Queries -/

theorem nests_queryImage {q : Query Expr} (h : q.Each (NestsThunks s ns)) :
    Nests s (queryDemands s.config path q) ns (queryNested q) (queryImage s path q).thunks := by
  obtain ⟨⟨name, source, tp⟩, joins, filter, grouping, sorting, limit, projection, p⟩ := q
  let q : Query Expr :=
    ⟨⟨name, source, tp⟩, joins, filter, grouping, sorting, limit, projection, p⟩
  have hsource := h.source.offRows (.slot .source :: path)
  have hjoins := nests_joinsImage path h.joins 0 (.table name)
  have hfilter := nests_filterImage path h.filter q.joinedRow
  have hgrouping := nests_groupingImage path h.grouping q.joinedRow
  have hsorting := nests_sortingImage path h.sorting q.row
  have hlimit := nests_limitImage path h.limit
  have hprojection := nests_projectionImage path h.projection q.row
  have hquery := (((((hsource.append hjoins).append hfilter).append hgrouping).append
    hsorting).append hlimit).append hprojection
  rw [queryImage, Thunk.thunks, Pipeline.thunks, thunksStages_append, thunksStages_append,
    thunksStages_append, thunksStages_append, thunksStages_append, queryNested, queryDemands]
  simpa only [List.append_assoc] using hquery

/-! ## Calls -/

theorem nests_call {es : List Expr} (h : ∀ e ∈ es, NestsThunks s ns e) (p : Position) (n : String)
    {place : Place} {param : String} {path : Path} (hplace : place.MakesUp s param path)
    (bound : List String) (searched : Bool) :
    Nests s ((Expr.sequence p (.call n) es).demands s.config place path bound) ns (nestedAll es)
      ((Expr.sequence p (.call n) es).image s place param path bound searched).thunks := by
  have hargs := place.callCase_args n es.length
  have hform := callForm s place param path bound searched p n es
  generalize (Expr.sequence p (.call n) es).image s place param path bound searched = e
    at hform ⊢
  generalize (Expr.sequence p (.call n) es).demands s.config place path bound = ds at hform ⊢
  -- An aggregate leaves no argument out: it has one that it reads, or none.
  cases hform with
  | plain ds es _ _ => exact (nests_imageAll h .part 0 (hplace.deeper _) bound).after ds
  | allRows es prior names into _ hcase =>
    rw [hcase] at hargs
    rw [List.length_eq_zero_iff.mp hargs]
    exact .nil ..
  | eachRow ds arg rest prior names into _ _ hcase =>
    rw [List.length_cons, hcase, Nat.add_eq_right, List.length_eq_zero_iff] at hargs
    subst hargs
    have harg := nests_close (h arg List.mem_cons_self) prior place.numbering (.part 0 :: path)
    have hselector := (harg.after ds).append (.nil s [] ns)
    rwa [List.append_nil] at hselector
  | rowsAtOnce arg rest prior names into _ hcase =>
    rw [List.length_cons, hcase, Nat.add_eq_right, List.length_eq_zero_iff] at hargs
    subst hargs
    have harg := (h arg List.mem_cons_self).2 place param (.part 0 :: path) bound false
      (hplace.deeper _)
    rw [← List.append_nil (arg.demands _ _ _ _)]
    exact harg.append (.nil s [] ns)

theorem nestsThunks (e : Expr) : NestsThunks s e.spelled e := by
  refine ⟨fun _ hn => hn, ?_⟩
  induction e using Expr.written_induction with
  | literal | letIn | record | postIncrement | subquery =>
    intro place param path bound searched _
    exact .nil ..
  | var p n =>
    intro place param path bound searched _
    rw [Expr.image, thunks_varImage]
    exact .nil ..
  | unary p f e ih =>
    intro place param path bound searched hplace
    exact ih place param (.part 0 :: path) bound false (hplace.deeper _)
  | binary p f l r ihl ihr =>
    intro place param path bound searched hplace
    have hl := (ihl place param (.part 0 :: path) bound false (hplace.deeper _)).mono
      (List.Subset.refl _) (List.subset_append_left l.spelled r.spelled)
    have hr searched := (ihr place param (.part 1 :: path) bound searched (hplace.deeper _)).mono
      (List.Subset.refl _) (List.subset_append_right l.spelled r.spelled)
    cases f with
    | operator op => exact hl.append (hr op.searches)
    | _ => exact hl.append (hr false)
  | sequence p f es ih =>
    have hamong : ∀ e ∈ es, NestsThunks s (spelledAll es) e :=
      fun e he => NestsThunks.among ⟨fun _ hn => hn, ih e he⟩
        fun n hn => mem_spelledAll.mpr ⟨e, he, hn⟩
    intro place param path bound searched hplace
    cases f with
    | call n => exact nests_call hamong p n hplace bound searched
    | list | tuple | construct => exact nests_imageAll hamong .part 0 (hplace.deeper _) bound
  | method p r n es ihr ih =>
    have hamong : ∀ e ∈ es, NestsThunks s (r.spelled ++ spelledAll es) e :=
      fun e he => NestsThunks.among ⟨fun _ hn => hn, ih e he⟩
        fun n hn => List.mem_append_right _ (mem_spelledAll.mpr ⟨e, he, hn⟩)
    intro place param path bound searched hplace
    have hr := (ihr place param (.part 0 :: path) bound false (hplace.deeper _)).mono
      (List.Subset.refl _) (List.subset_append_left r.spelled (spelledAll es))
    exact hr.append (nests_imageAll hamong .part 1 (hplace.deeper _) bound)
  | lambda p ps e ih =>
    intro place param path bound searched hplace
    exact (ih place param (.part 0 :: path) (ps ++ bound) false (hplace.deeper _)).mono
      (List.Subset.refl _) (List.subset_append_right ..)
  | query p q hq =>
    intro place param path bound searched hplace
    have hinside := nests_queryImage path
      (hq.and (each_spelled q) fun e he hns => NestsThunks.among ⟨fun _ hn => hn, he⟩ hns)
    have hbelow : Nests s ((queryDemands s.config path q).filter (·.outlivesQuery))
        (querySpelled q) (queryNested q) (queryImage s path q).thunks := by
      refine hinside.imp ?_
      rintro q' t ⟨node, σs, himage, hσs, hdemands, hasks⟩
      exact ⟨node, σs, himage, hσs, fun d hd hout => List.mem_filter.mpr ⟨hdemands d hd hout, hout⟩,
        hasks⟩
    have hhere : LoweredIn s ((queryDemands s.config path q).filter (·.outlivesQuery))
        (querySpelled q) q (queryImage s path q) :=
      ⟨path, [], rfl, List.forall_mem_nil _, fun d hd hout => List.mem_filter.mpr ⟨hd, hout⟩,
        fun n hn => hn, List.forall_mem_nil _⟩
    have hpath (node : Path) (hlength : node.length ≤ path.length) :
        .name node ∉ (queryDemands s.config path q).filter (·.outlivesQuery) :=
      fun hnode => not_asked_above_query q hlength (List.mem_of_mem_filter hnode)
    rw [Expr.image]
    refine Nests.attach ?_ hplace hpath bound fun n hn => queryFree_subset_spelled q hn
    cases searched with
    | true =>
      have hthunks : ((Expr.subquery p (queryImage s path q)).send "toList" []).thunks =
          queryImage s path q :: (queryImage s path q).thunks := List.append_nil _
      rw [if_pos rfl, hthunks]
      exact .cons hhere hbelow
    | false => exact .cons hhere hbelow

/-- The queries in a query are the thunks of its image. -/
theorem nests_query (q : Query Expr) :
    Nests s (queryDemands s.config path q) (querySpelled q) (queryNested q)
      (queryImage s path q).thunks :=
  nests_queryImage path
    ((q.each_of_forall nestsThunks).and (each_spelled q) fun _ he hns => he.among hns)

/-- So it is with the query itself among them. -/
theorem nests_self (q : Query Expr) :
    Nests s (queryDemands s.config path q) (querySpelled q) (q :: queryNested q)
      (queryImage s path q :: (queryImage s path q).thunks) :=
  .cons ⟨path, [], rfl, List.forall_mem_nil _, fun _ hd _ => hd, fun _ hn => hn,
    List.forall_mem_nil _⟩
    (nests_query path q)

end

end Comprehension
