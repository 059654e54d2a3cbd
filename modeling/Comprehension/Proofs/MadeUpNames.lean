import Comprehension.Lower

/-!
Made-up names. The supply gives no reserved name and no name twice, and a run keeps it so. A query
lowered on its own thus has names that are none of its identifiers, one for each node that asked.
-/

namespace Comprehension

namespace NameSupply

/-! ## Candidates -/

theorem toString_injective {n m : Nat} (h : toString n = toString m) : n = m := by
  have h : String.ofList (Nat.toDigits 10 n) = String.ofList (Nat.toDigits 10 m) := by
    rw [← Nat.repr_eq_ofList_toDigits, ← Nat.repr_eq_ofList_toDigits]
    exact h
  have h := congrArg (fun ds => Nat.ofDigitChars 10 ds 0) (String.ofList_injective h)
  simpa only [Nat.ofDigitChars_ten_toDigits] using h

theorem candidate_injective (s : NameSupply) {n m : Nat} (h : s.candidate n = s.candidate m) :
    n = m := by
  rw [candidate, candidate] at h
  exact toString_injective ((String.append_right_inj _).mp h)

/-! ## Search -/

theorem reserved_of_lt_firstFree (s : NameSupply) {n m k : Nat} (hn : n ≤ m)
    (hm : m < s.firstFree n k) : s.candidate m ∈ s.reserved := by
  induction k generalizing n with
  | zero =>
    rw [firstFree] at hm
    omega
  | succ k ih =>
    rw [firstFree] at hm
    split at hm
    · rename_i hmem
      by_cases heq : n = m
      · exact heq ▸ hmem
      · exact ih (by omega) hm
    · omega

theorem firstFree_spec (s : NameSupply) (n k : Nat) :
    s.firstFree n k = n + k ∨ s.candidate (s.firstFree n k) ∉ s.reserved := by
  induction k generalizing n with
  | zero => exact Or.inl rfl
  | succ k ih =>
    rw [firstFree]
    split
    · rcases ih (n + 1) with h | h
      · exact Or.inl (by omega)
      · exact Or.inr h
    · rename_i hmem
      exact Or.inr hmem

theorem fresh_not_reserved (s : NameSupply) : s.fresh.1 ∉ s.reserved := by
  rcases firstFree_spec s s.next s.reserved.length with hend | hfree
  · intro hmem
    -- Else the candidates looked at and the one given are reserved, and they are too many.
    have hsub : (List.range (s.reserved.length + 1)).map (fun i => s.candidate (s.next + i)) ⊆
        s.reserved := by
      intro n hn
      obtain ⟨i, hi, rfl⟩ := List.mem_map.mp hn
      rw [List.mem_range] at hi
      by_cases hlast : i = s.reserved.length
      · rw [hlast, ← hend]
        exact hmem
      · exact reserved_of_lt_firstFree s (k := s.reserved.length) (Nat.le_add_right _ _) (by omega)
    have hnodup : ((List.range (s.reserved.length + 1)).map
        fun i => s.candidate (s.next + i)).Nodup := by
      refine List.pairwise_map.mpr (List.nodup_range.imp ?_)
      intro i j hij h
      exact hij (by have := candidate_injective s h; omega)
    have hlength := hnodup.length_le_of_subset hsub
    rw [List.length_map, List.length_range] at hlength
    omega
  · exact hfree

/-! ## Names of nodes -/

/-- The given names keep clear of those to avoid, and no two nodes have one name. -/
structure Clear (avoided : List String) (s : NameSupply) : Prop where
  reserves : ∀ n ∈ avoided, n ∈ s.reserved
  avoids : ∀ a ∈ s.assigned, a.2 ∉ avoided
  assigned : ∀ a ∈ s.assigned, a.2 ∈ s.reserved
  nodup : (s.assigned.map (·.2)).Nodup

theorem mem_of_assigned? {s : NameSupply} {node : Path} {n : String}
    (h : s.assigned? node = some n) : (node, n) ∈ s.assigned := by
  rw [assigned?, Option.map_eq_some_iff] at h
  obtain ⟨a, ha, rfl⟩ := h
  have hnode : a.1 = node := by simpa using List.find?_some ha
  rw [← hnode]
  exact List.mem_of_find?_eq_some ha

theorem nameOf_of_assigned? {s : NameSupply} {node : Path} {n : String}
    (h : s.assigned? node = some n) : s.nameOf node = (n, s) := by
  rw [nameOf, h]

theorem nameOf_of_none {s : NameSupply} {node : Path} (h : s.assigned? node = none) :
    s.nameOf node =
      (s.fresh.1, { s.fresh.2 with assigned := (node, s.fresh.1) :: s.assigned }) := by
  rw [nameOf, h]
  rfl

theorem assigned?_cons (s : NameSupply) (node : Path) (n : String) (m : Path) :
    assigned? { s with assigned := (node, n) :: s.assigned } m =
      if node = m then some n else s.assigned? m := by
  by_cases h : node = m <;> simp [assigned?, h]

theorem assigned?_nameOf (s : NameSupply) (node : Path) :
    (s.nameOf node).2.assigned? node = some (s.nameOf node).1 := by
  cases h : s.assigned? node with
  | some n => rw [nameOf_of_assigned? h, h]
  | none =>
    rw [nameOf_of_none h]
    exact (assigned?_cons s.fresh.2 node s.fresh.1 node).trans (if_pos rfl)

theorem assigned?_nameOf_of_ne (s : NameSupply) {node other : Path} (hne : node ≠ other) :
    (s.nameOf node).2.assigned? other = s.assigned? other := by
  cases h : s.assigned? node with
  | some n => rw [nameOf_of_assigned? h]
  | none =>
    rw [nameOf_of_none h]
    exact (assigned?_cons s.fresh.2 node s.fresh.1 other).trans (if_neg hne)

theorem assigned?_nameOf_of_some {s : NameSupply} {node : Path} {n : String}
    (h : s.assigned? node = some n) (other : Path) :
    (s.nameOf other).2.assigned? node = some n := by
  by_cases hne : other = node
  · rw [hne, nameOf_of_assigned? h, h]
  · rw [assigned?_nameOf_of_ne s hne, h]

namespace Clear

variable {avoided : List String} {s : NameSupply}

theorem nameOf (h : s.Clear avoided) (node : Path) : (s.nameOf node).2.Clear avoided := by
  cases hnode : s.assigned? node with
  | some n => rwa [nameOf_of_assigned? hnode]
  | none =>
    have hfresh := fresh_not_reserved s
    rw [nameOf_of_none hnode]
    refine ⟨fun n hn => List.mem_cons_of_mem _ (h.reserves n hn), ?_, ?_, ?_⟩
    · refine List.forall_mem_cons.mpr ⟨fun hmem => hfresh (h.reserves _ hmem), h.avoids⟩
    · refine List.forall_mem_cons.mpr ⟨List.mem_cons_self, fun a ha => ?_⟩
      exact List.mem_cons_of_mem _ (h.assigned a ha)
    · refine List.nodup_cons.mpr ⟨fun hmem => ?_, h.nodup⟩
      obtain ⟨a, ha, heq⟩ := List.mem_map.mp hmem
      have heq : a.2 = s.fresh.1 := heq
      exact hfresh (heq ▸ h.assigned a ha)

/-- A name that is given, or that would be given next, is none of those to avoid. -/
theorem nameOf_not_mem (h : s.Clear avoided) (node : Path) : (s.nameOf node).1 ∉ avoided :=
  (h.nameOf node).avoids _ (mem_of_assigned? (assigned?_nameOf s node))

theorem node_eq (h : s.Clear avoided) {a b : Path × String} (ha : a ∈ s.assigned)
    (hb : b ∈ s.assigned) (hname : a.2 = b.2) : a = b := by
  have hpairs : s.assigned.Pairwise fun a b => a.2 = b.2 → a = b :=
    (List.pairwise_map.mp h.nodup).imp fun hne heq => absurd heq hne
  have hflip := hpairs.imp fun hab heq => (hab (Eq.symm heq)).symm
  exact hpairs.forall_of_forall_of_flip (fun _ _ _ => rfl) hflip ha hb hname

end Clear
end NameSupply

/-! ## Runs -/

/-- What comes of demands in every context: whether all are performed, and the mistakes that are
reported until then. -/
def outcome : List Demand → Except Failure Unit × List Diagnostic
  | [] => (.ok (), [])
  | .name _ :: ds => outcome ds
  | .report d :: ds => ((outcome ds).1, d :: (outcome ds).2)
  | .countRow :: ds => outcome ds
  | .fail f :: _ => (.error f, [])

theorem outcome_ok {ds : List Demand} : (outcome ds).1 = .ok () ↔ ∀ f, .fail f ∉ ds := by
  induction ds with
  | nil => exact ⟨fun _ f => List.not_mem_nil, fun _ => rfl⟩
  | cons d ds ih =>
    cases d with
    | fail f => exact ⟨nofun, fun h => absurd List.mem_cons_self (h f)⟩
    | _ => simp only [outcome, ih, List.mem_cons, reduceCtorEq, false_or]

namespace Context

theorem perform_config (ctx : Context) (ds : List Demand) :
    (ctx.perform ds).2.config = ctx.config := by
  induction ds generalizing ctx with
  | nil => rfl
  | cons d ds ih =>
    cases d with
    | name node => exact ih _
    | report d => exact ih _
    | countRow =>
      rw [perform, ih, countRow]
      cases ctx.frames <;> rfl
    | fail f => rfl

theorem countRow_names (ctx : Context) : ctx.countRow.names = ctx.names := by
  rw [countRow]
  cases ctx.frames <;> rfl

theorem countRow_mistakes (ctx : Context) : ctx.countRow.mistakes = ctx.mistakes := by
  rw [countRow]
  cases ctx.frames <;> rfl

theorem perform_outcome (ctx : Context) (ds : List Demand) :
    (ctx.perform ds).1 = (outcome ds).1 ∧
      (ctx.perform ds).2.mistakes = ctx.mistakes ++ (outcome ds).2 := by
  induction ds generalizing ctx with
  | nil => exact ⟨rfl, (List.append_nil _).symm⟩
  | cons d ds ih =>
    cases d with
    | name node => exact ih (ctx.nameOf node).2
    | report d =>
      obtain ⟨hresult, hmistakes⟩ := ih (ctx.report d)
      exact ⟨hresult, hmistakes.trans (List.append_assoc ..)⟩
    | countRow =>
      obtain ⟨hresult, hmistakes⟩ := ih ctx.countRow
      exact ⟨hresult, countRow_mistakes ctx ▸ hmistakes⟩
    | fail f => exact ⟨rfl, (List.append_nil _).symm⟩

theorem perform_clear {avoided : List String} {ctx : Context} (h : ctx.names.Clear avoided)
    (ds : List Demand) : (ctx.perform ds).2.names.Clear avoided := by
  induction ds generalizing ctx with
  | nil => exact h
  | cons d ds ih =>
    cases d with
    | name node => exact ih (h.nameOf node)
    | report d => exact ih h
    | countRow => exact ih (by rwa [countRow_names])
    | fail f => exact h

/-- A node keeps its name. -/
theorem perform_keeps {ctx : Context} {node : Path} {n : String}
    (h : ctx.names.assigned? node = some n) (ds : List Demand) :
    (ctx.perform ds).2.names.assigned? node = some n := by
  induction ds generalizing ctx with
  | nil => exact h
  | cons d ds ih =>
    cases d with
    | name other => exact ih (NameSupply.assigned?_nameOf_of_some h other)
    | report d => exact ih h
    | countRow => exact ih (by rwa [countRow_names])
    | fail f => exact h

/-- A run succeeds if nothing in it fails, and then every node that asked has a name. -/
theorem perform_ok {ctx : Context} {ds : List Demand} (h : (ctx.perform ds).1 = .ok ()) :
    (∀ f, .fail f ∉ ds) ∧
      ∀ node, .name node ∈ ds → ∃ n, (ctx.perform ds).2.names.assigned? node = some n := by
  refine ⟨outcome_ok.mp ((ctx.perform_outcome ds).1 ▸ h), fun node hnode => ?_⟩
  induction ds generalizing ctx with
  | nil => cases hnode
  | cons d ds ih =>
    cases d with
    | name other =>
      rcases List.mem_cons.mp hnode with heq | hnode
      · cases heq
        exact ⟨_, perform_keeps (NameSupply.assigned?_nameOf ctx.names _) ds⟩
      · exact ih h hnode
    | report d => exact ih h (by simpa using hnode)
    | countRow => exact ih h (by simpa using hnode)
    | fail f => cases h

end Context

/-! ## Queries on their own -/

/-- Where lowering gives a thunk, all that the query asks for is done, and the thunk is its image in
the context that is left. -/
theorem Context.lowerInside_ok {ctx ctx' : Context} {node : Path} {q : Query Expr} {t : Thunk}
    (h : ctx.lowerInside node q = (.ok t, ctx')) :
    ctx.perform ((queryDemands ctx.config node q).filter (·.outlivesQuery)) = (.ok (), ctx') ∧
      t = queryImage ctx'.naming node q := by
  let ds := (queryDemands ctx.config node q).filter (·.outlivesQuery)
  have hanswer : ((ctx.perform ds).1.map fun _ => queryImage (ctx.perform ds).2.naming node q,
      (ctx.perform ds).2) = (.ok t, ctx') := h
  rw [Prod.mk.injEq] at hanswer
  obtain ⟨ht, rfl⟩ := hanswer
  cases hr : (ctx.perform ds).1 with
  | error f =>
    rw [hr] at ht
    cases ht
  | ok u =>
    rw [hr] at ht
    exact ⟨Prod.ext hr rfl, (Except.ok.inj ht).symm⟩

theorem Context.lower_image {ctx ctx' : Context} {node : Path} {q : Query Expr} {t : Thunk}
    (h : ctx.lower node q = (.ok t, ctx')) :
    ctx'.config = ctx.config ∧ t = queryImage ctx'.naming node q := by
  have hinside {ctx : Context} (h : ctx.lowerInside node q = (.ok t, ctx')) :
      ctx'.config = ctx.config ∧ t = queryImage ctx'.naming node q := by
    obtain ⟨hperform, himage⟩ := lowerInside_ok h
    obtain rfl : (ctx.perform _).2 = ctx' := congrArg Prod.snd hperform
    exact ⟨ctx.perform_config _, himage⟩
  rw [Context.lower] at h
  have himage := hinside h
  split at himage <;> exact himage

/-- The names that must not be made up while the query is lowered. -/
def Query.avoided (q : Query Expr) (c : Config) : List String :=
  q.identifiers ++ [c.table, c.counter]

theorem Query.mem_avoided {q : Query Expr} {c : Config} {n : String} :
    n ∈ q.avoided c ↔ n ∈ querySpelled q ∨ n = c.table ∨ n = c.counter := by
  rw [avoided, List.mem_append, identifiers, mem_distinct]
  simp

/-- The context in which a query on its own is lowered. -/
def Query.opening (q : Query Expr) (c : Config) : Context :=
  ((Context.new c).reserve [c.table, c.counter]).reserve q.identifiers

theorem Query.opening_clear (q : Query Expr) (c : Config) :
    (q.opening c).names.Clear (q.avoided c) := by
  refine ⟨fun n hn => ?_, List.forall_mem_nil _, List.forall_mem_nil _, List.nodup_nil⟩
  simpa [opening, Context.reserve, NameSupply.reserve, avoided, Context.new, NameSupply.new]
    using hn

/-- A query is accepted only if its lowering succeeds. -/
theorem Query.lower_ok {q : Query Expr} {c : Config} {t : Thunk} (h : q.lower c = .ok t) :
    ∃ ctx, (Context.new c).lower [] q = (.ok t, ctx) := by
  rw [Query.lower] at h
  split at h
  · cases h
  · split at h
    · cases h
    · rename_i t' ctx hlower
      split at h
      · cases h
        exact ⟨ctx, hlower⟩
      · cases h

/-- What a lowered query is. -/
structure Lowered (q : Query Expr) (c : Config) (node : Path) (t : Thunk) (ctx : Context) :
    Prop where
  config : ctx.config = c
  image : t = queryImage ctx.naming node q
  clear : ctx.names.Clear (q.avoided c)
  accepts : ∀ f, .fail f ∉ queryDemands c node q
  named : ∀ m, .name m ∈ queryDemands c node q → ∃ n, ctx.names.assigned? m = some n

namespace Lowered

variable {q : Query Expr} {c : Config} {node : Path} {t : Thunk} {ctx : Context}

theorem ofLower (h : (Context.new c).lower node q = (.ok t, ctx)) : Lowered q c node t ctx := by
  have hmem {d : Demand} (hd : d ∈ queryDemands c node q) (h : d.outlivesQuery = true) :
      d ∈ (queryDemands c node q).filter (·.outlivesQuery) := List.mem_filter.mpr ⟨hd, h⟩
  have hinside : (q.opening c).lowerInside node q = (.ok t, ctx) := h
  obtain ⟨hperform, himage⟩ := Context.lowerInside_ok hinside
  obtain ⟨hfail, hname⟩ := Context.perform_ok (congrArg Prod.fst hperform)
  obtain rfl : ((q.opening c).perform _).2 = ctx := congrArg Prod.snd hperform
  exact ⟨(q.opening c).perform_config _, himage, Context.perform_clear (q.opening_clear c) _,
    fun f hf => hfail f (hmem hf rfl), fun m hm => hname m (hmem hm rfl)⟩

/-- No row goes by a name to avoid, be it given or not. -/
theorem name_not_mem (h : Lowered q c node t ctx) (m : Path) :
    ctx.naming.name m ∉ q.avoided c :=
  h.clear.nameOf_not_mem m

theorem naming_config (h : Lowered q c node t ctx) : ctx.naming.config = c := h.config

theorem naming_of_assigned {m : Path} {n : String} (h : ctx.names.assigned? m = some n) :
    ctx.naming.name m = n :=
  congrArg Prod.fst (NameSupply.nameOf_of_assigned? h)

/-- No other node has, or would be given, the name of a node that asked. -/
theorem name_injective (h : Lowered q c node t ctx) {m m' : Path}
    (hm : .name m ∈ queryDemands c node q) (heq : ctx.naming.name m = ctx.naming.name m') :
    m = m' := by
  obtain ⟨n, hn⟩ := h.named m hm
  have hmem := NameSupply.mem_of_assigned? hn
  rw [naming_of_assigned hn] at heq
  cases hn' : ctx.names.assigned? m' with
  | some n' =>
    rw [naming_of_assigned hn'] at heq
    exact congrArg Prod.fst (h.clear.node_eq hmem (NameSupply.mem_of_assigned? hn') heq)
  | none =>
    have hnext : (ctx.names.nameOf m').1 = ctx.names.fresh.1 := by
      rw [NameSupply.nameOf_of_none hn']
    have heq : n = ctx.names.fresh.1 := heq.trans hnext
    exact absurd (heq ▸ h.clear.assigned _ hmem) (NameSupply.fresh_not_reserved ctx.names)

end Lowered
end Comprehension
