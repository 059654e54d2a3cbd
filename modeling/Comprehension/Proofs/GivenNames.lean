import Comprehension.Proofs.MadeUpNames

/-!
Names given over a run. A supply is asked in any order to reserve names, for a fresh name and for the
name of a node. The search for a fresh name looks at one candidate after the other and ends soon,
since only reserved names are skipped. What it gives was neither reserved nor given before, a node
keeps its name, and no two nodes share one.
-/

namespace Comprehension

namespace NameSupply

/-! ## The search -/

/-- The search from the next candidate on, with the number of candidates that it looks at. A reserved
one is skipped, and the first one that is not is given and reserved. -/
inductive Search : NameSupply → Nat → String × NameSupply → Prop
  | found {s : NameSupply} (h : s.candidate s.next ∉ s.reserved) :
    Search s 1 (s.candidate s.next,
      { s with next := s.next + 1, reserved := s.candidate s.next :: s.reserved })
  | skipped {s : NameSupply} {k : Nat} {r : String × NameSupply}
    (h : s.candidate s.next ∈ s.reserved) (hrest : Search { s with next := s.next + 1 } k r) :
    Search s (k + 1) r

/-- Each candidate is skipped or given, so that the search has one end. -/
theorem Search.unique {s : NameSupply} {k k' : Nat} {r r' : String × NameSupply}
    (h : Search s k r) (h' : Search s k' r') : k = k' ∧ r = r' := by
  induction h generalizing k' with
  | found hfree =>
    cases h' with
    | found => exact ⟨rfl, rfl⟩
    | skipped hmem => exact absurd hmem hfree
  | skipped hmem _ ih =>
    cases h' with
    | found hfree => exact absurd hmem hfree
    | skipped _ hrest =>
      obtain ⟨rfl, rfl⟩ := ih hrest
      exact ⟨rfl, rfl⟩

theorem le_firstFree (s : NameSupply) (n k : Nat) : n ≤ s.firstFree n k := by
  induction k generalizing n with
  | zero => simp [firstFree]
  | succ k ih =>
    have hnext := ih (n + 1)
    rw [firstFree]
    split <;> omega

theorem search_of_free (s : NameSupply) {k : Nat}
    (hskipped : ∀ i < k, s.candidate (s.next + i) ∈ s.reserved)
    (hfree : s.candidate (s.next + k) ∉ s.reserved) :
    Search s (k + 1) (s.candidate (s.next + k),
      { s with next := s.next + k + 1, reserved := s.candidate (s.next + k) :: s.reserved }) := by
  induction k generalizing s with
  | zero => exact .found hfree
  | succ k ih =>
    have hshift (i : Nat) : s.next + (i + 1) = s.next + 1 + i := by omega
    rw [hshift] at hfree ⊢
    refine .skipped (hskipped 0 (by omega)) (ih { s with next := s.next + 1 } ?_ hfree)
    intro i hi
    exact hshift i ▸ hskipped (i + 1) (by omega)

/-- Candidates that are skipped are reserved, each under a name of its own. -/
theorem skipped_le {s : NameSupply} {k : Nat}
    (hskipped : ∀ i < k, s.candidate (s.next + i) ∈ s.reserved) :
    k ≤ (distinct s.reserved).length := by
  let names := (List.range k).map fun i => s.candidate (s.next + i)
  have hnodup : names.Nodup := by
    refine List.pairwise_map.mpr (List.nodup_range.imp fun hne h => hne ?_)
    have := s.candidate_injective h
    omega
  have hsubset : names ⊆ distinct s.reserved := by
    intro n hn
    obtain ⟨i, hi, rfl⟩ := List.mem_map.mp hn
    exact mem_distinct.mpr (hskipped i (List.mem_range.mp hi))
  simpa [names] using hnodup.length_le_of_subset hsubset

/-- The search gives what `fresh` gives, after at most one candidate more than there are reserved
names. -/
theorem search_fresh (s : NameSupply) :
    ∃ k ≤ (distinct s.reserved).length + 1, Search s k s.fresh := by
  let n := s.firstFree s.next s.reserved.length
  obtain ⟨k, hk⟩ : ∃ k, n = s.next + k := Nat.exists_eq_add_of_le (s.le_firstFree _ _)
  have hskipped : ∀ i < k, s.candidate (s.next + i) ∈ s.reserved := fun i hi =>
    s.reserved_of_lt_firstFree (k := s.reserved.length) (Nat.le_add_right _ _) (by omega)
  have hfresh : s.fresh = (s.candidate (s.next + k),
      { s with next := s.next + k + 1, reserved := s.candidate (s.next + k) :: s.reserved }) := by
    rw [← hk]
    rfl
  have hfree : s.candidate (s.next + k) ∉ s.reserved := by
    simpa [hfresh] using s.fresh_not_reserved
  refine ⟨k + 1, Nat.succ_le_succ (skipped_le hskipped), ?_⟩
  rw [hfresh]
  exact search_of_free s hskipped hfree

/-! ## Requests -/

inductive Request where
  | reserve (names : List String)
  | fresh
  | nameOf (node : Path)

namespace Request

def reserved : Request → List String
  | reserve names => names
  | _ => []

/-- The name that is made up, where one is. -/
def generated? (s : NameSupply) : Request → Option String
  | reserve _ => none
  | fresh => some s.fresh.1
  | nameOf node => if (s.assigned? node).isSome then none else some (s.nameOf node).1

def after (s : NameSupply) : Request → NameSupply
  | reserve names => s.reserve names
  | fresh => s.fresh.2
  | nameOf node => (s.nameOf node).2

section

variable {s : NameSupply} (r : Request)

/-- No request takes a name away, from the reserved ones or from a node. -/
theorem reserved_after {n : String} (h : n ∈ s.reserved) : n ∈ (r.after s).reserved := by
  cases r with
  | reserve names => exact List.mem_append_right _ h
  | fresh => exact List.mem_cons_of_mem _ h
  | nameOf node =>
    cases hnode : s.assigned? node with
    | some m => rwa [after, nameOf_of_assigned? hnode]
    | none =>
      rw [after, nameOf_of_none hnode]
      exact List.mem_cons_of_mem _ h

theorem assigned?_after {node : Path} {n : String} (h : s.assigned? node = some n) :
    (r.after s).assigned? node = some n := by
  cases r with
  | nameOf other => exact assigned?_nameOf_of_some h other
  | _ => exact h

theorem clear_after (h : s.Clear []) : (r.after s).Clear [] := by
  cases r with
  | reserve names =>
    exact ⟨List.forall_mem_nil _, h.avoids, fun a ha => reserved_after _ (h.assigned a ha), h.nodup⟩
  | fresh =>
    exact ⟨List.forall_mem_nil _, h.avoids, fun a ha => reserved_after fresh (h.assigned a ha),
      h.nodup⟩
  | nameOf node => exact h.nameOf node

/-- A name that is made up was not reserved, and is from then on. -/
theorem generated?_spec {n : String} (h : r.generated? s = some n) :
    n ∉ s.reserved ∧ n ∈ (r.after s).reserved := by
  cases r with
  | reserve names => cases h
  | fresh =>
    obtain rfl := Option.some.inj h
    exact ⟨s.fresh_not_reserved, List.mem_cons_self⟩
  | nameOf node =>
    cases hnode : s.assigned? node with
    | some m => simp [generated?, hnode] at h
    | none =>
      have hfresh : s.fresh.1 = n := by simpa [generated?, hnode, nameOf_of_none hnode] using h
      rw [after, nameOf_of_none hnode, ← hfresh]
      exact ⟨s.fresh_not_reserved, List.mem_cons_self⟩

theorem mem_reserved_after {n : String} (h : n ∈ r.reserved) : n ∈ (r.after s).reserved := by
  cases r with
  | reserve names => exact List.mem_append_left _ h
  | _ => cases h

end

end Request

/-! ## Runs -/

def afterAll (s : NameSupply) (rs : List Request) : NameSupply := rs.foldl Request.after s

/-- The names that are made up along a run. -/
def generated (s : NameSupply) : List Request → List String
  | [] => []
  | r :: rs => (r.generated? s).toList ++ generated (r.after s) rs

section

variable {s : NameSupply} (rs : List Request)

theorem reserved_afterAll {n : String} (h : n ∈ s.reserved) : n ∈ (s.afterAll rs).reserved := by
  induction rs generalizing s with
  | nil => exact h
  | cons r rs ih => exact ih (r.reserved_after h)

theorem assigned?_afterAll {node : Path} {n : String} (h : s.assigned? node = some n) :
    (s.afterAll rs).assigned? node = some n := by
  induction rs generalizing s with
  | nil => exact h
  | cons r rs ih => exact ih (r.assigned?_after h)

theorem clear_afterAll (h : s.Clear []) : (s.afterAll rs).Clear [] := by
  induction rs generalizing s with
  | nil => exact h
  | cons r rs ih => exact ih (r.clear_after h)

/-- What was reserved or made up along a run is reserved at its end. -/
theorem mem_reserved_afterAll {n : String}
    (h : n ∈ rs.flatMap Request.reserved ∨ n ∈ s.generated rs) : n ∈ (s.afterAll rs).reserved := by
  induction rs generalizing s with
  | nil => simp [generated] at h
  | cons r rs ih =>
    simp only [List.flatMap_cons, generated, List.mem_append, Option.mem_toList] at h
    rcases h with (h | h) | h | h
    · exact reserved_afterAll rs (r.mem_reserved_after h)
    · exact ih (.inl h)
    · exact reserved_afterAll rs (r.generated?_spec h).2
    · exact ih (.inr h)

/-- The names of two nodes that are asked for one after the other. -/
theorem nameOf_later (h : s.Clear []) (node : Path) :
    let s' := (s.nameOf node).2.afterAll rs
    (s'.nameOf node).1 = (s.nameOf node).1 ∧
      ∀ other, (s'.nameOf other).1 = (s.nameOf node).1 → other = node := by
  intro s'
  have hkept : s'.assigned? node = some (s.nameOf node).1 :=
    assigned?_afterAll rs (s.assigned?_nameOf node)
  refine ⟨by rw [nameOf_of_assigned? hkept], fun other hname => ?_⟩
  have hclear : (s'.nameOf other).2.Clear [] := (clear_afterAll rs (h.nameOf node)).nameOf other
  have hnode := mem_of_assigned? (assigned?_nameOf_of_some hkept other)
  have hother := mem_of_assigned? (s'.assigned?_nameOf other)
  exact congrArg Prod.fst (hclear.node_eq hother hnode hname)

end

/-- At any point of a run the search for a fresh name ends, after at most one candidate more than there
are reserved names, with what `fresh` gives. A name that is made up was neither reserved nor made up
before. A node is given one name whenever it is asked for, and no other node is given it. No request
frees a reserved name or changes the name of a node. -/
theorem names_collision_free (stem : String) (before : List Request) :
    let s := (new stem).afterAll before
    (∃ k, Search s k s.fresh) ∧
      (∀ k r, Search s k r → r = s.fresh ∧ k ≤ (distinct s.reserved).length + 1) ∧
      (∀ r : Request, ∀ n ∈ r.generated? s,
        n ∉ before.flatMap Request.reserved ∧ n ∉ (new stem).generated before) ∧
      (∀ node later,
        let s' := (s.nameOf node).2.afterAll later
        (s'.nameOf node).1 = (s.nameOf node).1 ∧
          ∀ other ≠ node, (s'.nameOf other).1 ≠ (s.nameOf node).1) ∧
      ∀ r : Request, (∀ n ∈ s.reserved, n ∈ (r.after s).reserved) ∧
        ∀ node n, s.assigned? node = some n → (r.after s).assigned? node = some n := by
  intro s
  have hclear : s.Clear [] := clear_afterAll before
    ⟨List.forall_mem_nil _, List.forall_mem_nil _, List.forall_mem_nil _, List.nodup_nil⟩
  obtain ⟨k, hk, hsearch⟩ := s.search_fresh
  refine ⟨⟨k, hsearch⟩, fun k' r hr => ?_, fun r n hn => ?_, fun node later => ?_, fun r => ?_⟩
  · obtain ⟨rfl, rfl⟩ := hr.unique hsearch
    exact ⟨rfl, hk⟩
  · have hfree : n ∉ s.reserved := (r.generated?_spec hn).1
    exact ⟨fun h => hfree (mem_reserved_afterAll before (.inl h)),
      fun h => hfree (mem_reserved_afterAll before (.inr h))⟩
  · obtain ⟨hsame, hother⟩ := nameOf_later later hclear node
    exact ⟨hsame, fun other hne heq => hne (hother other heq)⟩
  · exact ⟨fun n hn => r.reserved_after hn, fun node n hn => r.assigned?_after hn⟩

/-- Reserved candidates are skipped, and a second node is given a name of its own. -/
theorem names_collision_free_skipped :
    let before : List Request := [.reserve ["__t_0", "__t_2"], .fresh, .nameOf [.part 0]]
    let s := (new "__t").afterAll before
    Request.fresh.generated? s = some "__t_4" ∧ "__t_4" ∉ (new "__t").generated before ∧
      (∃ k ≤ 5, Search s k s.fresh) ∧
      ((s.nameOf [.part 1]).2.nameOf [.part 0]).1 ≠ (s.nameOf [.part 1]).1 := by
  intro before s
  obtain ⟨⟨k, hk⟩, hsearch, hnew, hnodes, -⟩ := names_collision_free "__t" before
  have hgenerated : Request.fresh.generated? s = some "__t_4" := by decide
  have hcount : (distinct s.reserved).length = 4 := by decide
  refine ⟨hgenerated, (hnew .fresh _ hgenerated).2, ⟨k, ?_, hk⟩, ?_⟩
  · have hbound := (hsearch k _ hk).2
    rwa [hcount] at hbound
  · exact (hnodes [.part 1] []).2 [.part 0] (by decide)

end NameSupply
end Comprehension
