import Mathlib.Data.List.Induction
import Comprehension.Proofs.JoinedRows

/-!
Paths of aliases. In a chain of joins each declaration has its own value in the nested pair, also where
an alias is declared twice. There is one path for each alias, in the order in which the aliases first
come, and it leads to the value of the last declaration. No path begins with another one.
-/

namespace Comprehension

namespace Row

/-! ## Keys -/

theorem keys_addPaths {row : Row} (h : row.isChain = true) (path : PairPath) :
    Assoc.keys (row.addPaths path []) = distinct row.aliases := by
  induction row generalizing path with
  | table a => simp [addPaths, Assoc.put, Assoc.keys, aliases, distinct]
  | joined prior a ih =>
    rw [addPaths, Assoc.keys_put, ih h, aliases, distinct_append_singleton]
    simp only [mem_distinct]
  | grouped prior names into => simp [isChain] at h

/-- Of a join on any row there are paths for aliases that come in the order of the joins. -/
theorem keys_addPaths_sublist (row : Row) (path : PairPath) :
    (Assoc.keys (row.addPaths path [])).Sublist row.aliases := by
  induction row generalizing path with
  | table a => exact List.Sublist.refl [a]
  | joined prior a ih =>
    rw [addPaths, Assoc.keys_put, aliases]
    split
    · exact (ih _).trans (List.sublist_append_left _ _)
    · exact (ih _).append (List.Sublist.refl [a])
  | grouped prior names into => exact List.nil_sublist _

theorem isChain_afterJoins (row : Row) (js : List String) :
    (row.afterJoins js).isChain = row.isChain := by
  induction js generalizing row with
  | nil => rfl
  | cons j js ih => exact ih (row.joined j)

/-! ## Depths -/

section

variable (base : String)

theorem afterJoins_append_singleton (row : Row) (js : List String) (j : String) :
    row.afterJoins (js ++ [j]) = (row.afterJoins js).joined j := by
  simp [afterJoins]

/-- Where no alias is declared twice, the joins lie at growing depth from the last one inwards. -/
theorem addPaths_of_nodup (path : PairPath) {js : List String} (h : (base :: js).Nodup) :
    ((table base).afterJoins js).addPaths path [] =
      (base, path ++ List.replicate js.length .first) ::
        js.mapIdx fun k j => (j, path ++ List.replicate (js.length - (k + 1)) .first ++ [.second])
    := by
  induction js using List.reverseRecOn generalizing path with
  | nil => simp [afterJoins, addPaths, Assoc.put]
  | append_singleton js j ih =>
    rw [← List.cons_append] at h
    obtain ⟨hjs, -, hdisjoint⟩ := List.nodup_append.mp h
    have hnew : j ∉ Assoc.keys (((table base).afterJoins js).addPaths (path ++ [.first]) []) := by
      rw [keys_addPaths (isChain_afterJoins _ js), mem_distinct, aliases_afterJoins]
      exact fun hmem => hdisjoint j hmem j (List.mem_singleton_self j) rfl
    have hdeeper (n : Nat) : path ++ [.first] ++ List.replicate n .first =
        path ++ List.replicate (n + 1) Half.first := by
      rw [List.append_assoc, List.singleton_append, List.replicate_succ]
    have hbefore : js.mapIdx (fun k j =>
          (j, path ++ [.first] ++ List.replicate (js.length - (k + 1)) .first ++ [.second])) =
        js.mapIdx fun k j =>
          (j, path ++ List.replicate (js.length + 1 - (k + 1)) .first ++ [.second]) := by
      refine List.mapIdx_eq_mapIdx_iff.mpr fun k hk => ?_
      rw [hdeeper, show js.length - (k + 1) + 1 = js.length + 1 - (k + 1) by omega]
    rw [afterJoins_append_singleton, addPaths, Assoc.put_of_not_mem hnew, ih _ hjs, hdeeper,
      hbefore, List.mapIdx_concat, List.length_append, List.length_singleton]
    simp

end

/-! ## Prefixes -/

theorem prefix_of_mem_addPaths {row : Row} {path : PairPath} {p : String × PairPath}
    (h : p ∈ row.addPaths path []) : path <+: p.2 := by
  induction row generalizing path with
  | table a =>
    obtain rfl := List.mem_singleton.mp h
    exact List.prefix_refl path
  | joined prior a ih =>
    rcases Assoc.mem_put h with rfl | h
    · exact List.prefix_append path _
    · exact (List.prefix_append path _).trans (ih h)
  | grouped prior names into => cases h

/-- A path to one half of a pair begins with no path into the other half. -/
theorem addPaths_prefix_free {row : Row} {path : PairPath} {p q : String × PairPath}
    (hp : p ∈ row.addPaths path []) (hq : q ∈ row.addPaths path []) (h : p.2 <+: q.2) : p = q := by
  induction row generalizing path with
  | table a => exact (List.mem_singleton.mp hp).trans (List.mem_singleton.mp hq).symm
  | joined prior a ih =>
    have hfirst {r : String × PairPath} (hr : r ∈ prior.addPaths (path ++ [.first]) []) :
        ∃ rest, r.2 = path ++ .first :: rest := by
      obtain ⟨rest, hrest⟩ := prefix_of_mem_addPaths hr
      exact ⟨rest, by simp [← hrest]⟩
    rcases Assoc.mem_put hp with rfl | hp <;> rcases Assoc.mem_put hq with rfl | hq
    · rfl
    · obtain ⟨rest, hrest⟩ := hfirst hq
      simp [hrest, List.prefix_append_right_inj] at h
    · obtain ⟨rest, hrest⟩ := hfirst hp
      simp [hrest, List.prefix_append_right_inj] at h
    · exact ih hp hq
  | grouped prior names into => cases hp

/-! ## Values -/

variable {V : Type} (I : Interpretation V)

/-- `(((base, j1), j2), ...)`, with one value for each declaration. -/
def nestedPair (base : V) (joins : List V) : V := joins.foldl I.pair base

theorem follow_get?_addPaths (base : String × V) (joins : List (String × V)) (path : PairPath)
    {root : V} (hroot : path.follow I root = nestedPair I base.2 (joins.map (·.2))) (n : String) :
    (Assoc.get? n (((table base.1).afterJoins (joins.map (·.1))).addPaths path [])).map
        (PairPath.follow I · root) =
      Assoc.get? n (base :: joins).reverse := by
  induction joins using List.reverseRecOn generalizing path with
  | nil =>
    by_cases hn : base.1 = n <;> simp [afterJoins, addPaths, Assoc.put, Assoc.get?, hn]
    exact hroot
  | append_singleton joins j ih =>
    have hpair : path.follow I root =
        I.pair (nestedPair I base.2 (joins.map (·.2))) j.2 := by
      simpa [nestedPair] using hroot
    have hfirst : PairPath.follow I (path ++ [.first]) root =
        nestedPair I base.2 (joins.map (·.2)) := by
      rw [PairPath.follow_append, hpair]
      exact I.first_pair _ _
    have hsecond : PairPath.follow I (path ++ [.second]) root = j.2 := by
      rw [PairPath.follow_append, hpair]
      exact I.second_pair _ _
    rw [List.map_append, List.map_singleton, afterJoins_append_singleton, addPaths, Assoc.get?_put,
      ← List.cons_append, List.reverse_append, List.reverse_singleton, List.singleton_append,
      Assoc.get?]
    by_cases hn : j.1 = n
    · rw [if_pos hn.symm, if_pos hn, Option.map_some, hsecond]
    · rw [if_neg (Ne.symm hn), if_neg hn, ih _ hfirst]

/-- After one join or more there is a path for each alias, in the order of the first declarations, and
on the nested pair it leads to the value of the last declaration. No path begins with another. Where no
alias is declared twice, the path of the base has one step for each join, and that of the `k`-th of `n`
joins goes `n - k` times to the first half and then to the second. -/
theorem paths_reach_declarations (base join : String × V) (joins : List (String × V)) :
    let aliases := join.1 :: joins.map (·.1)
    let row := (table base.1).afterJoins aliases
    let value := nestedPair I base.2 (join.2 :: joins.map (·.2))
    Assoc.keys row.paths = distinct (base.1 :: aliases) ∧
      (∀ n, (Assoc.get? n row.paths).map (PairPath.follow I · value) =
        Assoc.get? n (base :: join :: joins).reverse) ∧
      (∀ p ∈ row.paths, ∀ q ∈ row.paths, p.2 <+: q.2 → p = q) ∧
      ((base.1 :: aliases).Nodup →
        row.paths = (base.1, List.replicate aliases.length .first) ::
          aliases.mapIdx fun k a =>
            (a, List.replicate (aliases.length - (k + 1)) .first ++ [.second])) := by
  intro aliases row value
  have hpaths : row.paths = row.addPaths [] [] := by
    have hjoined (prior : Row) (hprior : prior.paths = prior.addPaths [] []) (js : List String) :
        (prior.afterJoins js).paths = (prior.afterJoins js).addPaths [] [] := by
      induction js using List.reverseRecOn with
      | nil => exact hprior
      | append_singleton js j ih =>
        rw [afterJoins_append_singleton]
        rfl
    exact hjoined ((table base.1).joined join.1) rfl _
  rw [hpaths]
  refine ⟨?_, ?_, fun p hp q hq => addPaths_prefix_free hp hq, fun hnodup => ?_⟩
  · rw [keys_addPaths (isChain_afterJoins _ aliases), aliases_afterJoins]
    rfl
  · exact follow_get?_addPaths I base (join :: joins) [] rfl
  · exact addPaths_of_nodup base.1 [] hnodup

/-- Three aliases and their paths. Where the first alias is declared again by the last join, it stays
the first one and leads to the last value. -/
theorem paths_reach_declarations_threeAliases :
    ["a", "b", "c"].Nodup ∧
      ((table "a").afterJoins ["b", "c"]).paths =
        [("a", [.first, .first]), ("b", [.first, .second]), ("c", [.second])] ∧
      Assoc.keys ((table "a").afterJoins ["b", "a"]).paths = ["a", "b"] ∧
      (Assoc.get? "a" ((table "a").afterJoins ["b", "a"]).paths).map
          (PairPath.follow Cell.engine · (.pair (.pair (.number 1) (.number 2)) (.number 3))) =
        some (.number 3) := by
  have hnodup : ["a", "b", "c"].Nodup := by decide
  obtain ⟨-, -, -, hpaths⟩ := paths_reach_declarations Cell.engine
    ("a", .number 1) ("b", .number 2) [("c", .number 3)]
  obtain ⟨hkeys, hvalue, -, -⟩ := paths_reach_declarations Cell.engine
    ("a", .number 1) ("b", .number 2) [("a", .number 3)]
  exact ⟨hnodup, hpaths hnodup, hkeys, hvalue "a"⟩

end Row
end Comprehension
