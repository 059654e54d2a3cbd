import Mathlib.Data.List.Nodup
import Mathlib.Logic.Equiv.Basic
import Comprehension.Proofs.AskedNodes
import Comprehension.Proofs.MadeUpNames
import Comprehension.Proofs.NestedThunks
import Comprehension.Proofs.RenamedImages

/-!
Lowering does not depend on what came before. Two contexts with one configuration, in which no query
is open, give one query the same failure, or thunks that differ by a renaming of made-up names, and
both report the same mistakes. Where no paths are put in place, the thunks of nested queries are
those of the nested queries on their own.
-/

namespace Comprehension

/-! ## Renamings -/

/-- Names that are apart can be taken to as many others that are apart. No further name moves. -/
theorem exists_renaming {ns ns' : List String} (hlength : ns.length = ns'.length) (hns : ns.Nodup)
    (hns' : ns'.Nodup) :
    ∃ ρ : Equiv.Perm String, ns.map ρ = ns' ∧ ∀ n, n ∉ ns → n ∉ ns' → ρ n = n := by
  induction ns generalizing ns' with
  | nil =>
    obtain rfl : ns' = [] := List.length_eq_zero_iff.mp hlength.symm
    exact ⟨Equiv.refl String, rfl, fun _ _ _ => rfl⟩
  | cons n ns ih =>
    cases ns' with
    | nil => cases hlength
    | cons n' ns' =>
      obtain ⟨hn, hns⟩ := List.nodup_cons.mp hns
      obtain ⟨hn', hns'⟩ := List.nodup_cons.mp hns'
      obtain ⟨ρ, hmap, hkeeps⟩ := ih (Nat.succ.inj hlength) hns hns'
      -- The swap that takes `n` to `n'` as well moves none of the names that are settled.
      have hsettled : ∀ m ∈ ns, Equiv.swap (ρ n) n' (ρ m) = ρ m := by
        intro m hm
        have hne : ρ m ≠ ρ n := fun h => hn (ρ.injective h ▸ hm)
        have hne' : ρ m ≠ n' := fun h => hn' (h ▸ hmap ▸ List.mem_map_of_mem hm)
        exact Equiv.swap_apply_of_ne_of_ne hne hne'
      refine ⟨ρ.trans (Equiv.swap (ρ n) n'), ?_, fun m hm hm' => ?_⟩
      · rw [List.map_cons, Equiv.trans_apply, Equiv.swap_apply_left, ← hmap]
        exact congrArg (n' :: ·) (List.map_congr_left hsettled)
      · rw [List.mem_cons, not_or] at hm hm'
        have hm'' : ρ m = m := hkeeps m hm.2 hm'.2
        have hne : m ≠ ρ n := fun h => hm.1 (ρ.injective (hm''.trans h))
        rw [Equiv.trans_apply, hm'']
        exact Equiv.swap_apply_of_ne_of_ne hne hm'.1

/-! ## Names that are made up -/

namespace NameSupply

/-- The name is one that the supply could make up. -/
def MakesUp (s : NameSupply) (n : String) : Prop := ∃ k, n = s.candidate k

/-- A node without a name gets one that was not reserved, which is reserved from then on. -/
theorem nameOf_new {s : NameSupply} {node : Path} (h : s.assigned? node = none) :
    (s.nameOf node).1 ∉ s.reserved ∧ s.MakesUp (s.nameOf node).1 ∧
      (s.nameOf node).2.reserved = (s.nameOf node).1 :: s.reserved ∧
      (s.nameOf node).2.stem = s.stem := by
  rw [nameOf_of_none h]
  exact ⟨fresh_not_reserved s, ⟨_, rfl⟩, rfl, rfl⟩

end NameSupply

/-- Each of the nodes has a name of its own that the supply could make up and had not reserved. -/
structure NewNames (supply : NameSupply) (name : Path → String) (nodes : List Path) : Prop where
  apart : (nodes.map name).Nodup
  unreserved : ∀ m ∈ nodes, name m ∉ supply.reserved
  madeUp : ∀ m ∈ nodes, supply.MakesUp (name m)

/-- One more node is named first. Its name is reserved when the others are made up, so they differ
from it. -/
theorem NewNames.cons {supply : NameSupply} {name : Path → String} {node : Path}
    {nodes : List Path} (h : NewNames (supply.nameOf node).2 name nodes)
    (hnode : supply.assigned? node = none) (hname : name node = (supply.nameOf node).1) :
    NewNames supply name (node :: nodes) := by
  obtain ⟨hfree, hmakes, hreserved, hstem⟩ := NameSupply.nameOf_new hnode
  rw [← hname] at hfree hmakes hreserved
  have hlater : ∀ m ∈ nodes, name m ≠ name node ∧ name m ∉ supply.reserved := by
    intro m hm
    have hm := h.unreserved m hm
    rwa [hreserved, List.mem_cons, not_or] at hm
  have hmakes' : ∀ m ∈ nodes, supply.MakesUp (name m) := by
    intro m hm
    obtain ⟨k, hk⟩ := h.madeUp m hm
    exact ⟨k, hk.trans (congrArg (· ++ "_" ++ toString k) hstem)⟩
  have hapart : name node ∉ nodes.map name := by
    intro hmem
    obtain ⟨m, hm, heq⟩ := List.mem_map.mp hmem
    exact (hlater m hm).1 heq
  exact ⟨List.nodup_cons.mpr ⟨hapart, h.apart⟩,
    List.forall_mem_cons.mpr ⟨hfree, fun m hm => (hlater m hm).2⟩,
    List.forall_mem_cons.mpr ⟨hmakes, hmakes'⟩⟩

/-- The renaming moves only names that one of the supplies could make up, and none to avoid. -/
structure RenamesMadeUp (supply supply' : NameSupply) (avoided : List String)
    (ρ : Equiv.Perm String) : Prop where
  keeps : ∀ n ∈ avoided, ρ n = n
  moves : ∀ n, ρ n ≠ n → supply.MakesUp n ∨ supply'.MakesUp n

/-! ## Runs -/

theorem outcome_relocate (path : Path) (ds : List Demand) :
    outcome (ds.map (Demand.relocate path)) = outcome ds := by
  induction ds with
  | nil => rfl
  | cons d ds ih =>
    cases d with
    | report d => exact congrArg (fun o => (o.1, d :: o.2)) ih
    | fail f => rfl
    | _ => exact ih

theorem asked_relocate (path : Path) (ds : List Demand) :
    asked (ds.map (Demand.relocate path)) = (asked ds).map (· ++ path) := by
  induction ds with
  | nil => rfl
  | cons d ds ih =>
    cases d with
    | name node => exact congrArg ((node ++ path) :: ·) ih
    | _ => exact ih

namespace Context

/-- Nodes that have no name yet get new ones. -/
theorem perform_names {ctx : Context} {ds : List Demand} (hok : (ctx.perform ds).1 = .ok ())
    (hnodup : (asked ds).Nodup) (hunnamed : ∀ m ∈ asked ds, ctx.names.assigned? m = none) :
    NewNames ctx.names (ctx.perform ds).2.naming.name (asked ds) := by
  induction ds generalizing ctx with
  | nil => exact ⟨List.nodup_nil, List.forall_mem_nil _, List.forall_mem_nil _⟩
  | cons d ds ih =>
    cases d with
    | name node =>
      have hasked : asked (.name node :: ds) = node :: asked ds := rfl
      rw [hasked, List.nodup_cons] at hnodup
      rw [hasked, List.forall_mem_cons] at hunnamed
      have hunnamed' : ∀ m ∈ asked ds, (ctx.nameOf node).2.names.assigned? m = none := by
        intro m hm
        have hne : node ≠ m := fun h => hnodup.1 (h ▸ hm)
        exact (ctx.names.assigned?_nameOf_of_ne hne).trans (hunnamed.2 m hm)
      have hassigned : (ctx.nameOf node).2.names.assigned? node =
          some (ctx.names.nameOf node).1 := NameSupply.assigned?_nameOf ctx.names node
      have hname : ((ctx.nameOf node).2.perform ds).2.naming.name node =
          (ctx.names.nameOf node).1 := Lowered.naming_of_assigned (perform_keeps hassigned ds)
      exact (ih hok hnodup.2 hunnamed').cons hunnamed.1 hname
    | report d => exact ih hok hnodup hunnamed
    | countRow =>
      have hnames := countRow_names ctx
      have hunnamed' : ∀ m ∈ asked ds, ctx.countRow.names.assigned? m = none :=
        hnames.symm ▸ hunnamed
      have hcounted := ih hok hnodup hunnamed'
      rw [hnames] at hcounted
      exact hcounted
    | fail f => cases hok

/-! ## Untouched contexts -/

/-- No query is open, and no node of the query that asks for a name has one yet. -/
structure Untouched (ctx : Context) (node : Path) (q : Query Expr) : Prop where
  frames : ctx.frames = []
  unnamed : ∀ m ∈ asked (queryDemands ctx.config node q), ctx.names.assigned? m = none

end Context

/-- The names of the nodes that ask for one are apart, none of them is to be avoided, and the supply
could make them up. -/
structure NamesApart (supply : NameSupply) (s : Naming) (node : Path) (q : Query Expr) :
    Prop where
  apart : ((asked (queryDemands s.config node q)).map s.name).Nodup
  avoids : ∀ m ∈ asked (queryDemands s.config node q), s.name m ∉ q.avoided s.config
  madeUp : ∀ m ∈ asked (queryDemands s.config node q), supply.MakesUp (s.name m)

namespace NamesApart

variable {supply supply' : NameSupply} {s s' : Naming} {node node' : Path} {q q' : Query Expr}

/-- The names of a query are good for a query in it. -/
theorem nested (h : NamesApart supply s node q)
    (hdemands : ∀ d ∈ queryDemands s.config node' q', d.outlivesQuery = true →
      d ∈ queryDemands s.config node q)
    (hspelled : ∀ n ∈ querySpelled q', n ∈ querySpelled q) : NamesApart supply s node' q' := by
  have hasked : ∀ m ∈ asked (queryDemands s.config node' q'),
      m ∈ asked (queryDemands s.config node q) :=
    fun m hm => mem_asked.mpr (hdemands _ (mem_asked.mp hm) rfl)
  have havoided : ∀ n ∈ q'.avoided s.config, n ∈ q.avoided s.config := by
    intro n hn
    exact Query.mem_avoided.mpr ((Query.mem_avoided.mp hn).imp_left (hspelled n))
  have hinjective : ∀ m ∈ asked (queryDemands s.config node' q'),
      ∀ m' ∈ asked (queryDemands s.config node' q'), s.name m = s.name m' → m = m' :=
    fun m hm m' hm' => List.inj_on_of_nodup_map h.apart (hasked m hm) (hasked m' hm')
  exact ⟨List.Nodup.map_on hinjective (nodup_asked s.config node' q'),
    fun m hm hn => h.avoids m (hasked m hm) (havoided _ hn), fun m hm => h.madeUp m (hasked m hm)⟩

/-- The images of a query under two such namings differ by a renaming. -/
theorem image_rename (h : NamesApart supply s node q) (h' : NamesApart supply' s' node' q)
    (hconfig : s'.config = s.config) :
    ∃ ρ, RenamesMadeUp supply supply' (q.avoided s.config) ρ ∧
      queryImage s' node' q = (queryImage s node q).rename ρ := by
  obtain ⟨c, names⟩ := s
  obtain ⟨c', names'⟩ := s'
  obtain rfl : c' = c := hconfig
  have hasked (node : Path) : asked (queryDemands c' node q) =
      (asked (queryDemands c' [] q)).map (· ++ node) := by
    rw [queryDemands_path, asked_relocate]
  obtain ⟨ρ, hmap, hothers⟩ := exists_renaming
    (show ((asked (queryDemands c' node q)).map names).length =
      ((asked (queryDemands c' node' q)).map names').length by
        rw [hasked node, hasked node']; simp only [List.length_map]) h.apart h'.apart
  have hmoves : ∀ n, ρ n ≠ n → n ∈ (asked (queryDemands c' node q)).map names ∨
      n ∈ (asked (queryDemands c' node' q)).map names' := by
    intro n hn
    by_contra hnot
    rw [not_or] at hnot
    exact hn (hothers n hnot.1 hnot.2)
  have hkeeps : ∀ n ∈ q.avoided c', ρ n = n := by
    intro n hn
    refine hothers n (fun hmem => ?_) fun hmem => ?_
    · obtain ⟨m, hm, rfl⟩ := List.mem_map.mp hmem
      exact h.avoids m hm hn
    · obtain ⟨m, hm, rfl⟩ := List.mem_map.mp hmem
      exact h'.avoids m hm hn
  refine ⟨ρ, ⟨hkeeps, fun n hn => (hmoves n hn).imp (fun hmem => ?_) fun hmem => ?_⟩, ?_⟩
  · obtain ⟨m, hm, rfl⟩ := List.mem_map.mp hmem
    exact h.madeUp m hm
  · obtain ⟨m, hm, rfl⟩ := List.mem_map.mp hmem
    exact h'.madeUp m hm
  · have hρ : Respects ρ c' :=
      ⟨ρ.injective, hkeeps _ (Query.mem_avoided.mpr (Or.inr (Or.inl rfl))),
        hkeeps _ (Query.mem_avoided.mpr (Or.inr (Or.inr rfl)))⟩
    have hcarries : Carries ρ names names' node node' (queryDemands c' node q) := by
      intro rest hrest
      rw [← mem_asked, hasked node, List.mem_map] at hrest
      obtain ⟨m, hm, heq⟩ := hrest
      rw [← List.append_cancel_right heq]
      rw [hasked node, hasked node', List.map_map, List.map_map, List.map_map] at hmap
      exact (List.map_inj_left.mp hmap m hm).symm
    exact queryImage_rename hρ (q.each_of_forall (renames hρ))
      (fun n hn => hkeeps n (Query.mem_avoided.mpr (Or.inl hn))) hcarries

end NamesApart

/-! ## Lowering -/

/-- What is asked of a context to lower a query on its own. -/
def lasting (c : Config) (node : Path) (q : Query Expr) : List Demand :=
  (queryDemands c node q).filter (·.outlivesQuery)

theorem outcome_lasting (c : Config) (node : Path) (q : Query Expr) :
    outcome (lasting c node q) = outcome (lasting c [] q) := by
  rw [lasting, queryDemands_path, filter_relocate, outcome_relocate, lasting]

theorem asked_lasting (c : Config) (node : Path) (q : Query Expr) :
    asked (lasting c node q) = asked (queryDemands c node q) :=
  asked_filter (fun _ => rfl) _

namespace Context

/-- The context in which a query is lowered where none is open. -/
def opened (ctx : Context) (q : Query Expr) : Context :=
  (ctx.reserve [ctx.config.table, ctx.config.counter]).reserve q.identifiers

theorem mem_opened {ctx : Context} {q : Query Expr} {n : String} (h : n ∈ q.avoided ctx.config) :
    n ∈ (ctx.opened q).names.reserved := by
  rcases List.mem_append.mp h with h | h
  · exact List.mem_append_left _ h
  · exact List.mem_append_right _ (List.mem_append_left _ h)

theorem lower_opened {ctx : Context} (h : ctx.frames = []) (node : Path) (q : Query Expr) :
    ctx.lower node q = (ctx.opened q).lowerInside node q := by
  rw [lower, h]
  rfl

namespace Untouched

variable {ctx : Context} {node : Path} {q : Query Expr}

theorem lower_run (h : ctx.Untouched node q) :
    (ctx.lower node q).2 = ((ctx.opened q).perform (lasting ctx.config node q)).2 ∧
      (ctx.lower node q).1 = ((ctx.opened q).perform (lasting ctx.config node q)).1.map
        fun _ => queryImage (ctx.lower node q).2.naming node q := by
  rw [lower_opened h.frames]
  exact ⟨rfl, rfl⟩

/-- The result is the failure that the query asks for, or else its image under the names of the run.
-/
theorem lower_result (h : ctx.Untouched node q) :
    (ctx.lower node q).1 = (outcome (lasting ctx.config [] q)).1.map
      fun _ => queryImage (ctx.lower node q).2.naming node q := by
  obtain ⟨hresult, -⟩ := (ctx.opened q).perform_outcome (lasting ctx.config node q)
  rw [h.lower_run.2, hresult, outcome_lasting]

theorem lower_mistakes (h : ctx.Untouched node q) :
    (ctx.lower node q).2.mistakes = ctx.mistakes ++ (outcome (lasting ctx.config [] q)).2 := by
  obtain ⟨-, hmistakes⟩ := (ctx.opened q).perform_outcome (lasting ctx.config node q)
  rw [h.lower_run.1, hmistakes, outcome_lasting]
  rfl

/-- Where lowering succeeds, nothing fails, and the thunk is the image. -/
theorem of_lower {t : Thunk} (h : ctx.Untouched node q) (hlower : (ctx.lower node q).1 = .ok t) :
    (outcome (lasting ctx.config [] q)).1 = .ok () ∧
      t = queryImage (ctx.lower node q).2.naming node q := by
  rw [h.lower_result] at hlower
  cases hresult : (outcome (lasting ctx.config [] q)).1 with
  | error f => rw [hresult] at hlower; cases hlower
  | ok u => rw [hresult] at hlower; cases hlower; exact ⟨rfl, rfl⟩

theorem naming_config (h : ctx.Untouched node q) :
    (ctx.lower node q).2.naming.config = ctx.config := by
  rw [h.lower_run.1]
  exact (ctx.opened q).perform_config _

theorem namesApart (h : ctx.Untouched node q)
    (hok : (outcome (lasting ctx.config [] q)).1 = .ok ()) :
    NamesApart ctx.names (ctx.lower node q).2.naming node q := by
  have hrun : ((ctx.opened q).perform (lasting ctx.config node q)).1 = .ok () := by
    rw [(perform_outcome ..).1, outcome_lasting, hok]
  have hnames := perform_names hrun
    (asked_lasting ctx.config node q ▸ nodup_asked ctx.config node q)
    (asked_lasting ctx.config node q ▸ h.unnamed)
  rw [asked_lasting, ← h.lower_run.1] at hnames
  refine ⟨?_, ?_, ?_⟩ <;> rw [h.naming_config]
  · exact hnames.apart
  · exact fun m hm hmem => hnames.unreserved m hm (mem_opened hmem)
  · exact hnames.madeUp

/-- Two runs fail alike, or what they lower differs by a renaming. -/
theorem lower_rename {ctx' : Context} {node' : Path} (h : ctx.Untouched node q)
    (h' : ctx'.Untouched node' q) (hconfig : ctx'.config = ctx.config) :
    ∃ ρ, RenamesMadeUp ctx.names ctx'.names (q.avoided ctx.config) ρ ∧
      (ctx'.lower node' q).1 = (ctx.lower node q).1.map (Thunk.rename ρ) := by
  rw [h.lower_result, h'.lower_result, hconfig]
  cases hok : (outcome (lasting ctx.config [] q)).1 with
  | error f => exact ⟨Equiv.refl String, ⟨fun _ _ => rfl, fun _ hn => absurd rfl hn⟩, rfl⟩
  | ok _ =>
    have hnames := h.namesApart hok
    have hnames' := h'.namesApart (hconfig ▸ hok)
    obtain ⟨ρ, hρ, himage⟩ := hnames.image_rename hnames'
      (h'.naming_config.trans (hconfig.trans h.naming_config.symm))
    rw [h.naming_config] at hρ
    exact ⟨ρ, hρ, congrArg Except.ok himage⟩

/-- A thunk that is the image of a nested query under the names of the run differs by a renaming
from what the nested query is lowered to on its own. -/
theorem nested_rename {t : Thunk} (h : ctx.Untouched node q)
    (hinline : ctx.config.inlinePaths = false) (hlower : (ctx.lower node q).1 = .ok t)
    {nested : Query Expr} {thunk : Thunk}
    (hnested : LoweredIn (ctx.lower node q).2.naming (queryDemands ctx.config node q)
      (querySpelled q) nested thunk) {alone : Context} {root : Path}
    (halone : alone.Untouched root nested) (hconfig : alone.config = ctx.config) :
    ∃ ρ, RenamesMadeUp ctx.names alone.names (nested.avoided ctx.config) ρ ∧
      (alone.lower root nested).1 = .ok (thunk.rename ρ) := by
  obtain ⟨place, σs, himage, hσs, hdemands, hspelled, -⟩ := hnested
  -- Where paths are bound, nothing is put in place.
  have hnone : σs = [] := by
    refine List.eq_nil_iff_forall_not_mem.mpr fun σ hσ => ?_
    have hset := (hσs σ hσ).1
    rw [h.naming_config, hinline] at hset
    cases hset
  subst hnone
  cases himage
  obtain ⟨hok, -⟩ := h.of_lower hlower
  rw [← h.naming_config] at hdemands
  have hnames := (h.namesApart hok).nested hdemands hspelled
  have hsucceeds : (outcome (lasting alone.config [] nested)).1 = .ok () := by
    rw [hconfig, ← outcome_lasting _ place, outcome_ok]
    intro f hf
    rw [← outcome_lasting _ node, outcome_ok] at hok
    have hmem := hdemands _ (h.naming_config.symm ▸ List.mem_of_mem_filter hf) rfl
    rw [h.naming_config] at hmem
    exact hok f (List.mem_filter.mpr ⟨hmem, rfl⟩)
  obtain ⟨ρ, hρ, himage⟩ := hnames.image_rename (halone.namesApart hsucceeds)
    (halone.naming_config.trans (hconfig.trans h.naming_config.symm))
  rw [h.naming_config] at hρ
  refine ⟨ρ, hρ, ?_⟩
  rw [halone.lower_result, hsucceeds]
  exact congrArg Except.ok himage

end Untouched
end Context

/-- Lowering depends on nothing that a context holds but its configuration. Two untouched contexts
fail alike or give thunks that differ by a renaming of made-up names, and they report the same
mistakes. Without paths put in place, the nested queries of a query are, at every depth and in
order, lowered to what each is lowered to on its own, up to such a renaming. -/
theorem lower_context_independent {ctx ctx' : Context} {node node' : Path} {q : Query Expr}
    (h : ctx.Untouched node q) (h' : ctx'.Untouched node' q) (hconfig : ctx'.config = ctx.config) :
    (∃ ρ, RenamesMadeUp ctx.names ctx'.names (q.avoided ctx.config) ρ ∧
      (ctx'.lower node' q).1 = (ctx.lower node q).1.map (Thunk.rename ρ)) ∧
      (∃ reported, (ctx.lower node q).2.mistakes = ctx.mistakes ++ reported ∧
        (ctx'.lower node' q).2.mistakes = ctx'.mistakes ++ reported) ∧
      (ctx.config.inlinePaths = false → ∀ t, (ctx.lower node q).1 = .ok t →
        List.Forall₂ (fun nested thunk => ∀ (alone : Context) (root : Path),
          alone.Untouched root nested → alone.config = ctx.config →
            ∃ ρ, RenamesMadeUp ctx.names alone.names (nested.avoided ctx.config) ρ ∧
              (alone.lower root nested).1 = .ok (thunk.rename ρ))
          (queryNested q) t.thunks) := by
  refine ⟨h.lower_rename h' hconfig, ⟨_, h.lower_mistakes, hconfig ▸ h'.lower_mistakes⟩, ?_⟩
  intro hinline t ht
  obtain ⟨-, rfl⟩ := h.of_lower ht
  have hnests := nests_query (s := (ctx.lower node q).2.naming) node q
  rw [h.naming_config] at hnests
  exact hnests.imp fun _ _ hnested _ _ => h.nested_rename hinline ht hnested

/-- `from c in cs crossjoin d in ds select d`. -/
def innerRows : Query Expr where
  table := ⟨"c", Expr.name "cs", .nowhere⟩
  joins := [⟨.cross, "d", Expr.name "ds", none, .nowhere⟩]
  filter := none
  grouping := none
  sorting := none
  limit := none
  projection := some ⟨[Expr.name "d"], .nowhere⟩
  pos := .nowhere

/-- `from a in as crossjoin b in bs select (from c in cs crossjoin d in ds select d)`. -/
def outerRows : Query Expr where
  table := ⟨"a", Expr.name "as", .nowhere⟩
  joins := [⟨.cross, "b", Expr.name "bs", none, .nowhere⟩]
  filter := none
  grouping := none
  sorting := none
  limit := none
  projection := some ⟨[.query .nowhere innerRows], .nowhere⟩
  pos := .nowhere

/-- A context that lowered the query before, somewhere else. -/
def usedContext : Context := ((Context.new .standard).lower [.part 0] outerRows).2

/-- The rows get other names after a first run, and the nested query has one row on its own. -/
theorem lower_context_independent_outerRows :
    (Context.new .standard).Untouched [] outerRows ∧ usedContext.Untouched [] outerRows ∧
      (Context.new .standard).Untouched [] innerRows ∧
      ∃ t t' inner, ((Context.new .standard).lower [] outerRows).1 = .ok t ∧
        (usedContext.lower [] outerRows).1 = .ok t' ∧
        ((Context.new .standard).lower [] innerRows).1 = .ok inner ∧
        functions t.walk = [["__t_0"], ["__t_1"]] ∧ functions t'.walk = [["__t_2"], ["__t_3"]] ∧
        functions inner.walk = [["__t_0"]] ∧ (∃ ρ : Equiv.Perm String, t' = t.rename ρ) ∧
        ∃ thunk, t.thunks = [thunk] ∧ ∃ ρ : Equiv.Perm String, inner = thunk.rename ρ := by
  have h : (Context.new .standard).Untouched [] outerRows := ⟨rfl, by decide⟩
  have h' : usedContext.Untouched [] outerRows := ⟨by rfl, by decide⟩
  have hinner : (Context.new .standard).Untouched [] innerRows := ⟨rfl, by decide⟩
  obtain ⟨⟨ρ, -, hrename⟩, -, hnested⟩ := lower_context_independent h h' rfl
  obtain ⟨t, ht, hfunctions⟩ : ∃ t, ((Context.new .standard).lower [] outerRows).1 = .ok t ∧
      functions t.walk = [["__t_0"], ["__t_1"]] := ⟨_, rfl, by decide⟩
  obtain ⟨t', ht', hfunctions'⟩ : ∃ t', (usedContext.lower [] outerRows).1 = .ok t' ∧
      functions t'.walk = [["__t_2"], ["__t_3"]] := ⟨_, rfl, by decide⟩
  obtain ⟨inner, hlower, hrow⟩ : ∃ inner, ((Context.new .standard).lower [] innerRows).1 =
      .ok inner ∧ functions inner.walk = [["__t_0"]] := ⟨_, rfl, by decide⟩
  have hthunks := hnested rfl t ht
  obtain ⟨thunk, _, hthunk, hrest, hsingle⟩ := List.forall₂_cons_left_iff.mp hthunks
  obtain rfl := List.forall₂_nil_left_iff.mp hrest
  obtain ⟨ρ', -, hinner'⟩ := hthunk (Context.new .standard) [] hinner rfl
  rw [ht, ht'] at hrename
  rw [hlower] at hinner'
  exact ⟨h, h', hinner, t, t', inner, ht, ht', hlower, hfunctions, hfunctions', hrow,
    ⟨ρ, Except.ok.inj hrename⟩, thunk, hsingle, ρ', Except.ok.inj hinner'⟩

end Comprehension
