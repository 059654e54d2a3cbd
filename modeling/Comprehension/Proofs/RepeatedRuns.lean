import Comprehension.Proofs.ContextIndependence
import Comprehension.Proofs.Runs

/-!
Lowering a query twice. A node keeps the name that it was given, whatever else the context is asked
for, and a lowered query depends on nothing but the configuration and the names of the nodes that
asked. So the second run gives what the first one gave, down to the names.
-/

namespace Comprehension

/-! ## Operations -/

/-- What a context may be asked for between two queries. -/
inductive Operation where
  | lower (node : Path) (q : Query Expr)
  | reserve (names : List String)
  | fresh
  | nameOf (node : Path)

/-- The context that the operation leaves. -/
def Operation.after (ctx : Context) : Operation → Context
  | lower node q => (Run.lower node q ctx).2
  | reserve names => ctx.reserve names
  | fresh => ctx.fresh.2
  | nameOf node => (ctx.nameOf node).2

namespace Context

/-- No operation opens a frame that stays open, changes the configuration or takes a name away. -/
structure LeadsTo (ctx ctx' : Context) : Prop where
  frames : ctx'.frames = ctx.frames
  config : ctx'.config = ctx.config
  names : ∀ node n, ctx.names.assigned? node = some n → ctx'.names.assigned? node = some n

namespace LeadsTo

variable {ctx ctx' ctx'' : Context}

theorem refl (ctx : Context) : ctx.LeadsTo ctx := ⟨rfl, rfl, fun _ _ h => h⟩

theorem trans (h : ctx.LeadsTo ctx') (h' : ctx'.LeadsTo ctx'') : ctx.LeadsTo ctx'' :=
  ⟨h'.frames.trans h.frames, h'.config.trans h.config,
    fun node n hn => h'.names node n (h.names node n hn)⟩

theorem reserve (ctx : Context) (names : List String) : ctx.LeadsTo (ctx.reserve names) :=
  ⟨rfl, rfl, fun _ _ h => h⟩

theorem perform (ctx : Context) {ds : List Demand} (h : .countRow ∉ ds) :
    ctx.LeadsTo (ctx.perform ds).2 :=
  ⟨ctx.perform_frames h, ctx.perform_config ds, fun _ _ hn => perform_keeps hn ds⟩

theorem lower (ctx : Context) (node : Path) (q : Query Expr) :
    ctx.LeadsTo (ctx.lower node q).2 := by
  have hinside (ctx : Context) : ctx.LeadsTo (ctx.lowerInside node q).2 :=
    perform ctx (by simp [Demand.outlivesQuery])
  unfold Context.lower
  split
  · exact ((reserve ctx _).trans (reserve _ q.identifiers)).trans (hinside _)
  · exact hinside ctx

theorem after (ctx : Context) (op : Operation) : ctx.LeadsTo (op.after ctx) := by
  cases op with
  | lower node q =>
    rw [Operation.after, Run.lower_eq]
    exact lower ctx node q
  | reserve names => exact reserve ctx names
  | fresh => exact ⟨rfl, rfl, fun _ _ h => h⟩
  | nameOf node => exact ⟨rfl, rfl, fun _ _ h => NameSupply.assigned?_nameOf_of_some h node⟩

theorem afterAll (ctx : Context) (ops : List Operation) :
    ctx.LeadsTo (ops.foldl Operation.after ctx) := by
  induction ops generalizing ctx with
  | nil => exact refl ctx
  | cons op ops ih => exact (after ctx op).trans (ih (op.after ctx))

end LeadsTo
end Context

/-! ## Images under equal names -/

/-- A lowered query depends on the names of the nodes that ask for one, and on no others. -/
theorem queryImage_congr {s s' : Naming} {node : Path} {q : Query Expr}
    (hconfig : s'.config = s.config)
    (hnames : ∀ m, .name m ∈ queryDemands s.config node q → s'.name m = s.name m) :
    queryImage s' node q = queryImage s node q := by
  obtain ⟨c, names⟩ := s
  obtain ⟨c', names'⟩ := s'
  obtain rfl : c' = c := hconfig
  have hρ : Respects id c' := ⟨Function.injective_id, rfl, rfl⟩
  have hcarries : Carries id names names' node node (queryDemands c' node q) :=
    fun rest hrest => hnames (rest ++ node) hrest
  rw [queryImage_rename hρ (q.each_of_forall (renames hρ)) (fun _ _ => rfl) hcarries,
    Thunk.rename_id]

/-! ## The second run -/

/-- The failure that the query asks for, or else its image under the names that the run leaves. -/
theorem Context.lower_result {ctx : Context} (h : ctx.frames = []) (node : Path) (q : Query Expr) :
    (ctx.lower node q).1 = (outcome (lasting ctx.config node q)).1.map
      fun _ => queryImage (ctx.lower node q).2.naming node q := by
  rw [lower_opened h]
  exact congrArg (Except.map _) ((ctx.opened q).perform_outcome _).1

/-- After a run that nothing failed, the nodes that asked for a name have one. -/
theorem Context.lower_assigned {ctx : Context} (h : ctx.frames = []) {node : Path} {q : Query Expr}
    (hok : (outcome (lasting ctx.config node q)).1 = .ok ()) {m : Path}
    (hm : .name m ∈ queryDemands ctx.config node q) :
    ∃ n, (ctx.lower node q).2.names.assigned? m = some n := by
  rw [lower_opened h]
  have hrun : ((ctx.opened q).perform (lasting ctx.config node q)).1 = .ok () :=
    (perform_outcome ..).1.trans hok
  exact (perform_ok hrun).2 m (List.mem_filter.mpr ⟨hm, rfl⟩)

/-- Where no query is open, lowering a query again gives the same result, whatever the context was
asked for in between. -/
theorem lower_repeated {ctx : Context} (h : ctx.frames = []) (node : Path) (q : Query Expr)
    (ops : List Operation) :
    (Run.lower node q (ops.foldl Operation.after (Run.lower node q ctx).2)).1 =
      (Run.lower node q ctx).1 := by
  rw [Run.lower_eq node q ctx, Run.lower_eq]
  refine congrArg (Except.mapError Stop.failure) ?_
  let first := (ctx.lower node q).2
  let later := ops.foldl Operation.after first
  show (later.lower node q).1 = (ctx.lower node q).1
  have hfirst : ctx.LeadsTo first := .lower ctx node q
  have hlater : first.LeadsTo later := .afterAll first ops
  have hlast : first.LeadsTo (later.lower node q).2 := hlater.trans (.lower later node q)
  rw [Context.lower_result ((hfirst.trans hlater).frames.trans h), Context.lower_result h,
    (hfirst.trans hlater).config]
  cases hok : (outcome (lasting ctx.config node q)).1 with
  | error f => rfl
  | ok _ =>
    refine congrArg Except.ok (queryImage_congr hlast.config fun m hm => ?_)
    have hasked : .name m ∈ queryDemands ctx.config node q := hfirst.config ▸ hm
    obtain ⟨n, hn⟩ := Context.lower_assigned h hok hasked
    exact (Lowered.naming_of_assigned (hlast.names m n hn)).trans
      (Lowered.naming_of_assigned hn).symm

/-- In between the query in it is lowered on its own, the name that would come next is reserved, and
names are made up. -/
theorem lower_repeated_outerRows :
    let first := Run.lower [] outerRows (.new .standard)
    let ops : List Operation :=
      [.lower [.part 0] innerRows, .reserve ["__t_3"], .fresh, .nameOf [.slot .predicate]]
    (Context.new .standard).frames = [] ∧
      first.1.toOption.map (functions ·.walk) = some [["__t_0"], ["__t_1"]] ∧
      (ops.foldl Operation.after first.2).names.next = 6 ∧
      (Run.lower [] outerRows (ops.foldl Operation.after first.2)).1 = first.1 := by
  intro first ops
  have hframes : (Context.new .standard).frames = [] := rfl
  refine ⟨hframes, ?_, ?_, lower_repeated hframes [] outerRows ops⟩
  · decide +kernel
  · decide +kernel

end Comprehension
