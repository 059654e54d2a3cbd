import Comprehension.Lower
import Comprehension.Proofs.Inlining

/-!
Joined rows. A row after joins is the left-nested pair of the values of its aliases. Reading an
alias by its path gives back its value, so a lowered expression has on the pair the value that the
written one has where each alias is bound to its own value. `joined_lambda_run` says so of the
function of a row and of the predicate of a join, with paths bound or put in place.
-/

namespace Comprehension

variable {V : Type} (I : Interpretation V)

/-! ## Rows as values -/

namespace Row

/-- A base table and the joins after it. -/
def isChain : Row → Bool
  | table _ => true
  | joined prior _ => prior.isChain
  | grouped _ _ _ => false

/-- `(((base, j1), j2), ...)`, with one value for each alias. -/
def value (vals : Env V) : Row → V
  | table a => vals a
  | joined prior a => I.pair (prior.value vals) (vals a)
  | grouped prior _ _ => prior.value vals

theorem group?_eq_none_of_isChain {row : Row} (h : row.isChain = true) : row.group? = none := by
  cases row with
  | table a => rfl
  | joined prior a => rfl
  | grouped prior names into => simp [isChain] at h

end Row

namespace PairPath

/-- The value at the end of a path. -/
def follow (path : PairPath) (v : V) : V := path.foldl (fun v h => I.unary (.field h.name) v) v

theorem follow_append (path path' : PairPath) (v : V) :
    (path ++ path').follow I v = path'.follow I (path.follow I v) :=
  List.foldl_append

theorem eval_read (path : PairPath) (e : Expr) (env : Env V) :
    (path.read e).eval I env = path.follow I (e.eval I env) := by
  induction path generalizing e with
  | nil => rfl
  | cons h path ih => exact ih (e.field h.name)

end PairPath

/-! ## Paths of a chain -/

namespace Row

theorem mem_keys_addPaths {row : Row} (hrow : row.isChain = true) (path : PairPath)
    (ps : List (String × PairPath)) (n : String) :
    n ∈ Assoc.keys (row.addPaths path ps) ↔ n ∈ row.aliases ∨ n ∈ Assoc.keys ps := by
  induction row generalizing path ps with
  | table a => rw [addPaths, Assoc.mem_keys_put, aliases, List.mem_singleton]
  | joined prior a ih =>
    rw [addPaths, Assoc.mem_keys_put, ih hrow, aliases, List.mem_append, List.mem_singleton,
      or_left_comm, or_assoc]
  | grouped prior names into => simp [isChain] at hrow

/-- What is added leads from the value of the chain to the values of its aliases. -/
theorem follow_of_mem_addPaths {row : Row} (hrow : row.isChain = true) (vals : Env V)
    (path : PairPath) (ps : List (String × PairPath)) {p : String × PairPath}
    (h : p ∈ row.addPaths path ps) :
    p ∈ ps ∨ ∃ rest, p.2 = path ++ rest ∧ PairPath.follow I rest (row.value I vals) = vals p.1 := by
  induction row generalizing path ps with
  | table a =>
    rcases Assoc.mem_put h with rfl | h
    · exact Or.inr ⟨[], (List.append_nil _).symm, rfl⟩
    · exact Or.inl h
  | joined prior a ih =>
    rcases Assoc.mem_put h with rfl | h
    · exact Or.inr ⟨[.second], rfl, I.second_pair _ _⟩
    · rcases ih hrow _ _ h with h | ⟨rest, hrest, hval⟩
      · exact Or.inl h
      · refine Or.inr ⟨.first :: rest, by rw [hrest, List.append_assoc]; rfl, ?_⟩
        have hfirst : PairPath.follow I [.first] ((prior.joined a).value I vals) =
            prior.value I vals := I.first_pair _ _
        rw [show Half.first :: rest = [.first] ++ rest from rfl, PairPath.follow_append, hfirst,
          hval]
  | grouped prior names into => simp [isChain] at hrow

/-! ## Bindings of a chain -/

section

variable {prior : Row} (hprior : prior.isChain = true) (a : String)

include hprior

theorem mem_bindings_names (param : String) (es : List Expr) (n : String) :
    n ∈ ((prior.joined a).bindings param es).map (·.name) ↔
      n ∈ (prior.joined a).aliases ∧ n ∈ freeAll es := by
  have hchain : (prior.joined a).isChain = true := hprior
  have hkeys := mem_keys_addPaths hchain [] [] n
  simp only [Assoc.keys, List.map_nil, List.not_mem_nil, or_false] at hkeys
  rw [← hkeys]
  simp only [bindings, paths, List.map_map, List.mem_map, List.mem_filter, decide_eq_true_eq,
    Function.comp]
  constructor
  · rintro ⟨p, ⟨hp, hfree⟩, rfl⟩
    exact ⟨⟨p, hp, rfl⟩, hfree⟩
  · rintro ⟨⟨p, hp, rfl⟩, hfree⟩
    exact ⟨p, ⟨hp, hfree⟩, rfl⟩

/-- A binding reads nothing but the parameter, and has the value of its alias. -/
theorem bindings_spec (param : String) (es : List Expr) {b : Binding Expr}
    (hb : b ∈ (prior.joined a).bindings param es) :
    b.value.isPlain = true ∧ b.value.free = [param] ∧
      ∀ env vals : Env V, env param = (prior.joined a).value I vals →
        b.value.eval I env = vals b.name := by
  simp only [bindings, List.mem_map, List.mem_filter] at hb
  obtain ⟨p, ⟨hp, -⟩, rfl⟩ := hb
  refine ⟨PairPath.read_isPlain p.2 rfl, PairPath.read_free p.2 _, fun env vals henv => ?_⟩
  have hchain : (prior.joined a).isChain = true := hprior
  rcases follow_of_mem_addPaths I hchain vals [] [] hp with h | h
  · exact absurd h List.not_mem_nil
  · obtain ⟨rest, hrest, hval⟩ := h
    rw [List.nil_append] at hrest
    rw [PairPath.eval_read, hrest, Expr.name, Expr.eval, Expr.meaning, henv]
    exact hval

end

end Row

/-! ## Bound and substituted paths -/

/-- Every binding has the given value wherever the parameter has `v`. -/
def BoundTo (bs : List (Binding Expr)) (param : String) (v : V) (vals : Env V) : Prop :=
  ∀ b ∈ bs, b.name ≠ param ∧ ∀ env : Env V, env param = v → b.value.eval I env = vals b.name

theorem meaningLocals_eq_merge {bs : List (Binding Expr)} {param : String} {v : V} {vals : Env V}
    (h : BoundTo I bs param v vals) {env : Env V} (henv : env param = v) :
    meaningLocals I.toMeanings env bs = env.merge (bs.map (·.name)) vals := by
  induction bs generalizing env with
  | nil => funext n; simp [meaningLocals, Env.merge]
  | cons b bs ih =>
    obtain ⟨hne, hval⟩ := h b List.mem_cons_self
    have hb : b.value.meaning I.toMeanings env = vals b.name := hval env henv
    have henv' : (env.set b.name (vals b.name)) param = v := by
      rw [Env.set, if_neg (Ne.symm hne), henv]
    rw [meaningLocals, hb, ih (fun b hb => h b (List.mem_cons_of_mem _ hb)) henv']
    funext n
    by_cases hn : n = b.name
    · simp [Env.merge, Env.set, hn]
    · simp [Env.merge, Env.set, hn]

theorem binding_eq_merge {bs : List (Binding Expr)} {param : String} {v : V} {vals : Env V}
    (h : BoundTo I bs param v vals) {env : Env V} (henv : env param = v) :
    env.binding I.toMeanings bs = env.merge (bs.map (·.name)) vals := by
  induction bs with
  | nil => funext n; simp [Env.binding, valueOf?, Env.merge]
  | cons b bs ih =>
    have hbs := ih fun b hb => h b (List.mem_cons_of_mem _ hb)
    funext n
    have hn := congrFun hbs n
    simp only [Env.binding, Env.merge, valueOf?, List.map_cons, List.mem_cons] at hn ⊢
    by_cases hb : b.name = n
    · subst hb
      rw [if_pos rfl, if_pos (Or.inl rfl)]
      exact (h b List.mem_cons_self).2 env henv
    · rw [if_neg hb, hn]
      simp [Ne.symm hb]

/-- Brought to an expression in either way, the bindings of a chain give each alias its value. -/
theorem eval_bind_bindings {prior : Row} (hprior : prior.isChain = true) (a : String) {e : Expr}
    (he : e.isPlain = true) {param : String} (hfresh : param ∉ e.spelled)
    (halias : param ∉ (prior.joined a).aliases) (inline : Bool) (vals : Env V) {env : Env V}
    (henv : env param = (prior.joined a).value I vals) :
    (bind ((prior.joined a).bindings param [e]) e inline).eval I env =
      e.eval I (env.merge (prior.joined a).aliases vals) := by
  generalize hbs : (prior.joined a).bindings param [e] = bs
  have hnames : ∀ n, n ∈ bs.map (·.name) ↔ n ∈ (prior.joined a).aliases ∧ n ∈ e.free := by
    intro n
    rw [← hbs, Row.mem_bindings_names hprior, mem_freeAll]
    simp
  have hspec := fun b (hb : b ∈ bs) => Row.bindings_spec I hprior a param [e] (hbs ▸ hb)
  have hbound : BoundTo I bs param ((prior.joined a).value I vals) vals := by
    intro b hb
    refine ⟨?_, fun env henv => (hspec b hb).2.2 env vals henv⟩
    rintro rfl
    exact halias ((hnames b.name).mp (List.mem_map_of_mem hb)).1
  have hread : e.eval I (env.merge (bs.map (·.name)) vals) =
      e.eval I (env.merge (prior.joined a).aliases vals) := by
    refine Expr.eval_congr he fun n hn => ?_
    by_cases hm : n ∈ (prior.joined a).aliases
    · rw [Env.merge, if_pos ((hnames n).mpr ⟨hm, hn⟩), Env.merge, if_pos hm]
    · rw [Env.merge, if_neg fun h => hm ((hnames n).mp h).1, Env.merge, if_neg hm]
  rw [← hread, bind]
  split
  · rename_i hempty
    rw [List.isEmpty_iff.mp hempty]
    rfl
  · cases inline with
    | true =>
      have hcapture : ∀ b ∈ bs, b.value.isPlain = true ∧ ∀ n ∈ b.value.free, n ∉ e.spelled := by
        intro b hb
        refine ⟨(hspec b hb).1, fun n hn => ?_⟩
        rw [(hspec b hb).2.1, List.mem_singleton] at hn
        exact hn ▸ hfresh
      rw [if_pos rfl, Expr.eval, Expr.meaning_substitute_of_isPlain he env hcapture,
        binding_eq_merge I hbound henv]
      rfl
    | false =>
      rw [if_neg Bool.false_ne_true, Expr.eval, Expr.meaning, meaningLocals_eq_merge I hbound henv]
      rfl

/-! ## Lowered expressions -/

/-- Lowering a plain expression on a joined row asks for a name and changes nothing. -/
theorem imageOnRow_plain (ctx : Context) (prior : Row) (a : String)
    (node : Path) {e : Expr} (he : e.isPlain = true) (hn : ctx.config.rowNumber ∉ e.free) :
    ∃ r, (ctx.imageOnRow (prior.joined a) [(node, e)]).1 = .ok r ∧
      r.bindings = (prior.joined a).bindings r.param [e] ∧ r.expr = e := by
  have hgroup : (Place.mk (some (prior.joined a)) ctx.numbering).group? = none := rfl
  have hdemands : e.demands ctx.config ⟨some (prior.joined a), ctx.numbering⟩ node [] = [] :=
    Expr.demands_plain hgroup he node [] fun h => absurd h hn
  have hconfig : (ctx.nameOf node).2.config = ctx.config := rfl
  simp only [Context.imageOnRow, Context.answer, List.flatMap_cons, List.flatMap_nil, hdemands,
    Row.nameDemands, List.append_nil, Context.perform, Except.map]
  refine ⟨_, rfl, rfl, ?_⟩
  exact Expr.image_plain hgroup hconfig he _ node [] false fun h => absurd h hn

/-- The values of expressions survive lowering on joined rows: the function of the row applied to
the nested pair, and the predicate of a join applied to the row so far and the joined value. -/
theorem joined_lambda_run {prior : Row} (hprior : prior.isChain = true) (a : String)
    (hdistinct : (prior.joined a).aliases.Nodup) {c : Config} {e : Expr} (he : e.isPlain = true)
    (hn : c.rowNumber ∉ e.free) :
    (∀ (ctx : Context) (node : Path), ctx.config = c →
      ∃ r, (ctx.imageOnRow (prior.joined a) [(node, e)]).1 = .ok r ∧
        (r.param ∉ e.spelled → r.param ∉ (prior.joined a).aliases →
          ∀ (inline : Bool) (vals env : Env V),
            (r.lambda inline).run I env [(prior.joined a).value I vals] =
              e.eval I (env.merge (prior.joined a).aliases vals))) ∧
    (∀ (s : Naming) (path : Path) (i : Nat) (kind : JoinKind), s.config = c →
      kind.takesPredicate = true →
      s.name (.slot (.joinOn i) :: path) ∉ e.spelled →
      s.name (.slot (.joinOn i) :: path) ∉ (prior.joined a).aliases →
      ∃ f, matchImage s path i prior kind a (some e) = some f ∧
        ∀ vals env : Env V, f.run I env [prior.value I vals, vals a] =
          e.eval I (env.merge (prior.joined a).aliases vals)) := by
  constructor
  · intro ctx node hc
    obtain ⟨r, hr, hbindings, hexpr⟩ := imageOnRow_plain ctx prior a node he (hc ▸ hn)
    refine ⟨r, hr, fun hfresh halias inline vals env => ?_⟩
    rw [RowImage.lambda, RowImage.close, hbindings, hexpr, Lambda.run]
    rw [eval_bind_bindings I hprior a he hfresh halias inline vals (by simp [Env.assign, Env.set])]
    refine Expr.eval_congr he fun n hfree => ?_
    have hne : n ≠ r.param := fun h => hfresh (h ▸ Expr.mem_spelled_of_mem_free he hfree)
    simp [Env.merge, Env.assign, Env.set, hne]
  · intro s path i kind hc hkind hfresh halias
    have hplace : (Place.mk (some prior) .plain).group? = none := by
      rw [Place.group?, Option.bind_some, Row.group?_eq_none_of_isChain hprior]
      rfl
    have himage (param : String) :
        e.image s ⟨some prior, .plain⟩ param (.slot (.joinOn i) :: path) [] false = e :=
      Expr.image_plain hplace hc he param _ [] false fun h => absurd h hn
    rw [matchImage, if_pos hkind]
    refine ⟨_, rfl, fun vals env => ?_⟩
    rw [Row.closeOver, Lambda.run, himage]
    cases prior with
    | table b =>
      have hne : b ≠ a := by simpa [Row.aliases] using hdistinct
      change e.eval I _ = _
      congr 1
      funext n
      by_cases ha : n = a <;> by_cases hb : n = b <;>
        simp_all [Env.merge, Env.assign, Env.set, Row.parameter, Row.aliases, Row.value]
    | joined prior b =>
      change (bind ((prior.joined b).bindings (s.name (.slot (.joinOn i) :: path)) [e]) e _).eval I
        (env.assign [s.name (.slot (.joinOn i) :: path), a]
          [(prior.joined b).value I vals, vals a]) = _
      generalize s.name (.slot (.joinOn i) :: path) = p at hfresh halias ⊢
      have hpa : p ≠ a := by
        rintro rfl
        exact halias (by simp [Row.aliases])
      have hpprior : p ∉ (prior.joined b).aliases := by
        intro h
        exact halias (by rw [Row.aliases]; exact List.mem_append_left _ h)
      rw [eval_bind_bindings I (show prior.isChain = true from hprior) b he hfresh hpprior _ vals
        (by simp [Env.assign, Env.set, hpa])]
      refine Expr.eval_congr he fun n hfree => ?_
      have hne : n ≠ p := fun h => hfresh (h ▸ Expr.mem_spelled_of_mem_free he hfree)
      have hmem : n ∈ ((prior.joined b).joined a).aliases ↔
          n ∈ (prior.joined b).aliases ∨ n = a := by
        rw [Row.aliases, List.mem_append, List.mem_singleton]
      by_cases ha : n = a
      · subst ha
        simp [Env.merge, Env.assign, Env.set, hmem]
      · simp [Env.merge, Env.assign, Env.set, hmem, ha, hne]
    | grouped prior names into => simp [Row.isChain] at hprior

/-! ## A small engine -/

/-- Numbers and pairs; all else is nothing. -/
inductive Cell where
  | nothing
  | number (i : Int)
  | pair (first second : Cell)
  deriving DecidableEq

namespace Cell

def half : Unary → Cell → Cell
  | .field "first", pair a _ => a
  | .field "second", pair _ b => b
  | _, _ => nothing

def add : Binary → Cell → Cell → Cell
  | .operator .add, number i, number j => number (i + j)
  | _, _, _ => nothing

def engine : Interpretation Cell where
  literal := fun
    | .int i => number i
    | _ => nothing
  unary := half
  binary := add
  sequence _ _ := nothing
  method _ _ _ := nothing
  lambda _ _ := nothing
  query _ _ := nothing
  record _ _ _ _ := nothing
  increment v := v
  table _ := nothing
  zero := number 0
  source v := v
  join _ v w _ := pair v w
  filter v _ := v
  groupBy v _ _ := v
  orderBy v _ := v
  limit v _ _ := v
  select v _ := v
  pair := pair
  first_pair _ _ := rfl
  second_pair _ _ := rfl

/-- The sum of `a` and `c`. -/
def outerSum : Expr := .binary .nowhere (.operator .add) (Expr.name "a") (Expr.name "c")

end Cell

/-- On `((1, 2), 3)` the sum of the outer two is 4, as a function of the row and as a predicate. -/
theorem joined_lambda_run_sum :
    (∃ r, ((Context.new .standard).imageOnRow (((Row.table "a").joined "b").joined "c")
          [([], Cell.outerSum)]).1 = .ok r ∧
      ∀ inline, (r.lambda inline).run Cell.engine (fun _ => .nothing)
        [.pair (.pair (.number 1) (.number 2)) (.number 3)] = .number 4) ∧
    ∃ f, matchImage ⟨.standard, fun _ => "__t_0"⟩ [] 1 ((Row.table "a").joined "b") .inner "c"
        (some Cell.outerSum) = some f ∧
      f.run Cell.engine (fun _ => .nothing) [.pair (.number 1) (.number 2), .number 3] =
        .number 4 := by
  let vals : Env Cell := fun n => .number (if n = "a" then 1 else if n = "b" then 2 else 3)
  have hchain : ((Row.table "a").joined "b").isChain = true := rfl
  obtain ⟨hrow, hmatch⟩ := joined_lambda_run Cell.engine hchain "c" (by decide) (c := .standard)
    (e := Cell.outerSum) rfl (by decide)
  constructor
  · obtain ⟨r, hr, hrun⟩ := hrow (.new .standard) [] rfl
    have hparam : r.param = "__t_0" := by
      cases hr
      rfl
    have hrun := hrun (by rw [hparam]; decide) (by rw [hparam]; decide)
    exact ⟨r, hr, fun inline => hrun inline vals _⟩
  · obtain ⟨f, hf, hrun⟩ := hmatch ⟨.standard, fun _ => "__t_0"⟩ [] 1 .inner rfl rfl
      (by decide) (by decide)
    exact ⟨f, hf, hrun vals _⟩

end Comprehension
