import Comprehension.Lower
import Comprehension.Proofs.Parts

/-!
Two ways to read a group. An expression on a group is rewritten name by name, under the names that its
lambdas bind. A nested query is given bindings for the names that it reads from outside. In an
expression without nested queries and aggregates both ways come to one: what is rewritten is the
expression with the bindings put in place.
-/

namespace Comprehension

/-! ## Bindings for names -/

/-- Names bound to what is found for them, those apart for which nothing is found. -/
theorem valueOf?_filterMap (find : String → Option Expr) (n : String) (ns : List String) :
    valueOf? n (ns.filterMap fun m => (find m).map (⟨m, ·⟩)) = if n ∈ ns then find n else none := by
  induction ns with
  | nil => rfl
  | cons m ns ih =>
    rw [List.filterMap_cons]
    by_cases hmn : m = n
    · subst hmn
      cases hfind : find m with
      | none => simp [ih, hfind]
      | some e => simp [valueOf?]
    · have hnm : n ≠ m := Ne.symm hmn
      cases hfind : find m with
      | none => simp [ih, hnm]
      | some e => simp [valueOf?, ih, hmn, hnm]

/-- A nested query is given what the group has under the names that it reads from outside. -/
theorem valueOf?_readsOfGroup_eq (c : Config) (place : Place) (param : String)
    (bound free : List String) (n : String) :
    valueOf? n (place.readsOfGroup c param bound free) =
      if n ∈ free ∧ n ∉ bound then place.read? c param n else none := by
  have hfind : place.readsOfGroup c param bound free = (distinct free).filterMap fun m =>
      (if m ∈ bound then none else place.read? c param m).map (⟨m, ·⟩) := by
    rw [Place.readsOfGroup]
    congr 1
    funext m
    split <;> rfl
  rw [hfind, valueOf?_filterMap]
  by_cases hfree : n ∈ free <;> by_cases hbound : n ∈ bound <;> simp [hfree, hbound]

theorem substituteAll_nil {es : List Expr} (h : ∀ e ∈ es, e.substitute [] = e) :
    substituteAll [] es = es := by
  rw [substituteAll_eq_map, List.map_congr_left h, List.map_id']

theorem Expr.substitute_nil {e : Expr} (he : e.isPlain = true) : e.substitute [] = e := by
  induction e using Expr.written_induction with
  | literal | query | var => rfl
  | letIn | record | postIncrement | subquery => simp [isPlain] at he
  | unary p f e ih => rw [substitute, ih he]
  | binary p f l r ihl ihr =>
    rw [isPlain, Bool.and_eq_true] at he
    rw [substitute, ihl he.1, ihr he.2]
  | sequence p f es ih =>
    rw [isPlain, allPlain_iff] at he
    rw [substitute, substituteAll_nil fun e hm => ih e hm (he e hm)]
  | method p r m es ihr ih =>
    rw [isPlain, Bool.and_eq_true, allPlain_iff] at he
    rw [substitute, ihr he.1, substituteAll_nil fun e hm => ih e hm (he.2 e hm)]
  | lambda p ps e ih =>
    rw [substitute]
    exact congrArg (fun body => lambda p ⟨ps, body⟩) (ih he)

/-- Without bindings nothing is put in place. -/
theorem bind_inline {e : Expr} (he : e.isPlain = true) (bs : List (Binding Expr)) :
    bind bs e true = e.substitute bs := by
  cases bs with
  | nil => exact (Expr.substitute_nil he).symm
  | cons b bs => rfl

/-! ## Rewriting by names -/

/-- Nothing in the expression is a call of an aggregate. -/
def Expr.ReducesNothing (e : Expr) : Prop := ∀ part ∈ e.parts, part.aggregateCall? = none

theorem Expr.ReducesNothing.part {e part : Expr} (h : e.ReducesNothing)
    (hpart : part.parts ⊆ e.parts) : part.ReducesNothing :=
  fun f hf => h f (hpart hf)

/-- The call of no aggregate is none at any place. -/
theorem Place.reduction?_eq_none (place : Place) {p : Position} {n : String} {es : List Expr}
    (h : (Expr.sequence p (.call n) es).aggregateCall? = none) : place.reduction? n = none := by
  have hname : Aggregate.ofName? n = none := Option.map_eq_none_iff.mp h
  rw [reduction?]
  split
  · rw [hname]
    rfl
  · rfl

section

variable {s : Naming} {place : Place} {param : String}

/-- The bindings have for each name what the place has under it, but nothing for a bound name. -/
def GivesReads (s : Naming) (place : Place) (param : String) (bound : List String)
    (σ : List (Binding Expr)) (free : List String) : Prop :=
  ∀ n ∈ free, valueOf? n σ = if n ∈ bound then none else place.read? s.config param n

theorem GivesReads.mono {bound free free' : List String} {σ : List (Binding Expr)}
    (h : GivesReads s place param bound σ free) (hfree : free' ⊆ free) :
    GivesReads s place param bound σ free' :=
  fun n hn => h n (hfree hn)

/-- Under a lambda its parameters are bound, and the bindings of them are gone. -/
theorem GivesReads.under {bound free : List String} {σ : List (Binding Expr)} {ps : List String}
    (h : GivesReads s place param bound σ (unbound ps free)) :
    GivesReads s place param (ps ++ bound) (without ps σ) free := by
  intro n hn
  rw [valueOf?_without]
  by_cases hp : n ∈ ps
  · rw [if_pos hp, if_pos (List.mem_append_left _ hp)]
  · rw [if_neg hp, h n (mem_unbound.mpr ⟨hn, hp⟩)]
    simp [hp]

theorem imageAll_eq_substituteAll {bound : List String} {σ : List (Binding Expr)} {es : List Expr}
    (h : ∀ e ∈ es, ∀ path, e.image s place param path bound false = e.substitute σ) (path : Path)
    (step : Nat → Step) (i : Nat) :
    imageAll s place param path bound step i es = substituteAll σ es := by
  induction es generalizing i with
  | nil => rfl
  | cons e es ih =>
    rw [imageAll, substituteAll, h e List.mem_cons_self,
      ih (fun e he => h e (List.mem_cons_of_mem _ he)) (i + 1)]

variable (hcounted : place.numbering ≠ .counted)
  (htable : place.read? s.config param s.config.table = none)

include hcounted htable

/-- A name is rewritten to what the bindings have for it. -/
theorem varImage_eq_substitute {bound : List String} {σ : List (Binding Expr)} {n : String}
    (h : GivesReads s place param bound σ [n]) (p : Position) :
    place.varImage s.config param bound p n = (Expr.var p n).substitute σ := by
  rw [Place.varImage, Expr.substitute, h n List.mem_cons_self]
  have hnumber : ¬(n = s.config.rowNumber ∧ place.numbering = .counted) := fun hn => hcounted hn.2
  by_cases hbound : n ∈ bound
  · simp only [hbound, true_or, if_true]
  · by_cases hn : n = s.config.table
    · -- The name table keeps its name, and the group has nothing under it.
      subst hn
      simp only [or_true, if_true, if_neg hbound, htable]
    · cases place.read? s.config param n <;>
        simp only [hbound, hn, or_self, if_false, if_neg hnumber]

/-- Rewriting under bound names is to put in place what the bindings give. -/
theorem image_eq_substitute {e : Expr} (he : e.isPlain = true) (hcalls : e.ReducesNothing)
    {bound : List String} {σ : List (Binding Expr)}
    (hσ : GivesReads s place param bound σ e.free) (path : Path) (searched : Bool) :
    e.image s place param path bound searched = e.substitute σ := by
  induction e using Expr.written_induction generalizing bound σ path searched with
  | literal => rfl
  | letIn | record | postIncrement | subquery | query => simp [Expr.isPlain] at he
  | var p n => exact varImage_eq_substitute hcounted htable hσ p
  | unary p f e ih =>
    have hbody := ih he (hcalls.part (List.subset_cons_self ..)) hσ (.part 0 :: path) false
    rw [Expr.image, hbody, Expr.substitute]
  | binary p f l r ihl ihr =>
    rw [Expr.isPlain, Bool.and_eq_true] at he
    have hpartl : l.parts ⊆ (Expr.binary p f l r).parts :=
      fun e he => List.mem_cons_of_mem _ (List.mem_append_left _ he)
    have hpartr : r.parts ⊆ (Expr.binary p f l r).parts :=
      fun e he => List.mem_cons_of_mem _ (List.mem_append_right _ he)
    have hl := ihl he.1 (hcalls.part hpartl) (hσ.mono (List.subset_append_left ..)) (.part 0 :: path)
      false
    have hr := ihr he.2 (hcalls.part hpartr) (hσ.mono (List.subset_append_right ..))
      (.part 1 :: path)
    cases f <;> simp only [Expr.image, Expr.substitute, hl, hr]
  | sequence p f es ih =>
    rw [Expr.isPlain, allPlain_iff] at he
    have hall := imageAll_eq_substituteAll (fun e hm path =>
      ih e hm (he e hm)
        (hcalls.part fun f hf => List.mem_cons_of_mem _ (parts_subset_partsAll hm hf))
        (hσ.mono fun n hn => mem_freeAll.mpr ⟨e, hm, hn⟩) path false) path .part 0
    rw [Expr.substitute, ← hall]
    cases f with
    | call n =>
      rw [Expr.image, place.reduction?_eq_none (hcalls _ (Expr.mem_parts _))]
    | list | tuple | construct => simp only [Expr.image]
  | method p r m es ihr ih =>
    rw [Expr.isPlain, Bool.and_eq_true, allPlain_iff] at he
    have hpartr : r.parts ⊆ (Expr.method p r m es).parts :=
      fun e he => List.mem_cons_of_mem _ (List.mem_append_left _ he)
    have hr := ihr he.1 (hcalls.part hpartr) (hσ.mono (List.subset_append_left ..)) (.part 0 :: path)
      false
    have hall := imageAll_eq_substituteAll (fun e hm path =>
      ih e hm (he.2 e hm)
        (hcalls.part fun f hf =>
          List.mem_cons_of_mem _ (List.mem_append_right _ (parts_subset_partsAll hm hf)))
        (hσ.mono fun n hn => List.mem_append_right _ (mem_freeAll.mpr ⟨e, hm, hn⟩)) path false)
      path .part 1
    rw [Expr.image, Expr.substitute, hr, hall]
  | lambda p ps e ih =>
    have hbody := ih he (hcalls.part (List.subset_cons_self ..)) hσ.under (.part 0 :: path) false
    rw [Expr.image, hbody, Expr.substitute]

end

/-- Where row numbers are not counted the names of a group ask nothing of the context. -/
theorem demands_eq_nil {c : Config} {place : Place} (hplace : place.numbering = .plain) {e : Expr}
    (he : e.isPlain = true) (hcalls : e.ReducesNothing) (path : Path) (bound : List String) :
    e.demands c place path bound = [] := by
  induction e using Expr.written_induction generalizing path bound with
  | literal => rfl
  | letIn | record | postIncrement | subquery | query => simp [Expr.isPlain] at he
  | var p n =>
    rw [Expr.demands, Place.varDemands, hplace]
    split
    · rfl
    · split <;> rfl
  | unary p f e ih =>
    exact ih he (hcalls.part (List.subset_cons_self ..)) _ bound
  | binary p f l r ihl ihr =>
    rw [Expr.isPlain, Bool.and_eq_true] at he
    have hl := ihl he.1 (hcalls.part fun e he =>
      List.mem_cons_of_mem _ (List.mem_append_left _ he)) (.part 0 :: path) bound
    have hr := ihr he.2 (hcalls.part fun e he =>
      List.mem_cons_of_mem _ (List.mem_append_right _ he)) (.part 1 :: path) bound
    rw [Expr.demands, hl, hr, List.append_nil]
  | sequence p f es ih =>
    rw [Expr.isPlain, allPlain_iff] at he
    have hall := demandsAll_eq_nil (fun e hm path => ih e hm (he e hm)
      (hcalls.part fun f hf => List.mem_cons_of_mem _ (parts_subset_partsAll hm hf)) path bound)
      path .part 0
    cases f with
    | call n => rw [Expr.demands, place.reduction?_eq_none (hcalls _ (Expr.mem_parts _)), hall]
    | list | tuple | construct => simp only [Expr.demands, hall]
  | method p r m es ihr ih =>
    rw [Expr.isPlain, Bool.and_eq_true, allPlain_iff] at he
    have hr := ihr he.1 (hcalls.part fun e he =>
      List.mem_cons_of_mem _ (List.mem_append_left _ he)) (.part 0 :: path) bound
    have hall := demandsAll_eq_nil (fun e hm path => ih e hm (he.2 e hm)
      (hcalls.part fun f hf =>
        List.mem_cons_of_mem _ (List.mem_append_right _ (parts_subset_partsAll hm hf))) path bound)
      path .part 1
    rw [Expr.demands, hr, hall, List.append_nil]
  | lambda p ps e ih =>
    exact ih he (hcalls.part (List.subset_cons_self ..)) _ (ps ++ bound)

/-! ## Expressions on a group -/

/-- While the open query is not selecting, an expression on a group is rewritten to itself with the
bindings in place that a nested query with its free names would be given, positions included. The
context stays as it is. The group must have nothing under the name of the name table. -/
theorem imageUnder_eq_bind {ctx : Context} {f : Frame} {fs : List Frame}
    (hframe : ctx.frames = f :: fs) (hselecting : f.selecting = false) {row : Row} {g : GroupView}
    (hgroup : row.group? = some g) (htable : ctx.config.table ≠ ctx.config.group)
    (hfield : g.hasField ctx.config.table = false) (hkey : g.namesKey ctx.config.table = false)
    {e : Expr} (he : e.isPlain = true) (hcalls : e.ReducesNothing) (param : String) (node : Path) :
    ctx.imageUnder row param [] node e =
      (.ok (bind ((Place.mk (some row) .plain).readsOfGroup ctx.config param [] e.free) e true),
        ctx) := by
  have hnumbering : ctx.numbering = .plain := by
    rw [Context.numbering, hframe]
    exact if_neg (by simp [hselecting])
  let place : Place := ⟨some row, .plain⟩
  have hread : place.read? ctx.naming.config param ctx.naming.config.table = none := by
    have hview : place.group? = some (row, g) := by simp [place, Place.group?, hgroup]
    rw [Place.read?, hview]
    simp [GroupView.read?, Context.naming, htable, hfield, hkey]
  have hgives : GivesReads ctx.naming place param []
      (place.readsOfGroup ctx.config param [] e.free) e.free := by
    intro n hn
    rw [valueOf?_readsOfGroup_eq]
    simp [hn, Context.naming]
  have hplain : place.numbering ≠ .counted := by simp [place]
  have himage : e.image ctx.naming place param node [] false = e.substitute
      (place.readsOfGroup ctx.config param [] e.free) :=
    image_eq_substitute hplain hread he hcalls hgives node false
  have hdemands : e.demands ctx.config place node [] = [] :=
    demands_eq_nil rfl he hcalls node []
  rw [Context.imageUnder, hnumbering, hdemands, bind_inline he, ← himage]
  rfl

/-- `Math.max(g.k, ys.map(x -> x.v + k), x.k)` on a group of `x` by `k` into `g`. -/
def groupedMaximum : Expr :=
  (Expr.name "Math").send "max"
    [(Expr.var ⟨1, 9⟩ "g").field "k",
      (Expr.name "ys").send "map"
        [.lambda .nowhere ⟨["x"], .binary .nowhere (.operator .add) ((Expr.name "x").field "v")
          (.var ⟨1, 31⟩ "k")⟩],
      (Expr.var ⟨1, 35⟩ "x").field "k"]

/-- The parameter of the lambda is not touched, and no type name is. -/
theorem imageUnder_eq_bind_maximum :
    let ctx := (Context.new .standard).openFrame
    let row := (Row.table "x").grouped ["k"] (some "g")
    let key (p : Position) := (GroupView.key "t").withPos p
    ctx.imageUnder row "t" [] [] groupedMaximum =
      (.ok ((Expr.name "Math").send "max"
        [(key ⟨1, 9⟩).field "k",
          (Expr.name "ys").send "map"
            [.lambda .nowhere ⟨["x"], .binary .nowhere (.operator .add) ((Expr.name "x").field "v")
              (((GroupView.key "t").field "k").withPos ⟨1, 31⟩)⟩],
          (key ⟨1, 35⟩).field "k"]), ctx) := by
  intro ctx row key
  have hcalls : groupedMaximum.ReducesNothing := by
    unfold Expr.ReducesNothing
    decide
  have hframe : ctx.frames = [Frame.new] := rfl
  have hgroup : row.group? = some ⟨.table "x", ["k"], some "g"⟩ := rfl
  exact imageUnder_eq_bind hframe rfl hgroup (by decide) (by decide) (by decide) rfl hcalls "t" []

end Comprehension
