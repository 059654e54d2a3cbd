import Comprehension.Proofs.Readings

/-!
Readings of what is lowered. A variable that a walk finds is read from outside if no binder around
it binds it, and strays if some function around it, running on a chain that has the variable for an
alias, leaves it free. A variable that is replaced from outside does not stray. Each binder and each
way to bring bindings changes the readings in one way.
-/

namespace Comprehension

/-! ## Scopes -/

namespace Binder

def names : Binder → List String
  | lambda _ ps => ps
  | bound n | declared n => [n]

/-- The names that substitution does not reach below the binder. -/
def hidden : Binder → List String
  | lambda _ ps => ps
  | bound n => [n]
  | declared _ => []

def chain : Binder → List String
  | lambda chain _ => chain
  | _ => []

theorem names_of_hidden {b : Binder} {n : String} (h : n ∈ b.hidden) : n ∈ b.names := by
  cases b with
  | declared m => cases h
  | _ => exact h

theorem valueOf?_pass (b : Binder) (n : String) (σ : List (Binding Expr)) :
    valueOf? n (b.pass σ) = if n ∈ b.hidden then none else valueOf? n σ := by
  cases b with
  | lambda chain ps => exact valueOf?_without n ps σ
  | bound m => exact valueOf?_without n [m] σ
  | declared m => exact (if_neg List.not_mem_nil).symm

end Binder

namespace Scope

def Binds (sc : Scope) (n : String) : Prop := ∃ b ∈ sc, n ∈ b.names

def Hides (sc : Scope) (n : String) : Prop := ∃ b ∈ sc, n ∈ b.hidden

/-- Some function of the scope is free in an alias of its chain. -/
def Dangles (n : String) : Scope → Prop
  | [] => False
  | b :: sc => (n ∈ b.chain ∧ n ∉ b.names ∧ ¬Binds sc n) ∨ Dangles n sc

@[simp] theorem not_binds_nil (n : String) : ¬Binds [] n := by
  simp [Binds]

@[simp] theorem binds_cons {b : Binder} {sc : Scope} {n : String} :
    Binds (b :: sc) n ↔ n ∈ b.names ∨ Binds sc n := by
  simp [Binds]

@[simp] theorem not_hides_nil (n : String) : ¬Hides [] n := by
  simp [Hides]

@[simp] theorem hides_cons {b : Binder} {sc : Scope} {n : String} :
    Hides (b :: sc) n ↔ n ∈ b.hidden ∨ Hides sc n := by
  simp [Hides]

theorem Hides.binds {sc : Scope} {n : String} (h : Hides sc n) : Binds sc n := by
  obtain ⟨b, hb, hn⟩ := h
  exact ⟨b, hb, Binder.names_of_hidden hn⟩

/-- Substitution reaches the variables that no binder hides. -/
theorem valueOf?_pass_eq_none (n : String) (sc : Scope) (σ : List (Binding Expr)) :
    valueOf? n (sc.pass σ) = none ↔ Hides sc n ∨ valueOf? n σ = none := by
  induction sc generalizing σ with
  | nil =>
    have hpass : Scope.pass [] σ = σ := rfl
    simp [hpass]
  | cons b sc ih =>
    have hpass : Scope.pass (b :: sc) σ = Scope.pass sc (b.pass σ) := rfl
    rw [hpass, ih, b.valueOf?_pass, hides_cons]
    by_cases hn : n ∈ b.hidden <;> simp [hn]

/-- The reading is made at a place with the scope. -/
def Shows (masked : List String) (sc : Scope) : Reading → Prop
  | .outer n => ¬Binds sc n
  | .stray n => Dangles n sc ∧ (n ∈ masked → Hides sc n)

theorem shows_cons_outer {masked : List String} {b : Binder} {sc : Scope} {n : String} :
    Shows masked (b :: sc) (.outer n) ↔ Shows masked sc (.outer n) ∧ n ∉ b.names := by
  rw [Shows, Shows, binds_cons, not_or, and_comm]

theorem shows_cons_stray {masked : List String} {b : Binder} {sc : Scope} {n : String} :
    Shows masked (b :: sc) (.stray n) ↔
      Shows (unbound b.hidden masked) sc (.stray n) ∨
        n ∈ b.chain ∧ n ∉ b.names ∧ n ∉ masked ∧ Shows masked sc (.outer n) := by
  simp only [Shows, Dangles, hides_cons, mem_unbound]
  constructor
  · rintro ⟨⟨hchain, hnames, hbinds⟩ | hdangles, hmasked⟩
    · refine Or.inr ⟨hchain, hnames, fun hn => ?_, hbinds⟩
      rcases hmasked hn with hb | hsc
      · exact hnames (Binder.names_of_hidden hb)
      · exact hbinds hsc.binds
    · exact Or.inl ⟨hdangles, fun hn => (hmasked hn.1).resolve_left hn.2⟩
  · rintro (⟨hdangles, hmasked⟩ | ⟨hchain, hnames, hn, hbinds⟩)
    · refine ⟨Or.inr hdangles, fun hn => ?_⟩
      by_cases hb : n ∈ b.hidden
      · exact Or.inl hb
      · exact Or.inr (hmasked ⟨hn, hb⟩)
    · exact ⟨Or.inl ⟨hchain, hnames, hbinds⟩, fun hmem => absurd hmem hn⟩

end Scope

/-! ## Readings of findings -/

/-- The reading is made among the findings, where names are replaced from outside. -/
def Shows (masked : List String) (fs : List Finding) (r : Reading) : Prop :=
  ∃ sc, (sc, .read r.name) ∈ fs ∧ Scope.Shows masked sc r

section

variable {masked : List String} {fs gs body : List Finding} {r : Reading} {n : String}

@[simp] theorem not_shows_nil : ¬Shows masked [] r := by
  simp [Shows]

@[simp] theorem shows_append : Shows masked (fs ++ gs) r ↔ Shows masked fs r ∨ Shows masked gs r := by
  simp only [Shows, List.mem_append, or_and_right, exists_or]

theorem shows_flatMap {α : Type} {as : List α} {g : α → List Finding} :
    Shows masked (as.flatMap g) r ↔ ∃ a ∈ as, Shows masked (g a) r := by
  induction as with
  | nil => simp
  | cons a as ih => simp [ih]

theorem shows_reads_outer {ns : List String} : Shows masked (reads ns) (.outer n) ↔ n ∈ ns := by
  simp only [Shows, reads, List.mem_map]
  constructor
  · rintro ⟨sc, ⟨m, hm, heq⟩, -⟩
    cases heq
    exact hm
  · intro hn
    exact ⟨[], ⟨n, hn, rfl⟩, Scope.not_binds_nil n⟩

theorem not_shows_reads_stray {ns : List String} : ¬Shows masked (reads ns) (.stray n) := by
  simp [Shows, reads, Scope.Shows, Scope.Dangles]

theorem shows_item {sc : Scope} {item : Item} (h : ∀ n, item ≠ .read n) :
    Shows masked ((sc, item) :: fs) r ↔ Shows masked fs r := by
  have hne : Item.read r.name ≠ item := fun heq => h _ heq.symm
  simp [Shows, hne]

theorem shows_under_outer {b : Binder} :
    Shows masked (under b fs) (.outer n) ↔ Shows masked fs (.outer n) ∧ n ∉ b.names := by
  simp only [Shows, under, List.mem_map]
  constructor
  · rintro ⟨sc, ⟨⟨sc', item⟩, hf, heq⟩, hshows⟩
    cases heq
    obtain ⟨hshows, hn⟩ := Scope.shows_cons_outer.mp hshows
    exact ⟨⟨sc', hf, hshows⟩, hn⟩
  · rintro ⟨⟨sc, hf, hshows⟩, hn⟩
    exact ⟨b :: sc, ⟨_, hf, rfl⟩, Scope.shows_cons_outer.mpr ⟨hshows, hn⟩⟩

theorem shows_under_stray {b : Binder} :
    Shows masked (under b fs) (.stray n) ↔
      Shows (unbound b.hidden masked) fs (.stray n) ∨
        n ∈ b.chain ∧ n ∉ b.names ∧ n ∉ masked ∧ Shows masked fs (.outer n) := by
  simp only [Shows, under, List.mem_map]
  constructor
  · rintro ⟨sc, ⟨⟨sc', item⟩, hf, heq⟩, hshows⟩
    cases heq
    rcases Scope.shows_cons_stray.mp hshows with hshows | ⟨hchain, hnames, hn, hshows⟩
    · exact Or.inl ⟨sc', hf, hshows⟩
    · exact Or.inr ⟨hchain, hnames, hn, sc', hf, hshows⟩
  · rintro (⟨sc, hf, hshows⟩ | ⟨hchain, hnames, hn, sc, hf, hshows⟩)
    · exact ⟨b :: sc, ⟨_, hf, rfl⟩, Scope.shows_cons_stray.mpr (Or.inl hshows)⟩
    · exact ⟨b :: sc, ⟨_, hf, rfl⟩,
        Scope.shows_cons_stray.mpr (Or.inr ⟨hchain, hnames, hn, hshows⟩)⟩

theorem shows_congr {masked' : List String} (h : n ∈ masked ↔ n ∈ masked') :
    Shows masked fs (.stray n) ↔ Shows masked' fs (.stray n) := by
  simp only [Shows, Scope.Shows, h]

theorem shows_walkFunction {chain ps : List String} :
    Shows masked (walkFunction chain ps body) r ↔ Shows masked (under (.lambda chain ps) body) r :=
  shows_item fun _ => Item.noConfusion

/-! ### Bindings -/

/-- The values read names, and the name is none of them. -/
def Silent (n : String) (bs : List (Binding Expr)) : Prop :=
  ∀ b ∈ bs, ∃ ns, b.value.walk = reads ns ∧ n ∉ ns

theorem Silent.filter {bs : List (Binding Expr)} (h : Silent n bs) (p : Binding Expr → Bool) :
    Silent n (bs.filter p) :=
  fun b hb => h b (List.mem_filter.mp hb).1

theorem Silent.readsOnly {bs : List (Binding Expr)} (h : Silent n bs) : ReadsOnly bs := by
  intro b hb
  obtain ⟨ns, hns, -⟩ := h b hb
  exact ⟨ns, hns⟩

theorem shows_walkLocals_outer {bs : List (Binding Expr)} (hbs : Silent n bs) :
    Shows masked (walkLocals body bs) (.outer n) ↔
      Shows masked body (.outer n) ∧ n ∉ bs.map (·.name) := by
  induction bs with
  | nil => simp [walkLocals]
  | cons b bs ih =>
    obtain ⟨ns, hns, hn⟩ := hbs b List.mem_cons_self
    have ih := ih fun b hb => hbs b (List.mem_cons_of_mem _ hb)
    rw [walkLocals, shows_append, hns, shows_reads_outer, shows_under_outer, ih, and_assoc]
    simp only [hn, false_or, Binder.names, List.map_cons, List.mem_cons, List.not_mem_nil, or_false,
      not_or]
    exact and_congr_right fun _ => and_comm

theorem shows_walkLocals_stray {bs : List (Binding Expr)} (hbs : ReadsOnly bs) :
    Shows masked (walkLocals body bs) (.stray n) ↔
      Shows (unbound (bs.map (·.name)) masked) body (.stray n) := by
  induction bs generalizing masked with
  | nil => exact shows_congr (by simp)
  | cons b bs ih =>
    obtain ⟨ns, hns⟩ := hbs b List.mem_cons_self
    have hrest : ReadsOnly bs := fun b hb => hbs b (List.mem_cons_of_mem _ hb)
    have hmask : n ∈ unbound (bs.map (·.name)) (unbound [b.name] masked) ↔
        n ∈ unbound ((b :: bs).map (·.name)) masked := by
      simp [and_assoc]
    rw [walkLocals, shows_append, hns, shows_under_stray, ← shows_congr hmask]
    simp [not_shows_reads_stray, Binder.chain, Binder.hidden, ih hrest]

/-- A variable that the values do not read is left where it is hidden or has no value. -/
theorem read_mem_replace {bs : List (Binding Expr)} (hbs : Silent n bs) {sc : Scope} :
    (sc, .read n) ∈ fs.flatMap (Finding.replace bs) ↔
      (sc, .read n) ∈ fs ∧ (n ∈ bs.map (·.name) → sc.Hides n) := by
  have hkept (sc : Scope) :
      valueOf? n (sc.pass bs) = none ↔ (n ∈ bs.map (·.name) → sc.Hides n) := by
    rw [Scope.valueOf?_pass_eq_none, valueOf?_eq_none]
    exact ⟨fun h hn => h.resolve_right (not_not_intro hn), fun h => Classical.byCases
      (fun hn => Or.inl (h hn)) Or.inr⟩
  rw [List.mem_flatMap]
  constructor
  · rintro ⟨⟨sc', item⟩, hf, hmem⟩
    cases item with
    | read m =>
      cases hv : valueOf? m (sc'.pass bs) with
      | none =>
        simp only [Finding.replace, hv, List.mem_singleton] at hmem
        cases hmem
        exact ⟨hf, (hkept sc).mp hv⟩
      | some e =>
        obtain ⟨ns, hns, hn⟩ := hbs _ (mem_of_mem_pass (mem_of_valueOf? hv))
        have hns : e.walk = reads ns := hns
        simp only [Finding.replace, hv, hns, reads, List.map_map, List.mem_map] at hmem
        obtain ⟨k, hk, heq⟩ := hmem
        cases heq
        exact absurd hk hn
    | function ps => cases List.mem_singleton.mp hmem
    | table names => cases List.mem_singleton.mp hmem
  · rintro ⟨hf, hhides⟩
    refine ⟨_, hf, ?_⟩
    simp only [Finding.replace, (hkept sc).mpr hhides, List.mem_singleton]

theorem shows_replace_outer {bs : List (Binding Expr)} (hbs : Silent n bs) :
    Shows masked (fs.flatMap (Finding.replace bs)) (.outer n) ↔
      Shows masked fs (.outer n) ∧ n ∉ bs.map (·.name) := by
  constructor
  · rintro ⟨sc, hmem, hbinds⟩
    obtain ⟨hf, hhides⟩ := (read_mem_replace hbs).mp hmem
    exact ⟨⟨sc, hf, hbinds⟩, fun hn => hbinds (hhides hn).binds⟩
  · rintro ⟨⟨sc, hf, hbinds⟩, hn⟩
    exact ⟨sc, (read_mem_replace hbs).mpr ⟨hf, fun hmem => absurd hmem hn⟩, hbinds⟩

theorem shows_replace_stray {bs : List (Binding Expr)} (hbs : Silent n bs) :
    Shows masked (fs.flatMap (Finding.replace bs)) (.stray n) ↔
      Shows (masked ++ bs.map (·.name)) fs (.stray n) := by
  constructor
  · rintro ⟨sc, hmem, hdangles, hmasked⟩
    obtain ⟨hf, hhides⟩ := (read_mem_replace hbs).mp hmem
    exact ⟨sc, hf, hdangles, fun hn => (List.mem_append.mp hn).elim hmasked hhides⟩
  · rintro ⟨sc, hf, hdangles, hmasked⟩
    refine ⟨sc, (read_mem_replace hbs).mpr ⟨hf, fun hn => ?_⟩, hdangles, fun hn => ?_⟩
    · exact hmasked (List.mem_append_right _ hn)
    · exact hmasked (List.mem_append_left _ hn)

/-- Bindings that do not read the name bind their own names. -/
theorem shows_walkBound_outer {bs : List (Binding Expr)} (hbs : Silent n bs) (inline : Bool) :
    Shows masked (walkBound inline bs body) (.outer n) ↔
      Shows masked body (.outer n) ∧ n ∉ bs.map (·.name) := by
  cases inline with
  | true => exact shows_replace_outer hbs
  | false => exact shows_walkLocals_outer hbs

/-- Put in place, they keep their names from straying; as locals, they hide them. -/
theorem shows_walkBound_stray {bs : List (Binding Expr)} (hbs : Silent n bs) (inline : Bool) :
    Shows masked (walkBound inline bs body) (.stray n) ↔
      Shows (if inline then masked ++ bs.map (·.name) else unbound (bs.map (·.name)) masked) body
        (.stray n) := by
  cases inline with
  | true => exact shows_replace_stray hbs
  | false => exact shows_walkLocals_stray hbs.readsOnly

/-! ### Declarations -/

theorem shows_walkDeclarations_outer (ds : List Declaration) :
    Shows masked (walkDeclarations body ds) (.outer n) ↔
      Shows masked body (.outer n) ∧ n ∉ ds.map Declaration.name := by
  induction ds with
  | nil => simp [walkDeclarations]
  | cons d ds ih =>
    have hunder : Shows masked (walkDeclarations body (d :: ds)) (.outer n) ↔
        Shows masked (under (.declared d.name) (walkDeclarations body ds)) (.outer n) := by
      cases d with
      | table m names => exact shows_item fun _ => Item.noConfusion
      | counter m => exact Iff.rfl
    rw [hunder, shows_under_outer, ih, and_assoc]
    simp only [Binder.names, List.map_cons, List.mem_cons, List.not_mem_nil, or_false,
      not_or]
    exact and_congr_right fun _ => and_comm

theorem shows_walkDeclarations_stray (ds : List Declaration) :
    Shows masked (walkDeclarations body ds) (.stray n) ↔ Shows masked body (.stray n) := by
  induction ds with
  | nil => rfl
  | cons d ds ih =>
    have hunder : Shows masked (walkDeclarations body (d :: ds)) (.stray n) ↔
        Shows masked (under (.declared d.name) (walkDeclarations body ds)) (.stray n) := by
      cases d with
      | table m names => exact shows_item fun _ => Item.noConfusion
      | counter m => exact Iff.rfl
    have hmask : n ∈ unbound (Binder.declared d.name).hidden masked ↔ n ∈ masked := by
      simp [Binder.hidden]
    rw [hunder, shows_under_stray, shows_congr hmask, ih]
    simp [Binder.chain]

end

end Comprehension
