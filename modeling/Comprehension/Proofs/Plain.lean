import Comprehension.Expr.Binding
import Comprehension.Image
import Comprehension.Proofs.Induction

/-!
Plain expressions: those of the front end without a nested query. The names that they read are spelled
in them, and lowering outside of groups leaves them as they are.
-/

namespace Comprehension

mutual
def Expr.isPlain : Expr → Bool
  | .literal _ _ | .var _ _ => true
  | .unary _ _ e => e.isPlain
  | .binary _ _ l r => l.isPlain && r.isPlain
  | .sequence _ _ es => allPlain es
  | .method _ r _ es => r.isPlain && allPlain es
  | .lambda _ ⟨_, body⟩ => body.isPlain
  | .query _ _ | .letIn _ _ _ | .record _ _ _ _ _ | .postIncrement _ _ | .subquery _ _ => false

def allPlain : List Expr → Bool
  | [] => true
  | e :: es => e.isPlain && allPlain es
end

/-! ## Paths -/

namespace PairPath

theorem read_isPlain (path : PairPath) {e : Expr} (he : e.isPlain = true) :
    (path.read e).isPlain = true := by
  induction path generalizing e with
  | nil => exact he
  | cons h path ih => exact ih he

theorem read_free (path : PairPath) (e : Expr) : (path.read e).free = e.free := by
  induction path generalizing e with
  | nil => rfl
  | cons h path ih => exact ih (e.field h.name)

end PairPath

/-! ## Lists of expressions -/

theorem mem_freeAll {n : String} {es : List Expr} : n ∈ freeAll es ↔ ∃ e ∈ es, n ∈ e.free := by
  induction es with
  | nil => simp [freeAll]
  | cons e es ih => simp [freeAll, ih]

theorem mem_spelledAll {n : String} {es : List Expr} :
    n ∈ spelledAll es ↔ ∃ e ∈ es, n ∈ e.spelled := by
  induction es with
  | nil => simp [spelledAll]
  | cons e es ih => simp [spelledAll, ih]

theorem allPlain_iff {es : List Expr} : allPlain es = true ↔ ∀ e ∈ es, e.isPlain = true := by
  induction es with
  | nil => simp [allPlain]
  | cons e es ih => simp [allPlain, ih]

theorem substituteAll_eq_map (σ : List (Binding Expr)) (es : List Expr) :
    substituteAll σ es = es.map (Expr.substitute σ) := by
  induction es with
  | nil => rfl
  | cons e es ih => rw [substituteAll, ih, List.map_cons]

theorem demandsAll_eq_nil {c : Config} {place : Place} {bound : List String} {es : List Expr}
    (h : ∀ e ∈ es, ∀ path, e.demands c place path bound = []) (path : Path) (step : Nat → Step)
    (i : Nat) :
    demandsAll c place path bound step i es = [] := by
  induction es generalizing i with
  | nil => rfl
  | cons e es ih =>
    rw [demandsAll, h e List.mem_cons_self,
      ih (fun e hm => h e (List.mem_cons_of_mem _ hm)) (i + 1), List.append_nil]

theorem imageAll_eq_self {s : Naming} {place : Place} {param : String} {bound : List String}
    {es : List Expr} (h : ∀ e ∈ es, ∀ path, e.image s place param path bound false = e)
    (path : Path) (step : Nat → Step) (i : Nat) :
    imageAll s place param path bound step i es = es := by
  induction es generalizing i with
  | nil => rfl
  | cons e es ih =>
    rw [imageAll, h e List.mem_cons_self, ih (fun e hm => h e (List.mem_cons_of_mem _ hm)) (i + 1)]

namespace Expr

/-- Names that are written in an expression contain those that it reads from outside. -/
theorem mem_spelled_of_mem_free {e : Expr} (he : e.isPlain = true) {n : String}
    (h : n ∈ e.free) : n ∈ e.spelled := by
  induction e using Expr.written_induction with
  | literal | letIn | record | postIncrement | subquery => simp_all [isPlain, free]
  | var p m => simpa [free, spelled] using h
  | unary p f e ih =>
    rw [isPlain] at he
    rw [free] at h
    exact ih he h
  | binary p f l r ihl ihr =>
    rw [isPlain, Bool.and_eq_true] at he
    rw [free, List.mem_append] at h
    rw [spelled, List.mem_append]
    exact h.imp (ihl he.1) (ihr he.2)
  | sequence p f es ih =>
    rw [isPlain, allPlain_iff] at he
    rw [free, mem_freeAll] at h
    obtain ⟨e, hm, h⟩ := h
    rw [spelled, mem_spelledAll]
    exact ⟨e, hm, ih e hm (he e hm) h⟩
  | method p r m es ihr ih =>
    rw [isPlain, Bool.and_eq_true, allPlain_iff] at he
    rw [free, List.mem_append, mem_freeAll] at h
    rw [spelled, List.mem_append, mem_spelledAll]
    refine h.imp (ihr he.1) ?_
    rintro ⟨e, hm, h⟩
    exact ⟨e, hm, ih e hm (he.2 e hm) h⟩
  | lambda p ps e ih =>
    rw [isPlain] at he
    rw [free, mem_unbound] at h
    rw [spelled, List.mem_append]
    exact Or.inr (ih he h.1)
  | query p q => simp [isPlain] at he

end Expr

/-! ## Substitution -/

theorem valueOf?_without (n : String) (ps : List String) (σ : List (Binding Expr)) :
    valueOf? n (without ps σ) = if n ∈ ps then none else valueOf? n σ := by
  induction σ with
  | nil => simp [without, valueOf?]
  | cons b σ ih =>
    rw [without] at ih ⊢
    by_cases hb : b.name ∈ ps
    · have hn : n ∉ ps → b.name ≠ n := fun h e => h (e ▸ hb)
      rw [List.filter_cons_of_neg (by simpa using hb), ih]
      split
      · rfl
      · rename_i h
        rw [valueOf?, if_neg (hn h)]
    · rw [List.filter_cons_of_pos (by simpa using hb), valueOf?, valueOf?, ih]
      by_cases hbn : b.name = n
      · subst hbn
        rw [if_pos rfl, if_neg hb, if_pos rfl]
      · rw [if_neg hbn, if_neg hbn]

theorem mem_of_valueOf? {n : String} {e : Expr} {σ : List (Binding Expr)}
    (h : valueOf? n σ = some e) : ⟨n, e⟩ ∈ σ := by
  induction σ with
  | nil => simp [valueOf?] at h
  | cons b σ ih =>
    rw [valueOf?] at h
    split at h
    · rename_i hb
      cases h
      subst hb
      exact List.mem_cons_self
    · exact List.mem_cons_of_mem _ (ih h)

theorem valueOf?_eq_none {n : String} {bs : List (Binding Expr)} :
    valueOf? n bs = none ↔ n ∉ bs.map (·.name) := by
  induction bs with
  | nil => simp [valueOf?]
  | cons b bs ih =>
    by_cases hb : b.name = n
    · simp [valueOf?, hb]
    · simp [valueOf?, hb, ih, Ne.symm hb]

theorem mem_of_mem_without {b : Binding Expr} {ps : List String} {σ : List (Binding Expr)}
    (h : b ∈ without ps σ) : b ∈ σ :=
  (List.mem_filter.mp h).1

/-! ## Lowering -/

namespace Expr

variable {c : Config} {place : Place} (hrow : place.group? = none)

include hrow

/-- Outside of groups only the row number asks anything of the context. -/
theorem demands_plain {e : Expr} (he : e.isPlain = true) (path : Path) (bound : List String)
    (hn : c.rowNumber ∈ e.free → c.rowNumber ∈ bound) : e.demands c place path bound = [] := by
  induction e using Expr.written_induction generalizing path bound with
  | literal => rfl
  | letIn | record | postIncrement | subquery | query => simp [isPlain] at he
  | var p n =>
    rw [free, List.mem_singleton] at hn
    rw [demands, Place.varDemands]
    by_cases hb : n ∈ bound ∨ n = c.table
    · rw [if_pos hb]
    · rw [if_neg hb, if_neg]
      rintro rfl
      exact hb (Or.inl (hn rfl))
  | unary p f e ih =>
    rw [isPlain] at he
    exact ih he _ bound (by simpa only [free] using hn)
  | binary p f l r ihl ihr =>
    rw [isPlain, Bool.and_eq_true] at he
    rw [free, List.mem_append] at hn
    rw [demands, ihl he.1 _ bound fun h => hn (Or.inl h), ihr he.2 _ bound fun h => hn (Or.inr h),
      List.append_nil]
  | sequence p f es ih =>
    rw [isPlain, allPlain_iff] at he
    rw [free, mem_freeAll] at hn
    have hall := demandsAll_eq_nil (fun e hm path =>
      ih e hm (he e hm) path bound fun h => hn ⟨e, hm, h⟩) path .part 0
    cases f <;> simpa [demands, Place.reduction?, hrow] using hall
  | method p r m es ihr ih =>
    rw [isPlain, Bool.and_eq_true, allPlain_iff] at he
    rw [free, List.mem_append, mem_freeAll] at hn
    have hall := demandsAll_eq_nil (fun e hm path =>
      ih e hm (he.2 e hm) path bound fun h => hn (Or.inr ⟨e, hm, h⟩)) path .part 1
    rw [demands, ihr he.1 _ bound fun h => hn (Or.inl h), hall, List.append_nil]
  | lambda p ps e ih =>
    rw [isPlain] at he
    rw [demands]
    refine ih he _ _ fun h => ?_
    by_cases hp : c.rowNumber ∈ ps
    · exact List.mem_append_left _ hp
    · exact List.mem_append_right _ (hn (by simp [free, h, hp]))

/-- Where no row number is counted nothing changes. -/
theorem image_plain {s : Naming} (hs : s.config = c) {e : Expr} (he : e.isPlain = true)
    (param : String) (path : Path) (bound : List String) (searched : Bool)
    (hn : c.rowNumber ∈ e.free → c.rowNumber ∈ bound) :
    e.image s place param path bound searched = e := by
  induction e using Expr.written_induction generalizing path bound searched with
  | literal => rfl
  | letIn | record | postIncrement | subquery | query => simp [isPlain] at he
  | var p n =>
    rw [free, List.mem_singleton] at hn
    rw [image, Place.varImage, hs]
    by_cases hb : n ∈ bound ∨ n = c.table
    · rw [if_pos hb]
    · have hcount : ¬(n = c.rowNumber ∧ place.numbering = .counted) := by
        rintro ⟨rfl, -⟩
        exact hb (Or.inl (hn rfl))
      simp only [if_neg hb, if_neg hcount, Place.read?, hrow]
  | unary p f e ih =>
    rw [isPlain] at he
    rw [image, ih he _ bound false (by simpa only [free] using hn)]
  | binary p f l r ihl ihr =>
    rw [isPlain, Bool.and_eq_true] at he
    rw [free, List.mem_append] at hn
    have hl := ihl he.1 (.part 0 :: path) bound false fun h => hn (Or.inl h)
    have hr (searched : Bool) := ihr he.2 (.part 1 :: path) bound searched fun h => hn (Or.inr h)
    cases f <;> simp only [image, hl, hr]
  | sequence p f es ih =>
    rw [isPlain, allPlain_iff] at he
    rw [free, mem_freeAll] at hn
    have hall := imageAll_eq_self (fun e hm path =>
      ih e hm (he e hm) path bound false fun h => hn ⟨e, hm, h⟩) path .part 0
    cases f <;> simp [image, Place.reduction?, hrow, hall]
  | method p r m es ihr ih =>
    rw [isPlain, Bool.and_eq_true, allPlain_iff] at he
    rw [free, List.mem_append, mem_freeAll] at hn
    have hall := imageAll_eq_self (fun e hm path =>
      ih e hm (he.2 e hm) path bound false fun h => hn (Or.inr ⟨e, hm, h⟩)) path .part 1
    rw [image, ihr he.1 _ bound false fun h => hn (Or.inl h), hall]
  | lambda p ps e ih =>
    rw [isPlain] at he
    have hbody := ih he (.part 0 :: path) (ps ++ bound) false fun h => by
      by_cases hp : c.rowNumber ∈ ps
      · exact List.mem_append_left _ hp
      · exact List.mem_append_right _ (hn (by simp [free, h, hp]))
    rw [image, hbody]

end Expr
end Comprehension
