import Comprehension.Expr.Text
import Comprehension.Identifier

/-!
Formulas: expressions of variables, integers, operators, properties, indexes and calls. A sign and
a number are one literal, or a minus before a literal without a sign; both mean the same. What the
text of a formula is read as can be another thing: a minus that begins a receiver without brackets
is taken with what follows the receiver. Where no receiver is such a literal, the two agree.
-/

namespace Comprehension

/-! ## Signs -/

/-- The operators that stand before their operand. -/
inductive Sign where
  | not
  | negate
  deriving DecidableEq

namespace Sign

def form : Sign → Unary
  | not => .not
  | negate => .negate

def char : Sign → Char
  | not => '!'
  | negate => '-'

end Sign

theorem Operator.strength_lt_sign (op : Operator) : op.strength < Expr.signStrength := by
  cases op <;> decide

namespace Expr

/-! ## Formulas -/

inductive IsFormula : Expr → Prop where
  | var (p : Position) {n : String} (hn : Identifier.isIdentifier n = true) : IsFormula (.var p n)
  | int (p : Position) (i : Int) : IsFormula (.literal p (.int i))
  | sign (p : Position) (s : Sign) {e : Expr} (he : IsFormula e) : IsFormula (.unary p s.form e)
  | operator (p : Position) (op : Operator) {l r : Expr} (hl : IsFormula l) (hr : IsFormula r) :
    IsFormula (.binary p (.operator op) l r)
  | field (p : Position) {n : String} (hn : Identifier.isIdentifier n = true) {e : Expr}
    (he : IsFormula e) : IsFormula (.unary p (.field n) e)
  | index (p : Position) {e i : Expr} (he : IsFormula e) (hi : IsFormula i) :
    IsFormula (.binary p .index e i)
  | call (p : Position) {n : String} (hn : Identifier.isIdentifier n = true) {args : List Expr}
    (hargs : ∀ a ∈ args, IsFormula a) : IsFormula (.sequence p (.call n) args)
  | method (p : Position) {n : String} (hn : Identifier.isIdentifier n = true) {e : Expr}
    (he : IsFormula e) {args : List Expr} (hargs : ∀ a ∈ args, IsFormula a) :
    IsFormula (.method p e n args)

/-- The operand of a minus. -/
def negated? : Expr → Option Expr
  | unary _ .negate e => some e
  | _ => none

/-! ## Meaning -/

def minus (e : Expr) : Expr := unary .nowhere .negate e

/-- A negative number is a minus before the number without it. -/
def ofInt : Int → Expr
  | .ofNat n => int n
  | .negSucc n => minus (int (n + 1))

mutual
/-- The expression without its positions, where no literal has a sign. -/
def meant : Expr → Expr
  | .literal _ (.int i) => ofInt i
  | .unary _ f e => .unary .nowhere f e.meant
  | .binary _ f l r => .binary .nowhere f l.meant r.meant
  | .sequence _ f es => .sequence .nowhere f (meantAll es)
  | .method _ r n es => .method .nowhere r.meant n (meantAll es)
  | e => e.withPos .nowhere
termination_by structural x => x

def meantAll : List Expr → List Expr
  | [] => []
  | e :: es => e.meant :: meantAll es
termination_by structural x => x
end

/-! ## Reading -/

/-- A node on a receiver: with brackets around the receiver it is made there, without them beneath
the minus that the receiver begins with. -/
def onReceiver (brackets : Bool) (f : Expr → Expr) (e : Expr) : Expr :=
  match if brackets then none else e.negated? with
  | some e => minus (f e)
  | none => f e

/-- The receiver stands in brackets before what is asked of it. -/
def isLoose (e : Expr) : Bool := e.strength < atomStrength

mutual
/-- What the text of the expression is read as. -/
def asRead : Expr → Expr
  | .literal _ (.int i) => ofInt i
  | .unary _ (.field n) e => onReceiver e.isLoose (.unary .nowhere (.field n)) e.asRead
  | .unary _ f e => .unary .nowhere f e.asRead
  | .binary _ .index e i => onReceiver e.isLoose (.binary .nowhere .index · i.asRead) e.asRead
  | .binary _ f l r => .binary .nowhere f l.asRead r.asRead
  | .sequence _ f es => .sequence .nowhere f (asReadAll es)
  | .method _ r n es => onReceiver r.isLoose (.method .nowhere · n (asReadAll es)) r.asRead
  | e => e.withPos .nowhere
termination_by structural x => x

def asReadAll : List Expr → List Expr
  | [] => []
  | e :: es => e.asRead :: asReadAll es
termination_by structural x => x
end

mutual
/-- No receiver is a literal with a sign. -/
def signsApart : Expr → Bool
  | .unary _ (.field _) e => !e.isSigned && e.signsApart
  | .unary _ _ e => e.signsApart
  | .binary _ .index e i => !e.isSigned && e.signsApart && i.signsApart
  | .binary _ _ l r => l.signsApart && r.signsApart
  | .sequence _ _ es => allSignsApart es
  | .method _ r _ es => !r.isSigned && r.signsApart && allSignsApart es
  | _ => true
termination_by structural x => x

def allSignsApart : List Expr → Bool
  | [] => true
  | e :: es => e.signsApart && allSignsApart es
termination_by structural x => x
end

@[simp] theorem meant_sign (p : Position) (s : Sign) (e : Expr) :
    (unary p s.form e).meant = unary .nowhere s.form e.meant := by
  cases s <;> rfl

@[simp] theorem asRead_sign (p : Position) (s : Sign) (e : Expr) :
    (unary p s.form e).asRead = unary .nowhere s.form e.asRead := by
  cases s <;> rfl

@[simp] theorem signsApart_sign (p : Position) (s : Sign) (e : Expr) :
    (unary p s.form e).signsApart = e.signsApart := by
  cases s <;> rfl

@[simp] theorem strength_sign (p : Position) (s : Sign) (e : Expr) :
    (unary p s.form e).strength = signStrength := by
  cases s <;> rfl

@[simp] theorem isSigned_sign (p : Position) (s : Sign) (e : Expr) :
    (unary p s.form e).isSigned = false := by
  cases s <;> rfl

/-! ## Where reading finds the meaning -/

namespace IsFormula

variable {e : Expr}

theorem negated?_asRead_of_isSigned (he : e.IsFormula) (h : e.isSigned = true) :
    e.asRead.negated? ≠ none := by
  cases he with
  | int p i =>
    cases i with
    | ofNat n => simp [isSigned, Literal.isSigned] at h; omega
    | negSucc n => simp [asRead, ofInt, minus, negated?]
  | sign => simp at h
  | _ => cases h

theorem isSigned_of_isLoose (h : e.isLoose = true) : e.isSigned = false := by
  cases e <;> first | rfl | cases h

theorem negated?_meant (he : e.IsFormula) (hloose : e.isLoose = false)
    (hsigned : e.isSigned = false) : e.meant.negated? = none := by
  cases he with
  | int p i =>
    cases i with
    | ofNat n => rfl
    | negSucc n => simp [isSigned, Literal.isSigned] at hsigned
  | sign p s => simp [isLoose, signStrength, atomStrength] at hloose
  | _ => rfl

/-- A receiver is read as it is meant, and the node on it is made there, just if no sign begins it.
-/
theorem onReceiver_eq_iff (he : e.IsFormula) (ih : e.asRead = e.meant ↔ e.signsApart = true)
    (f g : Expr → Expr) (R : Prop) (hinj : ∀ x y, f x = g y ↔ x = y ∧ R)
    (hg : ∀ x, (g x).negated? = none) :
    onReceiver e.isLoose f e.asRead = g e.meant ↔
      (e.isSigned = false ∧ e.signsApart = true) ∧ R := by
  cases hloose : e.isLoose with
  | true => simp [onReceiver, hinj, ih, isSigned_of_isLoose hloose]
  | false =>
    cases hread : e.asRead.negated? with
    | none =>
      have hsigned : e.isSigned = false := by
        cases hsigned : e.isSigned with
        | false => rfl
        | true => exact absurd hread (he.negated?_asRead_of_isSigned hsigned)
      simp [onReceiver, hread, hinj, ih, hsigned]
    | some x =>
      have hne : minus (f x) ≠ g e.meant := fun h => by
        have := hg e.meant
        rw [← h] at this
        cases this
      have hsigns : ¬ (e.isSigned = false ∧ e.signsApart = true) := fun ⟨hsigned, happart⟩ => by
        rw [ih.mpr happart, he.negated?_meant hloose hsigned] at hread
        cases hread
      simp only [onReceiver, hread, Bool.false_eq_true, if_false]
      exact ⟨fun h => absurd h hne, fun h => absurd h.1 hsigns⟩

theorem asReadAll_eq_iff {es : List Expr}
    (ih : ∀ e ∈ es, (e.asRead = e.meant ↔ e.signsApart = true)) :
    asReadAll es = meantAll es ↔ allSignsApart es = true := by
  induction es with
  | nil => simp [asReadAll, meantAll, allSignsApart]
  | cons e es ihes =>
    rw [List.forall_mem_cons] at ih
    rw [asReadAll, meantAll, allSignsApart, List.cons.injEq, ih.1, ihes ih.2, Bool.and_eq_true]

/-- A formula is read as it is meant just if no receiver is a literal with a sign. -/
theorem asRead_eq_meant_iff (he : e.IsFormula) : e.asRead = e.meant ↔ e.signsApart = true := by
  induction he with
  | var => simp [asRead, meant, signsApart]
  | int => simp [asRead, meant, signsApart]
  | sign p s he ih => simpa using ih
  | operator p op hl hr ihl ihr => simp [asRead, meant, signsApart, ihl, ihr]
  | @field p n hn e he ih =>
    have h := he.onReceiver_eq_iff ih (.unary .nowhere (.field n)) (.unary .nowhere (.field n)) True
      (fun _ _ => by simp) fun _ => rfl
    simpa [asRead, meant, signsApart] using h
  | @index p e i he hi ihe ihi =>
    have h := he.onReceiver_eq_iff ihe (.binary .nowhere .index · i.asRead)
      (.binary .nowhere .index · i.meant) (i.asRead = i.meant) (fun _ _ => by simp) fun _ => rfl
    simpa [asRead, meant, signsApart, ihi] using h
  | call p hn hargs ih =>
    have h := asReadAll_eq_iff ih
    simpa [asRead, meant, signsApart] using h
  | @method p n hn e he args hargs ihe ihargs =>
    have h := he.onReceiver_eq_iff ihe (.method .nowhere · n (asReadAll args))
      (.method .nowhere · n (meantAll args)) (asReadAll args = meantAll args)
      (fun _ _ => by simp) fun _ => rfl
    simpa [asRead, meant, signsApart, asReadAll_eq_iff ihargs] using h

end IsFormula

/-! ## Texts -/

/-- The text of an expression before what is asked of it. -/
def receiverText (e : Expr) : String := bracketed e.isLoose e.text

theorem text_sign (p : Position) (s : Sign) (e : Expr) : (unary p s.form e).text =
    String.singleton s.char ++ bracketed e.looseUnderSign e.text := by
  cases s <;> rfl

theorem text_operator (p : Position) (op : Operator) (l r : Expr) :
    (binary p (.operator op) l r).text =
      bracketed (l.strength < op.strength) l.text ++ " " ++ op.symbol ++ " " ++
        bracketed (r.strength ≤ op.strength) r.text := rfl

theorem text_field (p : Position) (n : String) (e : Expr) :
    (unary p (.field n) e).text = e.receiverText ++ "." ++ n := rfl

theorem text_index (p : Position) (e i : Expr) :
    (binary p .index e i).text = e.receiverText ++ "[" ++ i.text ++ "]" := rfl

theorem text_call (p : Position) (n : String) (args : List Expr) :
    (sequence p (.call n) args).text = n ++ "(" ++ commas (textAll args) ++ ")" := rfl

theorem text_method (p : Position) (e : Expr) (n : String) (args : List Expr) :
    (method p e n args).text = e.receiverText ++ "." ++ n ++ "(" ++ commas (textAll args) ++ ")" :=
  rfl

theorem textAll_eq_map (es : List Expr) : textAll es = es.map text := by
  induction es with
  | nil => rfl
  | cons e es ih => exact congrArg (e.text :: ·) ih

namespace IsFormula

variable {e : Expr}

theorem strength_meant (he : e.IsFormula) :
    e.meant.strength = if e.isSigned then signStrength else e.strength := by
  cases he with
  | int p i =>
    cases i with
    | ofNat n =>
      have hn : ¬ (n : Int) < 0 := by omega
      simp [meant, ofInt, Expr.int, strength, isSigned, Literal.isSigned, hn]
    | negSucc n => simp [meant, ofInt, minus, strength, isSigned, Literal.isSigned]
  | sign p s => simp
  | _ => rfl

theorem isSigned_meant (he : e.IsFormula) : e.meant.isSigned = false := by
  cases he with
  | int p i => cases i <;> simp [meant, ofInt, Expr.int, minus, isSigned, Literal.isSigned]
  | sign p s => simp
  | _ => rfl

theorem strength_of_isSigned (h : e.isSigned = true) : e.strength = atomStrength := by
  cases e <;> first | rfl | cases h

/-- A minus of its own binds its number as tightly as any operator can see. -/
theorem min_strength_meant (he : e.IsFormula) :
    min e.meant.strength signStrength = min e.strength signStrength := by
  rw [he.strength_meant]
  split
  · rename_i h
    rw [strength_of_isSigned h]
    rfl
  · rfl

theorem looseUnderSign_meant (he : e.IsFormula) : e.meant.looseUnderSign = e.looseUnderSign := by
  rw [looseUnderSign, looseUnderSign, he.isSigned_meant, he.strength_meant]
  cases e.isSigned <;> simp

theorem receiverText_meant (he : e.IsFormula) (hsigned : e.isSigned = false)
    (htext : e.meant.text = e.text) : e.meant.receiverText = e.receiverText := by
  simp [receiverText, isLoose, he.strength_meant, hsigned, htext]

theorem text_meantAll {es : List Expr}
    (ih : ∀ e ∈ es, e.signsApart = true → e.meant.text = e.text) (h : allSignsApart es = true) :
    textAll (meantAll es) = textAll es := by
  induction es with
  | nil => rfl
  | cons e es ihes =>
    rw [List.forall_mem_cons] at ih
    obtain ⟨he, hes⟩ : e.signsApart = true ∧ allSignsApart es = true := by
      simpa [allSignsApart] using h
    simp only [textAll_eq_map] at ihes ⊢
    rw [meantAll, List.map_cons, List.map_cons, ih.1 he, ihes ih.2 hes]

/-- The meaning is written like the formula. -/
theorem text_meant (he : e.IsFormula) (h : e.signsApart = true) : e.meant.text = e.text := by
  induction he with
  | var => rfl
  | int p i =>
    cases i with
    | ofNat n => rfl
    | negSucc n => rfl
  | sign p s he ih =>
    rw [signsApart_sign] at h
    rw [meant_sign, text_sign, text_sign, he.looseUnderSign_meant, ih h]
  | @operator p op l r hl hr ihl ihr =>
    obtain ⟨hapartl, hapartr⟩ : l.signsApart = true ∧ r.signsApart = true := by
      simpa [signsApart] using h
    have hl' := hl.min_strength_meant
    have hr' := hr.min_strength_meant
    have hop := op.strength_lt_sign
    have hleft : l.meant.strength < op.strength ↔ l.strength < op.strength := by omega
    have hright : r.meant.strength ≤ op.strength ↔ r.strength ≤ op.strength := by omega
    rw [meant, text_operator, text_operator, ihl hapartl, ihr hapartr]
    simp only [hleft, hright]
  | @field p n hn e he ih =>
    obtain ⟨hsigned, hapart⟩ : e.isSigned = false ∧ e.signsApart = true := by
      simpa [signsApart] using h
    rw [meant, text_field, text_field, he.receiverText_meant hsigned (ih hapart)]
  | @index p e i he hi ihe ihi =>
    obtain ⟨⟨hsigned, hapart⟩, hi'⟩ :
        (e.isSigned = false ∧ e.signsApart = true) ∧ i.signsApart = true := by
      simpa [signsApart] using h
    rw [meant, text_index, text_index, he.receiverText_meant hsigned (ihe hapart), ihi hi']
  | @call p n hn args hargs ih =>
    rw [meant, text_call, text_call, text_meantAll ih (by simpa [signsApart] using h)]
  | @method p n hn e he args hargs ihe ihargs =>
    obtain ⟨⟨hsigned, hapart⟩, hargs'⟩ :
        (e.isSigned = false ∧ e.signsApart = true) ∧ allSignsApart args = true := by
      simpa [signsApart] using h
    rw [meant, text_method, text_method, he.receiverText_meant hsigned (ihe hapart),
      text_meantAll ihargs hargs']

end IsFormula

end Expr
end Comprehension
