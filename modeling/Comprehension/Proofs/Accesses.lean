import Comprehension.Proofs.NameTables

/-!
Uses of what a thunk declares. Records look their names up in the name table, and a post-increment
counts in the counter. Both are variables that the thunk declares before its chain runs, so that a
use reaches what is declared only where no parameter and no local between them has the same name.
-/

namespace Comprehension

/-! ## Uses of declared names -/

inductive Target where
  /-- Where a record finds a list of names. -/
  | lookup (list : Expr)
  | counter (name : String)

/-- A use, with the names that parameters and locals bind around it. -/
structure Access where
  under : List String
  target : Target

namespace Access

def beneath (names : List String) (a : Access) : Access := ⟨names ++ a.under, a.target⟩

/-- The use is one of the name table or of the counter. -/
def Addresses (c : Config) (a : Access) : Prop :=
  match a.target with
  | .lookup e => ∃ l : NameList, e = l.access c.table
  | .counter n => n = c.counter

/-- The name that the use has to find. -/
def sought (c : Config) (a : Access) : String :=
  match a.target with
  | .lookup _ => c.table
  | .counter _ => c.counter

/-- The use reaches the declarations of the thunk. -/
def Reaches (c : Config) (a : Access) : Prop := a.Addresses c ∧ a.sought c ∉ a.under

def substitute (σ : List (Binding Expr)) : Access → Access
  | ⟨under, .lookup e⟩ => ⟨under, .lookup (e.substitute (without under σ))⟩
  | ⟨under, .counter n⟩ => ⟨under, .counter n⟩

end Access

mutual
/-- The uses in an expression of what is declared around it. What stands in its thunks uses their
declarations. -/
def Expr.accesses : Expr → List Access
  | .literal _ _ | .var _ _ | .query _ _ | .subquery _ _ => []
  | .unary _ _ e => e.accesses
  | .binary _ _ l r => l.accesses ++ r.accesses
  | .sequence _ _ es => accessesAll es
  | .method _ r _ es => r.accesses ++ accessesAll es
  | .lambda _ ⟨ps, e⟩ => e.accesses.map (.beneath ps)
  | .letIn _ bs e => accessesLocals bs ++ e.accesses.map (.beneath (bs.map (·.name)))
  | .record _ vs ns as row =>
    ⟨[], .lookup ns⟩ :: ⟨[], .lookup as⟩ :: (accessesAll vs ++ ns.accesses ++ as.accesses ++
      (match row with
        | some r => r.accesses
        | none => []))
  | .postIncrement _ n => [⟨[], .counter n⟩]
termination_by structural x => x

def accessesAll : List Expr → List Access
  | [] => []
  | e :: es => e.accesses ++ accessesAll es
termination_by structural x => x

def accessesLocals : List (Binding Expr) → List Access
  | [] => []
  | ⟨n, e⟩ :: bs => e.accesses ++ (accessesLocals bs).map (.beneath [n])
termination_by structural x => x
end

def Argument.accesses : Argument → List Access
  | value e => e.accesses
  | lambda f => f.body.accesses.map (.beneath f.params)

/-- What the thunk declares has names of its own, and each use reaches it. -/
structure Thunk.Clear (c : Config) (t : Thunk) : Prop where
  declared : (t.declarations.map Declaration.name).Nodup
  reached : ∀ a ∈ t.pipeline.arguments, ∀ x ∈ a.accesses, x.Reaches c

theorem accessesAll_eq_flatMap (es : List Expr) : accessesAll es = es.flatMap Expr.accesses := by
  induction es with
  | nil => rfl
  | cons e es ih => rw [accessesAll, ih, List.flatMap_cons]

namespace Access

theorem beneath_beneath (names names' : List String) (a : Access) :
    (a.beneath names').beneath names = a.beneath (names ++ names') := by
  simp [beneath]

theorem map_beneath_beneath (names names' : List String) (as : List Access) :
    (as.map (beneath names')).map (beneath names) = as.map (beneath (names ++ names')) := by
  rw [List.map_map]
  exact List.map_congr_left fun a _ => beneath_beneath names names' a

theorem reaches_beneath {c : Config} {names : List String} {a : Access} :
    (a.beneath names).Reaches c ↔ a.Reaches c ∧ a.sought c ∉ names := by
  have haddresses : (a.beneath names).Addresses c ↔ a.Addresses c := Iff.rfl
  have hsought : (a.beneath names).sought c = a.sought c := rfl
  rw [Reaches, Reaches, haddresses, hsought, beneath, List.mem_append, not_or]
  tauto

end Access

/-! ## Substitution -/

theorem Expr.accesses_withPos (p : Position) (e : Expr) : (e.withPos p).accesses = e.accesses := by
  cases e with
  | record q vs ns as row => cases row <;> rfl
  | _ => rfl

theorem accesses_of_isPath {e : Expr} (h : e.isPath = true) : e.accesses = [] := by
  induction e using Expr.written_induction with
  | var p n => rfl
  | unary p f e ih =>
    cases f with
    | field n => exact ih h
    | _ => cases h
  | _ => cases h

/-- The values of the bindings use nothing that is declared. -/
def Inert (σ : List (Binding Expr)) : Prop := ∀ b ∈ σ, b.value.accesses = []

theorem Inert.without {σ : List (Binding Expr)} (h : Inert σ) (names : List String) :
    Inert (without names σ) :=
  fun b hb => h b (mem_of_mem_without hb)

theorem without_append (ns ns' : List String) (σ : List (Binding Expr)) :
    without (ns ++ ns') σ = without ns' (without ns σ) := by
  simp [without, List.filter_filter, Bool.and_comm]

theorem Access.substitute_beneath (names : List String) (σ : List (Binding Expr)) (a : Access) :
    (a.beneath names).substitute σ = (a.substitute (without names σ)).beneath names := by
  obtain ⟨under, target⟩ := a
  cases target with
  | lookup e => simp only [substitute, beneath, without_append]
  | counter n => rfl

theorem map_substitute_beneath (names : List String) (σ : List (Binding Expr)) (as : List Access) :
    (as.map (.beneath names)).map (Access.substitute σ) =
      (as.map (Access.substitute (without names σ))).map (.beneath names) := by
  rw [List.map_map, List.map_map]
  exact List.map_congr_left fun a _ => a.substitute_beneath names σ

theorem Access.substitute_lookup (σ : List (Binding Expr)) (e : Expr) :
    substitute σ ⟨[], .lookup e⟩ = ⟨[], .lookup (e.substitute σ)⟩ := by
  simp [substitute, without]

theorem names_substituteLocals (σ bs : List (Binding Expr)) :
    (substituteLocals σ bs).map (·.name) = bs.map (·.name) := by
  induction bs generalizing σ with
  | nil => rfl
  | cons b bs ih => exact congrArg (List.cons b.name) (ih _)

mutual
theorem accesses_substitute {σ : List (Binding Expr)} (hσ : Inert σ) :
    (e : Expr) → (e.substitute σ).accesses = e.accesses.map (Access.substitute σ)
  | .literal _ _ => rfl
  | .var p n => by
    rw [Expr.substitute]
    cases hn : valueOf? n σ with
    | none => rfl
    | some v => exact (Expr.accesses_withPos p v).trans (hσ _ (mem_of_valueOf? hn))
  | .unary _ _ e => accesses_substitute hσ e
  | .binary _ _ l r => by
    rw [Expr.substitute, Expr.accesses, Expr.accesses, accesses_substitute hσ l,
      accesses_substitute hσ r, List.map_append]
  | .sequence _ _ es => accessesAll_substitute hσ es
  | .method _ r _ es => by
    rw [Expr.substitute, Expr.accesses, Expr.accesses, accesses_substitute hσ r,
      accessesAll_substitute hσ es, List.map_append]
  | .lambda _ ⟨ps, e⟩ => by
    rw [Expr.substitute, Expr.accesses, Expr.accesses, accesses_substitute (hσ.without ps) e,
      map_substitute_beneath]
  | .query _ _ => rfl
  | .letIn _ bs e => by
    rw [Expr.substitute, Expr.accesses, Expr.accesses, accessesLocals_substitute hσ bs,
      accesses_substitute (hσ.without _) e, names_substituteLocals, List.map_append,
      map_substitute_beneath]
  | .record _ vs ns as none => by
    rw [Expr.substitute, Expr.accesses, Expr.accesses, accessesAll_substitute hσ vs,
      accesses_substitute hσ ns, accesses_substitute hσ as]
    simp only [List.map_cons, List.map_append, List.map_nil, Access.substitute_lookup]
  | .record _ vs ns as (some r) => by
    rw [Expr.substitute, Expr.accesses, Expr.accesses, accessesAll_substitute hσ vs,
      accesses_substitute hσ ns, accesses_substitute hσ as]
    simp only [accesses_substitute hσ r, List.map_cons, List.map_append, Access.substitute_lookup]
  | .postIncrement _ _ => rfl
  | .subquery _ _ => rfl
termination_by structural x => x

theorem accessesAll_substitute {σ : List (Binding Expr)} (hσ : Inert σ) :
    (es : List Expr) → accessesAll (substituteAll σ es) = (accessesAll es).map (Access.substitute σ)
  | [] => rfl
  | e :: es => by
    rw [substituteAll, accessesAll, accessesAll, accesses_substitute hσ e,
      accessesAll_substitute hσ es, List.map_append]
termination_by structural x => x

theorem accessesLocals_substitute {σ : List (Binding Expr)} (hσ : Inert σ) :
    (bs : List (Binding Expr)) →
      accessesLocals (substituteLocals σ bs) = (accessesLocals bs).map (Access.substitute σ)
  | [] => rfl
  | ⟨n, e⟩ :: bs => by
    rw [substituteLocals, accessesLocals, accessesLocals, accesses_substitute hσ e,
      accessesLocals_substitute (hσ.without [n]) bs, List.map_append, map_substitute_beneath]
termination_by structural x => x
end

theorem Access.substitute_of_addresses {c : Config} {a : Access} (h : a.Addresses c)
    {σ : List (Binding Expr)} (hσ : c.table ∉ σ.map (·.name)) : a.substitute σ = a := by
  obtain ⟨under, target⟩ := a
  cases target with
  | lookup e =>
    obtain ⟨l, rfl⟩ : ∃ l : NameList, e = l.access c.table := h
    have hwithout : c.table ∉ (without under σ).map (·.name) :=
      fun hmem => hσ (List.map_subset _ (fun _ hb => mem_of_mem_without hb) hmem)
    have haccess : (l.access c.table).substitute (without under σ) = l.access c.table :=
      congrArg (Expr.binary .nowhere .index · (Expr.string l.key)) (substitute_name hwithout)
    exact congrArg (fun e => Access.mk under (.lookup e)) haccess
  | counter n => rfl

theorem map_substitute_of_addresses {c : Config} {as : List Access} (h : ∀ a ∈ as, a.Addresses c)
    {σ : List (Binding Expr)} (hσ : c.table ∉ σ.map (·.name)) :
    as.map (Access.substitute σ) = as :=
  (List.map_congr_left fun a ha => Access.substitute_of_addresses (h a ha) hσ).trans (List.map_id as)

theorem Inert.accessesLocals {σ : List (Binding Expr)} (h : Inert σ) :
    Comprehension.accessesLocals σ = [] := by
  induction σ with
  | nil => rfl
  | cons b σ ih =>
    obtain ⟨hb, hσ⟩ := List.forall_mem_cons.mp h
    rw [Comprehension.accessesLocals, hb, ih hσ]
    rfl

/-- Locals stand around the uses where paths are not put in their place. -/
theorem accesses_bind {σ : List (Binding Expr)} (hσ : Inert σ) {e : Expr} {inline : Bool}
    (h : inline = true → e.accesses.map (Access.substitute σ) = e.accesses) :
    (bind σ e inline).accesses =
      e.accesses.map (.beneath (if inline then [] else σ.map (·.name))) := by
  have hnone : e.accesses.map (.beneath []) = e.accesses := List.map_id _
  rw [bind]
  split
  · rename_i hempty
    rw [List.isEmpty_iff.mp hempty, List.map_nil, ite_self, hnone]
  · cases inline with
    | true =>
      rw [if_pos rfl, if_pos rfl, accesses_substitute hσ, h rfl, hnone]
    | false =>
      rw [if_neg Bool.false_ne_true, if_neg Bool.false_ne_true, Expr.accesses, hσ.accessesLocals,
        List.nil_append]

theorem accesses_attach {c : Config} {place : Place} {param : String} {bound free : List String}
    {e : Expr} (h : e.accesses = []) : (place.attach c param bound free e).accesses = [] := by
  have hvalues (keep : Binding Expr → Bool) :
      Inert ((place.readsOfGroup c param bound free).filter keep) := by
    intro b hb
    rcases Place.read?_cases (Place.read?_of_mem (List.mem_filter.mp hb).1) with
      ⟨-, heq⟩ | ⟨-, heq | heq⟩ <;> rw [heq] <;> rfl
  have hnone {e : Expr} (h : e.accesses = []) {σ : List (Binding Expr)} (hσ : Inert σ)
      (inline : Bool) : (bind σ e inline).accesses = [] := by
    rw [accesses_bind hσ fun _ => by rw [h, List.map_nil], h, List.map_nil]
  exact hnone (hnone h (hvalues _) _) (hvalues _) _

theorem accesses_renamed (e : Expr) : e.renamed.accesses = e.accesses := by
  cases e with
  | unary p f e => cases f <;> rfl
  | _ => rfl

theorem accesses_recordOf (table : String) (l : NameList) (values : List Expr)
    (row : Option String) :
    (recordOf table l values (row.map Expr.name)).accesses =
      ⟨[], .lookup (l.access table)⟩ :: ⟨[], .lookup (NameList.aliases.access table)⟩ ::
        values.flatMap Expr.accesses := by
  have hvalues : accessesAll (values.map Expr.renamed) = values.flatMap Expr.accesses := by
    rw [accessesAll_eq_flatMap, List.flatMap_map]
    exact List.flatMap_congr fun e _ => accesses_renamed e
  have haccess (l : NameList) : (l.access table).accesses = [] := rfl
  cases row <;> simp [recordOf, Expr.name, Expr.accesses, hvalues, haccess]

end Comprehension
