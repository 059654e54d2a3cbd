import Comprehension.Proofs.GroupFunctions
import Comprehension.Proofs.LambdaParameters

/-!
What becomes of the occurrences of a name in a clause that reads groups. If the group has something
under the name, an occurrence is replaced by what reads it, or bound in a `let` around the nested
query that it stands in. It is left as it stands in the argument of an aggregate that is read for each
row, and in a nested query whose own names keep it from being found. A function of a group reads the
name from outside just if it has an occurrence that is left.
-/

namespace Comprehension

/-- What becomes of an occurrence of a name, or of the occurrences in one part of a clause. -/
inductive Fate where
  /-- What the group has under the name is read. -/
  | fetched (pos : Position)
  | left (pos : Position)
  /-- The name is left in the argument of an aggregate. A chain in the argument starts from the
  variable `root`. -/
  | leftInSelector (pos : Position) (root : Option String)
  | leftInQuery (pos : Position)
  deriving DecidableEq, Repr

def Fate.isLeft : Fate → Bool
  | fetched _ => false
  | left _ | leftInSelector _ _ | leftInQuery _ => true

/-! ## Occurrences in nested queries -/

/-- What binds a name outside of an expression. It stands for a lambda, and no lambda without
parameters binds a name. -/
def outside : Abstraction := ⟨.nowhere, .nowhere, []⟩

/-- The one name that is bound outside. -/
def boundOutside (n m : String) : Option Abstraction := if m = n then some outside else none

def heldOutside (n m : String) : Option Held := if m = n then some ⟨outside, false⟩ else none

/-- The places where a nested query, once it is lowered, has the name from outside. -/
def Query.places (c : Config) (n : String) (q : Query Expr) : List Position :=
  (queryOccurrences c (capture (q.declares c) (heldOutside n)) q).filterMap fun o =>
    if o = ⟨⟨outside, n, o.use.pos⟩, false⟩ then some o.use.pos else none

/-! ## Fates -/

/-- What the argument of an aggregate reads from outside. It is lowered on the row before grouping.
-/
def Row.selectorReadings (c : Config) (prior : Row) (numbering : Numbering) (e : Expr) :
    List Reading :=
  prior.readings [] [] none [e]
    (e.readings c (prior.masks c [] none [e]) ⟨some prior, numbering⟩ [])

mutual
/-- The fates of the occurrences of a name, where nothing binds it and the group has something under
it if it is `known`. -/
def Expr.fates (c : Config) (n : String) (known : Bool) (place : Place) : Expr → List Fate
  | .literal _ _ => []
  | .var p m => if m = n then [if known then .fetched p else .left p] else []
  | .unary _ _ e => e.fates c n known place
  | .binary _ _ l r => l.fates c n known place ++ r.fates c n known place
  | .sequence _ (.call m) es =>
    match place.callCase m es.length with
    | .plain => fatesAll c n known place es
    | .allRows => []
    | .eachRow prior =>
      (es.take 1).flatMap fun e =>
        if .outer n ∈ prior.selectorReadings c place.numbering e then
          [.leftInSelector e.pos e.root?]
        else []
    | .rowsAtOnce => fatesFirst c n known place es
  | .sequence _ _ es => fatesAll c n known place es
  | .method _ r _ es => r.fates c n known place ++ fatesAll c n known place es
  | .lambda _ ⟨ps, e⟩ => if n ∈ ps then [] else e.fates c n known place
  | .query p q =>
    if known ∧ n ∈ queryFree q then (q.places c n).map .fetched
    else if .outer n ∈ queryReadings c [] q then [.leftInQuery p]
    else []
  | .letIn _ _ _ | .record _ _ _ _ _ | .postIncrement _ _ | .subquery _ _ => []

def fatesAll (c : Config) (n : String) (known : Bool) (place : Place) : List Expr → List Fate
  | [] => []
  | e :: es => e.fates c n known place ++ fatesAll c n known place es

def fatesFirst (c : Config) (n : String) (known : Bool) (place : Place) : List Expr → List Fate
  | [] => []
  | e :: _ => e.fates c n known place
end

/-- The fates of a name in a clause that reads groups. -/
def RowFunction.fates (c : Config) (n : String) (known : Bool) (f : RowFunction) : List Fate :=
  f.exprs.flatMap fun p => p.2.fates c n known f.place

/-! ## Names read from outside -/

/-- The function reads the name from outside. -/
def Lambda.Reads (f : Lambda Expr) (n : String) : Prop :=
  n ∉ f.params ∧ ∃ sc, (sc, .read n) ∈ f.body.walk ∧ ¬sc.Binds n

/-- The name is none that lowering makes up or gives a meaning of its own. -/
structure Ordinary (s : Naming) (n : String) : Prop where
  madeUp : ∀ node, s.name node ≠ n
  table : n ≠ s.config.table
  rowNumber : n ≠ s.config.rowNumber

/-- At the place the group has something under the name just if it is known. -/
structure Place.Knows (s : Naming) (n : String) (known : Bool) (place : Place) (param : String) :
    Prop where
  read : (place.read? s.config param n).isSome = known
  secluded : Secluded s.config n place param

/-- Some occurrence of the name is left. -/
def AnyLeft (fs : List Fate) : Prop := ∃ f ∈ fs, f.isLeft = true

@[simp] theorem not_anyLeft_nil : ¬AnyLeft [] := by
  simp [AnyLeft]

@[simp] theorem anyLeft_append {fs fs' : List Fate} :
    AnyLeft (fs ++ fs') ↔ AnyLeft fs ∨ AnyLeft fs' := by
  simp [AnyLeft, or_and_right, exists_or]

theorem anyLeft_flatMap {α : Type} {as : List α} {g : α → List Fate} :
    AnyLeft (as.flatMap g) ↔ ∃ a ∈ as, AnyLeft (g a) := by
  induction as with
  | nil => simp
  | cons a as ih => simp [ih]

section

variable {s : Naming} {n : String} {known : Bool}

variable (s n known) in
/-- Wherever the expression stands on a group, its image reads the name if an occurrence is left. -/
def ReadsIfLeft (e : Expr) : Prop :=
  ∀ (place : Place) param path bound searched, place.Knows s n known param → n ∉ bound →
    (Shows [] (e.image s place param path bound searched).walk (.outer n) ↔
      AnyLeft (e.fates s.config n known place))

theorem readsIfLeft_imageAll {es : List Expr} (h : ∀ e ∈ es, ReadsIfLeft s n known e)
    {place : Place} {param : String} (hplace : place.Knows s n known param) {bound : List String}
    (hbound : n ∉ bound) (path : Path) (step : Nat → Step) (i : Nat) :
    Shows [] (walkAll (imageAll s place param path bound step i es)) (.outer n) ↔
      AnyLeft (fatesAll s.config n known place es) := by
  induction es generalizing i with
  | nil => simp [imageAll, walkAll, fatesAll]
  | cons e es ih =>
    rw [imageAll, walkAll, shows_append, fatesAll, anyLeft_append,
      h e List.mem_cons_self place param _ bound false hplace hbound,
      ih fun e he => h e (List.mem_cons_of_mem _ he)]

/-- What a nested query reads from outside does not depend on what is replaced in it. -/
theorem outer_mem_queryReadings (hn : ∀ node, s.name node ≠ n)
    (htable : ∀ node, s.name node ≠ s.config.table) (q : Query Expr) (path : Path)
    (masked : List String) :
    .outer n ∈ queryReadings s.config masked q ↔
      Shows [] (queryImage s path q).walk (.outer n) := by
  have hagrees := agrees_queryImage hn htable (q.each_of_forall (agreeing hn htable)) path masked
  exact hagrees.outer

variable (hn : Ordinary s n) (htable : ∀ node, s.name node ≠ s.config.table)

include hn htable

theorem outer_mem_selectorReadings (prior : Row) (numbering : Numbering) (e : Expr) (node : Path) :
    .outer n ∈ prior.selectorReadings s.config numbering e ↔
      Shows [] (Expr.lambda e.pos (prior.close s.config (prior.parameter s.name node) [e]
        (e.image s ⟨some prior, numbering⟩ (prior.parameter s.name node) node [] false))).walk
          (.outer n) := by
  have hprior := secluded_parameter hn.madeUp htable prior numbering node
  have hbody := agreeing hn.madeUp htable e _ _ node [] false
    (prior.masks s.config [] none [e]) hprior
  rw [Expr.walk, Row.close, Row.closeOver, walk_bind]
  exact (agrees_close hn.madeUp prior [] none node hbody).outer

/-- A nested query reads the name unless what the group has under it is attached. -/
theorem readsIfLeft_query {place : Place} {param : String} (hplace : place.Knows s n known param)
    {bound : List String} (hbound : n ∉ bound) (path : Path) (searched : Bool) (p : Position)
    (q : Query Expr) :
    Shows [] ((Expr.query p q).image s place param path bound searched).walk (.outer n) ↔
      AnyLeft ((Expr.query p q).fates s.config n known place) := by
  let thunk := Expr.subquery p (queryImage s path q)
  have hlowered : Agrees n (place.masks s.config [] bound (queryFree q))
      (queryReadings s.config (place.masks s.config [] bound (queryFree q)) q)
      (if searched then thunk.send "toList" [] else thunk).walk := by
    have hquery := agrees_queryImage hn.madeUp htable
      (q.each_of_forall (agreeing hn.madeUp htable)) path
      (place.masks s.config [] bound (queryFree q))
    cases searched with
    | false => exact hquery
    | true => simpa [thunk, Expr.send, Expr.walk, walkAll] using hquery
  have hattach := (Agrees.attach hplace.secluded hlowered).outer
  have hnames : n ∈ place.groupNames s.config bound (queryFree q) ↔
      known = true ∧ n ∈ queryFree q := by
    rw [Place.groupNames, List.mem_filter, mem_distinct, ← hplace.read,
      read?_isSome s.config place param ""]
    simp [hbound, and_comm]
  have hfetched : ¬AnyLeft ((q.places s.config n).map Fate.fetched) := by
    rintro ⟨f, hf, hleft⟩
    obtain ⟨p, -, rfl⟩ := List.mem_map.mp hf
    cases hleft
  have htableName : Reading.outer n ∉
      if s.config.group ∈ place.groupNames s.config bound (queryFree q) then
        [Reading.outer s.config.table] else [] := by
    split <;> simp [hn.table]
  rw [Expr.image, ← hattach, Place.readings, List.mem_append, or_iff_right htableName,
    Reading.outer_mem_within, hnames, outer_mem_queryReadings hn.madeUp htable q path,
    ← outer_mem_queryReadings hn.madeUp htable q path [], Expr.fates]
  split
  · rename_i hattached
    exact iff_of_false (fun h => h.2 hattached) hfetched
  · rename_i hattached
    split
    · rename_i hread
      exact iff_of_true ⟨hread, hattached⟩ ⟨_, List.mem_singleton_self _, rfl⟩
    · rename_i hread
      exact iff_of_false (fun h => hread h.1) not_anyLeft_nil

omit htable in
theorem readsIfLeft_var {place : Place} {param : String} (hplace : place.Knows s n known param)
    {bound : List String} (hbound : n ∉ bound) (p : Position) (m : String) :
    Shows [] (place.varImage s.config param bound p m).walk (.outer n) ↔
      AnyLeft ((Expr.var p m).fates s.config n known place) := by
  rw [walk_varImage, shows_reads_outer, Place.varReads, Expr.fates]
  by_cases hm : m = n
  · subst hm
    rw [if_neg (not_or.mpr ⟨hbound, hn.table⟩), if_neg fun h => hn.rowNumber h.1, if_pos rfl]
    have hread := hplace.read
    cases hvalue : place.read? s.config param m with
    | none =>
      rw [hvalue] at hread
      subst hread
      exact iff_of_true List.mem_cons_self ⟨_, List.mem_singleton_self _, rfl⟩
    | some e =>
      rw [hvalue] at hread
      subst hread
      have hparam : m ≠ param := (hplace.secluded.of_read? hvalue).1.symm
      have hothers : m ∉ param :: if m = s.config.group then [s.config.table] else [] := by
        split <;> simp [hparam, hn.table]
      apply iff_of_false hothers
      rintro ⟨f, hf, hleft⟩
      cases List.mem_singleton.mp hf
      cases hleft
  · rw [if_neg hm]
    have hne : n ≠ m := fun h => hm h.symm
    refine iff_of_false ?_ not_anyLeft_nil
    split
    · simp [hne]
    · split
      · exact List.not_mem_nil
      · cases hvalue : place.read? s.config param m with
        | none => simp [hne]
        | some e =>
          have hparam : n ≠ param := (hplace.secluded.of_read? hvalue).1.symm
          show n ∉ param :: if m = s.config.group then [s.config.table] else []
          split <;> simp [hparam, hn.table]

theorem readsIfLeft (e : Expr) : ReadsIfLeft s n known e := by
  induction e using Expr.written_induction with
  | literal | letIn | record | postIncrement | subquery =>
    intro place param path bound searched hplace hbound
    simp [Expr.image, Expr.walk, Expr.fates]
  | var p m =>
    intro place param path bound searched hplace hbound
    exact readsIfLeft_var hn hplace hbound p m
  | unary p f e ih =>
    intro place param path bound searched hplace hbound
    exact ih place param (.part 0 :: path) bound false hplace hbound
  | binary p f l r ihl ihr =>
    intro place param path bound searched hplace hbound
    have hl := ihl place param (.part 0 :: path) bound false hplace hbound
    have hr (searched : Bool) := ihr place param (.part 1 :: path) bound searched hplace hbound
    cases f <;> simp only [Expr.image, Expr.walk, Expr.fates, shows_append, anyLeft_append, hl, hr]
  | sequence p f es ih =>
    intro place param path bound searched hplace hbound
    have hes := readsIfLeft_imageAll ih hplace hbound path .part 0
    cases f with
    | call m =>
      have hform := callForm s place param path bound searched p m es
      generalize (Expr.sequence p (.call m) es).image s place param path bound searched = e
        at hform ⊢
      generalize (Expr.sequence p (.call m) es).demands s.config place path bound = ds at hform
      -- An aggregate reads the rows of the group besides its argument.
      have hrows (prior : Row) (names : List String) (into : Option String)
          (h : place.row = some (.grouped prior names into)) (args : List Expr) :
          Shows [] (Expr.method p (GroupView.rows param) m args).walk (.outer n) ↔
            Shows [] (walkAll args) (.outer n) := by
        have hparam : n ≠ param := (hplace.secluded prior names into h).1.symm
        have hread : ¬Shows [] (GroupView.rows param).walk (.outer n) := by
          show ¬Shows [] (reads [param]) (.outer n)
          simp [shows_reads_outer, hparam]
        rw [Expr.walk, shows_append, or_iff_right hread]
      rw [Expr.fates]
      cases hform with
      | plain ds es h hcase =>
        rw [hcase]
        exact hes
      | allRows es prior names into h hcase =>
        rw [hcase, hrows prior names into h]
        simp [walkAll]
      | eachRow ds arg rest prior names into h hds hcase =>
        have hselector := outer_mem_selectorReadings hn htable prior place.numbering arg
          (.part 0 :: path)
        rw [List.length_cons, hcase, hrows prior names into h, walkAll, walkAll, List.append_nil,
          ← hselector]
        by_cases hread : .outer n ∈ prior.selectorReadings s.config place.numbering arg
        · simp [hread, AnyLeft, Fate.isLeft]
        · simp [hread]
      | rowsAtOnce arg rest prior names into h hcase =>
        rw [List.length_cons, hcase, hrows prior names into h, walkAll, walkAll, List.append_nil]
        exact ih arg List.mem_cons_self _ _ _ _ _ hplace hbound
    | list | tuple | construct => exact hes
  | method p r m es ihr ih =>
    intro place param path bound searched hplace hbound
    have hr := ihr place param (.part 0 :: path) bound false hplace hbound
    have hes := readsIfLeft_imageAll ih hplace hbound path .part 1
    rw [Expr.image, Expr.walk, shows_append, hr, hes, Expr.fates, anyLeft_append]
  | lambda p ps e ih =>
    intro place param path bound searched hplace hbound
    rw [Expr.image, Expr.walk, shows_walkFunction, shows_under_outer, Binder.names, Expr.fates]
    by_cases hps : n ∈ ps
    · simp [hps]
    · have hinner : n ∉ ps ++ bound := List.not_mem_append hps hbound
      rw [if_neg hps, ih place param (.part 0 :: path) (ps ++ bound) false hplace hinner]
      exact and_iff_left hps
  | query p q hq =>
    intro place param path bound searched hplace hbound
    exact readsIfLeft_query hn htable hplace hbound path searched p q

/-! ## Functions of groups -/

omit hn htable in
/-- The body of a function of a group has what its expressions have, and reads the name table and
the row if it is a record. -/
theorem walk_onGroup {q : Query Expr} {f : RowFunction} (h : f ∈ q.onGroups) (path : Path) :
    (f.onGroup s path).body.walk = f.body s path := by
  obtain ⟨g, -, hrow, -, hrecord | ⟨hrecord, p, hp⟩⟩ := Query.onGroups_cases h
  · have hextras : f.extras s path =
        [s.config.table, s.config.table] ++ (some (f.param s path)).toList := by
      rw [RowFunction.extras, hrecord]
      rfl
    have hbody : (f.onGroup s path).body = NameList.selected.record s.config
        (f.exprs.map (f.image s path)) ((some (f.param s path)).map Expr.name) := by
      rw [RowFunction.onGroup, hrecord]
      rfl
    rw [hbody, f.walk_record s path .selected _ hextras]
  · rw [RowFunction.onGroup, RowFunction.body, RowFunction.extras, hrecord, hp]
    simp [reads]

/-- The function of a group reads the name just if some occurrence of it is left. -/
theorem reads_onGroup {q : Query Expr} {f : RowFunction} (h : f ∈ q.onGroups) (path : Path)
    (hknown : (f.place.read? s.config "" n).isSome = known) :
    (f.onGroup s path).Reads n ↔ AnyLeft (f.fates s.config n known) := by
  have hparam : n ≠ f.param s path := by
    rw [q.param_onGroups h]
    exact (hn.madeUp _).symm
  have hplace : f.place.Knows s n known (f.param s path) :=
    ⟨read?_isSome s.config f.place "" (f.param s path) n ▸ hknown,
      secluded_parameter hn.madeUp htable f.row f.numbering _⟩
  have hextras : ¬Shows [] (reads (f.extras s path)) (.outer n) := by
    rw [shows_reads_outer, RowFunction.extras]
    split
    · split <;> simp [hparam, hn.table]
    · exact List.not_mem_nil
  have hbody : Shows [] (f.onGroup s path).body.walk (.outer n) ↔
      AnyLeft (f.fates s.config n known) := by
    rw [walk_onGroup h, RowFunction.body, shows_append, or_iff_left hextras, shows_flatMap,
      RowFunction.fates, anyLeft_flatMap]
    refine exists_congr fun p => and_congr_right fun _ => ?_
    exact readsIfLeft hn htable p.2 f.place _ _ [] false hplace List.not_mem_nil
  have hparams : n ∉ (f.onGroup s path).params := fun hmem => hparam (List.mem_singleton.mp hmem)
  exact (and_iff_right hparams).trans hbody

end

/-! ## Functions under what is put in place -/

/-- Bindings whose values do not read a name bring it nowhere; if they have another name, they leave
it where it is. -/
theorem Lambda.reads_substitute {f : Lambda Expr} {σ : List (Binding Expr)} {n : String}
    (hσ : Silent n σ) :
    (f.substitute σ).Reads n ↔ f.Reads n ∧ n ∉ (without f.params σ).map (·.name) := by
  have hwithout : Silent n (without f.params σ) := fun b hb => hσ b (mem_of_mem_without hb)
  have hbody : Shows [] (f.body.substitute (without f.params σ)).walk (.outer n) ↔
      Shows [] f.body.walk (.outer n) ∧ n ∉ (without f.params σ).map (·.name) := by
    rw [walk_substitute, shows_replace_outer hwithout]
  exact (and_congr_right fun _ => hbody).trans and_assoc.symm

/-- What is put in place from outside brings no name that is not made up. -/
theorem Lambda.reads_of_substituteEach {s : Naming} {ns : List String} {n : String}
    (hn : ∀ node, s.name node ≠ n) {σs : List (List (Binding Expr))}
    (hσs : ∀ σ ∈ σs, Supplied s ns σ) {f : Lambda Expr} (h : (f.substituteEach σs).Reads n) :
    f.Reads n := by
  induction σs generalizing f with
  | nil => exact h
  | cons σ σs ih =>
    obtain ⟨hσ, hσs⟩ := List.forall_mem_cons.mp hσs
    have hsilent : Silent n σ := by
      intro b hb
      obtain ⟨-, -, node, hwalk⟩ := hσ b hb
      exact ⟨_, hwalk, by simpa using (hn node).symm⟩
    exact ((Lambda.reads_substitute hsilent).mp (ih hσs h)).1

end Comprehension
