import Comprehension.Proofs.MadeUpNames
import Comprehension.Proofs.Pieces

/-!
What `alias.field` reads after grouping. The key of a group has one field for each classifier, named
by the classifier's label. An alias names the whole key, unless a classifier is labelled like it. So
the alias does not tell two fields of one name apart, and `a.id` and `b.id` read one field.
-/

namespace Comprehension

/-! ## Accesses on the key -/

/-- The variable that a chain of fields starts from, and the fields. -/
def Expr.chain? : Expr → Option (String × List String)
  | .var _ n => some (n, [])
  | .unary _ (.field f) e => e.chain?.map fun r => (r.1, r.2 ++ [f])
  | _ => none

/-- The fields that a chain reads from the key of a group, given the parameter of its row. -/
def Expr.keyFields? (param : String) (e : Expr) : Option (List String) :=
  match e.chain? with
  | some (n, half :: fields) => if n = param ∧ half = Half.first.name then some fields else none
  | _ => none

namespace Query

/-- The fields of the key. -/
def keyNames (q : Query Expr) : List String := q.grouping.elim [] fun g => labels g.classifiers

/-- After grouping the name has a meaning of its own: the name table, the row number or the group.
-/
def isReserved (c : Config) (numbering : Numbering) (n : String) : Prop :=
  n = c.table ∨ (n = c.rowNumber ∧ numbering = .counted) ∨ n = c.group

/-- After grouping the alias stands for the key as a whole. -/
structure NamesKey (q : Query Expr) (c : Config) (numbering : Numbering) (a : String) : Prop where
  unreserved : ¬isReserved c numbering a
  noField : a ∉ q.keyNames

end Query

section

variable {q : Query Expr} {g : Grouping Expr} {s : Naming} {numbering : Numbering}
  {param a f : String}

theorem chain?_withPos (p : Position) (e : Expr) : (e.withPos p).chain? = e.chain? := by
  cases e with
  | unary p' f e => cases f <;> rfl
  | _ => rfl

/-- What an alias reads from the row of a group. -/
theorem read?_alias (hg : q.grouping = some g) (ha : a ∈ q.aliases) (c : Config) :
    Place.read? c ⟨some q.row, numbering⟩ param a =
      if a = c.group then some (GroupView.current c param)
      else if a ∈ q.keyNames then some ((GroupView.key param).field a)
      else some (GroupView.key param) := by
  have hrow : q.row = .grouped q.joinedRow (labels g.classifiers) g.into := by rw [Query.row, hg]
  have hnames : q.keyNames = labels g.classifiers := by rw [Query.keyNames, hg]; rfl
  have hjoined : a ∈ q.joinedRow.aliases := aliases_joinedRow q ▸ ha
  have hforeign : Place.isForeign q.row a = false := by
    simp [Place.isForeign, aliases_row, ha]
  simp only [Place.read?, Place.group?, Option.bind_some, hrow, Row.group?, Option.map_some]
  rw [← hrow, hforeign]
  simp [GroupView.read?, GroupView.hasField, GroupView.namesKey, hnames, hjoined]

/-- What becomes of an alias after grouping: with a meaning of its own it stays, counts rows or
navigates the group; else it is a field of the key, or the key. -/
theorem varImage_alias_cases (hg : q.grouping = some g) (ha : a ∈ q.aliases) {bound : List String}
    (hbound : a ∉ bound) (c : Config) (numbering : Numbering) (param : String) (p : Position) :
    let v := Place.varImage c ⟨some q.row, numbering⟩ param bound p a
    Query.isReserved c numbering a ∧
        (a = c.table ∧ v = .var p a ∨ v = .postIncrement p c.counter ∨
          v = (GroupView.current c param).withPos p) ∨
      (¬Query.isReserved c numbering a ∧ a ∈ q.keyNames) ∧
        v = ((GroupView.key param).field a).withPos p ∨
      q.NamesKey c numbering a ∧ v = (GroupView.key param).withPos p := by
  intro v
  by_cases htable : a = c.table
  · have hv : v = .var p a := if_pos (.inr htable)
    exact .inl ⟨.inl htable, .inl ⟨htable, hv⟩⟩
  by_cases hnumber : a = c.rowNumber ∧ numbering = .counted
  · have hv : v = .postIncrement p c.counter :=
      (if_neg (not_or.mpr ⟨hbound, htable⟩)).trans (if_pos hnumber)
    exact .inl ⟨.inr (.inl hnumber), .inr (.inl hv)⟩
  have hread : Place.read? c ⟨some q.row, numbering⟩ param a = _ := read?_alias hg ha c
  by_cases hgroup : a = c.group
  · rw [if_pos hgroup] at hread
    have hv : v = _ := Place.varImage_of_read? hbound htable hnumber hread p
    exact .inl ⟨.inr (.inr hgroup), .inr (.inr hv)⟩
  have hunreserved : ¬Query.isReserved c numbering a := by
    rintro (h | h | h)
    · exact htable h
    · exact hnumber h
    · exact hgroup h
  rw [if_neg hgroup] at hread
  by_cases hfield : a ∈ q.keyNames
  · rw [if_pos hfield] at hread
    exact .inr (.inl ⟨⟨hunreserved, hfield⟩, Place.varImage_of_read? hbound htable hnumber hread p⟩)
  · rw [if_neg hfield] at hread
    exact .inr (.inr ⟨⟨hunreserved, hfield⟩, Place.varImage_of_read? hbound htable hnumber hread p⟩)

/-- A reserved alias reads nothing from the key; any other reads the field from the key or, where a
classifier is labelled like the alias, from that classifier's value. -/
theorem keyFields?_image (hg : q.grouping = some g) (ha : a ∈ q.aliases)
    (hparam : param ≠ s.config.table) (p p' : Position) (path : Path) (searched : Bool)
    (fields : List String) :
    ((Expr.unary p (.field f) (.var p' a)).image s ⟨some q.row, numbering⟩ param path []
        searched).keyFields? param = some fields ↔
      ¬Query.isReserved s.config numbering a ∧
        (if a ∈ q.keyNames then [a, f] else [f]) = fields := by
  rw [Expr.image, Expr.image]
  rcases varImage_alias_cases hg ha List.not_mem_nil s.config numbering param p' with
    ⟨hreserved, hv⟩ | ⟨⟨hunreserved, hfield⟩, hv⟩ | ⟨⟨hunreserved, hfield⟩, hv⟩
  · refine iff_of_false (fun h => ?_) fun hnot => hnot.1 hreserved
    rcases hv with ⟨htable, hv⟩ | hv | hv <;> rw [hv] at h
    · -- No row goes by the name of the name table.
      have hne : a ≠ param := fun heq => hparam (heq ▸ htable)
      simp [Expr.keyFields?, Expr.chain?, hne] at h
    · cases h
    · cases h
  · rw [hv]
    simp [hfield, hunreserved, Expr.keyFields?, Expr.chain?, chain?_withPos, GroupView.key,
      Expr.field, Expr.name, Half.name]
  · rw [hv]
    simp [hfield, hunreserved, Expr.keyFields?, Expr.chain?, chain?_withPos, GroupView.key,
      Expr.field, Expr.name, Half.name]

/-- Two different accesses `a.f` and `b.k` read the same fields of the key just if both aliases name
the whole key and the fields have one name. -/
theorem same_fields_iff (numbering : Numbering) (hg : q.grouping = some g) {b k : String}
    (ha : a ∈ q.aliases) (hb : b ∈ q.aliases) (hne : (a, f) ≠ (b, k))
    (hparam : param ≠ s.config.table) (p p' r r' : Position) (path path' : Path) :
    (∃ fields,
      ((Expr.unary p (.field f) (.var p' a)).image s ⟨some q.row, numbering⟩ param path []
        false).keyFields? param = some fields ∧
      ((Expr.unary r (.field k) (.var r' b)).image s ⟨some q.row, numbering⟩ param path' []
        false).keyFields? param = some fields) ↔
      f = k ∧ q.NamesKey s.config numbering a ∧ q.NamesKey s.config numbering b := by
  simp only [keyFields?_image hg ha hparam, keyFields?_image hg hb hparam]
  constructor
  · rintro ⟨fields, ⟨hra, hfa⟩, hrb, hfb⟩
    rw [← hfb] at hfa
    split at hfa <;> split at hfa
    · -- Both aliases are labels: the whole accesses would be one.
      cases hfa
      exact absurd rfl hne
    · cases hfa
    · cases hfa
    · rename_i hna hnb
      cases hfa
      exact ⟨rfl, ⟨hra, hna⟩, hrb, hnb⟩
  · rintro ⟨rfl, hka, hkb⟩
    exact ⟨[f], ⟨hka.unreserved, if_neg hka.noField⟩, hkb.unreserved, if_neg hkb.noField⟩

end

/-! ## Runs -/

/-- Two different classifiers `a.f` and `b.k`, resolved after grouping on a row that goes by a name
of the run, read the same field of the key just if both aliases name the whole key and `f` is `k`.
-/
theorem merged_keys_iff {q : Query Expr} {c : Config} {t : Thunk} {ctx : Context}
    (h : (Context.new c).lower [] q = (.ok t, ctx)) {g : Grouping Expr} (hg : q.grouping = some g)
    {a f b k : String} (ha : a ∈ q.aliases) (hb : b ∈ q.aliases) (hne : (a, f) ≠ (b, k))
    (numbering : Numbering) (node : Path) (p p' r r' : Position) (path path' : Path) :
    let param := q.row.parameter ctx.naming.name node
    (∃ fields,
      ((Expr.unary p (.field f) (.var p' a)).image ctx.naming ⟨some q.row, numbering⟩ param path []
        false).keyFields? param = some fields ∧
      ((Expr.unary r (.field k) (.var r' b)).image ctx.naming ⟨some q.row, numbering⟩ param path'
        [] false).keyFields? param = some fields) ↔
      f = k ∧ q.NamesKey c numbering a ∧ q.NamesKey c numbering b := by
  intro param
  have hlowered := Lowered.ofLower h
  have hname : param = ctx.naming.name node := by
    simp only [param, Query.row, hg]
    rfl
  have hparam : param ≠ ctx.naming.config.table := by
    rw [hname, hlowered.naming_config]
    intro htable
    exact hlowered.name_not_mem node (htable ▸ List.mem_append_right _ List.mem_cons_self)
  have hiff := same_fields_iff numbering hg ha hb hne hparam p p' r r' path path'
  rwa [hlowered.naming_config] at hiff

/-- `from a in as crossjoin b in bs groupby a.f, b.k select a.f, b.k`. -/
def pairedKeys (f k : String) : Query Expr where
  table := ⟨"a", Expr.name "as", .nowhere⟩
  joins := [⟨.cross, "b", Expr.name "bs", none, .nowhere⟩]
  filter := none
  grouping := some ⟨[(Expr.name "a").field f, (Expr.name "b").field k], none, none, .nowhere⟩
  sorting := none
  limit := none
  projection := some ⟨[(Expr.name "a").field f, (Expr.name "b").field k], .nowhere⟩
  pos := .nowhere

/-- Keys with two names stay apart. -/
theorem merged_keys_iff_idName :
    ∃ t ctx, (Context.new .standard).lower [] (pairedKeys "id" "name") = (.ok t, ctx) ∧
      ¬∃ fields,
        (((Expr.name "a").field "id").image ctx.naming ⟨some (pairedKeys "id" "name").row, .counted⟩
          (ctx.naming.name [.slot (.item 0)]) [.slot (.item 0)] [] false).keyFields?
            (ctx.naming.name [.slot (.item 0)]) = some fields ∧
        (((Expr.name "b").field "name").image ctx.naming
          ⟨some (pairedKeys "id" "name").row, .counted⟩ (ctx.naming.name [.slot (.item 0)])
          [.slot (.item 1)] [] false).keyFields? (ctx.naming.name [.slot (.item 0)]) =
            some fields := by
  obtain ⟨t, ctx, h⟩ :
      ∃ t ctx, (Context.new .standard).lower [] (pairedKeys "id" "name") = (.ok t, ctx) :=
    ⟨_, _, rfl⟩
  have ha : "a" ∈ (pairedKeys "id" "name").aliases := by decide
  have hb : "b" ∈ (pairedKeys "id" "name").aliases := by decide
  have hne : ("a", "id") ≠ ("b", "name") := by decide
  have hiff := merged_keys_iff h rfl ha hb hne .counted
    [.slot (.item 0)] .nowhere .nowhere .nowhere .nowhere [.slot (.item 0)] [.slot (.item 1)]
  refine ⟨t, ctx, h, fun hsame => ?_⟩
  have hname : "id" = "name" := (hiff.mp hsame).1
  exact absurd hname (by decide)

/-- The fields that the values of a selected record read from the key of the group. -/
def Thunk.selectedFields (t : Thunk) : List (Option (List String)) :=
  t.pipeline.stages.flatMap fun
    | .select ⟨[param], .record _ values _ _ _⟩ => values.map (Expr.keyFields? param)
    | _ => []

/-- Keys with one name are merged: after grouping by `a.id` and `b.id`, reading one reads the other.
-/
theorem pairedKeys_merged :
    ("a", "id") ≠ ("b", "id") ∧ ∃ t, (pairedKeys "id" "id").lower .standard = .ok t ∧
      t.selectedFields = [some ["id"], some ["id"]] :=
  ⟨by decide, _, rfl, by decide⟩

end Comprehension
