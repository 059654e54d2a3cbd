import Comprehension.Proofs.Pieces

/-!
Nodes that ask for a name. What is lowered at a path asks for names of nodes below that path only,
and parts that stand apart ask for nodes that stand apart, so no node of a query asks twice.
-/

namespace Comprehension

/-- The nodes for which a name is wanted. -/
def asked (ds : List Demand) : List Path :=
  ds.filterMap fun
    | .name node => some node
    | _ => none

theorem asked_append (ds ds' : List Demand) : asked (ds ++ ds') = asked ds ++ asked ds' :=
  List.filterMap_append

theorem mem_asked {ds : List Demand} {node : Path} : node ∈ asked ds ↔ .name node ∈ ds := by
  rw [asked, List.mem_filterMap]
  constructor
  · rintro ⟨d, hd, h⟩
    cases d with
    | name m =>
      cases h
      exact hd
    | _ => cases h
  · exact fun h => ⟨_, h, rfl⟩

theorem asked_filter {p : Demand → Bool} (h : ∀ node, p (.name node) = true) (ds : List Demand) :
    asked (ds.filter p) = asked ds := by
  induction ds with
  | nil => rfl
  | cons d ds ih =>
    cases d with
    | name node =>
      rw [List.filter_cons_of_pos (h node)]
      exact congrArg (node :: ·) ih
    | _ =>
      rw [List.filter_cons]
      split <;> exact ih

theorem asked_of_not_wants {ds : List Demand} (h : ∀ d ∈ ds, d.wants = false) : asked ds = [] := by
  rw [asked, List.filterMap_eq_nil_iff]
  intro d hd
  cases d with
  | name node => cases h _ hd
  | _ => rfl

theorem asked_wanted (ds : List Demand) : asked (wanted ds) = asked ds :=
  asked_filter (fun _ => rfl) ds

/-! ## Nodes below a path -/

/-- The nodes stand below the path, each over a step of the given kind, and none comes twice. -/
structure Below (path : Path) (kind : Step → Prop) (nodes : List Path) : Prop where
  below : ∀ node ∈ nodes, ∃ step, kind step ∧ ∃ rest, node = rest ++ step :: path
  nodup : nodes.Nodup

namespace Below

variable {path : Path} {kind kind' : Step → Prop} {nodes nodes' : List Path}

theorem nil (path : Path) (kind : Step → Prop) : Below path kind [] :=
  ⟨List.forall_mem_nil _, List.nodup_nil⟩

theorem imp (h : Below path kind nodes) (himp : ∀ step, kind step → kind' step) :
    Below path kind' nodes := by
  refine ⟨fun node hnode => ?_, h.nodup⟩
  obtain ⟨step, hstep, hrest⟩ := h.below node hnode
  exact ⟨step, himp step hstep, hrest⟩

/-- Nodes over different steps stand apart. -/
theorem append (h : Below path kind nodes) (h' : Below path kind' nodes')
    (happart : ∀ step, kind step → ¬kind' step) :
    Below path (fun step => kind step ∨ kind' step) (nodes ++ nodes') := by
  refine ⟨List.forall_mem_append.mpr ⟨?_, ?_⟩, List.nodup_append.mpr ⟨h.nodup, h'.nodup, ?_⟩⟩
  · exact (h.imp fun _ => Or.inl).below
  · exact (h'.imp fun _ => Or.inr).below
  · rintro node hnode node' hnode' rfl
    obtain ⟨step, hstep, rest, hrest⟩ := h.below node hnode
    obtain ⟨step', hstep', rest', hrest'⟩ := h'.below node hnode'
    rw [hrest] at hrest'
    have htail := (List.append_inj_right' hrest' rfl)
    cases htail
    exact happart step hstep hstep'

/-- What stands below a node stands over the step to that node. -/
theorem deeper {step : Step} (h : Below (step :: path) kind nodes) :
    Below path (· = step) nodes := by
  refine ⟨fun node hnode => ?_, h.nodup⟩
  obtain ⟨step', -, rest, hrest⟩ := h.below node hnode
  exact ⟨step, rfl, rest ++ [step'], by rw [hrest, List.append_assoc]; rfl⟩

/-- The node itself stands apart from what stands below it. -/
theorem cons {step : Step} (h : Below (step :: path) kind nodes) :
    Below path (· = step) ((step :: path) :: nodes) := by
  refine ⟨List.forall_mem_cons.mpr ⟨⟨step, rfl, [], rfl⟩, h.deeper.below⟩,
    List.nodup_cons.mpr ⟨fun hnode => ?_, h.nodup⟩⟩
  obtain ⟨step', -, rest, hrest⟩ := h.below _ hnode
  have hlength := congrArg List.length hrest
  simp only [List.length_cons, List.length_append] at hlength
  omega

end Below

/-! ## Expressions -/

/-- The expression asks only for nodes below its path, and for none twice. -/
def AsksBelow (c : Config) (e : Expr) : Prop :=
  ∀ place path bound, Below path (fun _ => True) (asked (e.demands c place path bound))

variable {c : Config}

theorem asked_demandsAll {es : List Expr} (h : ∀ e ∈ es, AsksBelow c e) (place : Place)
    (path : Path) (bound : List String) {step : Nat → Step}
    (hstep : ∀ i j, step i = step j → i = j) (i : Nat) :
    Below path (fun st => ∃ j ≥ i, st = step j)
      (asked (demandsAll c place path bound step i es)) := by
  induction es generalizing i with
  | nil => exact .nil ..
  | cons e es ih =>
    have he := (h e List.mem_cons_self place (step i :: path) bound).deeper
    have hes := ih (fun e hm => h e (List.mem_cons_of_mem _ hm)) (i + 1)
    rw [demandsAll, asked_append]
    refine (he.append hes ?_).imp ?_
    · rintro st rfl ⟨j, hj, heq⟩
      have := hstep i j heq
      omega
    · rintro st (rfl | ⟨j, hj, rfl⟩)
      · exact ⟨i, Nat.le_refl i, rfl⟩
      · exact ⟨j, by omega, rfl⟩

theorem part_injective (i j : Nat) (h : Step.part i = Step.part j) : i = j := Step.part.inj h

theorem asked_nameDemands_cases (row : Row) (node : Path) :
    asked (row.nameDemands node) = [] ∨ asked (row.nameDemands node) = [node] := by
  cases row with
  | table a => exact Or.inl rfl
  | joined prior a => exact Or.inr rfl
  | grouped prior names into => exact Or.inr rfl

/-- A row parameter and what is asked for the row's function at the same node. -/
theorem asked_nameDemands {step : Step} {path : Path} {nodes : List Path} (row : Row)
    (h : Below (step :: path) (fun _ => True) nodes) :
    Below path (· = step) (asked (row.nameDemands (step :: path)) ++ nodes) := by
  rcases asked_nameDemands_cases row (step :: path) with hrow | hrow
  · rw [hrow]
    exact h.deeper
  · rw [hrow]
    exact h.cons

/-! ## Slots of pieces -/

namespace Slot

/-- The clauses in their order. -/
def clause : Slot → Nat
  | source => 0
  | joinSource _ | joinOn _ => 1
  | predicate => 2
  | classifier _ => 3
  | having => 4
  | orderKey _ => 5
  | offset => 6
  | size => 7
  | item _ => 8

/-- The order of the pieces of one clause. -/
def index : Slot → Nat
  | joinSource i => 2 * i
  | joinOn i => 2 * i + 1
  | orderKey i => i
  | _ => 0

end Slot

namespace Piece

/-- The slots of the expressions. -/
def exprSlots : Piece → List Slot
  | value slot _ => [slot]
  | function f => f.exprs.map (·.1)

/-- The slots of the expressions and the one that names the row. -/
def slots : Piece → List Slot
  | value slot _ => [slot]
  | function f => f.slot :: f.exprs.map (·.1)

end Piece

/-- The pieces have slots with ranks in the given range, no two of them share a slot, and none has a
slot for two expressions. -/
structure Apart (rank : Slot → Nat) (low high : Nat) (ps : List Piece) : Prop where
  within : ∀ p ∈ ps, ∀ slot ∈ p.slots, low ≤ rank slot ∧ rank slot < high
  pairwise : ps.Pairwise fun p p' => ∀ slot ∈ p.slots, slot ∉ p'.slots
  nodup : ∀ p ∈ ps, p.exprSlots.Nodup

namespace Apart

variable {rank : Slot → Nat} {low mid high : Nat} {ps ps' : List Piece}

theorem nil (rank : Slot → Nat) (low high : Nat) : Apart rank low high [] :=
  ⟨List.forall_mem_nil _, List.Pairwise.nil, List.forall_mem_nil _⟩

theorem singleton {p : Piece} (h : ∀ slot ∈ p.slots, low ≤ rank slot ∧ rank slot < high)
    (hnodup : p.exprSlots.Nodup) : Apart rank low high [p] :=
  ⟨List.forall_mem_singleton.mpr h, List.pairwise_singleton _ _,
    List.forall_mem_singleton.mpr hnodup⟩

theorem append (h : Apart rank low mid ps) (h' : Apart rank mid high ps') (hlow : low ≤ mid)
    (hhigh : mid ≤ high) : Apart rank low high (ps ++ ps') := by
  refine ⟨List.forall_mem_append.mpr ⟨fun p hp slot hslot => ?_, fun p hp slot hslot => ?_⟩,
    List.pairwise_append.mpr ⟨h.pairwise, h'.pairwise, fun p hp p' hp' slot hslot hslot' => ?_⟩,
    List.forall_mem_append.mpr ⟨h.nodup, h'.nodup⟩⟩
  · have := h.within p hp slot hslot
    omega
  · have := h'.within p hp slot hslot
    omega
  · have := h.within p hp slot hslot
    have := h'.within p' hp' slot hslot'
    omega

/-- Pieces that are apart by one rank are so by any. -/
theorem rerank {rank' : Slot → Nat} {low' high' : Nat} (h : Apart rank low high ps)
    (hwithin : ∀ p ∈ ps, ∀ slot ∈ p.slots, low' ≤ rank' slot ∧ rank' slot < high') :
    Apart rank' low' high' ps :=
  ⟨hwithin, h.pairwise, h.nodup⟩

theorem single {slot : Slot} (h : low ≤ rank slot ∧ rank slot < high) (row : Row)
    (joined : Option String) (e : Expr) : Apart rank low high [.single slot row joined e] :=
  singleton (by simpa [Piece.slots, Piece.single] using h)
    (by simp [Piece.exprSlots, Piece.single])

theorem value {slot : Slot} (h : low ≤ rank slot ∧ rank slot < high) (e : Expr) :
    Apart rank low high [.value slot e] :=
  singleton (by simpa [Piece.slots] using h) (by simp [Piece.exprSlots])

end Apart

theorem classifier_injective (i j : Nat) (h : Slot.classifier i = Slot.classifier j) : i = j :=
  Slot.classifier.inj h

theorem item_injective (i j : Nat) (h : Slot.item i = Slot.item j) : i = j := Slot.item.inj h

theorem slots_numbered {slot : Nat → Slot} {i : Nat} {es : List Expr} {s : Slot}
    (h : s ∈ (numbered slot i es).map (·.1)) : ∃ j ≥ i, s = slot j := by
  induction es generalizing i with
  | nil => cases h
  | cons e es ih =>
    rcases List.mem_cons.mp h with rfl | h
    · exact ⟨i, Nat.le_refl i, rfl⟩
    · obtain ⟨j, hj, heq⟩ := ih h
      exact ⟨j, by omega, heq⟩

theorem nodup_slots_numbered {slot : Nat → Slot} (hslot : ∀ i j, slot i = slot j → i = j)
    (i : Nat) (es : List Expr) : ((numbered slot i es).map (·.1)).Nodup := by
  induction es generalizing i with
  | nil => exact List.nodup_nil
  | cons e es ih =>
    refine List.nodup_cons.mpr ⟨fun h => ?_, ih (i + 1)⟩
    obtain ⟨j, hj, heq⟩ := slots_numbered h
    have := hslot i j heq
    omega

/-- The function of expressions in numbered slots, the first of which names the row. -/
theorem Apart.ofNumbered {rank : Slot → Nat} {slot : Nat → Slot} {low high : Nat}
    (hslot : ∀ i j, slot i = slot j → i = j)
    (hrank : ∀ i, low ≤ rank (slot i) ∧ rank (slot i) < high) (row : Row) (numbering : Numbering)
    (es : List Expr) (record : Option Bool) :
    Apart rank low high
      [.function ⟨slot 0, row, none, numbering, numbered slot 0 es, record⟩] := by
  refine .singleton (fun s hs => ?_) (nodup_slots_numbered hslot 0 es)
  rcases List.mem_cons.mp hs with rfl | hs
  · exact hrank 0
  · obtain ⟨j, -, rfl⟩ := slots_numbered hs
    exact hrank j

theorem apart_joinPieces (row : Row) (i : Nat) (js : List (Join Expr)) :
    Apart Slot.index (2 * i) (2 * (i + js.length)) (joinPieces i row js) ∧
      ∀ p ∈ joinPieces i row js, ∀ slot ∈ p.slots, slot.clause = 1 := by
  induction js generalizing i row with
  | nil => exact ⟨.nil .., List.forall_mem_nil _⟩
  | cons j js ih =>
    obtain ⟨hjs, hclause⟩ := ih (row.joined j.name) (i + 1)
    have hsource : Apart Slot.index (2 * i) (2 * i + 1) [.value (.joinSource i) j.source] :=
      .value (by simp [Slot.index]) _
    have hmatch : Apart Slot.index (2 * i + 1) (2 * (i + 1)) (matchPieces i row j.kind j.name j.on) ∧
        ∀ p ∈ matchPieces i row j.kind j.name j.on, ∀ slot ∈ p.slots, slot.clause = 1 := by
      cases j.on with
      | none => exact ⟨.nil .., List.forall_mem_nil _⟩
      | some e =>
        rw [matchPieces]
        split
        · refine ⟨.single (by simp [Slot.index]; omega) .., List.forall_mem_singleton.mpr ?_⟩
          rintro slot (_ | ⟨_, _ | ⟨_, ⟨⟩⟩⟩) <;> rfl
        · exact ⟨.nil .., List.forall_mem_nil _⟩
    rw [joinPieces, List.cons_append]
    constructor
    · have happend := hsource.append (hmatch.1.append hjs (by omega) (by omega)) (by omega) (by omega)
      rwa [show i + 1 + js.length = i + (j :: js).length by simp; omega] at happend
    · refine List.forall_mem_cons.mpr ⟨?_, List.forall_mem_append.mpr ⟨hmatch.2, hclause⟩⟩
      rintro slot (_ | ⟨_, ⟨⟩⟩)
      rfl

theorem apart_termPieces (row : Row) (i : Nat) (ts : List (SortTerm Expr)) :
    Apart Slot.index i (i + ts.length) (termPieces row i ts) ∧
      ∀ p ∈ termPieces row i ts, ∀ slot ∈ p.slots, slot.clause = 5 := by
  induction ts generalizing i with
  | nil => exact ⟨.nil .., List.forall_mem_nil _⟩
  | cons t ts ih =>
    obtain ⟨hts, hclause⟩ := ih (i + 1)
    have ht : Apart Slot.index i (i + 1) [.single (.orderKey i) row none t.key] :=
      .single (by simp [Slot.index]) ..
    refine ⟨?_, List.forall_mem_cons.mpr ⟨?_, hclause⟩⟩
    · have happend := ht.append hts (by omega) (by omega)
      rwa [show i + 1 + ts.length = i + (t :: ts).length by simp; omega] at happend
    · rintro slot (_ | ⟨_, _ | ⟨_, ⟨⟩⟩⟩) <;> rfl

/-- No two pieces of a query share a slot. -/
theorem apart_pieces (q : Query Expr) : Apart Slot.clause 0 9 q.pieces := by
  have hjoins : Apart Slot.clause 1 2 (joinPieces 0 (.table q.table.name) q.joins) := by
    obtain ⟨happart, hclause⟩ := apart_joinPieces (.table q.table.name) 0 q.joins
    refine happart.rerank fun p hp slot hslot => ?_
    rw [hclause p hp slot hslot]
    omega
  have hfilter : Apart Slot.clause 2 3 (filterPieces q.joinedRow q.filter) := by
    cases q.filter with
    | none => exact .nil ..
    | some f => exact .single (by decide) ..
  have hgrouping : Apart Slot.clause 3 5 (groupingPieces q.joinedRow q.grouping) := by
    rcases q.grouping with _ | ⟨cs, into, having, p⟩
    · exact .nil ..
    · have hclassifiers : Apart Slot.clause 3 4 [.function ⟨.classifier 0, q.joinedRow, none, .plain,
          numbered .classifier 0 cs, some false⟩] :=
        .ofNumbered classifier_injective (fun _ => ⟨Nat.le_refl 3, Nat.lt_add_one 3⟩) ..
      refine hclassifiers.append ?_ (by decide) (by decide)
      cases having with
      | none => exact .nil ..
      | some e => exact .single (by decide) ..
  have hsorting : Apart Slot.clause 5 6 (sortingPieces q.row q.sorting) := by
    cases q.sorting with
    | none => exact .nil ..
    | some s =>
      obtain ⟨happart, hclause⟩ := apart_termPieces q.row 0 s.terms
      refine happart.rerank fun p hp slot hslot => ?_
      rw [hclause p hp slot hslot]
      omega
  have hlimit : Apart Slot.clause 6 8 (limitPieces q.limit) := by
    rcases q.limit with _ | ⟨_ | offset, size, p⟩
    · exact .nil ..
    · exact .value (by decide) size
    · have hoffset : Apart Slot.clause 6 7 [.value .offset offset] := .value (by decide) offset
      exact hoffset.append (.value (by decide) size) (by decide) (by decide)
  have hprojection : Apart Slot.clause 8 9 (projectionPieces q.row q.projection) := by
    rcases q.projection with _ | ⟨_ | ⟨e, es⟩, p⟩
    · exact .nil ..
    · exact .nil ..
    · exact Apart.ofNumbered item_injective
        (fun _ => ⟨Nat.le_refl 8, Nat.lt_add_one 8⟩) q.row .counted (e :: es) _
  have hsource : Apart Slot.clause 0 1 [.value .source q.table.source] := .value (by decide) _
  have hjoined := (hjoins.append hfilter (by decide) (by decide)).append hgrouping (by decide)
    (by decide)
  have hrest := ((hjoined.append hsorting (by decide) (by decide)).append hlimit (by decide)
    (by decide)).append hprojection (by decide) (by decide)
  exact hsource.append hrest (by decide) (by decide)

/-! ## Queries -/

theorem asked_exprs {ps : List (Slot × Expr)} (h : ∀ p ∈ ps, AsksBelow c p.2)
    (hnodup : (ps.map (·.1)).Nodup) (place : Place) (path : Path) :
    Below path (fun st => ∃ slot ∈ ps.map (·.1), st = .slot slot)
      (asked (ps.flatMap fun p => p.2.demands c place (.slot p.1 :: path) [])) := by
  induction ps with
  | nil => exact .nil ..
  | cons p ps ih =>
    obtain ⟨hfresh, hnodup⟩ := List.nodup_cons.mp hnodup
    have hp := (h p List.mem_cons_self place (.slot p.1 :: path) []).deeper
    have hps := ih (fun p hm => h p (List.mem_cons_of_mem _ hm)) hnodup
    rw [List.flatMap_cons, asked_append]
    refine (hp.append hps ?_).imp ?_
    · rintro st rfl ⟨slot, hslot, heq⟩
      cases heq
      exact hfresh hslot
    · rintro st (rfl | ⟨slot, hslot, rfl⟩)
      · exact ⟨p.1, List.mem_cons_self, rfl⟩
      · exact ⟨slot, List.mem_cons_of_mem _ hslot, rfl⟩

/-- A node right below the path is none of those that the expressions ask for. -/
theorem not_mem_asked_exprs {ps : List (Slot × Expr)} (h : ∀ p ∈ ps, AsksBelow c p.2)
    (place : Place) (path : Path) (slot : Slot) :
    .slot slot :: path ∉
      asked (ps.flatMap fun p => p.2.demands c place (.slot p.1 :: path) []) := by
  intro hmem
  obtain ⟨p, hp, hmem⟩ := List.mem_flatMap.mp (mem_asked.mp hmem)
  obtain ⟨st, -, rest, hrest⟩ :=
    (h p hp place (.slot p.1 :: path) []).below _ (mem_asked.mpr hmem)
  have hlength := congrArg List.length hrest
  simp only [List.length_cons, List.length_append] at hlength
  omega

theorem asked_piece {p : Piece} (h : ∀ e ∈ p.exprs, AsksBelow c e) (hnodup : p.exprSlots.Nodup)
    (path : Path) :
    Below path (fun st => ∃ slot ∈ p.slots, st = .slot slot) (asked (p.demands c path)) := by
  cases p with
  | value slot e =>
    refine (h e List.mem_cons_self ⟨none, .plain⟩ (.slot slot :: path) []).deeper.imp ?_
    rintro st rfl
    exact ⟨slot, List.mem_cons_self, rfl⟩
  | function f =>
    have hexprs : ∀ p ∈ f.exprs, AsksBelow c p.2 := fun p hp => h p.2 (List.mem_map_of_mem hp)
    have hbelow := asked_exprs hexprs hnodup ⟨some f.row, f.numbering⟩ path
    have hnot := not_mem_asked_exprs hexprs ⟨some f.row, f.numbering⟩ path f.slot
    rw [Piece.demands, asked_append]
    have htail : ∀ node ∈ asked (f.exprs.flatMap fun p =>
        p.2.demands c ⟨some f.row, f.numbering⟩ (.slot p.1 :: path) []),
        ∃ st, (∃ slot ∈ (Piece.function f).slots, st = .slot slot) ∧
          ∃ rest, node = rest ++ st :: path := by
      intro node hnode
      obtain ⟨st, ⟨slot, hslot, rfl⟩, hrest⟩ := hbelow.below node hnode
      exact ⟨_, ⟨slot, List.mem_cons_of_mem _ hslot, rfl⟩, hrest⟩
    have hhead : ∃ st, (∃ slot ∈ (Piece.function f).slots, st = .slot slot) ∧
        ∃ rest, Step.slot f.slot :: path = rest ++ st :: path :=
      ⟨_, ⟨f.slot, List.mem_cons_self, rfl⟩, [], rfl⟩
    rcases asked_nameDemands_cases f.row (.slot f.slot :: path) with hrow | hrow
    · rw [hrow]
      exact ⟨htail, hbelow.nodup⟩
    · rw [hrow]
      exact ⟨List.forall_mem_cons.mpr ⟨hhead, htail⟩, List.nodup_cons.mpr ⟨hnot, hbelow.nodup⟩⟩

theorem asked_pieces {rank : Slot → Nat} {low high : Nat} {ps : List Piece}
    (happart : Apart rank low high ps) (h : ∀ p ∈ ps, ∀ e ∈ p.exprs, AsksBelow c e)
    (path : Path) :
    Below path (fun st => ∃ p ∈ ps, ∃ slot ∈ p.slots, st = .slot slot)
      (asked (ps.flatMap (Piece.demands c path))) := by
  induction ps with
  | nil => exact .nil ..
  | cons p ps ih =>
    obtain ⟨hdisjoint, hpairwise⟩ := List.pairwise_cons.mp happart.pairwise
    have htail : Apart rank low high ps :=
      ⟨fun p hp => happart.within p (List.mem_cons_of_mem _ hp), hpairwise,
        fun p hp => happart.nodup p (List.mem_cons_of_mem _ hp)⟩
    have hp := asked_piece (h p List.mem_cons_self) (happart.nodup p List.mem_cons_self) path
    have hps := ih htail fun p hm => h p (List.mem_cons_of_mem _ hm)
    rw [List.flatMap_cons, asked_append]
    refine (hp.append hps ?_).imp ?_
    · rintro st ⟨slot, hslot, rfl⟩ ⟨p', hp', slot', hslot', heq⟩
      cases heq
      exact hdisjoint p' hp' slot hslot hslot'
    · rintro st (⟨slot, hslot, rfl⟩ | ⟨p', hp', slot, hslot, rfl⟩)
      · exact ⟨p, List.mem_cons_self, slot, hslot, rfl⟩
      · exact ⟨p', List.mem_cons_of_mem _ hp', slot, hslot, rfl⟩

/-- No node of a query asks twice. -/
theorem asked_queryDemands {q : Query Expr} (h : q.Each (AsksBelow c)) (path : Path) :
    Below path (fun _ => True) (asked (queryDemands c path q)) := by
  have hpieces := (asked_pieces (apart_pieces q) h.pieces path).imp fun _ _ => trivial
  rwa [← asked_wanted, ← wanted_queryDemands, asked_wanted] at hpieces

theorem asksBelow (e : Expr) : AsksBelow c e := by
  induction e using Expr.written_induction with
  | literal => intro place path bound; exact .nil ..
  | letIn | record | postIncrement | subquery => intro place path bound; exact .nil ..
  | var p n =>
    intro place path bound
    rw [Expr.demands, Place.varDemands]
    split
    · exact .nil ..
    · split
      · cases place.numbering <;> exact .nil ..
      · exact .nil ..
  | unary p f e ih =>
    intro place path bound
    exact (ih place (.part 0 :: path) bound).deeper.imp fun _ _ => trivial
  | binary p f l r ihl ihr =>
    intro place path bound
    have hl := (ihl place (.part 0 :: path) bound).deeper
    have hr := (ihr place (.part 1 :: path) bound).deeper
    rw [Expr.demands, asked_append]
    refine (hl.append hr ?_).imp fun _ _ => trivial
    rintro st rfl heq
    cases heq
  | sequence p f es ih =>
    intro place path bound
    have hes := (asked_demandsAll ih place path bound part_injective 0).imp fun _ _ => trivial
    cases f with
    | call n =>
      rw [Expr.demands]
      split
      · exact hes
      · split
        · exact .nil ..
        · rename_i a prior _ _ _ arg rest hr
          have harg := ih arg List.mem_cons_self ⟨some prior, place.numbering⟩ (.part 0 :: path) []
          have hmistake : asked (if arg.root? = some c.group then
              [.report ⟨.selectorOverGroup a, arg.pos⟩] else []) = [] := by
            split <;> rfl
          rw [List.append_assoc, asked_append, hmistake, List.nil_append, asked_append]
          exact (asked_nameDemands prior harg).imp fun _ _ => trivial
        · rename_i arg rest hr
          exact (ih arg List.mem_cons_self place (.part 0 :: path) bound).deeper.imp
            fun _ _ => trivial
        · exact hes
    | list | tuple | construct => exact hes
  | method p r n es ihr ih =>
    intro place path bound
    have hr := (ihr place (.part 0 :: path) bound).deeper
    have hes := asked_demandsAll ih place path bound part_injective 1
    rw [Expr.demands, asked_append]
    refine (hr.append hes ?_).imp fun _ _ => trivial
    rintro st rfl ⟨j, hj, heq⟩
    cases heq
    omega
  | lambda p ps e ih =>
    intro place path bound
    exact (ih place (.part 0 :: path) (ps ++ bound)).deeper.imp fun _ _ => trivial
  | query p q hq =>
    intro place path bound
    rw [Expr.demands, asked_filter fun _ => rfl]
    exact asked_queryDemands hq path

/-! ## Nodes above -/

theorem Below.longer {path : Path} {kind : Step → Prop} {nodes : List Path}
    (h : Below path kind nodes) {node : Path} (hnode : node ∈ nodes) : path.length < node.length := by
  obtain ⟨step, -, rest, rfl⟩ := h.below node hnode
  rw [List.length_append, List.length_cons]
  omega

/-- No node is asked for that stands as high as the expression. -/
theorem not_asked_above (e : Expr) {place : Place} {path node : Path} {bound : List String}
    (h : node.length ≤ path.length) : .name node ∉ e.demands c place path bound := by
  intro hnode
  have hlonger := (asksBelow e place path bound).longer (mem_asked.mpr hnode)
  omega

theorem not_asked_above_all (es : List Expr) {place : Place} {path node : Path}
    {bound : List String} {step : Nat → Step} {i : Nat} (h : node.length ≤ path.length + 1) :
    .name node ∉ demandsAll c place path bound step i es := by
  induction es generalizing i with
  | nil => exact List.not_mem_nil
  | cons e es ih =>
    rw [demandsAll, List.mem_append, not_or]
    exact ⟨not_asked_above e h, ih⟩

theorem not_asked_above_query (q : Query Expr) {path node : Path} (h : node.length ≤ path.length) :
    .name node ∉ queryDemands c path q := by
  intro hnode
  have hlonger := (asked_queryDemands (q.each_of_forall asksBelow) path).longer (mem_asked.mpr hnode)
  omega

/-- The nodes that a query asks names for, each once. -/
theorem nodup_asked (c : Config) (path : Path) (q : Query Expr) :
    (asked (queryDemands c path q)).Nodup :=
  (asked_queryDemands (q.each_of_forall asksBelow) path).nodup

end Comprehension
