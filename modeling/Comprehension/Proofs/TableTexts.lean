import Comprehension.NameTable.Json
import Comprehension.Proofs.JsonText

/-!
Name tables as JSON text, for whatever reads and writes JSON. A table is read back from its own
text, and from every other text of the same entries, whatever its blanks and escapes. Where a key
comes twice, it keeps its first place and its last names.
-/

namespace Comprehension.NameTable

/-- The entries one after the other, put into a table. -/
def setAll (t : NameTable) (es : List (NameList × List String)) : NameTable :=
  es.foldl (fun t e => t.set e.1 e.2) t

/-! ## Writing -/

theorem isPlain_namesJson (names : List String) : (namesJson names).IsPlain :=
  Json.isPlain_array (List.forall_mem_map.mpr fun n _ => Json.isPlain_string n)

theorem isPlain_entriesJson (es : List (NameList × List String)) : (entriesJson es).IsPlain :=
  Json.isPlain_object (List.forall_mem_map.mpr fun e _ =>
    ⟨Option.some_ne_none e.1.key, isPlain_namesJson e.2⟩)

/-! ## Reading -/

theorem ofKey?_eq_some {key : String} {l : NameList} :
    NameList.ofKey? key = some l ↔ l.key = key := by
  constructor
  · intro h
    simpa using List.find?_some h
  · rintro rfl
    cases l <;> decide

theorem names?_cons (v : Json) (items : List Json) :
    names? (.array (v :: items)) =
      (names? (.array [v])).bind fun ns => (names? (.array items)).map (ns ++ ·) := by
  simp only [names?, List.mapM_cons, List.mapM_nil]
  cases v with
  | string s =>
    cases s with
    | none => rfl
    | some n => exact Option.map_eq_bind.symm
  | _ => rfl

theorem names?_singleton {v : Json} {names : List String} :
    names? (.array [v]) = some names ↔ ∃ n, v = .string (some n) ∧ names = [n] := by
  cases v with
  | string s => cases s <;> simp [names?, eq_comm]
  | _ => simp [names?]

theorem names?_eq_some {v : Json} {names : List String} :
    names? v = some names ↔ namesJson names = v := by
  cases v with
  | array items =>
    rw [namesJson, Json.array.injEq]
    induction items generalizing names with
    | nil =>
      rw [List.map_eq_nil_iff]
      exact (Option.some_inj (a := [])).trans eq_comm
    | cons v items ih =>
      rw [names?_cons]
      simp only [Option.bind_eq_some_iff, names?_singleton, Option.map_eq_some_iff, ih,
        List.map_eq_cons_iff]
      constructor
      · rintro ⟨_, ⟨n, rfl, rfl⟩, ns, hns, rfl⟩
        exact ⟨n, ns, rfl, rfl, hns⟩
      · rintro ⟨n, ns, rfl, rfl, hns⟩
        exact ⟨[n], ⟨n, rfl, rfl⟩, ns, hns, rfl⟩
  | _ => simp [names?, namesJson]

theorem setEntry?_eq_some {t u : NameTable} {e : Option String × Json} :
    setEntry? t e = some u ↔
      ∃ l names, (some l.key, namesJson names) = e ∧ t.set l names = u := by
  obtain ⟨k, v⟩ := e
  unfold setEntry?
  simp only [Option.bind_eq_bind, Option.bind_eq_some_iff, ofKey?_eq_some, names?_eq_some]
  constructor
  · rintro ⟨_, rfl, l, rfl, names, rfl, h⟩
    exact ⟨l, names, rfl, Option.some.inj h⟩
  · rintro ⟨l, names, h, rfl⟩
    obtain ⟨rfl, rfl⟩ := Prod.mk.inj h
    exact ⟨_, rfl, l, rfl, names, rfl, rfl⟩

theorem foldlM_setEntry?_eq_some {entries : List (Option String × Json)} {t u : NameTable} :
    entries.foldlM setEntry? t = some u ↔
      ∃ es : List (NameList × List String),
        es.map (fun e => (some e.1.key, namesJson e.2)) = entries ∧ t.setAll es = u := by
  induction entries generalizing t with
  | nil => simp [setAll]
  | cons e entries ih =>
    simp only [List.foldlM_cons, Option.bind_eq_bind, Option.bind_eq_some_iff, setEntry?_eq_some,
      ih, List.map_eq_cons_iff]
    constructor
    · rintro ⟨_, ⟨l, names, he, rfl⟩, es, hes, rfl⟩
      exact ⟨(l, names) :: es, ⟨_, _, rfl, he, hes⟩, rfl⟩
    · rintro ⟨_, ⟨⟨l, names⟩, es, rfl, he, hes⟩, rfl⟩
      exact ⟨_, ⟨l, names, he, rfl⟩, es, hes, rfl⟩

/-- A value is read as a table just if it holds entries of a table, which are set in order. -/
theorem ofJson?_eq_some {v : Json} {t : NameTable} :
    ofJson? v = some t ↔ ∃ es, entriesJson es = v ∧ empty.setAll es = t := by
  cases v with
  | object entries =>
    simp only [ofJson?, foldlM_setEntry?_eq_some, entriesJson, Json.object.injEq]
  | _ => simp [ofJson?, entriesJson]

/-- Entries under different keys, all of them new, are appended. -/
theorem entries_setAll {t : NameTable} {es : List (NameList × List String)}
    (h : (Assoc.keys (t.entries ++ es)).Nodup) : (t.setAll es).entries = t.entries ++ es := by
  induction es generalizing t with
  | nil => exact (List.append_nil _).symm
  | cons e es ih =>
    have hnew : e.1 ∉ Assoc.keys t.entries := by
      rw [Assoc.keys, List.map_append, List.map_cons, List.nodup_append] at h
      exact fun hmem => h.2.2 e.1 hmem e.1 List.mem_cons_self rfl
    have hset : (t.set e.1 e.2).entries = t.entries ++ [e] := Assoc.put_of_not_mem hnew e.2
    rw [setAll, List.foldl_cons, ← setAll, ih]
    · rw [hset, List.append_assoc, List.singleton_append]
    · rwa [hset, List.append_assoc, List.singleton_append]

theorem setAll_entries (t : NameTable) : empty.setAll t.entries = t := by
  have h : (empty.setAll t.entries).entries = t.entries := entries_setAll t.nodup
  cases t
  cases hset : empty.setAll _
  simp_all

section

variable {read : String → Option Json} {write : Json → String}

theorem readBy?_eq_some {text : String} {t : NameTable} :
    readBy? read text = some t ↔
      ∃ es, read text = some (entriesJson es) ∧ empty.setAll es = t := by
  rw [readBy?, Option.bind_eq_some_iff]
  constructor
  · rintro ⟨v, hread, hv⟩
    obtain ⟨es, rfl, h⟩ := ofJson?_eq_some.mp hv
    exact ⟨es, hread, h⟩
  · rintro ⟨es, hread, h⟩
    exact ⟨_, hread, ofJson?_eq_some.mpr ⟨es, rfl, h⟩⟩

theorem readBy?_of_isText (hread : Json.Reads read) {es : List (NameList × List String)}
    {text : String} (h : (entriesJson es).IsText text) :
    readBy? read text = some (empty.setAll es) :=
  readBy?_eq_some.mpr ⟨es, hread _ text h, rfl⟩

theorem readBy?_writtenBy (hread : Json.Reads read) (hwrite : Json.Writes write) (t : NameTable) :
    readBy? read (t.writtenBy write) = some t := by
  have htext : (entriesJson t.entries).IsText (t.writtenBy write) :=
    hwrite _ (isPlain_entriesJson t.entries)
  rw [readBy?_of_isText hread htext, setAll_entries]

/-- Whatever reads and writes JSON, every table, wherever it comes from, is read back from its own
text as it was, names and keys in order. Every text of entries, however it is spaced and escaped, is
read as the entries put into a table one after the other. No other value is read as a table, and the
table that a text is read as is read back from its own text too. -/
theorem tables_survive_json (hread : Json.Reads read) (hwrite : Json.Writes write) :
    (∀ t : NameTable, readBy? read (t.writtenBy write) = some t) ∧
      (∀ (es : List (NameList × List String)) (text : String),
        (entriesJson es).IsText text → readBy? read text = some (empty.setAll es)) ∧
      ∀ (text : String) (t : NameTable), readBy? read text = some t →
        ∃ es, read text = some (entriesJson es) ∧ empty.setAll es = t ∧
          readBy? read (t.writtenBy write) = some t := by
  refine ⟨readBy?_writtenBy hread hwrite, fun es text => readBy?_of_isText hread,
    fun text t h => ?_⟩
  obtain ⟨es, hvalue, hes⟩ := readBy?_eq_some.mp h
  exact ⟨es, hvalue, hes, readBy?_writtenBy hread hwrite t⟩

end

/-- A key that comes twice keeps its first place and its last names. -/
theorem tables_survive_json_repeatedKey :
    let es := [(NameList.groups, ["a"]), (.aliases, ["say \"hi\"\n"]), (.groups, ["é", "\\"])]
    let text := "\n\x7b\"groupNameList\":[\"a\"],\"aliasNameList\":[\"say \\\"hi\\\"\\n\"]," ++
      "\"groupNameList\":[\"é\",\"\\\\\"]\x7d"
    let t := empty.setAll es
    (Json.Reads Json.read? ∧ Json.Writes Json.write) ∧ (entriesJson es).IsText text ∧
      read? text = some t ∧ t.entries = [(.groups, ["é", "\\"]), (.aliases, ["say \"hi\"\n"])] ∧
      t.toJson = "\x7b\"groupNameList\":[\"é\",\"\\\\\"],\"aliasNameList\":" ++
        "[\"say \\\"hi\\\"\\n\"]\x7d" ∧
      read? t.toJson = some t := by
  intro es text t
  have htext : text.toList = '\n' :: (entriesJson es).written.flatMap Json.Token.text := by decide
  have hspells : (entriesJson es).IsText text := by
    rw [Json.IsText, htext]
    exact .blank (by decide) (Json.spells_text (isPlain_entriesJson es))
  obtain ⟨hwritten, hread, -⟩ := tables_survive_json Json.reads_read? Json.writes_write
  exact ⟨⟨Json.reads_read?, Json.writes_write⟩, hspells, hread es text hspells, rfl, by decide,
    hwritten t⟩

end Comprehension.NameTable
