import Comprehension.Config.Json
import Comprehension.Proofs.JsonText

/-!
Configurations that are given in part, for whatever reads and writes JSON. A JSON object gives some
of the fields, in any order and among other keys; the rest keep their standard values, and the whole
is checked once. The check asks for ASCII identifiers and for two of them to differ, and reports the
first field at fault.
-/

namespace Comprehension

/-! ## Identifiers -/

/-- A letter or an underscore, then letters, digits and underscores. -/
def Identifier.IsWord (s : String) : Prop :=
  ∃ c cs, s.toList = c :: cs ∧ (c.isAlpha ∨ c = '_') ∧ ∀ d ∈ cs, d.isAlphanum ∨ d = '_'

theorem Identifier.isIdentifier_iff {s : String} : isIdentifier s = true ↔ IsWord s := by
  have hupper (c : Char) : isUpper c = c.isUpper :=
    (Bool.decide_and (c.val ≥ 'A'.val) (c.val ≤ 'Z'.val)).symm
  have hletter (c : Char) : (isLower c || isUpper c) = c.isAlpha := by
    rw [hupper, Bool.or_comm]
    rfl
  have hdigit (c : Char) : isDigit c = c.isDigit := rfl
  have hstart (c : Char) : isStart c = true ↔ c.isAlpha ∨ c = '_' := by
    simp [isStart, hletter]
  have hpart (c : Char) : isPart c = true ↔ c.isAlphanum ∨ c = '_' := by
    have halphanum : c.isAlphanum = (c.isAlpha || c.isDigit) := rfl
    rw [isPart, Bool.or_eq_true, hstart, hdigit, halphanum, Bool.or_eq_true]
    exact or_right_comm
  unfold isIdentifier IsWord
  cases s.toList with
  | nil => simp
  | cons c cs => simp [hstart, hpart]

namespace Config

/-! ## Fields -/

/-- The standard configuration, with the given fields of `c` in it. -/
def merged (c : Config) (given : List String) : Config where
  stem := if "synthetic_prefix" ∈ given then c.stem else standard.stem
  table := if "metadata_binding" ∈ given then c.table else standard.table
  counter := if "row_counter" ∈ given then c.counter else standard.counter
  rowNumber := if "row_number_identifier" ∈ given then c.rowNumber else standard.rowNumber
  group := if "group_identifier" ∈ given then c.group else standard.group
  inlinePaths := if "inline_bindings" ∈ given then c.inlinePaths else standard.inlinePaths

/-- The entries give these fields of `c` once each and no other field. -/
structure Gives (c : Config) (given : List String) (es : List (Option String × Json)) : Prop where
  /-- No key is half a surrogate pair. -/
  texts : ∀ e ∈ es, e.1 ≠ none
  fields : (es.filter (·.1 ∈ keys.map some)).Perm
    ((c.fields.filter (·.1 ∈ given)).map fun f => (some f.1, f.2))

variable {c : Config} {given : List String}

theorem merged_congr {other : List String} (h : ∀ k ∈ keys, k ∈ given ↔ k ∈ other) :
    c.merged given = c.merged other := by
  simp only [keys, List.forall_mem_cons] at h
  simp only [merged, h]

theorem setKey?_of_mem {k : String} {v : Json} (h : (k, v) ∈ c.fields) :
    (c.merged given).setKey? k v = some (c.merged (k :: given)) := by
  simp only [fields, namedFields, List.map_cons, List.map_nil, List.cons_append, List.nil_append,
    List.mem_cons, Prod.mk.injEq, List.not_mem_nil, or_false] at h
  rcases h with ⟨rfl, rfl⟩ | ⟨rfl, rfl⟩ | ⟨rfl, rfl⟩ | ⟨rfl, rfl⟩ | ⟨rfl, rfl⟩ | ⟨rfl, rfl⟩ <;>
    simp [setKey?, merged]

theorem setKey?_of_not_mem {k : String} (h : k ∉ keys) (b : Config) (v : Json) :
    b.setKey? k v = some b := by
  have hne := h
  simp only [keys, List.mem_cons, List.not_mem_nil, or_false, not_or] at hne
  cases v with
  | string s => cases s <;> simp [setKey?, h, hne]
  | bool b => simp [setKey?, h, hne]
  | _ => simp [setKey?, h]

/-! ## Reading -/

/-- Entries that give fields of `c`, and others, leave a configuration with these fields of `c`. -/
theorem foldlM_setEntry {es : List (Option String × Json)}
    (h : ∀ e ∈ es, ∃ k, e.1 = some k ∧ (k ∈ keys → (k, e.2) ∈ c.fields)) :
    es.foldlM setEntry? (c.merged given) = some (c.merged (es.filterMap (·.1) ++ given)) := by
  induction es generalizing given with
  | nil => rfl
  | cons e es ih =>
    obtain ⟨⟨k, hk, hfield⟩, hes⟩ := List.forall_mem_cons.mp h
    obtain ⟨_, v⟩ := e
    obtain rfl : _ = some k := hk
    have hset : setEntry? (c.merged given) (some k, v) = some (c.merged (k :: given)) := by
      by_cases hkey : k ∈ keys
      · exact setKey?_of_mem (hfield hkey)
      · change setKey? (c.merged given) k v = _
        rw [setKey?_of_not_mem hkey]
        refine congrArg some (merged_congr fun j hj => ?_)
        simp [ne_of_mem_of_not_mem hj hkey]
    rw [List.foldlM_cons, hset]
    refine (ih hes).trans (congrArg some (merged_congr fun j _ => ?_))
    simp only [List.filterMap_cons, List.mem_append, List.mem_cons]
    tauto

theorem map_fst_fields (c : Config) : c.fields.map (·.1) = keys := rfl

namespace Gives

variable {es : List (Option String × Json)} (h : c.Gives given es)
include h

theorem keys_perm : ((es.filterMap (·.1)).filter (· ∈ keys)).Perm (keys.filter (· ∈ given)) := by
  have hes : (es.filterMap (·.1)).filter (· ∈ keys) =
      (es.filter (·.1 ∈ keys.map some)).filterMap (·.1) := by
    clear h
    induction es with
    | nil => rfl
    | cons e es ih =>
      obtain ⟨_ | k, v⟩ := e
      · simpa using ih
      · by_cases hk : k ∈ keys <;> simp_all
  have hfields : keys.filter (· ∈ given) =
      ((c.fields.filter (·.1 ∈ given)).map fun f => (some f.1, f.2)).filterMap (·.1) := by
    rw [← c.map_fst_fields, List.filter_map, List.filterMap_map]
    simp [Function.comp_def]
  rw [hes, hfields]
  exact h.fields.filterMap _

theorem entry {e : Option String × Json} (he : e ∈ es) :
    ∃ k, e.1 = some k ∧ (k ∈ keys → (k, e.2) ∈ c.fields) := by
  obtain ⟨k, hk⟩ := Option.ne_none_iff_exists'.mp (h.texts e he)
  refine ⟨k, hk, fun hkey => ?_⟩
  have hmem : e ∈ es.filter (·.1 ∈ keys.map some) := by
    simp [he, hk, hkey]
  obtain ⟨f, hf, rfl⟩ := List.mem_map.mp (h.fields.mem_iff.mp hmem)
  obtain rfl := Option.some.inj hk
  exact (List.mem_filter.mp hf).1

theorem ofJson? : ofJson? (.object es) = some (c.merged given) := by
  have hnodup : ((es.filterMap (·.1)).filter (· ∈ keys)).Nodup :=
    h.keys_perm.nodup_iff.mpr (List.Pairwise.filter _ (by decide))
  have hkeys : ∀ k ∈ keys, k ∈ es.filterMap (·.1) ++ [] ↔ k ∈ given := fun k hk => by
    have hmem := h.keys_perm.mem_iff (a := k)
    simpa [hk] using hmem
  have hfold : es.foldlM setEntry? (c.merged []) = _ := foldlM_setEntry fun e he => h.entry he
  rw [Config.ofJson?, if_pos hnodup, ← merged_congr hkeys]
  exact hfold

end Gives

theorem readBy_of_isText {read : String → Option Json} (hread : Json.Reads read)
    {es : List (Option String × Json)} {text : String} (h : c.Gives given es)
    (htext : (Json.object es).IsText text) : readBy read text = (c.merged given).validate := by
  rw [readBy, hread _ text htext, Option.bind_some, h.ofJson?]

/-! ## Writing -/

theorem isPlain_fields (c : Config) :
    (Json.object (c.fields.map fun f => (some f.1, f.2))).IsPlain := by
  refine Json.isPlain_object (List.forall_mem_map.mpr fun f hf => ⟨Option.some_ne_none f.1, ?_⟩)
  rw [fields, List.mem_append, List.mem_map, List.mem_singleton] at hf
  obtain ⟨n, -, rfl⟩ | rfl := hf
  · exact Json.isPlain_string n.2
  · exact Json.isPlain_bool c.inlinePaths

theorem gives_fields (c : Config) : c.Gives keys (c.fields.map fun f => (some f.1, f.2)) where
  texts := List.forall_mem_map.mpr fun f _ => Option.some_ne_none f.1
  fields := by
    have hkeys : ∀ f ∈ c.fields, f.1 ∈ keys := fun f hf =>
      c.map_fst_fields ▸ List.mem_map_of_mem hf
    rw [List.filter_eq_self.mpr, List.filter_eq_self.mpr]
    · exact fun f hf => decide_eq_true (hkeys f hf)
    · exact List.forall_mem_map.mpr fun f hf =>
        decide_eq_true (List.mem_map_of_mem (hkeys f hf))

theorem merged_allKeys (c : Config) : c.merged keys = c := by
  simp [merged, keys]

theorem readBy_writtenBy {read : String → Option Json} (hread : Json.Reads read)
    {write : Json → String} (hwrite : Json.Writes write) (c : Config) :
    readBy read (c.writtenBy write) = c.validate := by
  have htext := hwrite _ c.isPlain_fields
  exact (readBy_of_isText hread c.gives_fields htext).trans (congrArg validate c.merged_allKeys)

/-! ## Checking -/

/-- The five names are ASCII identifiers, and two of them differ. -/
structure IsSound (c : Config) : Prop where
  words : ∀ f ∈ c.namedFields, Identifier.IsWord f.2
  differ : c.rowNumber ≠ c.group

theorem find?_notIdentifier {before after : List (String × String)} {f : String × String}
    (hfields : c.namedFields = before ++ f :: after)
    (hbefore : ∀ g ∈ before, Identifier.IsWord g.2) (hf : ¬ Identifier.IsWord f.2) :
    c.namedFields.find? (!Identifier.isIdentifier ·.2) = some f := by
  rw [hfields, List.find?_eq_some_iff_append]
  refine ⟨?_, before, after, rfl, fun g hg => ?_⟩
  · simpa [← Identifier.isIdentifier_iff] using hf
  · simpa [← Identifier.isIdentifier_iff] using hbefore g hg

theorem validate_of_words (h : ∀ f ∈ c.namedFields, Identifier.IsWord f.2) :
    c.validate = if c.rowNumber = c.group then .error (.config .identifiersClash) else .ok c := by
  have hnone : c.namedFields.find? (!Identifier.isIdentifier ·.2) = none := by
    simpa [← Identifier.isIdentifier_iff] using h
  rw [validate, fault?, hnone]
  split <;> simp_all

/-- The check names the first field at fault, the one after only words. -/
theorem validate_of_not_word {before after : List (String × String)} {f : String × String}
    (hfields : c.namedFields = before ++ f :: after)
    (hbefore : ∀ g ∈ before, Identifier.IsWord g.2) (hf : ¬ Identifier.IsWord f.2) :
    c.validate = .error (.config (.notIdentifier f.1 f.2)) := by
  rw [validate, fault?, find?_notIdentifier hfields hbefore hf]

theorem validate_eq_ok : c.validate = .ok c ↔ c.IsSound := by
  constructor
  · intro h
    cases hfind : c.namedFields.find? (!Identifier.isIdentifier ·.2) with
    | some f => simp [validate, fault?, hfind] at h
    | none =>
      have hwords : ∀ f ∈ c.namedFields, Identifier.IsWord f.2 := by
        simpa [← Identifier.isIdentifier_iff] using hfind
      rw [validate_of_words hwords] at h
      exact ⟨hwords, fun heq => by simp [heq] at h⟩
  · intro h
    rw [validate_of_words h.words, if_neg h.differ]

/-- Whatever reads and writes JSON, every text of an object that gives some fields of `c`, in any
order and among other keys, reads as the check of the standard configuration with these fields in
it; what `c` is written as reads as the check of `c`. The check lets a configuration pass just if
its names are ASCII identifiers and the row number and the group have different ones. Else it names
the first field that holds no identifier, or the clash where all do. -/
theorem partial_config_read {read : String → Option Json} (hread : Json.Reads read)
    {write : Json → String} (hwrite : Json.Writes write) (c : Config) :
    (∀ (given : List String) (es : List (Option String × Json)) (text : String),
      c.Gives given es → (Json.object es).IsText text →
        readBy read text = (c.merged given).validate) ∧
      readBy read (c.writtenBy write) = c.validate ∧ (c.validate = .ok c ↔ c.IsSound) ∧
      (∀ before f after, c.namedFields = before ++ f :: after →
        (∀ g ∈ before, Identifier.IsWord g.2) → ¬ Identifier.IsWord f.2 →
          c.validate = .error (.config (.notIdentifier f.1 f.2))) ∧
      ((∀ f ∈ c.namedFields, Identifier.IsWord f.2) → c.rowNumber = c.group →
        c.validate = .error (.config .identifiersClash)) := by
  refine ⟨fun given es text => readBy_of_isText hread, readBy_writtenBy hread hwrite c,
    validate_eq_ok, fun before f after => validate_of_not_word, fun hwords hclash => ?_⟩
  rw [validate_of_words hwords, if_pos hclash]

/-- The group has no identifier; the other key is passed over with all that it holds. -/
theorem partial_config_read_otherKey :
    let c : Config := { Config.inlined with group := "my group", stem := "t" }
    let es : List (Option String × Json) :=
      [(some "note", .array [.null, .object [(some "group_identifier", .bool true)]]),
        (some "inline_bindings", .bool true), (some "group_identifier", .string (some "my group"))]
    let text := "\x7b\"note\":[null,\x7b\"group_identifier\":true\x7d],\"inline_bindings\":true," ++
      "\"group_identifier\":\"my group\"\x7d"
    (Json.Reads Json.read? ∧ Json.Writes Json.write) ∧
      c.Gives ["group_identifier", "inline_bindings"] es ∧ (Json.object es).IsText text ∧
      read text = .error (.config (.notIdentifier "group_identifier" "my group")) ∧
      read c.toJson = .error (.config (.notIdentifier "group_identifier" "my group")) := by
  intro c es text
  have hgives : c.Gives ["group_identifier", "inline_bindings"] es :=
    ⟨by simp [es], List.Perm.swap _ _ _⟩
  have htext : (Json.object es).IsText text := by
    have hwrite : text = Json.write (.object es) := by decide
    rw [hwrite]
    refine Json.writes_write _ ?_
    simp [es, Json.IsPlain, Json.written, Json.laterEntries, Json.laterItems, Json.Token.IsPlain]
  obtain ⟨hread, hwritten, -⟩ := partial_config_read Json.reads_read? Json.writes_write c
  refine ⟨⟨Json.reads_read?, Json.writes_write⟩, hgives, htext, ?_, ?_⟩
  · exact (hread _ es text hgives htext).trans (by decide)
  · exact hwritten.trans (by decide)

end Config
end Comprehension
