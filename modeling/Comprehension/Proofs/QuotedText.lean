import Mathlib.Data.List.Infix
import Comprehension.Literal
import Comprehension.NameTable

/-!
Reading quoted text back. A reader of string literals takes what a backslash stands before as it is
and stops at the first quote that is not escaped. It reads back exactly the literals without a
backslash, since only quotes are escaped. The names of a table are not escaped at all; tables are
still told apart by their text, as long as no name looks as if it closed before its end.
-/

namespace Comprehension

/-! ## String literals -/

namespace Literal

/-- What stands before the closing quote, and what comes after that quote. -/
def readBody : List Char → Option (List Char × List Char)
  | '\\' :: c :: cs => (readBody cs).map fun r => (c :: r.1, r.2)
  | '\x27' :: cs => some ([], cs)
  | c :: cs => (readBody cs).map fun r => (c :: r.1, r.2)
  | [] => none

/-- Reads a string from its opening quote, and gives the text after its closing quote too. -/
def readString? : List Char → Option (List Char × List Char)
  | '\x27' :: cs => readBody cs
  | _ => none

theorem readBody_cons {c : Char} (hbackslash : c ≠ '\\') (hquote : c ≠ '\x27') (cs : List Char) :
    readBody (c :: cs) = (readBody cs).map fun r => (c :: r.1, r.2) := by
  rw [readBody]
  · exact fun _ _ h _ => hbackslash h
  · exact hquote

theorem length_escapeQuotes (s : List Char) :
    (escapeQuotes s).length = s.length + s.count '\x27' := by
  induction s with
  | nil => rfl
  | cons c s ih =>
    by_cases h : c = '\x27' <;> simp [escapeQuotes, h, ih] <;> omega

/-- Each quote and each backslash that is read costs one character more. -/
theorem length_of_readBody {text s rest : List Char} (h : readBody text = some (s, rest)) :
    s.length + s.count '\x27' + s.count '\\' + rest.length < text.length := by
  induction text using readBody.induct generalizing s with
  | case1 c cs ih =>
    obtain ⟨r, hread, hr⟩ := Option.map_eq_some_iff.mp h
    obtain ⟨rfl, rfl⟩ := Prod.mk.inj hr
    have hlength := ih hread
    have hcost : (c :: r.1).count '\x27' + (c :: r.1).count '\\' ≤
        r.1.count '\x27' + r.1.count '\\' + 1 := by
      by_cases hc : c = '\x27'
      · simp [hc]; omega
      · simp [List.count_cons, hc]; split <;> omega
    simp only [List.length_cons]
    omega
  | case2 cs =>
    obtain ⟨rfl, rfl⟩ := Prod.mk.inj (Option.some.inj h)
    simp
  | case3 c cs hbackslash hquote ih =>
    rw [readBody] at h
    · obtain ⟨r, hread, hr⟩ := Option.map_eq_some_iff.mp h
      obtain ⟨rfl, rfl⟩ := Prod.mk.inj hr
      have hlength := ih hread
      have hc : c ≠ '\x27' := hquote
      by_cases hescape : c = '\\'
      · subst hescape
        cases cs with
        | nil => cases hread
        | cons d ds => exact (hbackslash d ds rfl rfl).elim
      · simp only [List.length_cons, List.count_cons_of_ne hc, List.count_cons_of_ne hescape]
        omega
    · exact hbackslash
    · exact hquote
  | case4 => cases h

theorem readBody_escapeQuotes {s : List Char} (h : '\\' ∉ s) (rest : List Char) :
    readBody (escapeQuotes s ++ '\x27' :: rest) = some (s, rest) := by
  induction s with
  | nil => rfl
  | cons c s ih =>
    obtain ⟨hc, hs⟩ : '\\' ≠ c ∧ '\\' ∉ s := by simpa using h
    by_cases hquote : c = '\x27'
    · simp [escapeQuotes, hquote, readBody, ih hs]
    · rw [escapeQuotes, if_neg hquote, List.cons_append, readBody_cons (Ne.symm hc) hquote, ih hs]
      rfl

theorem toList_text_string (s : String) :
    (string s).text.toList = '\x27' :: (escapeQuotes s.toList ++ ['\x27']) := by
  simp [text, quoted]

/-- A literal is read back, up to its closing quote, just if it holds no backslash. -/
theorem readString?_text (s : String) (rest : List Char) :
    readString? ((string s).text.toList ++ rest) = some (s.toList, rest) ↔ '\\' ∉ s.toList := by
  rw [toList_text_string, List.cons_append, List.append_assoc, List.singleton_append, readString?]
  refine ⟨fun h => ?_, fun h => readBody_escapeQuotes h rest⟩
  have hlength := length_of_readBody h
  simp only [List.length_append, List.length_cons, length_escapeQuotes] at hlength
  exact List.count_eq_zero.mp (by omega)

end Literal

/-! ## Names in quotes -/

/-- What stands after the closing quote of a name, but at the end of a table: the next name, or
another list. -/
def nameFollowers : List (List Char) := [", '".toList, "], ".toList]

/-- Before its closing quote the name holds one that seems to close it. -/
def ClosesEarly (name : String) : Prop :=
  ∃ p ∈ nameFollowers, '\x27' :: p <:+: name.toList ++ ['\x27']

instance : DecidablePred ClosesEarly := fun name =>
  inferInstanceAs (Decidable (∃ p ∈ nameFollowers, '\x27' :: p <:+: name.toList ++ ['\x27']))

def FollowsName (text : List Char) : Prop := text = [] ∨ ∃ p ∈ nameFollowers, p <+: text

/-- The names after the first one, each with the comma before it. -/
def laterNames : List String → List Char
  | [] => []
  | n :: ns => ", '".toList ++ (n.toList ++ '\x27' :: laterNames ns)

def quotedNames : List String → List Char
  | [] => []
  | n :: ns => '\x27' :: (n.toList ++ '\x27' :: laterNames ns)

theorem toList_intercalate_quotes (ns : List String) :
    (", ".intercalate (ns.map fun n => "'" ++ n ++ "'")).toList = quotedNames ns := by
  induction ns with
  | nil => rfl
  | cons n ns ih =>
    cases ns with
    | nil => simp [quotedNames, laterNames]
    | cons m ns =>
      rw [String.toList_intercalate] at ih ⊢
      simp only [List.map_cons] at ih ⊢
      rw [List.intercalate_cons_cons, ih]
      simp [quotedNames, laterNames]

/-- A name that holds the text between two names is written like the two. -/
theorem quotedNames_joined (n m : String) (ns : List String) :
    quotedNames ((n ++ "', '" ++ m) :: ns) = quotedNames (n :: m :: ns) := by
  simp [quotedNames, laterNames]

theorem prefix_append_quote {w rest p : List Char} (h : p <+: w ++ '\x27' :: rest)
    (hp : p ∈ nameFollowers) : p <+: w ++ ['\x27'] := by
  have hquote : '\x27' ∉ p.dropLast := by
    rcases List.mem_pair.mp hp with rfl | rfl <;> decide
  have hw : w ++ ['\x27'] <+: w ++ '\x27' :: rest := ⟨rest, by simp⟩
  rcases List.prefix_or_prefix_of_prefix h hw with h | ⟨z, rfl⟩
  · exact h
  · rcases List.eq_nil_or_concat z with rfl | ⟨z, c, rfl⟩
    · simp
    · simp [← List.append_assoc] at hquote

/-- A name that seems to end at a quote inside it closes early. -/
theorem closesEarly_of_follows {n w y : List Char} (h : FollowsName (w ++ '\x27' :: y)) :
    ClosesEarly (String.ofList (n ++ '\x27' :: w)) := by
  rcases h with h | ⟨p, hp, h⟩
  · simp at h
  · obtain ⟨z, hz⟩ := prefix_append_quote h hp
    exact ⟨p, hp, n, z, by simp [← hz]⟩

/-- Two names that do not close early end at the same quote. -/
theorem names_eq_of_append {n m : String} {x y : List Char} (hn : ¬ ClosesEarly n)
    (hm : ¬ ClosesEarly m) (hx : FollowsName x) (hy : FollowsName y)
    (h : n.toList ++ '\x27' :: x = m.toList ++ '\x27' :: y) : n = m ∧ x = y := by
  rcases List.append_eq_append_iff.mp h with ⟨a, hname, ha⟩ | ⟨a, hname, ha⟩
  · cases a with
    | nil => exact ⟨String.toList_inj.mp (by simpa using hname.symm), by simpa using ha⟩
    | cons c w =>
      obtain ⟨rfl, rfl⟩ := List.cons.inj ha
      refine absurd ?_ hm
      rw [← String.ofList_toList (s := m), hname]
      exact closesEarly_of_follows hx
  · cases a with
    | nil => exact ⟨String.toList_inj.mp (by simpa using hname), by simpa using ha.symm⟩
    | cons c w =>
      obtain ⟨rfl, rfl⟩ := List.cons.inj ha
      refine absurd ?_ hn
      rw [← String.ofList_toList (s := n), hname]
      exact closesEarly_of_follows hy

/-- What follows the names of a list. -/
def FollowsList (text : List Char) : Prop := text = [] ∨ "], ".toList <+: text

theorem FollowsList.laterNames {text : List Char} (h : FollowsList text) (ns : List String) :
    FollowsName (laterNames ns ++ text) := by
  cases ns with
  | nil => exact h.imp id fun h => ⟨_, by decide, h⟩
  | cons n ns => exact .inr ⟨", '".toList, by decide, by simp [Comprehension.laterNames]⟩

theorem laterNames_ne {n : String} {ns : List String} {x y : List Char} (hx : FollowsList x) :
    x ≠ laterNames (n :: ns) ++ y := by
  rintro rfl
  rcases hx with h | h <;> simp [laterNames] at h

theorem laterNames_inj {ns ms : List String} {x y : List Char} (hns : ∀ n ∈ ns, ¬ ClosesEarly n)
    (hms : ∀ m ∈ ms, ¬ ClosesEarly m) (hx : FollowsList x) (hy : FollowsList y)
    (h : laterNames ns ++ x = laterNames ms ++ y) : ns = ms ∧ x = y := by
  induction ns generalizing ms with
  | nil =>
    cases ms with
    | nil => exact ⟨rfl, h⟩
    | cons m ms => exact absurd h (laterNames_ne hx)
  | cons n ns ih =>
    cases ms with
    | nil => exact absurd h.symm (laterNames_ne hy)
    | cons m ms =>
      simp only [laterNames, List.append_assoc, List.append_cancel_left_eq, List.cons_append] at h
      rw [List.forall_mem_cons] at hns hms
      obtain ⟨rfl, hrest⟩ :=
        names_eq_of_append hns.1 hms.1 (hx.laterNames ns) (hy.laterNames ms) h
      obtain ⟨rfl, hxy⟩ := ih hns.2 hms.2 hrest
      exact ⟨rfl, hxy⟩

theorem quotedNames_inj {ns ms : List String} {x y : List Char} (hns : ∀ n ∈ ns, ¬ ClosesEarly n)
    (hms : ∀ m ∈ ms, ¬ ClosesEarly m) (hx : FollowsList x) (hy : FollowsList y)
    (h : quotedNames ns ++ x = quotedNames ms ++ y) : ns = ms ∧ x = y := by
  have hne {n : String} {ns : List String} {x y : List Char} (hx : FollowsList x) :
      x ≠ quotedNames (n :: ns) ++ y := by
    rintro rfl
    rcases hx with h | h <;> simp [quotedNames] at h
  cases ns with
  | nil =>
    cases ms with
    | nil => exact ⟨rfl, h⟩
    | cons m ms => exact absurd h (hne hx)
  | cons n ns =>
    cases ms with
    | nil => exact absurd h.symm (hne hy)
    | cons m ms =>
      -- the comma before the first name is all that it lacks
      refine laterNames_inj hns hms hx hy ?_
      simp only [quotedNames, List.cons_append, List.cons.injEq, true_and] at h
      simpa [laterNames] using h

/-! ## Name tables -/

namespace NameTable

/-- The table has the three lists, in the order in which a new table has them. -/
def IsStandard (t : NameTable) : Prop := Assoc.keys t.entries = NameList.all

instance : DecidablePred IsStandard := fun t =>
  inferInstanceAs (Decidable (Assoc.keys t.entries = NameList.all))

theorem IsStandard.entries_eq {t : NameTable} (h : t.IsStandard) :
    t.entries = NameList.all.map fun l => (l, t.get l) := by
  have hget : ∀ e ∈ t.entries, e = (e.1, t.get e.1) := fun e he => by
    rw [get, Assoc.get?_of_mem t.nodup he]
    rfl
  calc t.entries = t.entries.map fun e => (e.1, t.get e.1) := by
        simpa using List.map_congr_left hget
    _ = (Assoc.keys t.entries).map fun l => (l, t.get l) := by simp [Assoc.keys]
    _ = NameList.all.map fun l => (l, t.get l) := by rw [h]

theorem toList_entryText (e : NameList × List String) :
    (entryText e).toList =
      e.1.key.toList ++ (": [".toList ++ (quotedNames e.2 ++ "]".toList)) := by
  simp only [entryText, String.toList_append, toList_intercalate_quotes, List.append_assoc]

theorem IsStandard.toList_text {t : NameTable} (h : t.IsStandard) :
    t.text.toList = "[aliasNameList: [".toList ++ (quotedNames (t.get .aliases) ++
      ("], groupNameList: [".toList ++ (quotedNames (t.get .groups) ++
        ("], selectNameList: [".toList ++ (quotedNames (t.get .selected) ++ "]]".toList))))) := by
  rw [text, h.entries_eq]
  simp [NameList.all, NameList.key, toList_entryText]

theorem map_entryText_put {l : NameList} {ns ms : List String}
    (h : entryText (l, ns) = entryText (l, ms)) (es : List (NameList × List String)) :
    (Assoc.put l ns es).map entryText = (Assoc.put l ms es).map entryText := by
  induction es with
  | nil => simp [Assoc.put, h]
  | cons e es ih => by_cases he : e.1 = l <;> simp [Assoc.put, he, h, ih]

/-- A name that holds the text between two names is written like the two, in every table. -/
theorem text_set_joined (t : NameTable) (l : NameList) (n m : String) (ns : List String) :
    (t.set l ((n ++ "', '" ++ m) :: ns)).text = (t.set l (n :: m :: ns)).text := by
  have hentry : entryText (l, (n ++ "', '" ++ m) :: ns) = entryText (l, n :: m :: ns) := by
    apply String.toList_inj.mp
    rw [toList_entryText, toList_entryText, quotedNames_joined]
  rw [text, text, set, set, map_entryText_put hentry]

theorem IsStandard.eq_of_text {t u : NameTable} (ht : t.IsStandard) (hu : u.IsStandard)
    (hnames : ∀ l, (∀ n ∈ t.get l, ¬ ClosesEarly n) ∧ ∀ n ∈ u.get l, ¬ ClosesEarly n)
    (h : t.text = u.text) : t = u := by
  have htext := congrArg String.toList h
  rw [ht.toList_text, hu.toList_text] at htext
  have hfollows (p z : List Char) : FollowsList ("], ".toList ++ p ++ z) :=
    .inr ⟨p ++ z, (List.append_assoc _ _ _).symm⟩
  obtain ⟨haliases, hrest⟩ := quotedNames_inj (hnames .aliases).1 (hnames .aliases).2
    (hfollows "groupNameList: [".toList _) (hfollows "groupNameList: [".toList _)
    (List.append_cancel_left htext)
  obtain ⟨hgroups, hrest⟩ := quotedNames_inj (hnames .groups).1 (hnames .groups).2
    (hfollows "selectNameList: [".toList _) (hfollows "selectNameList: [".toList _)
    (List.append_cancel_left hrest)
  obtain ⟨hselected, -⟩ := quotedNames_inj (hnames .selected).1 (hnames .selected).2
    (.inl rfl) (.inl rfl)
    (congrArg (· ++ []) (List.append_cancel_right (List.append_cancel_left hrest)))
  have hentries : t.entries = u.entries := by
    simp [ht.entries_eq, hu.entries_eq, NameList.all, haliases, hgroups, hselected]
  cases t
  cases u
  simpa using hentries

end NameTable

/-! ## Results -/

/-- A string literal is read back up to its closing quote, whatever text comes after it, just if it
holds no backslash. Two tables in standard order with the same text have the same names, where no
name of either closes early; a name that holds the text between two names is always written like
the two. -/
theorem quoted_text_readBack (s : String) (rest : List Char) (t u : NameTable) :
    (Literal.readString? ((Literal.string s).text.toList ++ rest) = some (s.toList, rest) ↔
      '\\' ∉ s.toList) ∧
      (t.IsStandard → u.IsStandard →
        (∀ l, (∀ n ∈ t.get l, ¬ ClosesEarly n) ∧ ∀ n ∈ u.get l, ¬ ClosesEarly n) →
          (t.text = u.text ↔ t = u)) ∧
      ∀ (l : NameList) (n m : String) (ns : List String),
        (t.set l ((n ++ "', '" ++ m) :: ns)).text = (t.set l (n :: m :: ns)).text :=
  ⟨Literal.readString?_text s rest,
    fun ht hu hnames => ⟨ht.eq_of_text hu hnames, congrArg NameTable.text⟩, t.text_set_joined⟩

/-- Names may hold quotes, as the text of `x['k']` does, and are told apart all the same. -/
theorem quoted_text_readBack_index :
    let t := NameTable.new.set .selected ["x['k']", "f('a')"]
    let u := (NameTable.new.set .selected ["y"]).set .selected ["x['k']", "f('a')"]
    t.IsStandard ∧ u.IsStandard ∧
      (∀ l, (∀ n ∈ t.get l, ¬ ClosesEarly n) ∧ ∀ n ∈ u.get l, ¬ ClosesEarly n) ∧
      t.text = u.text ∧ t = u ∧
      Literal.readString? ((Literal.string "it's").text.toList ++ [',']) =
        some ("it's".toList, [',']) := by
  intro t u
  have ht : t.IsStandard := by decide
  have hu : u.IsStandard := by decide
  have hnames : ∀ l, (∀ n ∈ t.get l, ¬ ClosesEarly n) ∧ ∀ n ∈ u.get l, ¬ ClosesEarly n := by
    intro l
    cases l <;> decide
  have htext : t.text = u.text := rfl
  have h := quoted_text_readBack "it's" [','] t u
  exact ⟨ht, hu, hnames, htext, (h.2.1 ht hu hnames).mp htext, h.1.mpr (by decide)⟩

/-- A backslash before the closing quote escapes it, and two names are written like a single one. -/
theorem quoted_text_misread :
    Literal.readString? ((Literal.string "\\").text.toList ++ [',']) ≠ some ("\\".toList, [',']) ∧
      let t := NameTable.new.set .selected ["a", "b"]
      let u := NameTable.new.set .selected ["a', 'b"]
      t.IsStandard ∧ u.IsStandard ∧ t.text = u.text ∧ t.get .selected ≠ u.get .selected := by
  decide

end Comprehension
