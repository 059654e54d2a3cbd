import Comprehension.Assoc

/-!
The name table of a query: three lists of names, which the running query consults. The keys keep the
order in which they first came.
-/

namespace Comprehension

inductive NameList where
  | aliases
  | groups
  | selected
  deriving DecidableEq, Repr

namespace NameList

def all : List NameList := [aliases, groups, selected]

/-- The key under which the running query finds the list. -/
def key : NameList → String
  | aliases => "aliasNameList"
  | groups => "groupNameList"
  | selected => "selectNameList"

def ofKey? (s : String) : Option NameList := all.find? (·.key == s)

end NameList

structure NameTable where
  entries : List (NameList × List String)
  nodup : (Assoc.keys entries).Nodup
  deriving DecidableEq

namespace NameTable

def empty : NameTable := ⟨[], List.nodup_nil⟩

/-- All three lists, none with a name yet. -/
def new : NameTable := ⟨NameList.all.map (·, []), by decide⟩

def set (t : NameTable) (l : NameList) (names : List String) : NameTable :=
  ⟨Assoc.put l names t.entries, Assoc.nodup_keys_put l names t.nodup⟩

/-- The names of a list; a list the table does not hold has none. -/
def get (t : NameTable) (l : NameList) : List String := (Assoc.get? l t.entries).getD []

/-- The same lists with the same names, in whatever order. -/
def sameLists (t u : NameTable) : Bool :=
  NameList.all.all fun l => Assoc.get? l t.entries == Assoc.get? l u.entries

def entryText (e : NameList × List String) : String :=
  e.1.key ++ ": [" ++ ", ".intercalate (e.2.map fun n => "'" ++ n ++ "'") ++ "]"

def text (t : NameTable) : String := "[" ++ ", ".intercalate (t.entries.map entryText) ++ "]"

@[simp] theorem get_set (t : NameTable) (l : NameList) (names : List String) (k : NameList) :
    (t.set l names).get k = if k = l then names else t.get k := by
  simp only [get, set, Assoc.get?_put]
  split <;> simp

end NameTable
end Comprehension
