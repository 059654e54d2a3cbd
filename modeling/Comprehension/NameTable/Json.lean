import Comprehension.Json.Reader
import Comprehension.Json.Writer
import Comprehension.NameTable

/-! Name tables as JSON, and as text for whatever reads and writes JSON. -/

namespace Comprehension.NameTable

/-! ## Writing -/

def namesJson (names : List String) : Json := .array (names.map fun n => .string (some n))

def entriesJson (es : List (NameList × List String)) : Json :=
  .object (es.map fun e => (some e.1.key, namesJson e.2))

def writtenBy (write : Json → String) (t : NameTable) : String := write (entriesJson t.entries)

def toJson (t : NameTable) : String := t.writtenBy Json.write

/-! ## Reading -/

def names? : Json → Option (List String)
  | .array items => items.mapM fun
    | .string s => s
    | _ => none
  | _ => none

/-- A key must be that of a list and a value a list of names. A repeated key keeps its first place
and takes the last value. -/
def setEntry? (t : NameTable) (e : Option String × Json) : Option NameTable := do
  let l ← NameList.ofKey? (← e.1)
  return t.set l (← names? e.2)

def ofJson? : Json → Option NameTable
  | .object entries => entries.foldlM setEntry? empty
  | _ => none

def readBy? (read : String → Option Json) (text : String) : Option NameTable :=
  (read text).bind ofJson?

def read? (text : String) : Option NameTable := readBy? Json.read? text

end Comprehension.NameTable
