import Comprehension.Failure
import Comprehension.Identifier

/-! The names that lowering uses and the way in which paths reach a lambda body. -/

namespace Comprehension

structure Config where
  /-- Made-up names are this stem, an underscore and a number. -/
  stem : String
  /-- The local that holds the name table. -/
  table : String
  /-- The local that counts rows. -/
  counter : String
  /-- Inside `select`, the number of the current row. -/
  rowNumber : String
  /-- After grouping, the rows of the current group. -/
  group : String
  /-- Put the path of an alias in its place, and write no `let`. -/
  inlinePaths : Bool
  deriving DecidableEq, Repr

namespace Config

/-- The configuration of a caller who sets nothing. -/
def standard : Config := ⟨"__t", "__metaDataMap", "__rowNumber", "_rn", "_g", false⟩

def inlined : Config := { standard with inlinePaths := true }

/-- The fields that hold names, in the order of their declaration. -/
def namedFields (c : Config) : List (String × String) :=
  [("synthetic_prefix", c.stem), ("metadata_binding", c.table), ("row_counter", c.counter),
   ("row_number_identifier", c.rowNumber), ("group_identifier", c.group)]

/-- The first fault: every name must be an identifier, and two of them must differ. -/
def fault? (c : Config) : Option ConfigFault :=
  match c.namedFields.find? (!Identifier.isIdentifier ·.2) with
  | some (field, value) => some (.notIdentifier field value)
  | none => if c.rowNumber = c.group then some .identifiersClash else none

def validate (c : Config) : Except Failure Config :=
  match c.fault? with
  | some f => .error (.config f)
  | none => .ok c

end Config
end Comprehension
