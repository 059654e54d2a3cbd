import Comprehension.Decimal.Double

/-! Literal values and their text. -/

namespace Comprehension

inductive Literal where
  | string (value : String)
  | int (value : Int)
  | double (value : Double)
  | bool (value : Bool)
  | null
  deriving DecidableEq

namespace Literal

/-- A quote inside a string is escaped by a backslash; nothing else is. -/
def escapeQuotes : List Char → List Char
  | [] => []
  | c :: cs => if c = '\x27' then '\\' :: c :: escapeQuotes cs else c :: escapeQuotes cs

def quoted (s : String) : String := "'" ++ String.ofList (escapeQuotes s.toList) ++ "'"

def text : Literal → String
  | string s => quoted s
  | int i => toString i
  | double d => d.text
  | bool b => if b then "true" else "false"
  | null => "null"

/-- The text with the kind of the literal around it. -/
def kindText : Literal → String
  | l@(string _) => "String(" ++ l.text ++ ")"
  | l@(int _) => "Int(" ++ l.text ++ ")"
  | l@(double _) => "Float(" ++ l.text ++ ")"
  | l@(bool _) => "Bool(" ++ l.text ++ ")"
  | null => "Null"

def string? : Literal → Option String
  | string s => some s
  | _ => none

/-- A number written with a sign. -/
def isSigned : Literal → Bool
  | int i => i < 0
  | double d => d.isNegative
  | _ => false

/-- Equal values have equal keys: the two zeros share one. -/
def valueKey : Literal → Literal
  | double d => if d.isZero then double ⟨0, by decide⟩ else double d
  | l => l

end Literal
end Comprehension
