/-! Identifiers. The classes are ASCII by definition of the language. -/

namespace Comprehension.Identifier

def isLower (c : Char) : Bool := 'a' ≤ c && c ≤ 'z'

def isUpper (c : Char) : Bool := 'A' ≤ c && c ≤ 'Z'

def isDigit (c : Char) : Bool := '0' ≤ c && c ≤ '9'

def isStart (c : Char) : Bool := isLower c || isUpper c || c == '_'

def isPart (c : Char) : Bool := isStart c || isDigit c

/-- A letter or an underscore, then letters, digits and underscores. -/
def isIdentifier (s : String) : Bool :=
  match s.toList with
  | [] => false
  | c :: cs => isStart c && cs.all isPart

/-- A capitalised identifier names a type. -/
def isTypeName (s : String) : Bool :=
  match s.toList with
  | [] => false
  | c :: cs => isUpper c && cs.all isPart

end Comprehension.Identifier
