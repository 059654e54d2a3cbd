import Comprehension.Json.Token

/-! Writing JSON, with no blank between two tokens. -/

namespace Comprehension.Json

mutual
/-- The tokens of a value. -/
def written : Json → List Token
  | .null => [.null]
  | .bool b => [.bool b]
  | .number t => [.number t]
  | .string t => [.string t]
  | .array vs => .openArray :: ((laterItems vs).tail ++ [.closeArray])
  | .object es => .openObject :: ((laterEntries es).tail ++ [.closeObject])

/-- Items with a comma before each. -/
def laterItems : List Json → List Token
  | [] => []
  | v :: vs => .comma :: (v.written ++ laterItems vs)

def laterEntries : List (Option String × Json) → List Token
  | [] => []
  | (k, v) :: es => .comma :: .string k :: .colon :: (v.written ++ laterEntries es)
end

def Token.text : Token → List Char
  | .openObject => ['\x7b']
  | .closeObject => ['\x7d']
  | .openArray => ['[']
  | .closeArray => [']']
  | .colon => [':']
  | .comma => [',']
  | .null => "null".toList
  | .bool b => (if b then "true" else "false").toList
  | .number t => t.toList
  | .string s => (quote (s.getD "")).toList

/-- The text of a value. Half of a surrogate pair cannot be written; an empty string stands for a
string that holds one. -/
def write (v : Json) : String := String.ofList (v.written.flatMap Token.text)

end Comprehension.Json
