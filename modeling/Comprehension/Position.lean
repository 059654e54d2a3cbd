/-! Places in the text of a query. Every node carries one. -/

namespace Comprehension

structure Position where
  line : Int
  column : Int
  deriving DecidableEq, Repr

namespace Position

/-- The place of a node with no text behind it. -/
def nowhere : Position := ⟨-1, -1⟩

def text (p : Position) : String := toString p.line ++ ":" ++ toString p.column

end Position
end Comprehension
