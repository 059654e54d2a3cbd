import Comprehension.Diagnostic

/-! The ways in which lowering and its setup end without an answer. -/

namespace Comprehension

/-- What is wrong with a configuration. -/
inductive ConfigFault where
  | malformed
  | notIdentifier (field value : String)
  | identifiersClash
  | stated (message : String)
  deriving DecidableEq, Repr

def ConfigFault.message : ConfigFault → String
  | malformed => "invalid config json"
  | notIdentifier field value => field ++ " is not an identifier: '" ++ value ++ "'"
  | identifiersClash => "row_number_identifier and group_identifier must differ"
  | stated m => m

inductive Failure where
  /-- The query has mistakes and the caller wanted none. -/
  | mistakes (ds : List Diagnostic)
  | noQueryFrame
  | aliasWithoutPath (name : String)
  /-- A node that only lowering may make, or another impossible shape, stands in the query. -/
  | impossibleNode (text : String)
  | config (fault : ConfigFault)
  | unreadable (message : String)
  deriving DecidableEq, Repr

namespace Failure

/-- The tree is at fault and not the text of the query. -/
def isTreeFault : Failure → Bool
  | noQueryFrame | aliasWithoutPath _ | impossibleNode _ => true
  | _ => false

def message : Failure → String
  | mistakes ds =>
    toString ds.length ++ " syntax error(s)" ++ "".intercalate (ds.map fun d => "\n" ++ d.text)
  | noQueryFrame => "internal: no query frame on the lowering stack"
  | aliasWithoutPath a => "internal: alias '" ++ a ++ "' has no access path"
  | impossibleNode t => "internal: unexpected node in input tree: " ++ t
  | config f => "invalid config: " ++ f.message
  | unreadable m => "io: " ++ m

end Failure
end Comprehension
