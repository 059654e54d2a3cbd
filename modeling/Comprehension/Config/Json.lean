import Comprehension.Config
import Comprehension.Json.Reader
import Comprehension.Json.Writer

/-!
Configurations as JSON, as text for whatever reads and writes JSON, and from files.
-/

namespace Comprehension.Config

/-! ## Reading -/

/-- The keys in the order of the fields. -/
def keys : List String :=
  ["synthetic_prefix", "metadata_binding", "row_counter", "row_number_identifier",
   "group_identifier", "inline_bindings"]

/-- Sets the field of a key. A value of another kind is refused; a key of no field changes nothing.
-/
def setKey? (c : Config) (key : String) (v : Json) : Option Config :=
  match v with
  | .string (some s) =>
    if key = "synthetic_prefix" then some { c with stem := s }
    else if key = "metadata_binding" then some { c with table := s }
    else if key = "row_counter" then some { c with counter := s }
    else if key = "row_number_identifier" then some { c with rowNumber := s }
    else if key = "group_identifier" then some { c with group := s }
    else if key = "inline_bindings" then none
    else some c
  | .bool b =>
    if key = "inline_bindings" then some { c with inlinePaths := b }
    else if key ∈ keys then none
    else some c
  | _ => if key ∈ keys then none else some c

def setEntry? (c : Config) : Option String × Json → Option Config
  | (some key, v) => c.setKey? key v
  | (none, _) => none

/-- The fields that are given, over the standard ones. An array gives the fields in order. No field
may be given twice. -/
def ofJson? : Json → Option Config
  | .object entries =>
    if ((entries.filterMap (·.1)).filter (· ∈ keys)).Nodup then entries.foldlM setEntry? standard
    else none
  | .array items =>
    if items.length ≤ keys.length then
      ((keys.map some).zip items).foldlM setEntry? standard
    else none
  | _ => none

/-- Reads a configuration and checks it. -/
def readBy (read : String → Option Json) (text : String) : Except Failure Config :=
  match (read text).bind ofJson? with
  | some c => c.validate
  | none => .error (.config .malformed)

def read (text : String) : Except Failure Config := readBy Json.read? text

/-! ## Writing -/

/-- The fields as a JSON object holds them, in the order of their declaration. -/
def fields (c : Config) : List (String × Json) :=
  c.namedFields.map (fun f => (f.1, .string (some f.2))) ++
    [("inline_bindings", .bool c.inlinePaths)]

def writtenBy (write : Json → String) (c : Config) : String :=
  write (.object (c.fields.map fun f => (some f.1, f.2)))

def toJson (c : Config) : String := c.writtenBy Json.write

/-! ## Files -/

/-- Why a file gives no bytes. -/
inductive FileFault where
  | missing
  | notDirectory
  | isDirectory
  | nameTooLong
  deriving DecidableEq, Repr

def FileFault.message : FileFault → String
  | missing => "No such file or directory (os error 2)"
  | notDirectory => "Not a directory (os error 20)"
  | isDirectory => "Is a directory (os error 21)"
  | nameTooLong => "File name too long (os error 36)"

/-- Reads the configuration in a file. A failure names the path, then what went wrong. -/
def ofFile (path : String) (content : Except FileFault ByteArray) : Except Failure Config :=
  let unreadable (what : String) : Except Failure Config :=
    .error (.unreadable (path ++ ": " ++ what))
  if path.toList.contains '\x00' then unreadable "file name contained an unexpected NUL byte"
  else
    match content with
    | .error f => unreadable f.message
    | .ok bs =>
      match String.fromUTF8? bs with
      | some text => read text
      | none => unreadable "stream did not contain valid UTF-8"

end Comprehension.Config
