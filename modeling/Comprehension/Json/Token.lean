import Comprehension.Json.Value

/-!
The tokens of JSON text. The text is read one character at a time; what has been read of the current
token is kept in a mode.
-/

namespace Comprehension.Json

inductive Token where
  | openObject | closeObject | openArray | closeArray | colon | comma
  | null
  | bool (b : Bool)
  | number (text : String)
  | string (text : Option String)
  deriving DecidableEq, Repr

/-! ## Text from code units -/

def isHighSurrogate (u : Nat) : Bool := 0xd800 ≤ u && u < 0xdc00

def isLowSurrogate (u : Nat) : Bool := 0xdc00 ≤ u && u < 0xe000

/-- A high half and a low half next to each other make one character; half a pair makes none. -/
def decodeUnits : List Nat → Option (List Char)
  | [] => some []
  | u :: us =>
    if isHighSurrogate u then
      match us with
      | l :: rest =>
        if isLowSurrogate l then
          (decodeUnits rest).map (Char.ofNat (0x10000 + (u - 0xd800) * 0x400 + (l - 0xdc00)) :: ·)
        else none
      | [] => none
    else if isLowSurrogate u then none
    else (decodeUnits us).map (Char.ofNat u :: ·)

def hexValue? (c : Char) : Option Nat :=
  if '0' ≤ c && c ≤ '9' then some (c.toNat - '0'.toNat)
  else if 'a' ≤ c && c ≤ 'f' then some (c.toNat - 'a'.toNat + 10)
  else if 'A' ≤ c && c ≤ 'F' then some (c.toNat - 'A'.toNat + 10)
  else none

/-! ## Numbers -/

/-- How much of a number has been read. -/
inductive NumberPart where
  | sign | zero | whole | point | fraction | exponentMark | exponentSign | exponent
  deriving DecidableEq, Repr

namespace NumberPart

/-- The number may end here. -/
def isComplete : NumberPart → Bool
  | zero | whole | fraction | exponent => true
  | _ => false

def next? (p : NumberPart) (c : Char) : Option NumberPart :=
  if c.isDigit then
    match p with
    | sign => some (if c = '0' then zero else whole)
    | zero => none
    | whole => some whole
    | point | fraction => some fraction
    | exponentMark | exponentSign | exponent => some exponent
  else if c = '.' then
    match p with
    | zero | whole => some point
    | _ => none
  else if c = 'e' || c = 'E' then
    match p with
    | zero | whole | fraction => some exponentMark
    | _ => none
  else if c = '+' || c = '-' then
    match p with
    | exponentMark => some exponentSign
    | _ => none
  else none

end NumberPart

/-! ## The machine -/

/-- What has been read of the current token. Units and digits stand with the last one first. -/
inductive Mode where
  | between
  | word (rest : List Char) (token : Token)
  | number (part : NumberPart) (digits : List Char)
  | string (units : List Nat)
  | escape (units : List Nat)
  | unicode (units : List Nat) (count value : Nat)
  deriving DecidableEq, Repr

namespace Mode

def isBlank (c : Char) : Bool := c == ' ' || c == '\n' || c == '\t' || c == '\r'

/-- The tokens that one character completes, and the mode after it. -/
abbrev Step := Option (List Token × Mode)

/-- A character at which no token has begun yet. -/
def start (c : Char) : Step :=
  if isBlank c then some ([], between)
  else if c = '\x7b' then some ([.openObject], between)
  else if c = '\x7d' then some ([.closeObject], between)
  else if c = '[' then some ([.openArray], between)
  else if c = ']' then some ([.closeArray], between)
  else if c = ':' then some ([.colon], between)
  else if c = ',' then some ([.comma], between)
  else if c = '"' then some ([], string [])
  else if c = 'n' then some ([], word ['u', 'l', 'l'] .null)
  else if c = 't' then some ([], word ['r', 'u', 'e'] (.bool true))
  else if c = 'f' then some ([], word ['a', 'l', 's', 'e'] (.bool false))
  else if c = '-' then some ([], number .sign [c])
  else if c = '0' then some ([], number .zero [c])
  else if c.isDigit then some ([], number .whole [c])
  else none

def numberToken (digits : List Char) : Token := .number (String.ofList digits.reverse)

def stringToken (units : List Nat) : Token :=
  .string ((decodeUnits units.reverse).map String.ofList)

/-- The character that an escape of one letter stands for. -/
def escaped? (c : Char) : Option Char :=
  if c = '"' || c = '\\' || c = '/' then some c
  else if c = 'b' then some '\x08'
  else if c = 'f' then some '\x0c'
  else if c = 'n' then some '\n'
  else if c = 'r' then some '\r'
  else if c = 't' then some '\t'
  else none

def step : Mode → Char → Step
  | between, c => start c
  | word [] t, c => (start c).map fun r => (t :: r.1, r.2)
  | word [l] t, c => if c = l then some ([t], between) else none
  | word (l :: ls) t, c => if c = l then some ([], word ls t) else none
  | number p ds, c =>
    match p.next? c with
    | some p => some ([], number p (c :: ds))
    | none =>
      if p.isComplete then (start c).map fun r => (numberToken ds :: r.1, r.2) else none
  | string us, c =>
    if c = '"' then some ([stringToken us], between)
    else if c = '\\' then some ([], escape us)
    else if c.toNat < 0x20 then none
    else some ([], string (c.toNat :: us))
  | escape us, c =>
    if c = 'u' then some ([], unicode us 0 0)
    else (escaped? c).map fun d => ([], string (d.toNat :: us))
  | unicode us n v, c =>
    (hexValue? c).map fun d =>
      if n = 3 then ([], string ((v * 16 + d) :: us)) else ([], unicode us (n + 1) (v * 16 + d))

/-- The token that the end of the text completes. -/
def finish? : Mode → Option (List Token)
  | between => some []
  | number p ds => if p.isComplete then some [numberToken ds] else none
  | _ => none

/-- The tokens of the text from here on. -/
def scan : Mode → List Char → Option (List Token)
  | m, [] => m.finish?
  | m, c :: cs =>
    match m.step c with
    | some (ts, m) => (scan m cs).map (ts ++ ·)
    | none => none

end Mode

def tokens (s : String) : Option (List Token) := Mode.between.scan s.toList

end Comprehension.Json
