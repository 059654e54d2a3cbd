import Comprehension.Proofs.Formulas

/-!
Reading the text of a formula back. The reader goes through the text from left to right and keeps a
stack of what is open around the operand that it reads; an operator takes from the stack what binds
at least as strongly as it does. It reads every formula, so the text of a formula determines what
it is read as.
-/

namespace Comprehension
namespace Expr

/-! ## Reader -/

/-- What is open around an operand. -/
inductive Frame where
  | sign (s : Sign)
  | left (op : Operator) (operand : Expr)
  | bracket
  | index (target : Expr)
  | args (receiver : Option Expr) (callee : String) (done : List Expr)

/-- What stands before the next character. The characters of a word that is not complete are kept.
-/
inductive Reading where
  | nothing
  | comma
  | number (value : Nat)
  | word (cs : List Char)
  | member (receiver : Expr) (cs : List Char)
  | operand (e : Expr)
  | symbol (operand : Expr) (cs : List Char)

structure Reader where
  reading : Reading
  stack : List Frame

def applied (n : String) (args : List Expr) : Option Expr → Expr
  | none => sequence .nowhere (.call n) args
  | some r => method .nowhere r n args

/-- Closes the signs that stand before the operand, and the operators that are as strong as the next
one or stronger. -/
def settle (strength : Nat) (e : Expr) : List Frame → Expr × List Frame
  | .sign s :: stack => settle strength (unary .nowhere s.form e) stack
  | .left op l :: stack =>
    if strength ≤ op.strength then settle strength (binary .nowhere (.operator op) l e) stack
    else (e, .left op l :: stack)
  | stack => (e, stack)

namespace Reader

/-- What the character does where an operand is to come. -/
def start (stack : List Frame) (c : Char) : Option Reader :=
  if c.isDigit then some ⟨.number (c.toNat - '0'.toNat), stack⟩
  else if Identifier.isStart c then some ⟨.word [c], stack⟩
  else
    match c, stack with
    | '!', stack => some ⟨.nothing, .sign .not :: stack⟩
    | '-', stack => some ⟨.nothing, .sign .negate :: stack⟩
    | '(', stack => some ⟨.nothing, .bracket :: stack⟩
    | ')', .args r n [] :: stack => some ⟨.operand (applied n [] r), stack⟩
    | _, _ => none

/-- What the character does after a complete operand. -/
def follow (e : Expr) (stack : List Frame) : Char → Option Reader
  | '.' => some ⟨.member e [], stack⟩
  | '[' => some ⟨.nothing, .index e :: stack⟩
  | ' ' => some ⟨.symbol e [], stack⟩
  | ',' =>
    match settle 0 e stack with
    | (e, .args r n done :: stack) => some ⟨.comma, .args r n (done ++ [e]) :: stack⟩
    | _ => none
  | ')' =>
    match settle 0 e stack with
    | (e, .bracket :: stack) => some ⟨.operand e, stack⟩
    | (e, .args r n done :: stack) => some ⟨.operand (applied n (done ++ [e]) r), stack⟩
    | _ => none
  | ']' =>
    match settle 0 e stack with
    | (e, .index t :: stack) => some ⟨.operand (binary .nowhere .index t e), stack⟩
    | _ => none
  | _ => none

/-- The operand that ends here, if one does. -/
def operand? (r : Reader) : Option Expr :=
  match r.reading with
  | .number n => some (int n)
  | .word cs => some (name (String.ofList cs))
  | .member e cs => some (unary .nowhere (.field (String.ofList cs)) e)
  | .operand e => some e
  | .nothing | .comma | .symbol _ _ => none

def step : Reader → Char → Option Reader
  | ⟨.nothing, stack⟩, c => start stack c
  | ⟨.comma, stack⟩, c => if c = ' ' then some ⟨.nothing, stack⟩ else none
  | ⟨.number n, stack⟩, c =>
    if c.isDigit then some ⟨.number (10 * n + (c.toNat - '0'.toNat)), stack⟩
    else follow (int n) stack c
  | ⟨.word cs, stack⟩, c =>
    if Identifier.isPart c then some ⟨.word (cs ++ [c]), stack⟩
    else if c = '(' then some ⟨.nothing, .args none (String.ofList cs) [] :: stack⟩
    else follow (name (String.ofList cs)) stack c
  | ⟨.member e cs, stack⟩, c =>
    if Identifier.isPart c then some ⟨.member e (cs ++ [c]), stack⟩
    else if c = '(' then some ⟨.nothing, .args (some e) (String.ofList cs) [] :: stack⟩
    else follow (unary .nowhere (.field (String.ofList cs)) e) stack c
  | ⟨.operand e, stack⟩, c => follow e stack c
  | ⟨.symbol e cs, stack⟩, c =>
    if c = ' ' then
      (Operator.ofSymbol? (String.ofList cs)).map fun op =>
        ⟨.nothing, .left op (settle op.strength e stack).1 :: (settle op.strength e stack).2⟩
    else some ⟨.symbol e (cs ++ [c]), stack⟩

def run (r : Reader) (cs : List Char) : Option Reader := cs.foldlM step r

/-- The formula that ends here, with nothing open around it. -/
def finish (r : Reader) : Option Expr :=
  r.operand?.bind fun e =>
    match settle 0 e r.stack with
    | (e, []) => some e
    | _ => none

end Reader

def read? (text : String) : Option Expr :=
  (Reader.run ⟨.nothing, []⟩ text.toList).bind Reader.finish

namespace Reader

/-! ## Runs -/

@[simp] theorem run_nil (r : Reader) : run r [] = some r := rfl

@[simp] theorem run_cons (r : Reader) (c : Char) (cs : List Char) :
    run r (c :: cs) = (step r c).bind (run · cs) := rfl

@[simp] theorem run_append (r : Reader) (cs ds : List Char) :
    run r (cs ++ ds) = (run r cs).bind (run · ds) :=
  List.foldlM_append

theorem isDigit_of_isStart {c : Char} (h : Identifier.isStart c = true) : c.isDigit = false := by
  by_cases hc : c = '_'
  · rw [hc]
    rfl
  · grind [Identifier.isStart, Identifier.isLower, Identifier.isUpper, Char.isDigit, Char.le_def,
      UInt32.le_iff_toNat_le]

/-- A word takes up the characters that each go on with it. -/
theorem run_collect (f : List Char → Reading) {cs : List Char}
    (h : ∀ c ∈ cs, ∀ ds stack, step ⟨f ds, stack⟩ c = some ⟨f (ds ++ [c]), stack⟩)
    (ds : List Char) (stack : List Frame) : run ⟨f ds, stack⟩ cs = some ⟨f (ds ++ cs), stack⟩ := by
  induction cs generalizing ds with
  | nil => simp
  | cons c cs ih =>
    rw [List.forall_mem_cons] at h
    rw [run_cons, h.1, Option.bind_some, ih h.2, List.append_assoc, List.singleton_append]

theorem run_word {cs : List Char} (h : cs.all Identifier.isPart = true) (ds : List Char)
    (stack : List Frame) : run ⟨.word ds, stack⟩ cs = some ⟨.word (ds ++ cs), stack⟩ :=
  run_collect .word (fun c hc ds stack => by simp [step, List.all_eq_true.mp h c hc]) ds stack

theorem run_member {cs : List Char} (h : cs.all Identifier.isPart = true) (e : Expr)
    (ds : List Char) (stack : List Frame) :
    run ⟨.member e ds, stack⟩ cs = some ⟨.member e (ds ++ cs), stack⟩ :=
  run_collect (.member e) (fun c hc ds stack => by simp [step, List.all_eq_true.mp h c hc]) ds stack

theorem exists_of_isIdentifier {n : String} (h : Identifier.isIdentifier n = true) :
    ∃ c cs, n.toList = c :: cs ∧ Identifier.isStart c = true ∧
      cs.all Identifier.isPart = true := by
  unfold Identifier.isIdentifier at h
  split at h
  · cases h
  · rename_i c cs hn
    exact ⟨c, cs, hn, by simpa only [Bool.and_eq_true] using h⟩

theorem all_isPart {n : String} (h : Identifier.isIdentifier n = true) :
    n.toList.all Identifier.isPart = true := by
  obtain ⟨c, cs, hn, hc, hcs⟩ := exists_of_isIdentifier h
  rw [hn, List.all_cons, hcs, Bool.and_true, Identifier.isPart, hc, Bool.true_or]

/-- A name is read where an operand is to come. -/
theorem run_name {n : String} (h : Identifier.isIdentifier n = true) (stack : List Frame) :
    run ⟨.nothing, stack⟩ n.toList = some ⟨.word n.toList, stack⟩ := by
  obtain ⟨c, cs, hn, hc, hcs⟩ := exists_of_isIdentifier h
  have hstart : start stack c = some ⟨.word [c], stack⟩ := by
    simp [start, hc, isDigit_of_isStart hc]
  rw [hn, run_cons, step, hstart, Option.bind_some, run_word hcs, List.singleton_append]

theorem run_digits {cs : List Char} (h : ∀ c ∈ cs, c.isDigit = true) (n : Nat)
    (stack : List Frame) :
    run ⟨.number n, stack⟩ cs = some ⟨.number (Nat.ofDigitChars 10 cs n), stack⟩ := by
  induction cs generalizing n with
  | nil => rfl
  | cons c cs ih =>
    rw [List.forall_mem_cons] at h
    rw [run_cons, step, if_pos h.1, Option.bind_some, ih h.2]
    rfl

/-- A number is read where an operand is to come. -/
theorem run_nat (n : Nat) (stack : List Frame) :
    run ⟨.nothing, stack⟩ (toString n).toList = some ⟨.number n, stack⟩ := by
  have hdigits : ∀ c ∈ Nat.toDigits 10 n, c.isDigit = true := fun c hc =>
    Nat.isDigit_of_mem_toDigits (by decide) (by decide) hc
  have hvalue := Nat.ofDigitChars_ten_toDigits (n := n)
  have hne : Nat.toDigits 10 n ≠ [] := Nat.toDigits_ne_nil
  have htext : (toString n).toList = Nat.toDigits 10 n := Nat.toList_repr
  rw [htext]
  cases hds : Nat.toDigits 10 n with
  | nil => exact absurd hds hne
  | cons c cs =>
    rw [hds, List.forall_mem_cons] at hdigits
    have hstart : start stack c = some ⟨.number (c.toNat - '0'.toNat), stack⟩ := by
      simp [start, hdigits.1]
    rw [run_cons, step, hstart, Option.bind_some, run_digits hdigits.2, ← hvalue, hds]
    simp [Nat.ofDigitChars]

/-- What may stand after an operand ends it. -/
theorem step_of_operand? {r : Reader} {e : Expr} (hr : r.operand? = some e) {c : Char}
    (hc : c ∈ ['.', '[', ' ', ',', ')', ']']) : step r c = follow e r.stack c := by
  have hends : c.isDigit = false ∧ Identifier.isPart c = false ∧ c ≠ '(' := by
    simp only [List.mem_cons, List.not_mem_nil, or_false] at hc
    rcases hc with rfl | rfl | rfl | rfl | rfl | rfl <;> decide
  obtain ⟨reading, stack⟩ := r
  cases reading <;> simp_all [operand?, step]

theorem run_symbol {cs : List Char} (h : ' ' ∉ cs) (e : Expr) (ds : List Char)
    (stack : List Frame) : run ⟨.symbol e ds, stack⟩ cs = some ⟨.symbol e (ds ++ cs), stack⟩ :=
  run_collect (.symbol e) (fun c hc ds stack => by simp [step, ne_of_mem_of_not_mem hc h]) ds stack

theorem ofSymbol?_symbol (op : Operator) : Operator.ofSymbol? op.symbol = some op := by
  cases op <;> decide

theorem blank_notMem_symbol (op : Operator) : ' ' ∉ op.symbol.toList := by
  cases op <;> decide

/-- An operator takes what binds as strongly as it does, and waits for its other operand. -/
theorem run_operator {r : Reader} {e : Expr} (hr : r.operand? = some e) (op : Operator) :
    run r (" " ++ op.symbol ++ " ").toList =
      some ⟨.nothing, .left op (settle op.strength e r.stack).1 ::
        (settle op.strength e r.stack).2⟩ := by
  have hfirst : step r ' ' = some ⟨.symbol e [], r.stack⟩ := step_of_operand? hr (by decide)
  have hlast : step ⟨.symbol e op.symbol.toList, r.stack⟩ ' ' =
      some ⟨.nothing, .left op (settle op.strength e r.stack).1 ::
        (settle op.strength e r.stack).2⟩ := by
    simp [step, ofSymbol?_symbol]
  simp [hfirst, run_symbol (blank_notMem_symbol op), hlast]

end Reader

/-! ## Operands on a stack -/

section

open Reader

/-- No operator of this strength or a stronger one closes what stands on top of the stack. -/
def Guards (strength : Nat) (stack : List Frame) : Prop :=
  ∀ op : Operator, strength ≤ op.strength → ∀ e, settle op.strength e stack = (e, stack)

@[simp] theorem settle_nil (p : Nat) (e : Expr) : settle p e [] = (e, []) := rfl

@[simp] theorem settle_bracket (p : Nat) (e : Expr) (stack : List Frame) :
    settle p e (.bracket :: stack) = (e, .bracket :: stack) := rfl

@[simp] theorem settle_index (p : Nat) (e t : Expr) (stack : List Frame) :
    settle p e (.index t :: stack) = (e, .index t :: stack) := rfl

@[simp] theorem settle_args (p : Nat) (e : Expr) (r : Option Expr) (n : String) (done : List Expr)
    (stack : List Frame) :
    settle p e (.args r n done :: stack) = (e, .args r n done :: stack) := rfl

theorem Guards.mono {p q : Nat} {stack : List Frame} (h : Guards p stack) (hpq : p ≤ q) :
    Guards q stack :=
  fun op hop => h op (by omega)

theorem guards_left {p : Nat} {op : Operator} (h : op.strength < p) (l : Expr)
    (stack : List Frame) : Guards p (.left op l :: stack) :=
  fun op' hop' e => by rw [settle, if_neg (by omega)]

/-- An operator is weaker than a sign. -/
theorem guards_of_sign_lt {p : Nat} (h : signStrength < p) (stack : List Frame) : Guards p stack :=
  fun op hop => absurd op.strength_lt_sign (Nat.lt_asymm (Nat.lt_of_lt_of_le h hop))

/-- On every stack that the strength guards, the characters are read as the operand `e`: what the
reader then holds closes the stack into the same as `e` does. -/
def ReadsAs (cs : List Char) (strength : Nat) (e : Expr) : Prop :=
  ∀ stack, Guards strength stack → ∃ r h, run ⟨.nothing, stack⟩ cs = some r ∧
    r.operand? = some h ∧ ∀ p ≤ strength, settle p h r.stack = settle p e stack

/-- Where the reader stands after a receiver: it holds the receiver, or what follows the minus that
begins a receiver without brackets, and then the minus is still on the stack. -/
inductive EndsTight (stack : List Frame) (brackets : Bool) : Expr → Reader → Prop where
  | whole {e : Expr} {r : Reader} (hr : r.operand? = some e) (hstack : r.stack = stack)
    (he : brackets = true ∨ e.negated? = none) : EndsTight stack brackets e r
  | signed {e : Expr} {r : Reader} (hr : r.operand? = some e)
    (hstack : r.stack = .sign .negate :: stack) (hb : brackets = false) :
    EndsTight stack brackets (minus e) r

def ReadsTight (cs : List Char) (brackets : Bool) (e : Expr) : Prop :=
  ∀ stack, ∃ r, run ⟨.nothing, stack⟩ cs = some r ∧ EndsTight stack brackets e r

theorem ReadsTight.reads {cs : List Char} {b : Bool} {e : Expr} (h : ReadsTight cs b e) (p : Nat) :
    ReadsAs cs p e := by
  intro stack _
  obtain ⟨r, hrun, hends⟩ := h stack
  cases hends with
  | whole hr hstack he => exact ⟨r, e, hrun, hr, fun q _ => by rw [hstack]⟩
  | signed hr hstack hb => exact ⟨r, _, hrun, hr, fun q _ => by rw [hstack]; rfl⟩

/-- What stands in brackets is one operand. -/
theorem run_bracketed {s : String} {p : Nat} {e : Expr} (h : ReadsAs s.toList p e)
    (stack : List Frame) :
    run ⟨.nothing, stack⟩ (bracketed true s).toList = some ⟨.operand e, stack⟩ := by
  obtain ⟨r, f, hrun, hr, hsettle⟩ := h (.bracket :: stack) fun _ _ _ => rfl
  have hopen : step ⟨.nothing, stack⟩ '(' = some ⟨.nothing, .bracket :: stack⟩ := rfl
  have hclose : step r ')' = some ⟨.operand e, stack⟩ := by
    rw [step_of_operand? hr (by decide), follow, hsettle 0 (Nat.zero_le p), settle_bracket]
  simp [bracketed, hopen, hrun, hclose]

/-- An operand that is not bracketed has the strength that its place asks for. -/
theorem ReadsAs.bracketed {s : String} {p q : Nat} {e : Expr} (h : ReadsAs s.toList p e) (b : Bool)
    (hbare : b = false → q ≤ p) : ReadsAs (bracketed b s).toList q e := by
  intro stack hguards
  cases b with
  | true => exact ⟨_, e, run_bracketed h stack, rfl, fun _ _ => rfl⟩
  | false =>
    obtain ⟨r, f, hrun, hr, hsettle⟩ := h stack (hguards.mono (hbare rfl))
    exact ⟨r, f, hrun, hr, fun q' hq' => hsettle q' (Nat.le_trans hq' (hbare rfl))⟩

/-- The characters after an operand make a node on it. -/
def Extends (cs : List Char) (f : Expr → Expr) : Prop :=
  ∀ {r : Reader} {e : Expr}, r.operand? = some e →
    ∃ r', run r cs = some r' ∧ r'.operand? = some (f e) ∧ r'.stack = r.stack

theorem ReadsTight.extend {cs ds : List Char} {b : Bool} {e : Expr} (h : ReadsTight cs b e)
    {f : Expr → Expr} (hds : Extends ds f) (hf : ∀ e, (f e).negated? = none) :
    ReadsTight (cs ++ ds) false (onReceiver b f e) := by
  intro stack
  obtain ⟨r, hrun, hends⟩ := h stack
  cases hends with
  | whole hr hstack he =>
    obtain ⟨r', hrun', hr', hstack'⟩ := hds hr
    have hnode : onReceiver b f e = f e := by
      cases b with
      | true => rfl
      | false => simp [onReceiver, he.resolve_left Bool.false_ne_true]
    refine ⟨r', by simp [hrun, hrun'], ?_⟩
    rw [hnode]
    exact .whole hr' (hstack'.trans hstack) (.inr (hf _))
  | signed hr hstack hb =>
    obtain ⟨r', hrun', hr', hstack'⟩ := hds hr
    refine ⟨r', by simp [hrun, hrun'], ?_⟩
    rw [hb]
    exact .signed hr' (hstack'.trans hstack) rfl

/-! ## Formulas are read -/

theorem run_member_name {n : String} (hn : Identifier.isIdentifier n = true) {r : Reader}
    {e : Expr} (hr : r.operand? = some e) :
    run r ("." ++ n).toList = some ⟨.member e n.toList, r.stack⟩ := by
  have hdot : step r '.' = some ⟨.member e [], r.stack⟩ := step_of_operand? hr (by decide)
  simp [hdot, run_member (all_isPart hn)]

theorem extends_field {n : String} (hn : Identifier.isIdentifier n = true) :
    Extends ("." ++ n).toList (unary .nowhere (.field n)) :=
  fun {r e} hr => ⟨_, run_member_name hn hr, by simp [operand?], rfl⟩

theorem extends_index {s : String} {p : Nat} {i : Expr} (hi : ReadsAs s.toList p i) :
    Extends ("[" ++ s ++ "]").toList (binary .nowhere .index · i) := by
  intro r e hr
  obtain ⟨r', h, hrun, hr', hsettle⟩ := hi (.index e :: r.stack) fun _ _ _ => rfl
  have hopen : r.step '[' = some ⟨.nothing, .index e :: r.stack⟩ :=
    step_of_operand? hr (by decide)
  have hclose : r'.step ']' = some ⟨.operand (binary .nowhere .index e i), r.stack⟩ := by
    rw [step_of_operand? hr' (by decide), follow, hsettle 0 (Nat.zero_le p), settle_index]
  exact ⟨⟨.operand (binary .nowhere .index e i), r.stack⟩, by simp [hopen, hrun, hclose], rfl, rfl⟩

theorem toList_commas_cons_cons (s t : String) (ss : List String) :
    (commas (s :: t :: ss)).toList = s.toList ++ ", ".toList ++ (commas (t :: ss)).toList := by
  simp only [commas, String.toList_intercalate, List.map_cons, List.intercalate_cons_cons]

/-- The arguments after those that are done, and the bracket that closes the call. -/
theorem run_args_cons {e : Expr} {es : List Expr}
    (h : ∀ a ∈ e :: es, ReadsAs a.text.toList a.strength a.asRead) (r : Option Expr) (n : String)
    (done : List Expr) (stack : List Frame) :
    run ⟨.nothing, .args r n done :: stack⟩ ((commas (textAll (e :: es))).toList ++ [')']) =
      some ⟨.operand (applied n (done ++ asReadAll (e :: es)) r), stack⟩ := by
  induction es generalizing e done with
  | nil =>
    obtain ⟨r', a, hrun, hr', hsettle⟩ :=
      h e List.mem_cons_self (.args r n done :: stack) fun _ _ _ => rfl
    have hclose : r'.step ')' = some ⟨.operand (applied n (done ++ [e.asRead]) r), stack⟩ := by
      rw [step_of_operand? hr' (by decide), follow, hsettle 0 (Nat.zero_le _), settle_args]
    have htext : commas (textAll [e]) = e.text := by simp [commas, textAll_eq_map]
    simp [htext, hrun, hclose, asReadAll]
  | cons f es ih =>
    rw [List.forall_mem_cons] at h
    obtain ⟨r', a, hrun, hr', hsettle⟩ := h.1 (.args r n done :: stack) fun _ _ _ => rfl
    have hcomma : r'.step ',' = some ⟨.comma, .args r n (done ++ [e.asRead]) :: stack⟩ := by
      rw [step_of_operand? hr' (by decide), follow, hsettle 0 (Nat.zero_le _), settle_args]
    have hblank : step ⟨.comma, .args r n (done ++ [e.asRead]) :: stack⟩ ' ' =
        some ⟨.nothing, .args r n (done ++ [e.asRead]) :: stack⟩ := rfl
    have hrest := ih h.2 (done ++ [e.asRead])
    simp only [textAll_eq_map, List.map_cons, asReadAll] at hrest ⊢
    simpa [toList_commas_cons_cons, hrun, hcomma, hblank] using hrest

theorem run_args {es : List Expr} (h : ∀ a ∈ es, ReadsAs a.text.toList a.strength a.asRead)
    (r : Option Expr) (n : String) (stack : List Frame) :
    run ⟨.nothing, .args r n [] :: stack⟩ ((commas (textAll es)).toList ++ [')']) =
      some ⟨.operand (applied n (asReadAll es) r), stack⟩ := by
  cases es with
  | nil => rfl
  | cons e es => exact run_args_cons h r n [] stack

theorem extends_method {n : String} (hn : Identifier.isIdentifier n = true) {es : List Expr}
    (h : ∀ a ∈ es, ReadsAs a.text.toList a.strength a.asRead) :
    Extends ("." ++ n ++ "(" ++ commas (textAll es) ++ ")").toList
      (method .nowhere · n (asReadAll es)) := by
  intro r e hr
  have hopen : step ⟨.member e n.toList, r.stack⟩ '(' =
      some ⟨.nothing, .args (some e) n [] :: r.stack⟩ := by
    simp [step, show Identifier.isPart '(' = false by decide]
  have htext : ("." ++ n ++ "(" ++ commas (textAll es) ++ ")").toList =
      ("." ++ n).toList ++ '(' :: ((commas (textAll es)).toList ++ [')']) := by
    simp
  refine ⟨⟨.operand (applied n (asReadAll es) (some e)), r.stack⟩, ?_, rfl, rfl⟩
  rw [htext, run_append, run_member_name hn hr, Option.bind_some, run_cons, hopen, Option.bind_some,
    run_args h]

theorem readsTight_call {n : String} (hn : Identifier.isIdentifier n = true) {es : List Expr}
    (h : ∀ a ∈ es, ReadsAs a.text.toList a.strength a.asRead) :
    ReadsTight (n ++ "(" ++ commas (textAll es) ++ ")").toList false
      (sequence .nowhere (.call n) (asReadAll es)) := by
  intro stack
  have hopen : step ⟨.word n.toList, stack⟩ '(' = some ⟨.nothing, .args none n [] :: stack⟩ := by
    simp [step, show Identifier.isPart '(' = false by decide]
  have htext : (n ++ "(" ++ commas (textAll es) ++ ")").toList =
      n.toList ++ '(' :: ((commas (textAll es)).toList ++ [')']) := by
    simp
  refine ⟨⟨.operand (applied n (asReadAll es) none), stack⟩, ?_, .whole rfl rfl (.inr rfl)⟩
  rw [htext, run_append, run_name hn, Option.bind_some, run_cons, hopen, Option.bind_some,
    run_args h]

theorem readsTight_int (i : Int) : ReadsTight (toString i).toList false (ofInt i) := by
  intro stack
  cases i with
  | ofNat n => exact ⟨_, run_nat n stack, .whole rfl rfl (.inr rfl)⟩
  | negSucc n =>
    have htext : (toString (Int.negSucc n)).toList = '-' :: (toString (n + 1)).toList :=
      String.toList_append
    have hsign : step ⟨.nothing, stack⟩ '-' = some ⟨.nothing, .sign .negate :: stack⟩ := rfl
    refine ⟨⟨.number (n + 1), .sign .negate :: stack⟩, ?_, .signed rfl rfl rfl⟩
    rw [htext, run_cons, hsign, Option.bind_some, run_nat]

theorem readsTight_var {n : String} (hn : Identifier.isIdentifier n = true) :
    ReadsTight n.toList false (name n) :=
  fun stack => ⟨_, run_name hn stack, .whole (by simp [operand?]) rfl (.inr rfl)⟩

/-- A formula is read back, tightly where it needs no brackets as a receiver. -/
structure ReadsBack (e : Expr) : Prop where
  reads : ReadsAs e.text.toList e.strength e.asRead
  tight : e.isLoose = false → ReadsTight e.text.toList false e.asRead

theorem ReadsBack.of_tight {e : Expr} (h : ReadsTight e.text.toList false e.asRead) :
    ReadsBack e :=
  ⟨h.reads _, fun _ => h⟩

/-- A receiver is read tightly, in brackets or without them. -/
theorem ReadsBack.receiver {e : Expr} (h : ReadsBack e) :
    ReadsTight e.receiverText.toList e.isLoose e.asRead := by
  cases hloose : e.isLoose with
  | true =>
    intro stack
    rw [receiverText, hloose]
    exact ⟨_, run_bracketed h.reads stack, .whole rfl rfl (.inl rfl)⟩
  | false =>
    rw [receiverText, hloose]
    exact h.tight hloose

theorem ReadsBack.sign {e : Expr} (h : ReadsBack e) (p : Position) (s : Sign) :
    ReadsBack (unary p s.form e) := by
  refine ⟨fun stack _ => ?_, fun hloose => ?_⟩
  · have hsign : step ⟨.nothing, stack⟩ s.char = some ⟨.nothing, .sign s :: stack⟩ := by
      cases s <;> rfl
    have hoperand :
        ReadsAs (bracketed e.looseUnderSign e.text).toList (signStrength + 1) e.asRead :=
      h.reads.bracketed _ fun hbare => by
        simp only [looseUnderSign, Bool.or_eq_false_iff, decide_eq_false_iff_not] at hbare
        omega
    obtain ⟨r, f, hrun, hr, hsettle⟩ :=
      hoperand (.sign s :: stack) (guards_of_sign_lt (Nat.lt_succ_self _) _)
    refine ⟨r, f, by simp [text_sign, hsign, hrun], hr, fun q hq => ?_⟩
    rw [strength_sign] at hq
    rw [hsettle q (by omega), asRead_sign, settle]
  · simp [isLoose, signStrength, atomStrength] at hloose

theorem ReadsBack.operator {l r : Expr} (hl : ReadsBack l) (hr : ReadsBack r) (p : Position)
    (op : Operator) : ReadsBack (binary p (.operator op) l r) := by
  refine ⟨fun stack hguards => ?_, fun hloose => ?_⟩
  · have hleft : ReadsAs (bracketed (l.strength < op.strength) l.text).toList op.strength
        l.asRead :=
      hl.reads.bracketed _ fun hbare => by simpa using hbare
    have hright : ReadsAs (bracketed (r.strength ≤ op.strength) r.text).toList (op.strength + 1)
        r.asRead :=
      hr.reads.bracketed _ fun hbare => Nat.succ_le_of_lt (by simpa using hbare)
    obtain ⟨rl, fl, hrunl, hrl, hsettlel⟩ := hleft stack hguards
    have hoperator := run_operator hrl op
    -- nothing weaker stands before the left operand, so the operator takes just that
    rw [hsettlel _ (Nat.le_refl _), hguards op (Nat.le_refl _)] at hoperator
    obtain ⟨rr, fr, hrunr, hrr, hsettler⟩ := hright (.left op l.asRead :: stack)
      (guards_left (Nat.lt_succ_self _) _ _)
    refine ⟨rr, fr, ?_, hrr, fun q hq => ?_⟩
    · have htext : (binary p (.operator op) l r).text.toList =
          (bracketed (l.strength < op.strength) l.text).toList ++
            ((" " ++ op.symbol ++ " ").toList ++
              (bracketed (r.strength ≤ op.strength) r.text).toList) := by
        simp [text_operator]
      rw [htext, run_append, hrunl, Option.bind_some, run_append, hoperator, Option.bind_some,
        hrunr]
    · have hq' : q ≤ op.strength := hq
      rw [hsettler q (by omega), settle, if_pos hq']
      rfl
  · rw [isLoose, strength, decide_eq_false_iff_not] at hloose
    exact absurd (Nat.lt_trans op.strength_lt_sign (by decide)) hloose

theorem IsFormula.readsBack {e : Expr} (he : e.IsFormula) : ReadsBack e := by
  induction he with
  | var p hn => exact .of_tight (readsTight_var hn)
  | int p i => exact .of_tight (readsTight_int i)
  | sign p s he ih => exact ih.sign p s
  | operator p op hl hr ihl ihr => exact ihl.operator ihr p op
  | @field p n hn e he ih =>
    refine .of_tight ?_
    have h := ih.receiver.extend (extends_field hn) fun _ => rfl
    rw [text_field]
    simpa [asRead] using h
  | @index p e i he hi ihe ihi =>
    refine .of_tight ?_
    have h := ihe.receiver.extend (extends_index ihi.reads) fun _ => rfl
    rw [text_index]
    simpa [asRead] using h
  | @call p n hn args hargs ih =>
    exact .of_tight (readsTight_call hn fun a ha => (ih a ha).reads)
  | @method p n hn e he args hargs ihe ihargs =>
    refine .of_tight ?_
    have h := ihe.receiver.extend (extends_method hn fun a ha => (ihargs a ha).reads) fun _ => rfl
    rw [text_method]
    simpa [asRead] using h

/-- The text of a formula is read back. -/
theorem IsFormula.read?_text {e : Expr} (he : e.IsFormula) : read? e.text = some e.asRead := by
  obtain ⟨r, f, hrun, hr, hsettle⟩ := he.readsBack.reads [] fun _ _ _ => rfl
  rw [read?, hrun, Option.bind_some, finish, hr, Option.bind_some,
    hsettle 0 (Nat.zero_le _), settle_nil]

example : (read? "a.b + -5 * f(x, (y))[-0]").map text = some "a.b + -5 * f(x, y)[-0]" := by
  decide

end

/-! ## Results -/

/-- Two formulas with the same text are read as the same, and a formula is read as it is meant just
if no receiver in it is a literal with a sign. Among those formulas the brackets tell all that
matters: two have the same text just if they mean the same. -/
theorem formula_text_tells_meaning {a b : Expr} (ha : a.IsFormula) (hb : b.IsFormula) :
    (a.text = b.text → a.asRead = b.asRead) ∧
      (a.asRead = a.meant ↔ a.signsApart = true) ∧
      (a.signsApart = true → b.signsApart = true → (a.text = b.text ↔ a.meant = b.meant)) := by
  have hread : a.text = b.text → a.asRead = b.asRead := fun h =>
    Option.some.inj (by rw [← ha.read?_text, ← hb.read?_text, h])
  refine ⟨hread, ha.asRead_eq_meant_iff, fun hsignsa hsignsb => ⟨fun h => ?_, fun h => ?_⟩⟩
  · calc a.meant = a.asRead := (ha.asRead_eq_meant_iff.mpr hsignsa).symm
      _ = b.asRead := hread h
      _ = b.meant := hb.asRead_eq_meant_iff.mpr hsignsb
  · rw [← ha.text_meant hsignsa, ← hb.text_meant hsignsb, h]

/-- `x.n - -5` is one text for two formulas, which mean the same. -/
theorem formula_text_tells_meaning_sub :
    let a := binary ⟨1, 1⟩ (.operator .sub) (field (var ⟨1, 1⟩ "x") "n")
      (literal ⟨1, 7⟩ (.int (-5)))
    let b := binary .nowhere (.operator .sub) (field (name "x") "n") (minus (int 5))
    a.IsFormula ∧ b.IsFormula ∧ a.signsApart = true ∧ b.signsApart = true ∧
      a.text = b.text ∧ a.meant = b.meant := by
  intro a b
  have hx (p : Position) : IsFormula (field (var p "x") "n") :=
    .field _ (by decide) (.var _ (by decide))
  have ha : a.IsFormula := .operator _ _ (hx _) (.int _ _)
  have hb : b.IsFormula := .operator _ _ (hx _) (.sign _ .negate (.int _ _))
  have htext : a.text = b.text := by decide
  exact ⟨ha, hb, rfl, rfl, htext, ((formula_text_tells_meaning ha hb).2.2 rfl rfl).mp htext⟩

/-- The property of a negative number is written like the minus before a property. -/
theorem formula_text_ambiguous :
    let a := field (int (-5)) "abs"
    let b := minus (field (int 5) "abs")
    a.IsFormula ∧ b.IsFormula ∧ a.text = b.text ∧ a.meant ≠ b.meant :=
  ⟨.field _ (by decide) (.int _ _), .sign _ .negate (.field _ (by decide) (.int _ _)), by decide,
    nofun⟩

end Expr
end Comprehension
