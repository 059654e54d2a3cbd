import Mathlib.Data.List.Infix
import Comprehension.Json.Reader
import Comprehension.Json.Writer

/-!
JSON text, said without a reader or a writer: the ways to spell the tokens of a value, and the
blanks that may stand between two of them. What is asked of a reader is that it takes every text of
a value and gives that value, and of a writer that it gives a text of the value.
-/

namespace Comprehension.Json

/-! ## Numbers -/

/-- A zero, or digits that begin with another one. -/
inductive WholePart : List Char → Prop
  | zero : WholePart ['0']
  | digits {c : Char} {cs : List Char} (hfirst : c ≠ '0') (h : ∀ d ∈ c :: cs, d.isDigit) :
    WholePart (c :: cs)

inductive FractionPart : List Char → Prop
  | none : FractionPart []
  | digits {cs : List Char} (hne : cs ≠ []) (h : ∀ d ∈ cs, d.isDigit) : FractionPart ('.' :: cs)

inductive ExponentPart : List Char → Prop
  | none : ExponentPart []
  | digits {e : Char} {sign cs : List Char} (he : e ∈ ['e', 'E'])
    (hsign : sign ∈ [[], ['+'], ['-']]) (hne : cs ≠ []) (h : ∀ d ∈ cs, d.isDigit) :
    ExponentPart (e :: (sign ++ cs))

inductive NumberText : List Char → Prop
  | mk {sign whole fraction exponent : List Char} (hsign : sign ∈ [[], ['-']])
    (hwhole : WholePart whole) (hfraction : FractionPart fraction)
    (hexponent : ExponentPart exponent) : NumberText (sign ++ (whole ++ (fraction ++ exponent)))

/-- A number ends before the text, which has no character for it to go on with. -/
def EndsNumber (text : List Char) : Prop :=
  ∀ c cs, text = c :: cs → c.isDigit = false ∧ c ∉ ['.', 'e', 'E', '+', '-']

/-! ## Strings -/

/-- The escapes of one letter, each with what it stands for. -/
def escapes : List (Char × Char) :=
  [('"', '"'), ('\\', '\\'), ('/', '/'), ('b', '\x08'), ('f', '\x0c'), ('n', '\n'), ('r', '\r'),
    ('t', '\t')]

/-- The ways to write code units between the quotes of a string. -/
inductive StringText : List Nat → List Char → Prop
  | nil : StringText [] []
  | plain {c : Char} {us : List Nat} {cs : List Char} (hquote : c ≠ '"') (hbackslash : c ≠ '\\')
    (hcontrol : 0x20 ≤ c.toNat) (h : StringText us cs) : StringText (c.toNat :: us) (c :: cs)
  | escape {c d : Char} {us : List Nat} {cs : List Char} (hc : (c, d) ∈ escapes)
    (h : StringText us cs) : StringText (d.toNat :: us) ('\\' :: c :: cs)
  | unicode {a b c d : Char} {i j k l : Nat} {us : List Nat} {cs : List Char}
    (ha : hexValue? a = some i) (hb : hexValue? b = some j) (hc : hexValue? c = some k)
    (hd : hexValue? d = some l) (h : StringText us cs) :
    StringText ((((i * 16 + j) * 16 + k) * 16 + l) :: us) ('\\' :: 'u' :: a :: b :: c :: d :: cs)

/-! ## Tokens -/

def punctuation : List (Char × Token) :=
  [('\x7b', .openObject), ('\x7d', .closeObject), ('[', .openArray), (']', .closeArray),
    (':', .colon), (',', .comma)]

def words : List (String × Token) :=
  [("null", .null), ("true", .bool true), ("false", .bool false)]

/-- The ways to write a token. -/
inductive Token.Text : Token → List Char → Prop
  | punctuation {c : Char} {t : Token} (h : (c, t) ∈ Json.punctuation) : Token.Text t [c]
  | word {w : String} {t : Token} (h : (w, t) ∈ words) : Token.Text t w.toList
  | number {cs : List Char} (h : NumberText cs) : Token.Text (.number (String.ofList cs)) cs
  | string {us : List Nat} {cs : List Char} (h : StringText us cs) :
    Token.Text (.string ((decodeUnits us).map String.ofList)) ('"' :: (cs ++ ['"']))

def blanks : List Char := [' ', '\n', '\t', '\r']

/-- The text spells the tokens one after the other, with blanks where it likes. -/
inductive Spells : List Token → List Char → Prop
  | nil : Spells [] []
  | blank {c : Char} {ts : List Token} {text : List Char} (hc : c ∈ blanks) (h : Spells ts text) :
    Spells ts (c :: text)
  | token {t : Token} {ts : List Token} {cs text : List Char} (ht : t.Text cs)
    (hends : ∀ n, t = .number n → EndsNumber text) (h : Spells ts text) :
    Spells (t :: ts) (cs ++ text)

/-! ## Values -/

/-- The text is a JSON text of the value. -/
def IsText (v : Json) (text : String) : Prop := Spells v.written text.toList

/-- The token of a string, or one that is always written alike. -/
def Token.IsPlain : Token → Prop
  | .number _ | .string none => False
  | _ => True

/-- The value has strings and no numbers in it, and each string has a text. -/
def IsPlain (v : Json) : Prop := ∀ t ∈ v.written, t.IsPlain

/-- The reader takes every text of a value and gives that value. -/
def Reads (read : String → Option Json) : Prop :=
  ∀ (v : Json) (text : String), v.IsText text → read text = some v

/-- The writer gives a text of every plain value. -/
def Writes (write : Json → String) : Prop := ∀ v : Json, v.IsPlain → v.IsText (write v)

/-! ## Reading characters -/

section

variable {rest : List Char}

theorem scan_silent {m n : Mode} {c : Char} (h : m.step c = some ([], n)) :
    m.scan (c :: rest) = n.scan rest := by
  simp [Mode.scan, h]

theorem scan_emits {m n : Mode} {c : Char} {t : Token} (h : m.step c = some ([t], n)) :
    m.scan (c :: rest) = (n.scan rest).map (t :: ·) := by
  simp [Mode.scan, h]

/-! ## Reading numbers -/

theorem NumberPart.next?_eq_none {c : Char} (hdigit : c.isDigit = false)
    (hc : c ∉ ['.', 'e', 'E', '+', '-']) (p : NumberPart) : p.next? c = none := by
  simp only [List.mem_cons, List.not_mem_nil, or_false, not_or] at hc
  simp [NumberPart.next?, hdigit, hc]

theorem scan_number_end {p : NumberPart} (hp : p.isComplete = true) (ds : List Char)
    (h : EndsNumber rest) :
    (Mode.number p ds).scan rest = (Mode.between.scan rest).map (Mode.numberToken ds :: ·) := by
  cases rest with
  | nil => simp [Mode.scan, Mode.finish?, hp]
  | cons c cs =>
    obtain ⟨hdigit, hc⟩ := h c cs rfl
    simp only [Mode.scan, Mode.step, NumberPart.next?_eq_none hdigit hc, hp, if_true]
    cases Mode.start c <;> simp [Function.comp_def]

/-- What a part of a number becomes over the characters that go on with it. -/
def NumberPart.run? (p : NumberPart) (cs : List Char) : Option NumberPart :=
  cs.foldlM NumberPart.next? p

theorem scan_number_run {p q : NumberPart} {cs : List Char} (h : p.run? cs = some q)
    (ds : List Char) :
    (Mode.number p ds).scan (cs ++ rest) = (Mode.number q (cs.reverse ++ ds)).scan rest := by
  induction cs generalizing p ds with
  | nil =>
    obtain rfl := Option.some.inj h
    rfl
  | cons c cs ih =>
    obtain ⟨r, hr, hcs⟩ := Option.bind_eq_some_iff.mp h
    rw [List.cons_append, scan_silent (n := .number r (c :: ds)) (by simp [Mode.step, hr]), ih hcs]
    simp

theorem NumberPart.run?_digits {p : NumberPart} {cs : List Char}
    (hp : p ∈ [whole, fraction, exponent]) (h : ∀ d ∈ cs, d.isDigit) : p.run? cs = some p := by
  induction cs with
  | nil => rfl
  | cons c cs ih =>
    rw [List.forall_mem_cons] at h
    have hc : p.next? c = some p := by
      rcases p with _ | _ | _ | _ | _ | _ | _ | _ <;> simp_all [NumberPart.next?]
    simp only [run?, List.foldlM_cons, hc]
    exact ih h.2

theorem NumberPart.run?_digits_from {p q : NumberPart} {cs : List Char}
    (hp : ∀ c : Char, c.isDigit → p.next? c = some q) (hq : q ∈ [whole, fraction, exponent])
    (hne : cs ≠ []) (h : ∀ d ∈ cs, d.isDigit) : p.run? cs = some q := by
  cases cs with
  | nil => exact absurd rfl hne
  | cons c cs =>
    rw [List.forall_mem_cons] at h
    simp only [run?, List.foldlM_cons, hp c h.1]
    exact run?_digits hq h.2

theorem NumberPart.run?_append {p q : NumberPart} {cs : List Char} (h : p.run? cs = some q)
    (ds : List Char) : p.run? (cs ++ ds) = q.run? ds := by
  simp only [run?, List.foldlM_append] at h ⊢
  rw [h]
  rfl

theorem NumberPart.run?_wholePart {cs : List Char} (h : WholePart cs) :
    ∃ p ∈ [zero, whole], sign.run? cs = some p := by
  cases h with
  | zero => exact ⟨zero, by simp, rfl⟩
  | @digits c cs hfirst h =>
    rw [List.forall_mem_cons] at h
    refine ⟨whole, by simp, ?_⟩
    simp only [run?, List.foldlM_cons, next?, h.1, hfirst, if_true, if_false]
    exact run?_digits (by simp) h.2

theorem NumberPart.run?_fractionPart {p : NumberPart} (hp : p ∈ [zero, whole]) {cs : List Char}
    (h : FractionPart cs) : ∃ q ∈ [zero, whole, fraction], p.run? cs = some q := by
  cases h with
  | none => exact ⟨p, List.mem_append_left [fraction] hp, rfl⟩
  | @digits cs hne h =>
    have hpoint : p.next? '.' = some point := by
      rcases List.mem_pair.mp hp with rfl | rfl <;> rfl
    refine ⟨fraction, by simp, ?_⟩
    simp only [run?, List.foldlM_cons, hpoint]
    exact run?_digits_from (fun c hc => by simp [next?, hc]) (by simp) hne h

theorem NumberPart.run?_exponentPart {p : NumberPart} (hp : p ∈ [zero, whole, fraction])
    {cs : List Char} (h : ExponentPart cs) : ∃ q, q.isComplete = true ∧ p.run? cs = some q := by
  simp only [List.mem_cons, List.not_mem_nil, or_false] at hp
  cases h with
  | none =>
    refine ⟨p, ?_, rfl⟩
    rcases hp with rfl | rfl | rfl <;> rfl
  | @digits e sign cs he hsign hne h =>
    have hmark : p.next? e = some exponentMark := by
      rcases hp with rfl | rfl | rfl <;> rcases List.mem_pair.mp he with rfl | rfl <;> rfl
    refine ⟨exponent, rfl, ?_⟩
    simp only [run?, List.foldlM_cons, hmark]
    rcases hsign with _ | ⟨_, _ | ⟨_, _ | ⟨_, ⟨⟩⟩⟩⟩
    · exact run?_digits_from (fun c hc => by simp [next?, hc]) (by simp) hne h
    · exact run?_digits_from (p := exponentSign) (fun c hc => by simp [next?, hc]) (by simp) hne h
    · exact run?_digits_from (p := exponentSign) (fun c hc => by simp [next?, hc]) (by simp) hne h

theorem start_digit {c : Char} (h : c.isDigit) :
    Mode.start c = (NumberPart.sign.next? c).map fun p => ([], .number p [c]) := by
  have hne (d : Char) (hd : d.isDigit = false) : c ≠ d := by
    rintro rfl
    simp [hd] at h
  simp only [Mode.start, Mode.isBlank, hne ' ' rfl, hne '\n' rfl, hne '\t' rfl, hne '\r' rfl,
    hne '\x7b' rfl, hne '\x7d' rfl, hne '[' rfl, hne ']' rfl, hne ':' rfl, hne ',' rfl, hne '"' rfl,
    hne 'n' rfl, hne 't' rfl, hne 'f' rfl, hne '-' rfl, h, NumberPart.next?, beq_iff_eq,
    Bool.or_eq_true, or_self, if_false, if_true, Option.map_some]
  split <;> rfl

/-- Digits begin a number as they go on after a sign. -/
theorem scan_digits {c : Char} {cs : List Char} {p : NumberPart} (hc : c.isDigit)
    (h : NumberPart.sign.run? (c :: cs) = some p) :
    Mode.between.scan (c :: (cs ++ rest)) = (Mode.number p (c :: cs).reverse).scan rest := by
  obtain ⟨q, hq, hcs⟩ := Option.bind_eq_some_iff.mp h
  rw [scan_silent (n := .number q [c]) (by simp [Mode.step, start_digit hc, hq]),
    scan_number_run hcs, List.reverse_cons]

theorem WholePart.exists_digit {cs : List Char} (h : WholePart cs) :
    ∃ c ds, c.isDigit ∧ cs = c :: ds := by
  cases h with
  | zero => exact ⟨_, _, rfl, rfl⟩
  | digits _ h => exact ⟨_, _, h _ List.mem_cons_self, rfl⟩

theorem scan_numberText {cs : List Char} (h : NumberText cs) (hends : EndsNumber rest) :
    Mode.between.scan (cs ++ rest) =
      (Mode.between.scan rest).map (.number (String.ofList cs) :: ·) := by
  obtain @⟨sign, whole, fraction, exponent, hsign, hwhole, hfraction, hexponent⟩ := h
  obtain ⟨p, hp, hrun⟩ := NumberPart.run?_wholePart hwhole
  obtain ⟨q, hq, hrun'⟩ := NumberPart.run?_fractionPart hp hfraction
  obtain ⟨r, hr, hrun''⟩ := NumberPart.run?_exponentPart hq hexponent
  have hbody : NumberPart.sign.run? (whole ++ (fraction ++ exponent)) = some r := by
    rw [NumberPart.run?_append hrun, NumberPart.run?_append hrun', hrun'']
  rcases List.mem_pair.mp hsign with rfl | rfl
  · obtain ⟨c, ds, hc, rfl⟩ := hwhole.exists_digit
    rw [List.cons_append] at hbody
    rw [List.nil_append, List.cons_append, List.cons_append, scan_digits hc hbody,
      scan_number_end hr _ hends, Mode.numberToken, List.reverse_reverse]
  · have hminus : Mode.between.step '-' = some ([], .number .sign ['-']) := rfl
    rw [List.cons_append, List.nil_append, List.cons_append, scan_silent hminus,
      scan_number_run hbody, scan_number_end hr _ hends, Mode.numberToken]
    simp

/-! ## Reading strings -/

theorem scan_unicode {c : Char} {d : Nat} (h : hexValue? c = some d) (us : List Nat) {n : Nat}
    (hn : n ≠ 3) (v : Nat) :
    (Mode.unicode us n v).scan (c :: rest) = (Mode.unicode us (n + 1) (v * 16 + d)).scan rest :=
  scan_silent (by simp [Mode.step, h, hn])

theorem scan_unicode_last {c : Char} {d : Nat} (h : hexValue? c = some d) (us : List Nat)
    (v : Nat) :
    (Mode.unicode us 3 v).scan (c :: rest) = (Mode.string ((v * 16 + d) :: us)).scan rest :=
  scan_silent (by simp [Mode.step, h])

theorem scan_stringText {us : List Nat} {cs : List Char} (h : StringText us cs) (vs : List Nat) :
    (Mode.string vs).scan (cs ++ '"' :: rest) = (Mode.between.scan rest).map
      (.string ((decodeUnits (vs.reverse ++ us)).map String.ofList) :: ·) := by
  induction h generalizing vs with
  | nil =>
    have hstep : (Mode.string vs).step '"' = some ([Mode.stringToken vs], .between) := rfl
    rw [List.nil_append, scan_emits hstep, Mode.stringToken, List.append_nil]
  | @plain c us cs hquote hbackslash hcontrol h ih =>
    have hstep : (Mode.string vs).step c = some ([], .string (c.toNat :: vs)) := by
      simp [Mode.step, hquote, hbackslash, Nat.not_lt.mpr hcontrol]
    rw [List.cons_append, scan_silent hstep, ih]
    simp
  | @escape c d us cs hc h ih =>
    have hstep : (Mode.escape vs).step c = some ([], .string (d.toNat :: vs)) := by
      simp only [escapes, List.mem_cons, Prod.mk.injEq, List.not_mem_nil, or_false] at hc
      rcases hc with ⟨rfl, rfl⟩ | ⟨rfl, rfl⟩ | ⟨rfl, rfl⟩ | ⟨rfl, rfl⟩ | ⟨rfl, rfl⟩ | ⟨rfl, rfl⟩ |
        ⟨rfl, rfl⟩ | ⟨rfl, rfl⟩ <;> rfl
    rw [List.cons_append, List.cons_append, scan_silent (n := .escape vs) rfl, scan_silent hstep,
      ih]
    simp
  | unicode ha hb hc hd h ih =>
    simp only [List.cons_append]
    rw [scan_silent (n := .escape vs) rfl, scan_silent (n := .unicode vs 0 0) rfl,
      scan_unicode ha vs (by decide), scan_unicode hb vs (by decide),
      scan_unicode hc vs (by decide), scan_unicode_last hd, ih]
    simp

/-! ## Reading tokens -/

theorem scan_tokenText {t : Token} {cs : List Char} (h : t.Text cs)
    (hends : ∀ n, t = .number n → EndsNumber rest) :
    Mode.between.scan (cs ++ rest) = (Mode.between.scan rest).map (t :: ·) := by
  cases h with
  | @punctuation c t h =>
    have hstep : Mode.between.step c = some ([t], .between) := by
      simp only [punctuation, List.mem_cons, Prod.mk.injEq, List.not_mem_nil, or_false] at h
      rcases h with ⟨rfl, rfl⟩ | ⟨rfl, rfl⟩ | ⟨rfl, rfl⟩ | ⟨rfl, rfl⟩ | ⟨rfl, rfl⟩ | ⟨rfl, rfl⟩ <;>
        rfl
    exact scan_emits hstep
  | @word w t h =>
    simp only [words, List.mem_cons, Prod.mk.injEq, List.not_mem_nil, or_false] at h
    rcases h with ⟨rfl, rfl⟩ | ⟨rfl, rfl⟩ | ⟨rfl, rfl⟩ <;>
      simp [Mode.scan, Mode.step, Mode.start, Mode.isBlank, Function.comp_def]
  | number h => exact scan_numberText h (hends _ rfl)
  | @string us cs h =>
    rw [List.cons_append, List.append_assoc, List.singleton_append,
      scan_silent (n := .string []) rfl, scan_stringText h]
    rfl

theorem Spells.scan {ts : List Token} {text : List Char} (h : Spells ts text) :
    Mode.between.scan text = some ts := by
  induction h with
  | nil => rfl
  | @blank c ts text hc h ih =>
    have hstep : Mode.between.step c = some ([], .between) := by
      simp only [blanks, List.mem_cons, List.not_mem_nil, or_false] at hc
      rcases hc with rfl | rfl | rfl | rfl <;> rfl
    rw [scan_silent hstep, ih]
  | token ht hends h ih => rw [scan_tokenText ht hends, ih, Option.map_some]

end

/-! ## Reading values -/

section

variable {stack : List Opened} {ts : List Token}

theorem read_cons {st st' : ReaderState} {t : Token} (h : st.step t = some st') :
    (t :: ts).foldlM ReaderState.step st = ts.foldlM ReaderState.step st' := by
  rw [List.foldlM_cons, h]
  rfl

theorem deliver_items (v : Json) (done : List Json) :
    ReaderState.deliver v (.items done :: stack) =
      some (.reading (.items (v :: done) :: stack) .separator) := rfl

theorem deliver_entry (v : Json) (done : List (Option String × Json)) (k : Option String) :
    ReaderState.deliver v (.entry done k :: stack) =
      some (.reading (.entries ((k, v) :: done) :: stack) .separator) := rfl

theorem step_beginValue {want : Want} (hwant : want = .value ∨ want = .firstItem) {t : Token}
    (ht : t ≠ .closeArray) :
    (ReaderState.reading stack want).step t = ReaderState.beginValue stack t := by
  rcases hwant with rfl | rfl
  · rw [ReaderState.step]
  · rw [ReaderState.step]
    exact fun _ _ h => absurd h ht

end

mutual
/-- The tokens of a value are read as that value, wherever one may stand. -/
theorem read_written (v : Json) (stack : List Opened) {want : Want}
    (hwant : want = .value ∨ want = .firstItem) (ts : List Token) :
    (v.written ++ ts).foldlM ReaderState.step (.reading stack want) =
      (ReaderState.deliver v stack).bind fun st => ts.foldlM ReaderState.step st := by
  cases v with
  | null | bool | number | string =>
    rw [written, List.singleton_append, List.foldlM_cons, step_beginValue hwant (by simp)]
    rfl
  | array vs =>
    have hopen : (ReaderState.reading stack want).step .openArray =
        some (.reading (.items [] :: stack) .firstItem) := step_beginValue hwant (by simp)
    rw [written, List.cons_append, read_cons hopen, List.append_assoc, List.singleton_append]
    cases vs with
    | nil => rfl
    | cons v vs =>
      rw [laterItems, List.tail_cons, List.append_assoc, read_written v _ (.inr rfl), deliver_items,
        Option.bind_some, read_laterItems]
      rfl
  | object es =>
    have hopen : (ReaderState.reading stack want).step .openObject =
        some (.reading (.entries [] :: stack) .firstKey) := step_beginValue hwant (by simp)
    rw [written, List.cons_append, read_cons hopen, List.append_assoc, List.singleton_append]
    cases es with
    | nil => rfl
    | cons e es =>
      rw [laterEntries, List.tail_cons, List.cons_append, List.cons_append, read_cons rfl,
        read_cons rfl, List.append_assoc, read_written e.2 _ (.inl rfl), deliver_entry,
        Option.bind_some, read_laterEntries]
      rfl

theorem read_laterItems (vs done : List Json) (stack : List Opened) (ts : List Token) :
    (laterItems vs ++ .closeArray :: ts).foldlM ReaderState.step
        (.reading (.items done :: stack) .separator) =
      (ReaderState.deliver (.array (done.reverse ++ vs)) stack).bind fun st =>
        ts.foldlM ReaderState.step st := by
  cases vs with
  | nil =>
    rw [List.append_nil]
    rfl
  | cons v vs =>
    rw [laterItems, List.cons_append, read_cons rfl, List.append_assoc, read_written v _ (.inl rfl),
      deliver_items, Option.bind_some, read_laterItems]
    simp

theorem read_laterEntries (es done : List (Option String × Json)) (stack : List Opened)
    (ts : List Token) :
    (laterEntries es ++ .closeObject :: ts).foldlM ReaderState.step
        (.reading (.entries done :: stack) .separator) =
      (ReaderState.deliver (.object (done.reverse ++ es)) stack).bind fun st =>
        ts.foldlM ReaderState.step st := by
  cases es with
  | nil =>
    rw [List.append_nil]
    rfl
  | cons e es =>
    rw [laterEntries, List.cons_append, List.cons_append, List.cons_append, read_cons rfl,
      read_cons rfl, read_cons rfl, List.append_assoc, read_written e.2 _ (.inl rfl), deliver_entry,
      Option.bind_some, read_laterEntries]
    simp
end

theorem reads_read? : Reads read? := by
  intro v text h
  have hread := read_written v [] (.inl rfl) []
  rw [List.append_nil] at hread
  simp only [read?, tokens, h.scan, Option.bind_eq_bind, Option.bind_some, hread]
  rfl

/-! ## Writing -/

theorem hexValue?_hexDigit {n : Nat} (h : n < 16) : hexValue? (hexDigit n) = some n := by
  revert n
  decide

theorem StringText.escape_append {us : List Nat} {cs : List Char} (h : StringText us cs)
    (c : Char) : StringText (c.toNat :: us) (Json.escape c ++ cs) := by
  have hescape (d : Char) (he : (d, c) ∈ escapes) :
      StringText (c.toNat :: us) (['\\', d] ++ cs) := .escape he h
  unfold Json.escape
  split_ifs with h1 h2 h3 h4 h5 h6 h7 h8
  · exact hescape '"' (by simp [h1, escapes])
  · exact hescape '\\' (by simp [h2, escapes])
  · exact hescape 'b' (by simp [h3, escapes])
  · exact hescape 'f' (by simp [h4, escapes])
  · exact hescape 'n' (by simp [h5, escapes])
  · exact hescape 'r' (by simp [h6, escapes])
  · exact hescape 't' (by simp [h7, escapes])
  · have hzero : hexValue? '0' = some 0 := rfl
    have hfirst := hexValue?_hexDigit (n := c.toNat / 16) (by omega)
    have hsecond := hexValue?_hexDigit (n := c.toNat % 16) (by omega)
    have hvalue : ((0 * 16 + 0) * 16 + c.toNat / 16) * 16 + c.toNat % 16 = c.toNat := by omega
    have hunicode := StringText.unicode hzero hzero hfirst hsecond h
    rwa [hvalue] at hunicode
  · exact .plain h1 h2 (Nat.le_of_not_lt h8) h

theorem stringText_escape (s : List Char) : StringText (s.map Char.toNat) (s.flatMap escape) := by
  induction s with
  | nil => exact .nil
  | cons c s ih => exact ih.escape_append c

theorem decodeUnits_toNat (s : List Char) : decodeUnits (s.map Char.toNat) = some s := by
  induction s with
  | nil => rfl
  | cons c s ih =>
    have hvalid : c.toNat < 0xd800 ∨ 0xdfff < c.toNat ∧ c.toNat < 0x110000 := c.valid
    have hhigh : isHighSurrogate c.toNat = false := by
      simp only [isHighSurrogate, Bool.and_eq_false_iff, decide_eq_false_iff_not]
      omega
    have hlow : isLowSurrogate c.toNat = false := by
      simp only [isLowSurrogate, Bool.and_eq_false_iff, decide_eq_false_iff_not]
      omega
    rw [List.map_cons]
    unfold decodeUnits
    simp [hhigh, hlow, ih]

theorem Token.text_quote (s : String) : Token.Text (.string (some s)) (quote s).toList := by
  have h := Token.Text.string (stringText_escape s.toList)
  rw [decodeUnits_toNat, Option.map_some, String.ofList_toList] at h
  simpa [quote] using h

theorem Token.IsPlain.text {t : Token} (h : t.IsPlain) : t.Text t.text := by
  cases t with
  | string s =>
    cases s with
    | none => exact h.elim
    | some s => exact Token.text_quote s
  | number t => exact h.elim
  | bool b => cases b <;> exact .word (by simp [words])
  | null => exact .word (w := "null") (by simp [words])
  | _ => exact .punctuation (by simp [Json.punctuation])

theorem spells_text {ts : List Token} (h : ∀ t ∈ ts, t.IsPlain) :
    Spells ts (ts.flatMap Token.text) := by
  induction ts with
  | nil => exact .nil
  | cons t ts ih =>
    rw [List.forall_mem_cons] at h
    refine .token h.1.text ?_ (ih h.2)
    rintro n rfl
    exact h.1.elim

theorem writes_write : Writes write := by
  intro v hplain
  rw [IsText, write, String.toList_ofList]
  exact spells_text hplain

theorem isPlain_laterItems {vs : List Json} (h : ∀ v ∈ vs, v.IsPlain) :
    ∀ t ∈ laterItems vs, t.IsPlain := by
  induction vs with
  | nil => exact List.forall_mem_nil _
  | cons v vs ih =>
    rw [List.forall_mem_cons] at h
    rw [laterItems, List.forall_mem_cons, List.forall_mem_append]
    exact ⟨trivial, h.1, ih h.2⟩

theorem isPlain_laterEntries {es : List (Option String × Json)}
    (h : ∀ e ∈ es, e.1 ≠ none ∧ e.2.IsPlain) : ∀ t ∈ laterEntries es, t.IsPlain := by
  induction es with
  | nil => exact List.forall_mem_nil _
  | cons e es ih =>
    obtain ⟨k, v⟩ := e
    rw [List.forall_mem_cons] at h
    rw [laterEntries, List.forall_mem_cons, List.forall_mem_cons, List.forall_mem_cons,
      List.forall_mem_append]
    cases k with
    | none => exact absurd rfl h.1.1
    | some k => exact ⟨trivial, trivial, trivial, h.1.2, ih h.2⟩

theorem isPlain_array {vs : List Json} (h : ∀ v ∈ vs, v.IsPlain) : (array vs).IsPlain := by
  unfold IsPlain
  rw [written, List.forall_mem_cons, List.forall_mem_append, List.forall_mem_singleton]
  exact ⟨trivial, fun t ht => isPlain_laterItems h t (List.mem_of_mem_tail ht), trivial⟩

theorem isPlain_object {es : List (Option String × Json)}
    (h : ∀ e ∈ es, e.1 ≠ none ∧ e.2.IsPlain) : (object es).IsPlain := by
  unfold IsPlain
  rw [written, List.forall_mem_cons, List.forall_mem_append, List.forall_mem_singleton]
  exact ⟨trivial, fun t ht => isPlain_laterEntries h t (List.mem_of_mem_tail ht), trivial⟩

theorem isPlain_string (s : String) : (string (some s)).IsPlain :=
  List.forall_mem_singleton.mpr trivial

theorem isPlain_bool (b : Bool) : (bool b).IsPlain := List.forall_mem_singleton.mpr trivial

end Comprehension.Json
