import PrSentinel.PythonText

/-! JSON values as Python objects, and `json.loads` of a string. -/

set_option autoImplicit false

namespace Python

/-- An object keeps its pairs in source order; a later pair of the same key wins. A
string that holds lone surrogates is given by its code points. -/
inductive Json where
  | null
  | bool (b : Bool)
  | int (n : ℤ)
  | float (x : Flt)
  | str (s : String)
  | lone (points : List ℕ)
  | arr (items : List Json)
  | obj (pairs : List (String × Json))
  deriving Repr

def isSurrogate (point : ℕ) : Bool := 0xD800 ≤ point && point ≤ 0xDFFF

/-- What a text shows of a code point: of a lone surrogate, U+FFFD. -/
def pointChar (point : ℕ) : Char := if isSurrogate point then '\uFFFD' else .ofNat point

def shown (points : List ℕ) : String := .ofList (points.map pointChar)

namespace Json

def ofPoints (points : List ℕ) : Json :=
  if points.any isSurrogate then lone points else str (shown points)

def lookup (key : String) (pairs : List (String × Json)) : Option Json :=
  (pairs.reverse.find? (fun p => p.1 = key)).map Prod.snd

def getD (pairs : List (String × Json)) (key : String) (default : Json) : Json :=
  (lookup key pairs).getD default

def truthy : Json → Bool
  | null => false
  | bool b => b
  | int n => n ≠ 0
  | float x => x ≠ .fin 0
  | str s => s ≠ ""
  | lone _ => true
  | arr items => !items.isEmpty
  | obj pairs => !pairs.isEmpty

def iterate : Json → Except Exc (List Json)
  | arr items => .ok items
  | str s => .ok (s.toList.map fun c => str (.singleton c))
  | lone points => .ok (points.map fun n => ofPoints [n])
  | obj pairs => .ok ((pairs.map Prod.fst).eraseDups.map str)
  | _ => .error .typeError

def items (x : Json) : Except Exc (List Json) := if x.truthy then x.iterate else .ok []

def otherwise (x y : Json) : Json := if x.truthy then x else y

def item (x : Json) (key : String) : Except Exc Json :=
  match x with
  | .obj pairs =>
    match lookup key pairs with
    | some y => .ok y
    | none => .error .keyError
  | _ => .error .typeError

def get (x : Json) (key : String) (default : Json) : Except Exc Json :=
  match x with
  | .obj pairs => .ok (getD pairs key default)
  | _ => .error .attributeError

def text : Json → Except Exc String
  | .str s => .ok s
  | .lone points => .ok (shown points)
  | _ => .error .valueError

def encodable : Json → Bool
  | .lone _ => false
  | _ => true

theorem text_ok {x : Json} {s : String} (h : x.text = .ok s) (hencodable : x.encodable = true) :
    x = .str s := by
  cases x with
  | str t =>
    cases h
    rfl
  | lone points => cases hencodable
  | _ => cases h

def hashable : Json → Bool
  | .arr _ | .obj _ => false
  | _ => true

/-- A scalar that `json.dumps(x, ensure_ascii=False, allow_nan=False)` can write in UTF-8. -/
def writable : Json → Bool
  | .float (.fin _) => true
  | .float _ => false
  | .lone _ => false
  | _ => true

section Interp
variable [Interp]

mutual

def repr : Json → String
  | null => "None"
  | bool true => "True"
  | bool false => "False"
  | int n => toString n
  | float x => Interp.reprFloat x
  | str s => Interp.reprStr s
  | lone points => Interp.reprLone points
  | arr items => "[" ++ join ", " (reprItems items) ++ "]"
  | obj pairs => "\x7b" ++ join ", " (reprPairs pairs) ++ "\x7d"

def reprItems : List Json → List String
  | [] => []
  | x :: xs => x.repr :: reprItems xs

def reprPairs : List (String × Json) → List String
  | [] => []
  | (k, x) :: rest => (Interp.reprStr k ++ ": " ++ x.repr) :: reprPairs rest

end

def toStr : Json → String
  | str s => s
  | lone points => shown points
  | x => x.repr

def toInt : Json → Except Exc ℤ
  | int n => .ok n
  | bool b => .ok (if b then 1 else 0)
  | float x => x.trunc
  | str s => intOfStr s
  | lone _ => .error .valueError
  | _ => .error .typeError

def toFloat : Json → Except Exc Flt
  | int n => floatOfInt n
  | bool b => .ok (.fin (if b then 1 else 0))
  | float x => .ok x
  | str s => floatOfStr s
  | lone _ => .error .valueError
  | _ => .error .typeError

end Interp

mutual

def same : Json → Json → Bool
  | null, null => true
  | bool a, bool b => a = b
  | int m, int n => m = n
  | float x, float y => x = y
  | str s, str t => s = t
  | lone ps, lone qs => ps = qs
  | arr xs, arr ys => sameItems xs ys
  | obj ps, obj qs => samePairs ps qs
  | _, _ => false

def sameItems : List Json → List Json → Bool
  | [], [] => true
  | x :: xs, y :: ys => x.same y && sameItems xs ys
  | _, _ => false

def samePairs : List (String × Json) → List (String × Json) → Bool
  | [], [] => true
  | (k, x) :: ps, (l, y) :: qs => k = l && x.same y && samePairs ps qs
  | _, _ => false

end

mutual

theorem eq_of_same : ∀ {x y : Json}, x.same y = true → x = y
  | null, y, h => by cases y <;> simp_all [same]
  | bool a, y, h => by cases y <;> simp_all [same]
  | int m, y, h => by cases y <;> simp_all [same]
  | float x, y, h => by cases y <;> simp_all [same]
  | str s, y, h => by cases y <;> simp_all [same]
  | lone ps, y, h => by cases y <;> simp_all [same]
  | arr xs, y, h => by
    cases y with
    | arr ys => exact congrArg arr (eq_of_sameItems (by simpa [same] using h))
    | _ => simp [same] at h
  | obj ps, y, h => by
    cases y with
    | obj qs => exact congrArg obj (eq_of_samePairs (by simpa [same] using h))
    | _ => simp [same] at h

theorem eq_of_sameItems : ∀ {xs ys : List Json}, sameItems xs ys = true → xs = ys
  | [], [], _ => rfl
  | [], _ :: _, h => by simp [sameItems] at h
  | _ :: _, [], h => by simp [sameItems] at h
  | x :: xs, y :: ys, h => by
    simp only [sameItems, Bool.and_eq_true] at h
    rw [eq_of_same h.1, eq_of_sameItems h.2]

theorem eq_of_samePairs : ∀ {ps qs : List (String × Json)}, samePairs ps qs = true → ps = qs
  | [], [], _ => rfl
  | [], _ :: _, h => by simp [samePairs] at h
  | _ :: _, [], h => by simp [samePairs] at h
  | (k, x) :: ps, (l, y) :: qs, h => by
    simp only [samePairs, Bool.and_eq_true, decide_eq_true_eq] at h
    rw [h.1.1, eq_of_same h.1.2, eq_of_samePairs h.2]

end

def unlistable (x : Json) : Bool :=
  match x with
  | bool b => b
  | int n => n ≠ 0
  | float x => x ≠ .fin 0
  | _ => false

theorem items_error {x : Json} {e : Exc} :
    x.items = .error e ↔ e = .typeError ∧ x.unlistable = true := by
  cases x with
  | null => simp [items, truthy, unlistable]
  | bool b => cases b <;> simp [items, truthy, iterate, unlistable, eq_comm]
  | int n => by_cases h : n = 0 <;> simp [items, truthy, iterate, unlistable, h, eq_comm]
  | float x => by_cases h : x = .fin 0 <;> simp [items, truthy, iterate, unlistable, h, eq_comm]
  | str s => by_cases h : s = "" <;> simp [items, truthy, iterate, unlistable, h]
  | lone points => simp [items, truthy, iterate, unlistable]
  | arr items => cases items <;> simp [Json.items, truthy, iterate, unlistable]
  | obj pairs => cases pairs <;> simp [Json.items, truthy, iterate, unlistable]

def infinite (x : Json) : Bool :=
  match x with
  | float (.inf _) => true
  | _ => false

/-- An integer no `float` comes near to. -/
def immense (x : Json) : Bool :=
  match x with
  | int n => floatBound ≤ |(n : ℚ)|
  | _ => false

section Interp
variable [Interp]

theorem intOfStr_error {s : String} {e : Exc} (h : intOfStr s = .error e) : e = .valueError := by
  unfold intOfStr at h
  simp only at h
  split at h
  · cases h
    rfl
  · split at h
    · cases h
      rfl
    · cases h

theorem floatOfStr_error {s : String} {e : Exc} (h : floatOfStr s = .error e) :
    e = .valueError := by
  unfold floatOfStr at h
  simp only at h
  split_ifs at h
  split at h
  · cases h
    rfl
  · cases h
  · cases h
    rfl

theorem toInt_error {x : Json} {e : Exc} (h : x.toInt = .error e) :
    e = .typeError ∨ e = .valueError ∨ e = .overflowError ∧ x.infinite = true := by
  cases x with
  | float x =>
    cases x with
    | fin q => cases h
    | inf negative =>
      cases h
      exact .inr (.inr ⟨rfl, rfl⟩)
    | nan =>
      cases h
      exact .inr (.inl rfl)
  | str s => exact .inr (.inl (intOfStr_error h))
  | lone points =>
    cases h
    exact .inr (.inl rfl)
  | int n => cases h
  | bool b => cases h
  | _ =>
    cases h
    exact .inl rfl

theorem toInt_infinite {x : Json} (h : x.infinite = true) : x.toInt = .error .overflowError := by
  unfold infinite at h
  split at h
  · rfl
  · cases h

theorem toFloat_error {x : Json} {e : Exc} (h : x.toFloat = .error e) :
    e = .typeError ∨ e = .valueError ∨ e = .overflowError ∧ x.immense = true := by
  cases x with
  | int n =>
    obtain ⟨rfl, hbound⟩ := floatOfInt_error.mp h
    exact .inr (.inr ⟨rfl, by simpa [immense] using hbound⟩)
  | str s => exact .inr (.inl (floatOfStr_error h))
  | lone points =>
    cases h
    exact .inr (.inl rfl)
  | float x => cases h
  | bool b => cases h
  | _ =>
    cases h
    exact .inl rfl

theorem toFloat_immense {x : Json} (h : x.immense = true) :
    x.toFloat = .error .overflowError := by
  unfold immense at h
  split at h
  · exact floatOfInt_error.mpr ⟨rfl, by simpa using h⟩
  · cases h

end Interp

end Json

/-- A character of the text to read, or a lone surrogate in it. -/
inductive Sym where
  | char (c : Char)
  | lone (unit : ℕ)
  deriving DecidableEq, Repr

def Sym.point : Sym → ℕ
  | char c => c.toNat
  | lone unit => unit

def jsonSpace : Sym → Bool
  | .char c => c = ' ' || c = '\t' || c = '\n' || c = '\r'
  | .lone _ => false

def skipSpace (cs : List Sym) : List Sym := cs.dropWhile jsonSpace

def hexDigit : Sym → Option ℕ
  | .char c =>
    if c.isDigit then some (c.toNat - '0'.toNat)
    else if 'a' ≤ c ∧ c ≤ 'f' then some (c.toNat - 'a'.toNat + 10)
    else if 'A' ≤ c ∧ c ≤ 'F' then some (c.toNat - 'A'.toNat + 10)
    else none
  | .lone _ => none

def hex4 : List Sym → Option (ℕ × List Sym)
  | a :: b :: c :: d :: rest => do
      let a ← hexDigit a
      let b ← hexDigit b
      let c ← hexDigit c
      let d ← hexDigit d
      pure (4096 * a + 256 * b + 16 * c + d, rest)
  | _ => none

/-- The code point of an escaped unit, or of a pair of them. -/
def decodeUnit (unit : ℕ) (rest : List Sym) : ℕ × List Sym :=
  if 0xD800 ≤ unit ∧ unit ≤ 0xDBFF then
    match rest with
    | .char '\\' :: .char 'u' :: tail =>
      match hex4 tail with
      | some (low, tail) =>
        if 0xDC00 ≤ low ∧ low ≤ 0xDFFF then
          (0x10000 + (unit - 0xD800) * 0x400 + (low - 0xDC00), tail)
        else (unit, rest)
      | none => (unit, rest)
    | _ => (unit, rest)
  else (unit, rest)

def simpleEscape : Sym → Option Char
  | .char '"' => some '"'
  | .char '\\' => some '\\'
  | .char '/' => some '/'
  | .char 'b' => some '\x08'
  | .char 'f' => some '\x0c'
  | .char 'n' => some '\n'
  | .char 'r' => some '\r'
  | .char 't' => some '\t'
  | _ => none

def scanChar : List Sym → Except Exc (Option ℕ × List Sym)
  | .char '"' :: rest => .ok (none, rest)
  | .char '\\' :: .char 'u' :: rest =>
    match hex4 rest with
    | some (unit, rest) =>
      let (point, rest) := decodeUnit unit rest
      .ok (some point, rest)
    | none => .error .jsonDecodeError
  | .char '\\' :: e :: rest =>
    match simpleEscape e with
    | some c => .ok (some c.toNat, rest)
    | none => .error .jsonDecodeError
  | c :: rest =>
    if c = .char '\\' ∨ c.point < 32 then .error .jsonDecodeError else .ok (some c.point, rest)
  | [] => .error .jsonDecodeError

/-- The code points of a string up to its closing quote; `fuel` bounds the steps. -/
def scanChars : ℕ → List Sym → Except Exc (List ℕ × List Sym)
  | 0, _ => .error .jsonDecodeError
  | fuel + 1, cs => do
    let (c, rest) ← scanChar cs
    match c with
    | none => pure ([], rest)
    | some c =>
      let (s, rest) ← scanChars fuel rest
      pure (c :: s, rest)

def scanString (cs : List Sym) : Except Exc (List ℕ × List Sym) := scanChars (cs.length + 1) cs

def isJsonDigit : Sym → Bool
  | .char c => c.isDigit
  | .lone _ => false

def jsonDigits (cs : List Sym) : List ℕ :=
  (cs.takeWhile isJsonDigit).map fun c => c.point - '0'.toNat

def jsonSign : List Sym → Bool × List Sym
  | .char '-' :: cs => (true, cs)
  | .char '+' :: cs => (false, cs)
  | cs => (false, cs)

def scanNumber (cs : List Sym) : Except Exc (Json × List Sym) :=
  let (negative, body) := match cs with
    | .char '-' :: body => (true, body)
    | body => (false, body)
  let whole := match body with
    | .char '0' :: _ => [0]
    | body => jsonDigits body
  if whole.isEmpty then .error .jsonDecodeError
  else
    let rest := body.drop whole.length
    let fraction := match rest with
      | .char '.' :: tail => jsonDigits tail
      | _ => []
    let rest := if fraction.isEmpty then rest else rest.drop (fraction.length + 1)
    let (exponent, rest) : Option ℤ × List Sym := match rest with
      | e :: tail =>
        if e = .char 'e' ∨ e = .char 'E' then
          let (negative, tail) := jsonSign tail
          let ds := jsonDigits tail
          if ds.isEmpty then (none, rest)
          else (some (withSign negative (ofDigits ds)), tail.drop ds.length)
        else (none, rest)
      | [] => (none, rest)
    if fraction.isEmpty ∧ exponent = none then
      if maxStrDigits < whole.length then .error .valueError
      else .ok (.int (withSign negative (ofDigits whole)), rest)
    else .ok (.float (scaled negative whole fraction (exponent.getD 0)), rest)

section Nested
variable (value : List Sym → Except Exc (Json × List Sym))

def scanItems : ℕ → List Sym → Except Exc (List Json × List Sym)
  | 0, _ => .error .jsonDecodeError
  | fuel + 1, cs => do
    let (x, rest) ← value cs
    match skipSpace rest with
    | .char ']' :: rest => pure ([x], rest)
    | .char ',' :: rest =>
      let (xs, rest) ← scanItems fuel (skipSpace rest)
      pure (x :: xs, rest)
    | _ => .error .jsonDecodeError

def scanPairs : ℕ → List Sym → Except Exc (List (String × Json) × List Sym)
  | 0, _ => .error .jsonDecodeError
  | fuel + 1, cs =>
    match cs with
    | .char '"' :: rest => do
      let (key, rest) ← scanString rest
      match skipSpace rest with
      | .char ':' :: rest =>
        let (x, rest) ← value (skipSpace rest)
        match skipSpace rest with
        | .char '}' :: rest => pure ([(shown key, x)], rest)
        | .char ',' :: rest =>
          let (more, rest) ← scanPairs fuel (skipSpace rest)
          pure ((shown key, x) :: more, rest)
        | _ => .error .jsonDecodeError
      | _ => .error .jsonDecodeError
    | _ => .error .jsonDecodeError

def scanArray (cs : List Sym) : Except Exc (Json × List Sym) :=
  match skipSpace cs with
  | .char ']' :: rest => .ok (.arr [], rest)
  | cs => do
    let (xs, rest) ← scanItems value (cs.length + 1) cs
    pure (.arr xs, rest)

def scanObject (cs : List Sym) : Except Exc (Json × List Sym) :=
  match skipSpace cs with
  | .char '}' :: rest => .ok (.obj [], rest)
  | cs => do
    let (pairs, rest) ← scanPairs value (cs.length + 1) cs
    pure (.obj pairs, rest)

end Nested

def afterWord (word : String) (cs : List Sym) : Option (List Sym) :=
  if (word.toList.map Sym.char).isPrefixOf cs then some (cs.drop word.length) else none

def jsonWords : List (String × Json) :=
  [("null", .null), ("true", .bool true), ("false", .bool false), ("NaN", .float .nan),
    ("Infinity", .float (.inf false)), ("-Infinity", .float (.inf true))]

def scanOnce (array object : List Sym → Except Exc (Json × List Sym)) (cs : List Sym) :
    Except Exc (Json × List Sym) :=
  match cs with
  | .char '"' :: rest => do
    let (points, rest) ← scanString rest
    pure (.ofPoints points, rest)
  | .char '{' :: rest => object rest
  | .char '[' :: rest => array rest
  | cs =>
    match jsonWords.findSome? fun w => (afterWord w.1 cs).map fun rest => (w.2, rest) with
    | some found => .ok found
    | none => scanNumber cs

/-- A value nested at most `depth` deep; one level more trips the recursion limit. -/
def scanValue : ℕ → List Sym → Except Exc (Json × List Sym)
  | 0 => scanOnce (fun _ => .error .recursionError) (fun _ => .error .recursionError)
  | depth + 1 => scanOnce (scanArray (scanValue depth)) (scanObject (scanValue depth))

def loadSyms [Interp] (text : List Sym) : Except Exc Json := do
  let (x, rest) ← scanValue Interp.recursionLimit (skipSpace text)
  if (skipSpace rest).isEmpty then pure x else .error .jsonDecodeError

def loads [Interp] (text : List Char) : Except Exc Json :=
  match text with
  | '\uFEFF' :: _ => .error .jsonDecodeError
  | text => loadSyms (text.map .char)

def isValue (x : Json) : Except Exc Json → Bool
  | .ok y => y.same x
  | .error _ => false

theorem eq_of_isValue {x : Json} {r : Except Exc Json} (h : isValue x r = true) : r = .ok x := by
  cases r with
  | error e => cases h
  | ok y => exact congrArg Except.ok (Json.eq_of_same h)

def reads [Interp] (text : List Char) (x : Json) : Bool := isValue x (loads text)

theorem loads_of_reads [Interp] {text : List Char} {x : Json} (h : reads text x = true) :
    loads text = .ok x := eq_of_isValue h

end Python
