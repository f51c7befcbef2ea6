import LanguageHost.Json.Numeral

/-! JSON text as a tree of what was written: numbers as literals, members in
written order with repeated keys kept. Reading a value out of it comes second. -/
namespace LanguageHost.Json

/-- What a JSON text spells out. A string is `none` when an escape in it names half of a
surrogate pair, which no text can hold. -/
inductive Text where
  | null
  | bool (value : Bool)
  | number (literal : Numeral)
  | string (content : Option String)
  | array (items : List Text)
  | object (members : List (Option String × Text))

/-- A unit of a string literal: a character as it stands or after a short escape, or the
number in a `\u` escape. -/
inductive Unit16 where
  | plain (c : Char)
  | code (n : Nat)

namespace Text

def isBlank (c : Char) : Bool := c == ' ' || c == '\n' || c == '\t' || c == '\r'

def skipBlank (s : List Char) : List Char := s.dropWhile isBlank

def hexValue? (c : Char) : Option Nat :=
  if '0' ≤ c ∧ c ≤ '9' then some (c.toNat - 48)
  else if 'a' ≤ c ∧ c ≤ 'f' then some (c.toNat - 87)
  else if 'A' ≤ c ∧ c ≤ 'F' then some (c.toNat - 55)
  else none

def shortEscape? : Char → Option Char
  | '"' => some '"'
  | '\\' => some '\\'
  | '/' => some '/'
  | 'b' => some '\x08'
  | 'f' => some '\x0c'
  | 'n' => some '\n'
  | 'r' => some '\r'
  | 't' => some '\t'
  | _ => none

/-- The units up to the closing quote and the text after it. Control characters stand in no
string literal. -/
def units : List Char → Option (List Unit16 × List Char)
  | [] => none
  | '"' :: rest => some ([], rest)
  | '\\' :: 'u' :: a :: b :: c :: d :: rest => do
    let n := (← hexValue? a) * 4096 + (← hexValue? b) * 256 + (← hexValue? c) * 16 + (← hexValue? d)
    let (more, after) ← units rest
    pure (.code n :: more, after)
  | '\\' :: e :: rest => do
    let c ← shortEscape? e
    let (more, after) ← units rest
    pure (.plain c :: more, after)
  | c :: rest =>
    if c.toNat < 32 ∨ c = '\\' then none
    else do
      let (more, after) ← units rest
      pure (.plain c :: more, after)

def isLead (n : Nat) : Bool := 0xD800 ≤ n && n < 0xDC00
def isTrail (n : Nat) : Bool := 0xDC00 ≤ n && n < 0xE000

/-- The characters that units stand for: a leading and a trailing surrogate make one
character, and neither stands alone. -/
def join? : List Unit16 → Option (List Char)
  | [] => some []
  | .plain c :: rest => (join? rest).map (c :: ·)
  | .code n :: .code m :: rest =>
    if isLead n then
      if isTrail m then (join? rest).map (Char.ofNat (0x10000 + (n - 0xD800) * 1024 + (m - 0xDC00)) :: ·)
      else none
    else if isTrail n then none
    else (join? (.code m :: rest)).map (Char.ofNat n :: ·)
  | .code n :: rest =>
    if isLead n || isTrail n then none else (join? rest).map (Char.ofNat n :: ·)

def stringAfterQuote (s : List Char) : Option (Option String × List Char) :=
  (units s).map fun (us, rest) => ((join? us).map String.ofList, rest)

def digitValues (s : List Char) : List Nat :=
  (s.takeWhile Char.isDigit).map fun c => c.toNat - 48

def natOfDigits (ds : List Nat) : Nat := ds.foldl (fun n d => n * 10 + d) 0

def digits? (s : List Char) : Option (List Nat × List Char) :=
  match digitValues s with
  | [] => none
  | ds => some (ds, s.dropWhile Char.isDigit)

/-- Digits without a leading zero, zero itself apart. -/
def wholePart? (s : List Char) : Option (List Nat × List Char) := do
  let (ds, rest) ← digits? s
  if 1 < ds.length ∧ ds.head? = some 0 then none else some (ds, rest)

def fractionPart? : List Char → Option (List Nat × List Char)
  | '.' :: rest => digits? rest
  | s => some ([], s)

def exponentPart? (s : List Char) : Option (Option Int × List Char) :=
  match s with
  | 'e' :: rest | 'E' :: rest =>
    match rest with
    | '+' :: digits => (digits? digits).map fun (ds, after) => (some (natOfDigits ds : Int), after)
    | '-' :: digits => (digits? digits).map fun (ds, after) => (some (-(natOfDigits ds : Int)), after)
    | digits => (digits? digits).map fun (ds, after) => (some (natOfDigits ds : Int), after)
  | s => some (none, s)

def numeral? (s : List Char) : Option (Numeral × List Char) := do
  let (negative, s) := match s with
    | '-' :: rest => (true, rest)
    | s => (false, s)
  let (whole, s) ← wholePart? s
  let (fraction, s) ← fractionPart? s
  let (exponent, s) ← exponentPart? s
  pure (⟨negative, whole, fraction, exponent⟩, s)

mutual

/-- Reads one value, blanks before it included. Each value takes one unit of fuel, so the
length of the text is enough. -/
def value? : Nat → List Char → Option (Text × List Char)
  | 0, _ => none
  | fuel + 1, s =>
    match skipBlank s with
    | 'n' :: 'u' :: 'l' :: 'l' :: rest => some (.null, rest)
    | 't' :: 'r' :: 'u' :: 'e' :: rest => some (.bool true, rest)
    | 'f' :: 'a' :: 'l' :: 's' :: 'e' :: rest => some (.bool false, rest)
    | '"' :: rest => (stringAfterQuote rest).map fun (content, after) => (.string content, after)
    | '[' :: rest =>
      match skipBlank rest with
      | ']' :: after => some (.array [], after)
      | rest => (items? fuel rest).map fun (items, after) => (.array items, after)
    | '\x7b' :: rest =>
      match skipBlank rest with
      | '\x7d' :: after => some (.object [], after)
      | rest => (members? fuel rest).map fun (members, after) => (.object members, after)
    | rest => (numeral? rest).map fun (n, after) => (.number n, after)

def items? : Nat → List Char → Option (List Text × List Char)
  | 0, _ => none
  | fuel + 1, s => do
    let (item, rest) ← value? fuel s
    match skipBlank rest with
    | ',' :: rest =>
      let (items, after) ← items? fuel rest
      pure (item :: items, after)
    | ']' :: after => pure ([item], after)
    | _ => none

def members? : Nat → List Char → Option (List (Option String × Text) × List Char)
  | 0, _ => none
  | fuel + 1, s =>
    match skipBlank s with
    | '"' :: rest => do
      let (key, rest) ← stringAfterQuote rest
      match skipBlank rest with
      | ':' :: rest =>
        let (item, rest) ← value? fuel rest
        match skipBlank rest with
        | ',' :: rest =>
          let (members, after) ← members? fuel rest
          pure ((key, item) :: members, after)
        | '\x7d' :: after => pure ([(key, item)], after)
        | _ => none
      | _ => none
    | _ => none

end

def parse? (s : List Char) : Option Text :=
  match value? (2 * s.length + 2) s with
  | some (text, rest) => if (skipBlank rest).isEmpty then some text else none
  | none => none

end Text

end LanguageHost.Json
