import LanguageHost.Json.Text

/-! The smallest parts of TOML text: blanks, line ends, comments, string literals and keys. Each
reader returns the text that it leaves over. -/
namespace LanguageHost.Toml

def isBlank (c : Char) : Bool := c == ' ' || c == '\t'

def skipBlank (s : List Char) : List Char := s.dropWhile isBlank

/-- A control character other than the tab. Only line ends hold one. -/
def isControl (c : Char) : Bool := (c.toNat < 32 && c != '\t') || c.toNat == 127

def lineEnd? : List Char → Option (List Char)
  | '\n' :: rest => some rest
  | '\r' :: '\n' :: rest => some rest
  | _ => none

def skipComment : List Char → List Char
  | '#' :: rest => rest.dropWhile fun c => !isControl c
  | s => s

/-- Drops blanks, line ends and comments; `comment` while inside one. -/
def skipLines (comment : Bool) : List Char → List Char
  | [] => []
  | '\n' :: rest => skipLines false rest
  | '\r' :: '\n' :: rest => skipLines false rest
  | c :: rest =>
    if comment then (if isControl c then c :: rest else skipLines true rest)
    else if isBlank c then skipLines false rest
    else if c = '#' then skipLines true rest
    else c :: rest

/-- The character with a hexadecimal code, unless it is half of a surrogate pair or too large. -/
def scalar? (digits : List Char) : Option Char := do
  let n := (← digits.mapM Json.Text.hexValue?).foldl (fun n d => n * 16 + d) 0
  if n.isValidChar then some (Char.ofNat n) else none

def shortEscape? : Char → Option Char
  | 'b' => some '\x08'
  | 't' => some '\t'
  | 'n' => some '\n'
  | 'f' => some '\x0c'
  | 'r' => some '\r'
  | 'e' => some '\x1b'
  | '"' => some '"'
  | '\\' => some '\\'
  | _ => none

def prepend (c : Option Char) (more : Option (List Char × List Char)) : Option (List Char × List Char) := do
  let c ← c
  let (cs, rest) ← more
  pure (c :: cs, rest)

def escaped : List Char → Option (List Char × List Char)
  | [] => none
  | '"' :: rest => some ([], rest)
  | '\\' :: 'x' :: a :: b :: rest => prepend (scalar? [a, b]) (escaped rest)
  | '\\' :: 'u' :: a :: b :: c :: d :: rest => prepend (scalar? [a, b, c, d]) (escaped rest)
  | '\\' :: 'U' :: a :: b :: c :: d :: e :: f :: g :: h :: rest =>
    prepend (scalar? [a, b, c, d, e, f, g, h]) (escaped rest)
  | '\\' :: e :: rest => prepend (shortEscape? e) (escaped rest)
  | c :: rest => if isControl c ∨ c = '\\' then none else prepend (some c) (escaped rest)

def literal : List Char → Option (List Char × List Char)
  | [] => none
  | '\'' :: rest => some ([], rest)
  | c :: rest => if isControl c then none else prepend (some c) (literal rest)

/-- Up to two quotes before the three that close a string of many lines belong to it. -/
def closing (quote : Char) : List Char → List Char × List Char
  | a :: b :: rest =>
    if a = quote ∧ b = quote then ([quote, quote], rest)
    else if a = quote then ([quote], b :: rest)
    else ([], a :: b :: rest)
  | [a] => if a = quote then ([quote], []) else ([], [a])
  | [] => ([], [])

/-- Where a reader of a string of many lines stands after a backslash at the end of a line. -/
inductive Fold where
  | none
  | before
  /-- After the line end, where white space is dropped. -/
  | after
deriving DecidableEq

def escapedLines (fold : Fold) : List Char → Option (List Char × List Char)
  | [] => .none
  | '"' :: '"' :: '"' :: rest => if fold = .before then .none else some (closing '"' rest)
  | '\n' :: rest =>
    if fold = .none then prepend (some '\n') (escapedLines .none rest) else escapedLines .after rest
  | '\r' :: '\n' :: rest =>
    if fold = .none then prepend (some '\r') (prepend (some '\n') (escapedLines .none rest))
    else escapedLines .after rest
  | '\\' :: 'x' :: a :: b :: rest =>
    if fold = .before then .none else prepend (scalar? [a, b]) (escapedLines .none rest)
  | '\\' :: 'u' :: a :: b :: c :: d :: rest =>
    if fold = .before then .none else prepend (scalar? [a, b, c, d]) (escapedLines .none rest)
  | '\\' :: 'U' :: a :: b :: c :: d :: e :: f :: g :: h :: rest =>
    if fold = .before then .none
    else prepend (scalar? [a, b, c, d, e, f, g, h]) (escapedLines .none rest)
  | '\\' :: e :: rest =>
    if fold = .before then .none
    else if isBlank e then escapedLines .before rest
    else if e = '\n' then escapedLines .after rest
    else if e = '\r' then
      match rest with
      | '\n' :: rest => escapedLines .after rest
      | _ => .none
    else prepend (shortEscape? e) (escapedLines .none rest)
  | c :: rest =>
    if isControl c ∨ c = '\\' then .none
    else if fold = .none then prepend (some c) (escapedLines .none rest)
    else if isBlank c then escapedLines fold rest
    else if fold = .before then .none
    else prepend (some c) (escapedLines .none rest)

def literalLines : List Char → Option (List Char × List Char)
  | [] => none
  | '\'' :: '\'' :: '\'' :: rest => some (closing '\'' rest)
  | '\n' :: rest => prepend (some '\n') (literalLines rest)
  | '\r' :: '\n' :: rest => prepend (some '\r') (prepend (some '\n') (literalLines rest))
  | c :: rest => if isControl c then none else prepend (some c) (literalLines rest)

/-- A line end right after the opening quotes is no part of the string. -/
def dropLineEnd (s : List Char) : List Char := (lineEnd? s).getD s

def isBareKeyChar (c : Char) : Bool := c.isAlphanum || c == '_' || c == '-'

def simpleKey? : List Char → Option (String × List Char)
  | '"' :: rest => (escaped rest).map fun (cs, after) => (String.ofList cs, after)
  | '\'' :: rest => (literal rest).map fun (cs, after) => (String.ofList cs, after)
  | s =>
    let name := s.takeWhile isBareKeyChar
    if name.isEmpty then none else some (String.ofList name, s.dropWhile isBareKeyChar)

def keyLimit : Nat := 80

def keyParts? : Nat → List Char → Option (List String × List Char)
  | 0, _ => none
  | more + 1, s => do
    let (part, rest) ← simpleKey? (skipBlank s)
    match skipBlank rest with
    | '.' :: rest =>
      let (parts, rest) ← keyParts? more rest
      pure (part :: parts, rest)
    | rest => pure ([part], rest)

def key? (s : List Char) : Option (List String × List Char) := keyParts? keyLimit s

end LanguageHost.Toml
