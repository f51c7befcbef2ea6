import LanguageHost.Toml.Number
import LanguageHost.Toml.Text

/-! TOML text as what it spells out: values as written, and a document as its statements. -/
namespace LanguageHost.Toml

/-- A value as written. The keys of a table stand in the order of writing, dotted keys as the list
of their parts. -/
inductive Expression where
  | string (value : String)
  | scalar (value : Toml)
  | array (items : List Expression)
  | table (entries : List (List String × Expression))

inductive Statement where
  | assign (key : List String) (value : Expression)
  | table (path : List String)
  | element (path : List String)

def ofContent (content : Option (List Char × List Char)) : Option (Expression × List Char) :=
  content.map fun (cs, rest) => (.string (String.ofList cs), rest)

def string? : List Char → Option (Expression × List Char)
  | '"' :: '"' :: '"' :: rest => ofContent (escapedLines .none (dropLineEnd rest))
  | '\'' :: '\'' :: '\'' :: rest => ofContent (literalLines (dropLineEnd rest))
  | '"' :: rest => ofContent (escaped rest)
  | '\'' :: rest => ofContent (literal rest)
  | _ => none

def isScalarChar (c : Char) : Bool := isBareKeyChar c || c == '+' || c == '.' || c == ':'

/-- The longest text that may be a scalar. A blank between a date and a digit belongs to it. -/
def scalarText (s : List Char) : List Char × List Char :=
  let first := s.takeWhile isScalarChar
  match (Moment.date? first).isSome && first.length == 10, s.dropWhile isScalarChar with
  | true, ' ' :: d :: rest =>
    if d.isDigit then (first ++ ' ' :: d :: rest.takeWhile isScalarChar, rest.dropWhile isScalarChar)
    else (first, ' ' :: d :: rest)
  | _, rest => (first, rest)

mutual

/-- Reads one value. Each value, item and entry takes one unit of fuel. -/
def value? : Nat → List Char → Option (Expression × List Char)
  | 0, _ => none
  | fuel + 1, s =>
    match s with
    | '[' :: rest => (items? fuel rest).map fun (items, after) => (.array items, after)
    | '\x7b' :: rest => (entries? fuel rest).map fun (entries, after) => (.table entries, after)
    | '"' :: _ | '\'' :: _ => string? s
    | s =>
      let (text, rest) := scalarText s
      (scalarValue? text).map fun v => (.scalar v, rest)

/-- Items up to the closing bracket, a comma after the last one allowed. -/
def items? : Nat → List Char → Option (List Expression × List Char)
  | 0, _ => none
  | fuel + 1, s =>
    match skipLines false s with
    | ']' :: after => some ([], after)
    | s => do
      let (item, rest) ← value? fuel s
      match skipLines false rest with
      | ',' :: rest =>
        let (items, after) ← items? fuel rest
        pure (item :: items, after)
      | ']' :: after => pure ([item], after)
      | _ => none

/-- Entries up to the closing brace, a comma after the last one allowed. Lines may end anywhere but inside
a key. -/
def entries? : Nat → List Char → Option (List (List String × Expression) × List Char)
  | 0, _ => none
  | fuel + 1, s =>
    match skipLines false s with
    | '\x7d' :: after => some ([], after)
    | s => do
      let (key, rest) ← key? s
      match skipLines false rest with
      | '=' :: rest =>
        let (item, rest) ← value? fuel (skipLines false rest)
        match skipLines false rest with
        | ',' :: rest =>
          let (entries, after) ← entries? fuel rest
          pure ((key, item) :: entries, after)
        | '\x7d' :: after => pure ([(key, item)], after)
        | _ => none
      | _ => none

end

def statement? (s : List Char) : Option (Statement × List Char) :=
  match s with
  | '[' :: '[' :: rest => do
    let (path, rest) ← key? rest
    match rest with
    | ']' :: ']' :: rest => pure (.element path, rest)
    | _ => none
  | '[' :: rest => do
    let (path, rest) ← key? rest
    match rest with
    | ']' :: rest => pure (.table path, rest)
    | _ => none
  | s => do
    let (key, rest) ← key? s
    match rest with
    | '=' :: rest =>
      let (v, rest) ← value? (rest.length + 1) (skipBlank rest)
      pure (.assign key v, rest)
    | _ => none

def statements? : Nat → List Char → Option (List Statement)
  | 0, _ => none
  | fuel + 1, s =>
    match skipLines false s with
    | [] => some []
    | s => do
      let (statement, rest) ← statement? s
      match skipComment (skipBlank rest) with
      | [] => pure [statement]
      | rest =>
        let more ← statements? fuel (← lineEnd? rest)
        pure (statement :: more)

/-- The statements of a document, which may begin with a byte order mark. -/
def parse? (s : List Char) : Option (List Statement) :=
  let s := match s with
    | '\ufeff' :: rest => rest
    | s => s
  statements? (s.length + 1) s

end LanguageHost.Toml
