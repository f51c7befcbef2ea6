import LanguageHost.Json.Text
import LanguageHost.Toml.Value

/-! Number literals of TOML. -/
namespace LanguageHost.Toml

/-- The digits of a literal, with single underscores between digits taken out. -/
def digits? (isDigit : Char → Bool) : List Char → Option (List Char)
  | [] => none
  | [c] => if isDigit c then some [c] else none
  | c :: '_' :: rest => if isDigit c then (digits? isDigit rest).map (c :: ·) else none
  | c :: rest => if isDigit c then (digits? isDigit rest).map (c :: ·) else none

def valueOf (base : Nat) (digits : List Char) : Nat :=
  digits.foldl (fun n c => n * base + (Json.Text.hexValue? c).getD 0) 0

/-- Decimal digits that do not begin with a zero, a lone zero apart. -/
def whole? (s : List Char) : Option (List Char) :=
  match digits? Char.isDigit s with
  | some ('0' :: _ :: _) => none
  | found => found

/-- The sign of a literal, true for minus, and the rest of it. -/
def sign : List Char → Bool × List Char
  | '-' :: rest => (true, rest)
  | '+' :: rest => (false, rest)
  | s => (false, s)

def signed (negative : Bool) (n : Nat) : Int := if negative then -n else n

/-- Decimal with a sign, or without one in base 16, 8 or 2. -/
def integer? : List Char → Option Int
  | '0' :: 'x' :: rest =>
    (digits? (fun c => (Json.Text.hexValue? c).isSome) rest).map fun ds => valueOf 16 ds
  | '0' :: 'o' :: rest => (digits? (fun c => '0' ≤ c && c ≤ '7') rest).map fun ds => valueOf 8 ds
  | '0' :: 'b' :: rest => (digits? (fun c => c == '0' || c == '1') rest).map fun ds => valueOf 2 ds
  | s =>
    let (negative, s) := sign s
    (whole? s).map fun ds => signed negative (valueOf 10 ds)

/-- The part of a literal before the first character of a kind, and the part after it. -/
def cut (isMark : Char → Bool) (s : List Char) : List Char × Option (List Char) :=
  (s.takeWhile fun c => !isMark c, (s.dropWhile fun c => !isMark c).tail?)

/-- The nearest float to `digits · 10^exponent`; nothing beyond the largest. -/
def nearest? (digits : Nat) (exponent : Int) : Option Float :=
  let size := (Nat.toDigits 10 digits).length + exponent
  if digits = 0 ∨ size < -400 then some 0
  else if 400 < size then none
  else
    let x := if exponent < 0 then Float.ofScientific digits true exponent.natAbs
      else Float.ofScientific digits false exponent.natAbs
    if x.isInf then none else some x

def decimal? (s : List Char) : Option Float := do
  let (mantissa, exponent) := cut (fun c => c == 'e' || c == 'E') s
  let (whole, fraction) := cut (· == '.') mantissa
  if fraction.isNone && exponent.isNone then none
  let whole ← whole? whole
  let fraction ← match fraction with
    | some ds => digits? Char.isDigit ds
    | none => some []
  let exponent ← match exponent with
    | some e =>
      let (negative, e) := sign e
      (digits? Char.isDigit e).map fun ds => signed negative (valueOf 10 ds)
    | none => some 0
  nearest? (valueOf 10 (whole ++ fraction)) (exponent - fraction.length)

def float? (s : List Char) : Option Float := do
  let (negative, s) := sign s
  let x ← if s = ['i', 'n', 'f'] then some (1 / 0)
    else if s = ['n', 'a', 'n'] then some (0 / 0)
    else decimal? s
  pure (if negative then -x else x)

def scalarValue? (s : List Char) : Option Toml :=
  if s = ['t', 'r', 'u', 'e'] then some (.bool true)
  else if s = ['f', 'a', 'l', 's', 'e'] then some (.bool false)
  else
    match integer? s, float? s, Moment.parse? s with
    | some n, _, _ => some (.integer n)
    | none, some x, _ => some (.float x)
    | none, none, some m => some (.moment m)
    | none, none, none => none

end LanguageHost.Toml
