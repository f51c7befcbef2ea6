import LanguageHost.Decimal.Shortest
import LanguageHost.Json.Value

/-! Compact JSON text: no blanks, and only what must be escaped is. -/
namespace LanguageHost.Json

def natDigits (n : Nat) : List Char := Nat.toDigits 10 n

def intDigits (n : Int) : List Char :=
  if n < 0 then '-' :: natDigits n.natAbs else natDigits n.natAbs

def trimZeros (d : Decimal.Scaled) : Decimal.Scaled :=
  let ds := natDigits d.digits
  let zeros := (ds.reverse.takeWhile (· == '0')).length
  ⟨d.digits / Nat.pow 10 zeros, d.exponent + zeros⟩

/-- The text of a positive float: positional with at least one decimal from 1e-5 up to below
1e16, else one digit before the point and a signed exponent. -/
def decimalText (d : Decimal.Scaled) : List Char :=
  let d := trimZeros d
  let digits := natDigits d.digits
  let point : Int := digits.length + d.exponent
  if 0 ≤ d.exponent ∧ point ≤ 16 then digits ++ List.replicate d.exponent.toNat '0' ++ ['.', '0']
  else if 0 < point ∧ point ≤ 16 then digits.take point.toNat ++ '.' :: digits.drop point.toNat
  else if -5 < point ∧ point ≤ 0 then '0' :: '.' :: (List.replicate (-point).toNat '0' ++ digits)
  else
    let mantissa := match digits with
      | [] => []
      | [c] => [c]
      | c :: rest => c :: '.' :: rest
    let exponent := point - 1
    mantissa ++ 'e' :: (if exponent < 0 then '-' else '+') :: natDigits exponent.natAbs

/-- A float that is not finite has no number and is written as null. -/
def floatText (x : Float) : List Char :=
  if !x.isFinite then "null".toList
  else
    let bits := x.toBits
    let sign := if 0x8000000000000000 ≤ bits.toNat then ['-'] else []
    if x == 0 then sign ++ ['0', '.', '0']
    else sign ++ decimalText (Decimal.Binary.ofBits bits).shortest

def hexDigit (n : Nat) : Char := (Nat.digitChar n)

def escape (c : Char) : List Char :=
  if c = '"' then ['\\', '"']
  else if c = '\\' then ['\\', '\\']
  else if c = '\x08' then ['\\', 'b']
  else if c = '\t' then ['\\', 't']
  else if c = '\n' then ['\\', 'n']
  else if c = '\x0c' then ['\\', 'f']
  else if c = '\r' then ['\\', 'r']
  else if c.toNat < 32 then ['\\', 'u', '0', '0', hexDigit (c.toNat / 16), hexDigit (c.toNat % 16)]
  else [c]

def quote (s : String) : List Char := '"' :: (s.toList.flatMap escape ++ ['"'])

mutual

def write : Json → List Char
  | .null => ['n', 'u', 'l', 'l']
  | .bool true => ['t', 'r', 'u', 'e']
  | .bool false => ['f', 'a', 'l', 's', 'e']
  | .int n => intDigits n
  | .float x _ => floatText x
  | .string s => quote s
  | .array items => '[' :: writeItems items
  | .object members => '\x7b' :: writeMembers members

def writeItems : List Json → List Char
  | [] => [']']
  | [v] => write v ++ [']']
  | v :: w :: rest => write v ++ ',' :: writeItems (w :: rest)

def writeMembers : List (String × Json) → List Char
  | [] => ['\x7d']
  | [(k, v)] => quote k ++ ':' :: write v ++ ['\x7d']
  | (k, v) :: m :: rest => quote k ++ ':' :: write v ++ ',' :: writeMembers (m :: rest)

end

def compact (v : Json) : String := String.ofList v.write

end LanguageHost.Json
