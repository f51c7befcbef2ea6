/-! Dates and times as TOML spells them, and their one normal spelling. -/
namespace LanguageHost.Toml

structure Date where
  year : Nat
  month : Nat
  day : Nat
deriving DecidableEq

/-- A time of day. The fraction of a second is given by its digits. -/
structure Clock where
  hour : Nat
  minute : Nat
  second : Option Nat
  fraction : Option (List Char)
deriving DecidableEq

inductive Offset where
  | zulu
  | minutes (ahead : Bool) (count : Nat)
deriving DecidableEq

inductive Moment where
  | date (date : Date)
  | clock (clock : Clock)
  | localTime (date : Date) (clock : Clock)
  | instant (date : Date) (clock : Clock) (offset : Offset)
deriving DecidableEq

namespace Date

def isLeap (year : Nat) : Bool := year % 4 == 0 && (year % 100 != 0 || year % 400 == 0)

def daysIn (year month : Nat) : Nat :=
  if month = 2 then (if isLeap year then 29 else 28)
  else if [4, 6, 9, 11].contains month then 30
  else 31

def isValid (d : Date) : Bool :=
  1 ≤ d.month && d.month ≤ 12 && 1 ≤ d.day && d.day ≤ daysIn d.year d.month

end Date

namespace Moment

def two? : List Char → Option (Nat × List Char)
  | a :: b :: rest => if a.isDigit && b.isDigit then some ((a.toNat - 48) * 10 + (b.toNat - 48), rest) else none
  | _ => none

def after? (c : Char) : List Char → Option (List Char)
  | d :: rest => if c = d then some rest else none
  | [] => none

def date? (s : List Char) : Option (Date × List Char) := do
  let (century, s) ← two? s
  let (rest, s) ← two? s
  let (month, s) ← two? (← after? '-' s)
  let (day, s) ← two? (← after? '-' s)
  let d : Date := ⟨century * 100 + rest, month, day⟩
  if d.isValid then some (d, s) else none

/-- Nine digits of a fraction count, and zeros at its end do not. -/
def trimFraction (digits : List Char) : List Char :=
  let kept := ((digits.take 9).reverse.dropWhile (· == '0')).reverse
  if kept.isEmpty then ['0'] else kept

def fraction? : List Char → Option (Option (List Char) × List Char)
  | '.' :: s =>
    let digits := s.takeWhile Char.isDigit
    if digits.isEmpty then none else some (some (trimFraction digits), s.dropWhile Char.isDigit)
  | s => some (none, s)

/-- Seconds may be left out, and a minute may have one too many. -/
def clock? (s : List Char) : Option (Clock × List Char) := do
  let (hour, s) ← two? s
  let (minute, s) ← two? (← after? ':' s)
  if 23 < hour ∨ 59 < minute then none
  match s with
  | ':' :: s =>
    let (second, s) ← two? s
    let (fraction, s) ← fraction? s
    if 60 < second then none else some (⟨hour, minute, some second, fraction⟩, s)
  | s => some (⟨hour, minute, none, none⟩, s)

def offset? : List Char → Option (Offset × List Char)
  | 'Z' :: s | 'z' :: s => some (.zulu, s)
  | sign :: s => do
    if sign ≠ '+' ∧ sign ≠ '-' then none
    let (hour, s) ← two? s
    let (minute, s) ← two? (← after? ':' s)
    let count := hour * 60 + minute
    if 23 < hour ∨ 59 < minute then none else some (.minutes (sign = '+' ∨ count = 0) count, s)
  | [] => none

def afterDate? (d : Date) : List Char → Option Moment
  | [] => some (.date d)
  | 'T' :: s | 't' :: s | ' ' :: s => do
    let (c, s) ← clock? s
    if s.isEmpty then pure (.localTime d c)
    else
      let (o, s) ← offset? s
      if s.isEmpty then some (.instant d c o) else none
  | _ => none

def parse? (s : List Char) : Option Moment :=
  match date? s with
  | some (d, rest) => afterDate? d rest
  | none =>
    match clock? s with
    | some (c, []) => some (.clock c)
    | _ => none

end Moment

def padded (width n : Nat) : String :=
  let digits := Nat.toDigits 10 n
  String.ofList (List.replicate (width - digits.length) '0' ++ digits)

def Date.text (d : Date) : String := padded 4 d.year ++ "-" ++ padded 2 d.month ++ "-" ++ padded 2 d.day

def Clock.text (c : Clock) : String :=
  let second := match c.second with
    | some n => ":" ++ padded 2 n
    | none => ""
  let fraction := match c.fraction with
    | some digits => "." ++ String.ofList digits
    | none => ""
  padded 2 c.hour ++ ":" ++ padded 2 c.minute ++ second ++ fraction

def Offset.text : Offset → String
  | .zulu => "Z"
  | .minutes ahead count => (if ahead then "+" else "-") ++ padded 2 (count / 60) ++ ":" ++ padded 2 (count % 60)

def Moment.text : Moment → String
  | .date d => d.text
  | .clock c => c.text
  | .localTime d c => d.text ++ "T" ++ c.text
  | .instant d c o => d.text ++ "T" ++ c.text ++ o.text

end LanguageHost.Toml
