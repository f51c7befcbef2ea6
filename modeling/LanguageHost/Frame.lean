import LanguageHost.Error
import LanguageHost.Json.Read
import LanguageHost.Json.Write
import LanguageHost.Text.Utf8

/-! Messages framed by a Content-Length header. Every way to end a read says where
the reader stands afterwards, so that reading can go on after an error. -/
namespace LanguageHost.Frame

abbrev Bytes := List UInt8

def bodyLimit : Nat := 64 * 1024 * 1024

inductive Fault where
  | notText (defect : Utf8.Defect)
  | badLength (value : String)
  | missingLength
  | tooLong (length : Nat)
  | endOfInput
  | badBody
deriving DecidableEq

def Fault.error : Fault → Error
  | .notText defect => .io defect.text
  | .badLength value => .protocol ("invalid Content-Length: " ++ value)
  | .missingLength => .protocol "missing Content-Length"
  | .tooLong length => .protocol ("message of " ++ toString length ++ " bytes exceeds limit")
  | .endOfInput => .eof
  | .badBody => .json "no JSON value"

def encode (message : Json) : Bytes :=
  let body := Utf8.encode message.write
  Utf8.encode ("Content-Length: ".toList ++ Nat.toDigits 10 body.length ++ ['\r', '\n', '\r', '\n']) ++ body

/-- The first line with its line feed, and what follows. Only the last line may lack a feed. -/
def takeLine : Bytes → Bytes × Bytes
  | [] => ([], [])
  | b :: rest =>
    if b = 10 then ([b], rest)
    else ((b :: (takeLine rest).1), (takeLine rest).2)

theorem takeLine_length (b : UInt8) (s : Bytes) : (takeLine (b :: s)).2.length < (b :: s).length := by
  induction s generalizing b with
  | nil => simp only [takeLine]; split <;> simp
  | cons c s ih =>
    rw [takeLine]
    split
    · simp
    · have := ih c
      simp only [List.length_cons] at this ⊢
      omega

/-- A length: decimal digits, a plus sign before them allowed, below 2^64. -/
def parseLength? (value : List Char) : Option Nat :=
  let digits := match value with
    | '+' :: rest => rest
    | _ => value
  if digits.isEmpty || !digits.all Char.isDigit then none
  else
    let n := digits.foldl (fun n c => n * 10 + (c.toNat - 48)) 0
    if n < 0x10000000000000000 then some n else none

inductive Header where
  | other
  | length (n : Nat)
  | malformed (value : String)

/-- Only the name before the first colon counts, in any case and with any space around it. -/
def header (line : List Char) : Header :=
  match line.dropWhile (· != ':') with
  | [] => .other
  | _ :: value =>
    let name := Text.trim (line.takeWhile (· != ':'))
    let value := Text.trim value
    if Text.lowerAscii name = "content-length".toList then
      match parseLength? value with
      | some n => .length n
      | none => .malformed (String.ofList value)
    else .other

/-- Reads header lines up to the blank line that ends them: the last length given, and the
bytes that follow. `none` is an input that ends before any header. -/
def headers (seen : Bool) (length : Option Nat) : Bytes → Except Fault (Option (Option Nat)) × Bytes
  | [] => (if seen then .error .endOfInput else .ok none, [])
  | b :: s =>
    match Utf8.parse (takeLine (b :: s)).1 with
    | .error defect => (.error (.notText defect), (takeLine (b :: s)).2)
    | .ok text =>
      let line := Text.trim text
      if line.isEmpty then
        if seen then (.ok (some length), (takeLine (b :: s)).2)
        else headers false length (takeLine (b :: s)).2
      else
        match header line with
        | .other => headers true length (takeLine (b :: s)).2
        | .length n => headers true (some n) (takeLine (b :: s)).2
        | .malformed value => (.error (.badLength value), (takeLine (b :: s)).2)
termination_by s => s.length
decreasing_by all_goals exact takeLine_length _ _

def decodeBody (body : Bytes) : Except Fault Json :=
  match (Utf8.decode? body).bind Json.read? with
  | some v => .ok v
  | none => .error .badBody

/-- Reads one message; `none` is the end of the input. -/
def read (input : Bytes) : Except Fault (Option Json) × Bytes :=
  match headers false none input with
  | (.error fault, rest) => (.error fault, rest)
  | (.ok none, rest) => (.ok none, rest)
  | (.ok (some none), rest) => (.error .missingLength, rest)
  | (.ok (some (some n)), rest) =>
    if bodyLimit < n then (.error (.tooLong n), rest)
    else if rest.length < n then (.error .endOfInput, [])
    else ((decodeBody (rest.take n)).map some, rest.drop n)

def wholeLines (input : Bytes) : Bytes := (input.reverse.dropWhile (· != 10)).reverse

/-- The next message of an input that is still growing, or why there is none; nothing while that depends on
what is to come. -/
def next? (input : Bytes) : Option (Except Fault Json × Bytes) :=
  let whole := wholeLines input
  let (outcome, left) := headers false none whole
  let rest := input.drop (whole.length - left.length)
  match outcome with
  | .error .endOfInput | .ok none => none
  | .error fault => some (.error fault, rest)
  | .ok (some none) => some (.error .missingLength, rest)
  | .ok (some (some n)) =>
    if bodyLimit < n then some (.error (.tooLong n), rest)
    else if rest.length < n then none
    else some (decodeBody (rest.take n), rest.drop n)

/-- Reads up to `count` times, going on after errors and stopping after the end. -/
def readMany : Nat → Bytes → List (Except Fault (Option Json))
  | 0, _ => []
  | count + 1, input =>
    match read input with
    | (.ok none, _) => [.ok none]
    | (outcome, rest) => outcome :: readMany count rest

end LanguageHost.Frame
