/-! Text as bytes, and where bytes stop being text. -/
namespace LanguageHost.Utf8

def encode (s : List Char) : List UInt8 := s.flatMap String.utf8EncodeChar

def decode? (bytes : List UInt8) : Option (List Char) :=
  (ByteArray.mk bytes.toArray).utf8Decode?.map Array.toList

/-- The first place where bytes are not text: either `length` bytes that begin no character, or,
without a length, a character cut short by the end. -/
structure Defect where
  index : Nat
  length : Option Nat
deriving DecidableEq

def Defect.text (d : Defect) : String :=
  match d.length with
  | some n => "invalid utf-8 sequence of " ++ toString n ++ " bytes from index " ++ toString d.index
  | none => "incomplete utf-8 byte sequence from index " ++ toString d.index


/-- The count of tail bytes after a leading byte and the range of the first of them. -/
def lead? (b : UInt8) : Option (Nat × UInt8 × UInt8) :=
  if b < 0x80 then some (0, 0, 0)
  else if 0xC2 ≤ b ∧ b ≤ 0xDF then some (1, 0x80, 0xBF)
  else if b = 0xE0 then some (2, 0xA0, 0xBF)
  else if b = 0xED then some (2, 0x80, 0x9F)
  else if 0xE1 ≤ b ∧ b ≤ 0xEF then some (2, 0x80, 0xBF)
  else if b = 0xF0 then some (3, 0x90, 0xBF)
  else if 0xF1 ≤ b ∧ b ≤ 0xF3 then some (3, 0x80, 0xBF)
  else if b = 0xF4 then some (3, 0x80, 0x8F)
  else none

/-- Where a reader stands: between characters, or `got` bytes into a character that lacks `owed`
more, the next of them from `low` to `high`. -/
structure Place where
  got : Nat
  owed : Nat
  low : UInt8
  high : UInt8

/-- Goes on at `index`, which counts the bytes before the current character. -/
def defectFrom (index : Nat) (place : Place) : List UInt8 → Option Defect
  | [] => if place.owed = 0 then none else some ⟨index, none⟩
  | b :: rest =>
    if place.owed = 0 then
      match lead? b with
      | none => some ⟨index, some 1⟩
      | some (0, _, _) => defectFrom (index + 1) place rest
      | some (owed, low, high) => defectFrom index ⟨1, owed, low, high⟩ rest
    else if place.low ≤ b ∧ b ≤ place.high then
      if place.owed = 1 then defectFrom (index + place.got + 1) ⟨0, 0, 0x80, 0xBF⟩ rest
      else defectFrom index ⟨place.got + 1, place.owed - 1, 0x80, 0xBF⟩ rest
    else some ⟨index, some place.got⟩

def defect? (bytes : List UInt8) : Option Defect := defectFrom 0 ⟨0, 0, 0x80, 0xBF⟩ bytes

def parse (bytes : List UInt8) : Except Defect (List Char) :=
  match decode? bytes with
  | some s => .ok s
  | none => .error ((defect? bytes).getD ⟨0, none⟩)

end LanguageHost.Utf8
