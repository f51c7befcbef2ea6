import LanguageHost.Json.Text

/-! Reading JSON values out of JSON text. -/
namespace LanguageHost.Json

def depthLimit : Nat := 127

mutual

/-- The value a text stands for when `depth` more arrays and objects may be entered. -/
def Text.toValue? : Nat → Text → Option Json
  | _, .null => some .null
  | _, .bool b => some (.bool b)
  | _, .number n => n.value?
  | _, .string s => s.map .string
  | 0, .array _ => none
  | depth + 1, .array items => (Text.toItems? depth items).map .array
  | 0, .object _ => none
  | depth + 1, .object members => (Text.toMembers? depth members).map ofMembers

def Text.toItems? : Nat → List Text → Option (List Json)
  | _, [] => some []
  | depth, item :: rest => do
    let v ← Text.toValue? depth item
    let vs ← Text.toItems? depth rest
    pure (v :: vs)

def Text.toMembers? : Nat → List (Option String × Text) → Option (List (String × Json))
  | _, [] => some []
  | depth, (key, item) :: rest => do
    let k ← key
    let v ← Text.toValue? depth item
    let vs ← Text.toMembers? depth rest
    pure ((k, v) :: vs)

end

def read? (s : List Char) : Option Json := do
  let text ← Text.parse? s
  text.toValue? depthLimit

end LanguageHost.Json
