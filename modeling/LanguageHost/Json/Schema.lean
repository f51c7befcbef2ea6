import LanguageHost.Json.Value

/-! Shapes of JSON values. Fitting a value to a shape keeps what the shape names and drops the rest. -/
namespace LanguageHost.Json

/-- Whether a member of a record has to be there. One that need not be there may as well be null. -/
inductive Presence where
  | required
  | optional
  | nullable
deriving DecidableEq

inductive Schema where
  | any
  | bool
  | string
  /-- One of several names, alone or as the only key of an object that has null there. -/
  | word (names : List String)
  | int32
  | list (item : Schema)
  /-- An object; a `positional` one may also be the list of all its members in order. -/
  | record (positional : Bool) (fields : List (String × Presence × Schema))
  | firstOf (options : List Schema)

namespace Schema

def membersOf? (positional : Bool) (names : List String) : Json → Option (List (String × Json))
  | .object members => some members
  | .array items => if positional && items.length == names.length then some (names.zip items) else none
  | _ => none

mutual

def fit? : Schema → Json → Option Json
  | .any, v => some v
  | .bool, .bool b => some (.bool b)
  | .string, .string s => some (.string s)
  | .word names, .string s | .word names, .object [(s, .null)] =>
    if names.contains s then some (.string s) else none
  | .int32, .int n => if -0x80000000 ≤ n ∧ n < 0x80000000 then some (.int n) else none
  | .list item, .array items => (items.mapM fun v => fit? item v).map .array
  | .record positional fields, v => do
    let members ← membersOf? positional (fields.map Prod.fst) v
    pure (ofMembers (← fitFields? fields members))
  | .firstOf options, v => fitFirst? options v
  | _, _ => none

def fitFields? : List (String × Presence × Schema) → List (String × Json) → Option (List (String × Json))
  | [], _ => some []
  | (name, presence, s) :: rest, members => do
    let more ← fitFields? rest members
    match presence, members.lookup name with
    | .required, none => none
    | .required, some v => pure ((name, ← fit? s v) :: more)
    | .optional, none | .optional, some .null => pure more
    | .nullable, none | .nullable, some .null => pure ((name, .null) :: more)
    | _, some v => pure ((name, ← fit? s v) :: more)

def fitFirst? : List Schema → Json → Option Json
  | [], _ => none
  | s :: rest, v => (fit? s v).or (fitFirst? rest v)

end

end Schema

end LanguageHost.Json
