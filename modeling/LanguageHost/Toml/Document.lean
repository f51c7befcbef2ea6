import LanguageHost.Toml.Expression

/-! The tables that a TOML document describes. -/
namespace LanguageHost.Toml

def nestingLimit : Nat := 80

mutual

/-- The value of an expression in which `depth` more arrays and tables may be entered. -/
def Expression.value? : Nat → Expression → Option Toml
  | _, .string s => some (.string s)
  | _, .scalar v => some v
  | 0, .array _ => none
  | depth + 1, .array items => (Expression.items? depth items).map (.array false)
  | 0, .table _ => none
  | depth + 1, .table entries => (Expression.entries? depth entries []).map (.table .braced)

def Expression.items? : Nat → List Expression → Option (List Toml)
  | _, [] => some []
  | depth, item :: rest => do
    let v ← Expression.value? depth item
    let vs ← Expression.items? depth rest
    pure (v :: vs)

def Expression.entries? : Nat → List (List String × Expression) → Entries → Option Entries
  | _, [], made => some made
  | depth, (key, item) :: rest, made => do
    let v ← Expression.value? depth item
    Expression.entries? depth rest (← assign v key made)

end

/-- The tables made so far, and the path of the table that keys are assigned in. -/
structure Draft where
  root : Entries
  path : List String

def Draft.apply (d : Draft) : Statement → Option Draft
  | .assign key e => do
    let v ← e.value? nestingLimit
    pure { d with root := ← alter (assign v key) d.path d.root }
  | .table path => do
    pure ⟨← alter (openTable (← path.getLast?)) path.dropLast d.root, path⟩
  | .element path => do
    pure ⟨← alter (openElement (← path.getLast?)) path.dropLast d.root, path⟩

def read? (s : List Char) : Option Entries := do
  let d ← (← parse? s).foldlM Draft.apply ⟨[], []⟩
  pure d.root

end LanguageHost.Toml
