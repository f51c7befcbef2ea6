import LanguageHost.Bounds
import LanguageHost.Language.Catalog
import LanguageHost.Text.Utf8
import LanguageHost.Toml.Document

/-! Settings in TOML: the time bounds and the table of languages. -/
namespace LanguageHost

structure LanguageEntry where
  name : String
  extensions : List String
  recipe : Recipe

structure Settings where
  launchSeconds : Nat := 30
  shutdownMillis : Nat := 2000
  languages : List LanguageEntry := []

namespace Toml

def momentKey : String := "$__toml_private_datetime"

def asString? : Toml → Option String
  | .string s => some s
  | _ => none

def asItems? : Toml → Option (List Toml)
  | .array _ items => some items
  | _ => none

def asEntries? : Toml → Option Entries
  | .table _ entries => some entries
  | .moment m => some [(momentKey, .string m.text)]
  | _ => none

def asWord? : Toml → Option Nat
  | .integer n => if 0 ≤ n ∧ n < 0x10000000000000000 then some n.toNat else none
  | _ => none

mutual

/-- All integers lie in a range, its upper end excluded. -/
def integersIn (low high : Int) : Toml → Bool
  | .integer n => low ≤ n && n < high
  | .array _ items => itemsIn low high items
  | .table _ entries => entriesIn low high entries
  | .string _ | .float _ | .bool _ | .moment _ => true

def itemsIn (low high : Int) : List Toml → Bool
  | [] => true
  | item :: rest => integersIn low high item && itemsIn low high rest

def entriesIn (low high : Int) : List (String × Toml) → Bool
  | [] => true
  | (_, v) :: rest => integersIn low high v && entriesIn low high rest

end

mutual

/-- The value as JSON. Floats that are no numbers become null. -/
def toJson : Toml → Json
  | .string s => .string s
  | .integer n => .int n
  | .float x => if x.isInf then .null else .ofFloat x
  | .bool b => .bool b
  | .moment m => .object [(momentKey, .string m.text)]
  | .array _ items => .array (itemsToJson items)
  | .table _ entries => Json.ofMembers (entriesToJson entries)

def itemsToJson : List Toml → List Json
  | [] => []
  | item :: rest => item.toJson :: itemsToJson rest

def entriesToJson : List (String × Toml) → List (String × Json)
  | [] => []
  | (key, v) :: rest => (key, v.toJson) :: entriesToJson rest

end

def toStrings? (v : Toml) : Option (List String) := do (← v.asItems?).mapM asString?

def toStringMap? (v : Toml) : Option (List (String × String)) := do
  let pairs ← (← v.asEntries?).mapM fun (key, v) => do pure (key, ← v.asString?)
  pure (Json.sortMembers pairs)

/-- A policy is its name, or a table with the name as its only key. -/
def toWorkingDir? : Toml → Option WorkingDir
  | .string "project" => some .project
  | .string "file_dir" => some .fileDir
  | .table _ [("project", .table _ [])] => some .project
  | .table _ [("file_dir", .table _ [])] => some .fileDir
  | .table _ [("path", .string path)] => some (.fixed ⟨path⟩)
  | _ => none

def fieldOr {α : Type} (entries : Entries) (key : String) (fallback : α) (read : Toml → Option α) : Option α :=
  match entries.lookup key with
  | none => some fallback
  | some v => read v

def toRecipe? (entries : Entries) : Option Recipe := do
  let command ← (← entries.lookup "command").asString?
  let args ← fieldOr entries "args" [] toStrings?
  let env ← fieldOr entries "env" [] toStringMap?
  let workingDir ← fieldOr entries "working_dir" .project toWorkingDir?
  pure { command, args, env, workingDir, options := (entries.lookup "initialization_options").map toJson }

/-- Reads a language: its name, its extensions and the fields of its recipe. Other keys count
for nothing, but all integers have to be such as JSON has. -/
def toLanguageEntry? (v : Toml) : Option LanguageEntry := do
  let entries ← v.asEntries?
  let name ← (← entries.lookup "name").asString?
  let extensions ← fieldOr entries "extensions" [] toStrings?
  if entriesIn (-0x8000000000000000) 0x10000000000000000 entries then
    pure ⟨name, extensions, ← toRecipe? entries⟩
  else none

def toLanguageEntries? (v : Toml) : Option (List LanguageEntry) := do (← v.asItems?).mapM toLanguageEntry?

/-- Reads settings, each of which has a default. Other keys count for nothing, but integers wider
than 128 bits are refused. -/
def toSettings? (entries : Entries) : Option Settings := do
  let launchSeconds ← fieldOr entries "launch_timeout_secs" 30 asWord?
  let shutdownMillis ← fieldOr entries "shutdown_timeout_ms" 2000 asWord?
  let languages ← fieldOr entries "language" [] toLanguageEntries?
  if entriesIn (-0x80000000000000000000000000000000) 0x100000000000000000000000000000000 entries then
    pure { launchSeconds, shutdownMillis, languages }
  else none

end Toml

namespace Settings

def malformed : Error := .config "not a document of settings"

def parse (text : List Char) : Except Error Settings :=
  match (Toml.read? text).bind Toml.toSettings? with
  | some settings => .ok settings
  | none => .error malformed

def load (fs : FileSystem) (path : Path) : Except Error Settings :=
  match fs.readFile path with
  | .error fault => .error (.io fault.text)
  | .ok bytes =>
    match Utf8.decode? bytes with
    | none => .error .notUtf8
    | some text => parse text

def bounds (s : Settings) : Bounds := ⟨.ofSecs s.launchSeconds, .ofMillis s.shutdownMillis⟩

def catalog (s : Settings) : Catalog :=
  Catalog.ofList (s.languages.filterMap fun e => Language.new? e.name e.extensions e.recipe)

end Settings

def Bounds.standard : Bounds := Settings.bounds {}

end LanguageHost
