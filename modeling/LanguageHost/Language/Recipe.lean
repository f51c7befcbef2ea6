import LanguageHost.Json.Read
import LanguageHost.Path.Basic
import LanguageHost.Project

/-! How the server of a language is started. -/
namespace LanguageHost

inductive WorkingDir where
  | project
  /-- The directory of the document that caused the launch. -/
  | fileDir
  | fixed (path : Path)
deriving BEq, Inhabited

structure Recipe where
  command : String
  args : List String := []
  env : List (String × String) := []
  workingDir : WorkingDir := .project
  options : Option Json := none
deriving BEq, Inhabited

namespace Recipe

def new (command : String) : Recipe := { command }

def withArgs (r : Recipe) (args : List String) : Recipe := { r with args }

/-- Replaces the environment; of several values for one name the last counts. -/
def withEnv (r : Recipe) (env : List (String × String)) : Recipe := { r with env := Json.sortMembers env }

def withWorkingDir (r : Recipe) (workingDir : WorkingDir) : Recipe := { r with workingDir }

/-- The directory a server is started in. Without a document that lies in a directory it is
the project root. -/
def directory (r : Recipe) (project : Project) (document : Option Path) : Path :=
  match r.workingDir with
  | .project => project.path
  | .fileDir => (document.bind Path.parent?).getD project.path
  | .fixed path => path

end Recipe

def WorkingDir.toJson : WorkingDir → Json
  | .project => .string "project"
  | .fileDir => .string "file_dir"
  | .fixed path => .object [("path", .string path.text)]

namespace Recipe

/-- All five fields are written; absent options are null. -/
def toJson (r : Recipe) : Json :=
  Json.ofMembers [
    ("command", .string r.command),
    ("args", .array (r.args.map .string)),
    ("env", .object (r.env.map fun (k, v) => (k, .string v))),
    ("working_dir", r.workingDir.toJson),
    ("initialization_options", r.options.getD .null)]

def fieldNames : List String := ["command", "args", "env", "working_dir", "initialization_options"]

end Recipe

namespace Json

namespace Text

def asString? : Text → Option String
  | .string s => s
  | _ => none

/-- A policy is its name, or an object with the name as its only key. -/
def toWorkingDir? : Text → Option WorkingDir
  | .string (some "project") => some .project
  | .string (some "file_dir") => some .fileDir
  | .object [(some "project", .null)] => some .project
  | .object [(some "file_dir", .null)] => some .fileDir
  | .object [(some "path", .string (some path))] => some (.fixed ⟨path⟩)
  | _ => none

def toStrings? : Text → Option (List String)
  | .array items => items.mapM asString?
  | _ => none

def toStringMap? : Text → Option (List (String × String))
  | .object members => do
    let pairs ← members.mapM fun (k, v) => do pure (← k, ← v.asString?)
    pure (Json.sortMembers pairs)
  | _ => none

/-- Options nest one level below the recipe; null is none. -/
def toOptions? : Text → Option (Option Json)
  | .null => some none
  | t => (t.toValue? (depthLimit - 1)).map some

def fieldOr {α : Type} (fields : List (String × Text)) (key : String) (fallback : α)
    (read : Text → Option α) : Option α :=
  match fields.lookup key with
  | none => some fallback
  | some field => read field

def recipeOfFields? (fields : List (String × Text)) : Option Recipe := do
  let command ← (← fields.lookup "command").asString?
  let args ← fieldOr fields "args" [] toStrings?
  let env ← fieldOr fields "env" [] toStringMap?
  let workingDir ← fieldOr fields "working_dir" .project toWorkingDir?
  let options ← fieldOr fields "initialization_options" none toOptions?
  pure { command, args, env, workingDir, options }

/-- The members that are fields; a key that is no text is refused. -/
def knownFields? : List (Option String × Text) → Option (List (String × Text))
  | [] => some []
  | (key, item) :: rest => do
    let k ← key
    let fields ← knownFields? rest
    pure (if Recipe.fieldNames.contains k then (k, item) :: fields else fields)

/-- Reads a recipe written as an object or as a list of its fields. An object gives no field
twice, and a list may end early but not go on. -/
def toRecipe? : Text → Option Recipe
  | .object members => do
    let fields ← knownFields? members
    if (fields.map Prod.fst).Nodup then recipeOfFields? fields else none
  | .array items =>
    if items.length ≤ Recipe.fieldNames.length then recipeOfFields? (Recipe.fieldNames.zip items) else none
  | _ => none

end Text

end Json

def Recipe.read? (s : List Char) : Option Recipe := (Json.Text.parse? s).bind Json.Text.toRecipe?

end LanguageHost
