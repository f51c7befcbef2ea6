import LanguageHost.Client.Event
import LanguageHost.Language.Definition
import LanguageHost.Path.Uri

/-! Starting servers as child processes. -/
namespace LanguageHost

structure ChildLauncher where
  greets : Bool := true
  clientName : String := "tether"
  clientPid : Nat

structure LaunchRequest where
  id : ConnectionId
  key : ServerKey
  document : Option Path

namespace LaunchRequest

def recipe (r : LaunchRequest) : Recipe := r.key.language.recipe

def directory (r : LaunchRequest) : Path := r.recipe.directory r.key.project r.document

def texts (r : LaunchRequest) : List String :=
  r.recipe.command :: r.directory.text :: r.recipe.args ++ r.recipe.env.flatMap fun (k, v) => [k, v]

end LaunchRequest

namespace ChildLauncher

def version : String := "0.10.0"

def greeting (l : ChildLauncher) (project : Project) (options : Option Json) : Json :=
  let root := Uri.ofRoot? project.path
  let name := (project.path.fileName?).getD ""
  Json.ofMembers ([
    ("processId", .int l.clientPid),
    ("rootUri", match root with
      | some uri => .string uri
      | none => .null),
    ("capabilities", .object []),
    ("clientInfo", Json.ofMembers [("name", .string l.clientName), ("version", .string version)])]
    ++ (match options with
      | some v => [("initializationOptions", v)]
      | none => [])
    ++ (match root with
      | some uri => [("workspaceFolders", .array [Json.ofMembers [("uri", .string uri), ("name", .string name)]])]
      | none => []))

def spawn (fs : FileSystem) (r : LaunchRequest) : Except Error Unit :=
  if r.texts.any fun text => text.toList.contains '\x00' then
    .error (.spawn r.recipe.command "nul byte found in provided data")
  else
    match fs.run r.directory (r.recipe.env.lookup "PATH") r.recipe.command with
    | .ok _ => .ok ()
    | .error fault => .error (.spawn r.recipe.command fault.text)

/-- Starts a server. What becomes of the launch then depends on the server. -/
def launch (l : ChildLauncher) (fs : FileSystem) (r : LaunchRequest) : Except Error Client :=
  match spawn fs r with
  | .error e => .error e
  | .ok () => .ok (.start (.unbounded none) (if l.greets then some (l.greeting r.key.project r.recipe.options) else none))

end ChildLauncher

end LanguageHost
