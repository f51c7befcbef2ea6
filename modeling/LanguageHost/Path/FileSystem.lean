import LanguageHost.Path.Basic
import LanguageHost.Error

/-! A tree of directories, files and symbolic links, and how a path is followed in it. -/
namespace LanguageHost

inductive Entry where
  | directory
  | file (bytes : List UInt8) (executable : Bool)
  | link (target : Path)

/-- Places are named by their components below the root; the root itself is a directory. -/
structure FileSystem where
  entries : List (List String × Entry)

namespace FileSystem

inductive Fault where
  | notFound
  | notDirectory
  | isDirectory
  | linkLoop
  | nameTooLong
  | denied
  | nul
deriving DecidableEq

def Fault.text : Fault → String
  | .notFound => "No such file or directory (os error 2)"
  | .notDirectory => "Not a directory (os error 20)"
  | .isDirectory => "Is a directory (os error 21)"
  | .linkLoop => "Too many levels of symbolic links (os error 40)"
  | .nameTooLong => "File name too long (os error 36)"
  | .denied => "Permission denied (os error 13)"
  | .nul => "file name contained an unexpected NUL byte"

/-- A later entry replaces an earlier one of the same place. -/
def entry? (fs : FileSystem) (place : List String) : Option Entry :=
  if place.isEmpty then some .directory
  else fs.entries.lookup place

def insert (fs : FileSystem) (place : List String) (e : Entry) : FileSystem :=
  ⟨(place, e) :: fs.entries⟩

/-- The pieces of a path below its root; an empty piece stays where it is, like a dot. -/
def steps (p : Path) : List String :=
  (if p.isAbsolute then p.pieces.drop 1 else p.pieces).map String.ofList

def linkLimit : Nat := 40

/-- Follows steps from a directory, the place so far with its last name first. -/
def follow (fs : FileSystem) (links : Nat) (place : List String) : List String → Except Fault (List String × Entry)
  | [] =>
    match fs.entry? place.reverse with
    | some e => .ok (place, e)
    | none => .error .notFound
  | name :: rest =>
    if name = "" ∨ name = "." then follow fs links place rest
    else if name = ".." then follow fs links place.tail rest
    else if 255 < name.utf8ByteSize then .error .nameTooLong
    else
      match fs.entry? (name :: place).reverse with
      | none => .error .notFound
      | some .directory => follow fs links (name :: place) rest
      | some (.file bytes executable) =>
        if rest.isEmpty then .ok (name :: place, .file bytes executable) else .error .notDirectory
      | some (.link target) =>
        match links with
        | 0 => .error .linkLoop
        | links + 1 =>
          follow fs links (if target.isAbsolute then [] else place) (steps target ++ rest)
termination_by todo => (links, todo.length)

/-- Goes down from a directory, its last name first, by one name. A directory is made where nothing is. -/
def enter (fs : FileSystem) (place : List String) (name : String) : FileSystem × List String :=
  match fs.follow linkLimit place [name] with
  | .ok (inside, _) => (fs, inside)
  | .error _ => (fs.insert (name :: place).reverse .directory, name :: place)

def enterAll (fs : FileSystem) (way : List String) : FileSystem × List String :=
  way.foldl (fun (fs, place) name => fs.enter place name) (fs, [])

def makeDirectory (fs : FileSystem) (way : List String) : FileSystem := (fs.enterAll way).1

/-- Puts something at the end of a way. What is written to a link goes where the link leads. -/
def put (fs : FileSystem) (way : List String) (e : Entry) : FileSystem :=
  let (fs, place) := fs.enterAll way.dropLast
  match way.getLast?, e with
  | some name, .file _ _ =>
    match fs.follow linkLimit place [name] with
    | .ok (spot, _) => fs.insert spot.reverse e
    | .error _ => fs.insert (name :: place).reverse e
  | some name, _ => fs.insert (name :: place).reverse e
  | none, _ => fs

/-- Where a path leads, however long it is. Relative paths lead nowhere. -/
def reach (fs : FileSystem) (p : Path) : Except Fault (List String × Entry) :=
  if !p.isAbsolute then .error .notFound
  else (fs.follow linkLimit [] (steps p)).map fun (place, e) => (place.reverse, e)

def pathLimit : Nat := 4096

def hasNul (p : Path) : Bool := p.text.toList.contains '\x00'

def openAt (fs : FileSystem) (p : Path) : Except Fault (List String × Entry) :=
  if hasNul p then .error .nul
  else if pathLimit ≤ p.text.utf8ByteSize then .error .nameTooLong
  else fs.reach p

/-- The path of the same place without dots and links. It is found name by name, so a path of any length
has one. -/
def canonical? (fs : FileSystem) (p : Path) : Option Path :=
  if hasNul p then none
  else match fs.reach p with
    | .ok (place, _) => some (Path.ofComponents (.root :: place.map .normal))
    | .error _ => none

def readFile (fs : FileSystem) (p : Path) : Except Fault (List UInt8) :=
  match fs.openAt p with
  | .ok (_, .file bytes _) => .ok bytes
  | .ok (_, _) => .error .isDirectory
  | .error fault => .error fault

def execute (fs : FileSystem) (place : List String) (p : Path) : Except Fault Unit :=
  if pathLimit ≤ p.text.utf8ByteSize then .error .nameTooLong
  else match fs.follow linkLimit (if p.isAbsolute then [] else place) (steps p) with
    | .ok (_, .file _ true) => .ok ()
    | .ok (_, _) => .error .denied
    | .error fault => .error fault

/-- Executes the first of several paths that can be. One that leads nowhere or may not be executed gives way
to the next; when there is no other, the last fault counts, but a denial before any other. -/
def executeFirst (fs : FileSystem) (place : List String) (last : Fault) : List Path → Except Fault Unit
  | [] => .error last
  | p :: rest =>
    match fs.execute place p with
    | .error .denied => fs.executeFirst place .denied rest
    | .error .notFound => fs.executeFirst place (if last = .denied then .denied else .notFound) rest
    | .error .notDirectory => fs.executeFirst place (if last = .denied then .denied else .notDirectory) rest
    | outcome => outcome

/-- The paths of a command in the directories of a search path. An empty directory is the current one. -/
def candidates (search command : String) : List Path :=
  (Text.splitOn (· == ':') search.toList).map fun dir =>
    if dir.isEmpty then ⟨command⟩ else ⟨String.ofList dir ++ "/" ++ command⟩

/-- Runs a command from a directory. A command with a slash in it is a path, relative to the directory or
absolute; any other is looked for along the search path, and is known nowhere without one. -/
def run (fs : FileSystem) (directory : Path) (search : Option String) (command : String) :
    Except Fault Unit := do
  let (place, entry) ← fs.openAt directory
  match entry with
  | .directory => pure ()
  | _ => throw .notDirectory
  if command.toList.contains '/' then fs.execute place.reverse ⟨command⟩
  else if command.isEmpty then throw .notFound
  else if 255 < command.utf8ByteSize then throw .nameTooLong
  else fs.executeFirst place.reverse .notFound ((search.map fun s => candidates s command).getD [])

end FileSystem

end LanguageHost
