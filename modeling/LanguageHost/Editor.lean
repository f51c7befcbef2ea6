import LanguageHost.Language.Catalog
import LanguageHost.Path.Uri

/-! Editors as the session layer sees them, and documents backed by a file. -/
namespace LanguageHost

structure EditorId where
  number : Nat
deriving DecidableEq, Inhabited

def EditorId.text (id : EditorId) : String := "editor#" ++ toString id.number

/-- What asking an editor for something comes to: a value, nothing, or a crash of the editor. -/
inductive Capability (α : Type) where
  | value (a : α)
  | missing
  | crash

def Capability.ofOption {α : Type} : Option α → Capability α
  | some a => .value a
  | none => .missing

/-- An open editor. A document for which anything but the document path is missing is not eligible
for a language server. -/
structure Editor where
  id : EditorId
  uri : Capability String
  projectPath : Capability Path
  project : Capability Project
  language : Capability Language
  documentPath : Capability Path

structure Resolved where
  uri : String
  key : ServerKey
  document : Option Path

inductive Resolution where
  | eligible (what : Resolved)
  | ineligible
  | crashed

def Capability.andThen {α : Type} (c : Capability α) (wanted : α → Bool) (next : α → Resolution) : Resolution :=
  match c with
  | .value a => if wanted a then next a else .ineligible
  | .missing => .ineligible
  | .crash => .crashed

namespace Editor

/-- Asks for the language, the URI, the project path, the project and the document path, in this
order and each only after the one before has been given. -/
def resolve (e : Editor) : Resolution :=
  e.language.andThen (fun _ => true) fun language =>
  e.uri.andThen (fun uri => !uri.isEmpty) fun uri =>
  e.projectPath.andThen (fun p => !p.isEmpty) fun _ =>
  e.project.andThen (fun _ => true) fun project =>
  match e.documentPath with
  | .value document => .eligible ⟨uri, ⟨language, project⟩, some document⟩
  | .missing => .eligible ⟨uri, ⟨language, project⟩, none⟩
  | .crash => .crashed

end Editor

structure Document where
  path : Option Path
  root : Option Path
  language : Option Language

namespace Document

def inCatalog (path root : Path) (c : Catalog) : Document := ⟨some path, some root, c.forPath? path⟩

def uri? (d : Document) : Option String := d.path.bind Uri.ofFile?

def project? (d : Document) (fs : FileSystem) : Option Project := d.root.bind (Project.ofPath? fs)

def toEditor (d : Document) (id : EditorId) (fs : FileSystem) : Editor where
  id
  uri := .ofOption d.uri?
  projectPath := .ofOption d.root
  project := .ofOption (d.project? fs)
  language := .ofOption d.language
  documentPath := .ofOption d.path

end Document

end LanguageHost
