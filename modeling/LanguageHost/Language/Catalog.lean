import LanguageHost.Language.Definition

/-! The known languages, found by file extension. -/
namespace LanguageHost

/-- Languages in the order of registration, and for each extension the position of the language
that claimed it first. -/
structure Catalog where
  languages : List Language
  owners : List (String × Nat)
deriving Inhabited

namespace Catalog

def empty : Catalog := ⟨[], []⟩

/-- An extension that has an owner keeps it. -/
def claim (index : Nat) (owners : List (String × Nat)) (ext : String) : List (String × Nat) :=
  match owners.lookup ext with
  | some _ => owners
  | none => (ext, index) :: owners

def register (c : Catalog) (l : Language) : Catalog :=
  ⟨c.languages ++ [l], l.extensions.foldl (claim c.languages.length) c.owners⟩

def ofList (ls : List Language) : Catalog := ls.foldl register empty

def indexForExtension? (c : Catalog) (ext : String) : Option Nat := c.owners.lookup (Extension.normalize ext)

def forExtension? (c : Catalog) (ext : String) : Option Language :=
  (c.indexForExtension? ext).bind fun i => c.languages[i]?

def indexForPath? (c : Catalog) (p : Path) : Option Nat := p.extension?.bind c.indexForExtension?

def forPath? (c : Catalog) (p : Path) : Option Language := p.extension?.bind c.forExtension?

end Catalog

end LanguageHost
