import LanguageHost.Path.FileSystem

/-! Projects, identified by where they lie. -/
namespace LanguageHost

structure Project where
  path : Path
deriving BEq, Inhabited

namespace Project

/-- A root that exists is identified by its canonical path and any other by its text; an empty
path identifies nothing. -/
def ofPath? (fs : FileSystem) (p : Path) : Option Project :=
  if p.isEmpty then none
  else
    let normal := (fs.canonical? p).getD p.normalize
    if normal.isEmpty then none else some ⟨normal⟩

def text (p : Project) : String := p.path.text

end Project

end LanguageHost
