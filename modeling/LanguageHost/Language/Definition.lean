import LanguageHost.Language.Extension
import LanguageHost.Language.Recipe

/-! Languages: the extensions that trigger them and the recipe of their server. -/
namespace LanguageHost

/-- A language. Its extensions are in normal form, without repetition and at least one. -/
structure Language where
  name : String
  extensions : List String
  recipe : Recipe
  distinct : extensions.Nodup

instance : Inhabited Language := ⟨⟨"", [], default, List.nodup_nil⟩⟩

namespace Language

/-- Nothing when no extension is left in normal form. -/
def new? (name : String) (extensions : List String) (recipe : Recipe) : Option Language :=
  let forms := Extension.normalForms extensions
  if forms.isEmpty then none else some ⟨name, forms, recipe, Extension.normalForms_nodup extensions⟩

def handles (l : Language) (ext : String) : Bool := l.extensions.contains (Extension.normalize ext)

/-- The name is a label and the order of extensions of no account. Neither list repeats, so
equal length and containment are equality of sets. -/
instance : BEq Language :=
  ⟨fun a b => a.extensions.length == b.extensions.length
    && a.extensions.all b.extensions.contains && a.recipe == b.recipe⟩

/-- What equal languages have in common and a table may sort them by. -/
def digest (l : Language) : List String × String × List String :=
  (l.extensions.mergeSort (fun a b => decide (a ≤ b)), l.recipe.command, l.recipe.args)

end Language

structure ServerKey where
  language : Language
  project : Project
deriving BEq, Inhabited

namespace ServerKey

def isValid (k : ServerKey) : Bool := !k.language.extensions.isEmpty && !k.project.path.isEmpty

def text (k : ServerKey) : String := k.language.name ++ "@" ++ k.project.text

end ServerKey

end LanguageHost
