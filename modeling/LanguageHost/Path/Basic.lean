import LanguageHost.Text.Blank

/-! Paths as text and as the components that text names. Two paths are equal when their
components are; repeated and trailing slashes and dots in between make no difference. -/
namespace LanguageHost

structure Path where
  text : String
deriving Inhabited

namespace Path

/-- What stands between slashes. `current` occurs only at the start of a relative path. -/
inductive Component where
  | root
  | current
  | parent
  | normal (name : String)
deriving DecidableEq

def isSlash (c : Char) : Bool := c == '/'

/-- The text between slashes, empty pieces included. -/
def pieces (p : Path) : List (List Char) := Text.splitOn isSlash p.text.toList

def isAbsolute (p : Path) : Bool := p.text.toList.head? == some '/'

def isEmpty (p : Path) : Bool := p.text.isEmpty

/-- A piece inside a path; an empty one and a dot name nothing there. -/
def Component.ofPiece? (piece : List Char) : Option Component :=
  if piece = [] ∨ piece = ['.'] then none
  else if piece = ['.', '.'] then some .parent
  else some (.normal (String.ofList piece))

/-- A dot names something only as the first piece of a relative path. -/
def components (p : Path) : List Component :=
  if p.isAbsolute then .root :: p.pieces.filterMap Component.ofPiece?
  else match p.pieces with
    | ['.'] :: rest => .current :: rest.filterMap Component.ofPiece?
    | ps => ps.filterMap Component.ofPiece?

instance : BEq Path := ⟨fun p q => p.components == q.components⟩

namespace Component

def rank : Component → Nat
  | .root => 0
  | .current => 1
  | .parent => 2
  | .normal _ => 3

/-- Names are ordered by their bytes. -/
def before (a b : Component) : Bool :=
  match a, b with
  | .normal x, .normal y => decide (x < y)
  | _, _ => decide (a.rank < b.rank)

def text : Component → String
  | .root => "/"
  | .current => "."
  | .parent => ".."
  | .normal name => name

end Component

def listBefore : List Component → List Component → Bool
  | _, [] => false
  | [], _ :: _ => true
  | a :: as, b :: bs => a.before b || (a == b && listBefore as bs)

def before (p q : Path) : Bool := listBefore p.components q.components

def render : List Component → String
  | .root :: rest => "/" ++ String.intercalate "/" (rest.map Component.text)
  | cs => String.intercalate "/" (cs.map Component.text)

def ofComponents (cs : List Component) : Path := ⟨render cs⟩

/-- One step of lexical normalisation, on the components kept so far with the last one first.
Two dots take the last one away, whatever it is, unless it is the root or there is none. -/
def normalizeStep (kept : List Component) : Component → List Component
  | .current => kept
  | .parent =>
    match kept with
    | [] => [.parent]
    | .root :: rest => .parent :: .root :: rest
    | _ :: rest => rest
  | c => c :: kept

def normalizeComponents (cs : List Component) : List Component :=
  (cs.foldl normalizeStep []).reverse

def normalize (p : Path) : Path := ofComponents (normalizeComponents p.components)

def dropTrailing (ps : List (List Char)) : List (List Char) :=
  (ps.reverse.dropWhile fun piece => piece = [] ∨ piece = ['.']).reverse

/-- The pieces of a path that name nothing are left out at its end, save a dot it begins with. -/
def trimPieces : List (List Char) → List (List Char)
  | ['.'] :: rest => ['.'] :: dropTrailing rest
  | ps => dropTrailing ps

def joinPieces (ps : List (List Char)) : String :=
  String.intercalate "/" (ps.map String.ofList)

/-- The path without its last component, as it stands in the text. The root and the empty path
have none. -/
def parent? (p : Path) : Option Path :=
  if p.isAbsolute then
    match dropTrailing (p.pieces.drop 1) with
    | [] => none
    | ps => some ⟨"/" ++ joinPieces (dropTrailing ps.dropLast)⟩
  else
    match trimPieces p.pieces with
    | [] => none
    | ps => some ⟨joinPieces (trimPieces ps.dropLast)⟩

def fileName? (p : Path) : Option String :=
  match p.components.getLast? with
  | some (.normal name) => some name
  | _ => none

/-- What follows the last dot of the file name, unless that dot is the first character and the
only one. -/
def extension? (p : Path) : Option String := do
  let name ← p.fileName?
  let reversed := name.toList.reverse
  match reversed.dropWhile (· != '.') with
  | [] => none
  | _ :: before => if before.isEmpty then none else some (String.ofList (reversed.takeWhile (· != '.')).reverse)

end Path

end LanguageHost
