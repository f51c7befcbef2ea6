import LanguageHost.Path.Basic
import LanguageHost.Text.Utf8

/-! The URI of an absolute path. Bytes with a meaning of their own in a URI are percent-encoded;
square brackets, the vertical bar and the caret stand as they are. -/
namespace LanguageHost.Uri

def hexUpper (n : Nat) : Char := (Nat.digitChar n).toUpper

def escapedChars : List Char := [' ', '"', '#', '%', '/', '<', '>', '?', '\\', '\x60', '\x7b', '\x7d']

/-- Controls, bytes beyond ASCII and the characters listed are encoded. -/
def isEscaped (b : UInt8) : Bool :=
  b < 0x20 || 0x7F ≤ b || escapedChars.contains (Char.ofNat b.toNat)

def encodeByte (b : UInt8) : List Char :=
  if isEscaped b then ['%', hexUpper (b.toNat / 16), hexUpper (b.toNat % 16)] else [Char.ofNat b.toNat]

def encodeSegment (s : String) : List Char := (Utf8.encode s.toList).flatMap encodeByte

/-- The path part: each component below the root after a slash, two dots included. -/
def encodePath (cs : List Path.Component) : List Char :=
  if cs.isEmpty then ['/'] else cs.flatMap fun c => '/' :: encodeSegment c.text

def scheme : List Char := "file://".toList

def ofFile? (p : Path) : Option String :=
  if p.isAbsolute then some (String.ofList (scheme ++ encodePath p.components.tail)) else none

def ofDirectory? (p : Path) : Option String :=
  (ofFile? p).map fun uri => if uri.toList.getLast? = some '/' then uri else uri ++ "/"

def isUnreserved (c : Char) : Bool := c.isAlphanum || ['-', '.', '_', '~'].contains c

def isSubDelim (c : Char) : Bool := ['!', '$', '&', '\'', '(', ')', '*', '+', ',', ';', '='].contains c

def isHex (c : Char) : Bool := c.isDigit || ('a' ≤ c && c ≤ 'f') || ('A' ≤ c && c ≤ 'F')

/-- The characters of a path in the grammar of RFC 3986, percent triples as a whole. -/
def isPathText : List Char → Bool
  | [] => true
  | '%' :: a :: b :: rest => isHex a && isHex b && isPathText rest
  | c :: rest => (c == '/' || c == ':' || c == '@' || isUnreserved c || isSubDelim c) && isPathText rest

def isStandard (uri : String) : Bool :=
  uri.toList.take scheme.length == scheme && isPathText (uri.toList.drop scheme.length)

/-- The URI by which a root directory is announced; a root whose URI is not a standard one is not
announced. -/
def ofRoot? (p : Path) : Option String := (ofDirectory? p).filter isStandard

end LanguageHost.Uri
