import LanguageHost.Language.Definition
import LanguageHost.Text.Quoted

/-! Connections to language servers and the states they go through. -/
namespace LanguageHost

/-- Identity of one launch: the slot of its key and the count of launches in it so far. -/
structure ConnectionId where
  slot : Nat
  generation : Nat
deriving DecidableEq, Inhabited

namespace ConnectionId

def text (id : ConnectionId) : String := "LSP#" ++ toString id.slot ++ "." ++ toString id.generation

def describe (id : ConnectionId) : String :=
  "ConnectionId \x7b slot: " ++ toString id.slot ++ ", generation: " ++ toString id.generation ++ " \x7d"

def before (a b : ConnectionId) : Bool :=
  a.slot < b.slot || (a.slot == b.slot && a.generation < b.generation)

def sort (ids : List ConnectionId) : List ConnectionId := ids.mergeSort fun a b => !b.before a

end ConnectionId

inductive Status where
  | starting
  | ready
  | failed
  | shuttingDown
  | closed
deriving DecidableEq, Inhabited

namespace Status

def isLive : Status → Bool
  | .starting | .ready => true
  | _ => false

def name : Status → String
  | .starting => "Starting"
  | .ready => "Ready"
  | .failed => "Failed"
  | .shuttingDown => "ShuttingDown"
  | .closed => "Closed"

def all : List Status := [.starting, .ready, .failed, .shuttingDown, .closed]

end Status

structure Process where
  pid : Option Nat
  /-- What the server announced, if a handshake ran. -/
  capabilities : Option Json

structure Connection where
  id : ConnectionId
  key : ServerKey
  /-- The document whose opening caused the launch. -/
  document : Option Path
  status : Status
  /-- The earlier states, the latest first. -/
  past : List Status
  refs : Nat
  process : Option Process
  capabilities : Option Json
  stops : Nat

namespace Connection

def launching (id : ConnectionId) (key : ServerKey) (document : Option Path) : Connection :=
  ⟨id, key, document, .starting, [], 1, none, none, 0⟩

def directory (c : Connection) : Path := c.key.language.recipe.directory c.key.project c.document

def isLive (c : Connection) : Bool := c.status.isLive

def setStatus (c : Connection) (s : Status) : Connection := { c with status := s, past := c.status :: c.past }

def pid? (c : Connection) : Option Nat := c.process.bind Process.pid

def attach (c : Connection) (p : Process) : Connection :=
  { c with process := some p, capabilities := p.capabilities }.setStatus .ready

def fail (c : Connection) : Connection := { c with refs := 0 }.setStatus .failed

/-- The server, if there is one, is told to stop, and is no longer at anyone's disposal. -/
def beginStop (c : Connection) : Connection :=
  let c := c.setStatus .shuttingDown
  match c.process with
  | some _ => { c with process := none, stops := c.stops + 1 }
  | none => c

def endStop (c : Connection) : Connection := c.setStatus .closed

def describe (c : Connection) : String :=
  "ServerConnection \x7b id: " ++ c.id.describe ++ ", key: " ++ Text.quoted c.key.text ++ ", status: "
    ++ c.status.name ++ ", refs: " ++ toString c.refs ++ ", .. \x7d"

end Connection

end LanguageHost
