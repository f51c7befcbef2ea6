import LanguageHost.Client.Launch
import LanguageHost.Server.Script

/-! A client and a scripted server at the two ends of a channel. The client always goes first, and time
stands still while either can go on. -/
namespace LanguageHost

structure Exchange where
  client : Client
  server : ScriptedServer
  /-- Output of the server that makes no whole frame yet. -/
  unread : Frame.Bytes

namespace Exchange

def tell (x : Exchange) (e : Client.Event) : Exchange := { x with client := x.client.apply e }

/-- The reader takes frames while there are whole ones. Each takes one unit of fuel. -/
def read : Nat → Exchange → Exchange
  | 0, x => x
  | fuel + 1, x =>
    match Frame.next? x.unread with
    | none => x
    | some (.error _, rest) => { x with unread := rest }.tell .outputEnded
    | some (.ok message, rest) => read fuel ({ x with unread := rest }.tell (.received message))

def notice (x : Exchange) : ServerSign → Exchange
  | .nothing => x
  | .output bytes => read (x.unread.length + bytes.length) { x with unread := x.unread ++ bytes }
  | .outputClosed => x.tell .outputEnded
  | .exited status => ((x.tell .inputClosed).tell .outputEnded).tell (.exited status)

def serve? (x : Exchange) : Option Exchange :=
  if x.client.exit.isSome then none
  else if x.client.killed then some (x.notice (.exited (.signal 9)))
  else (x.server.step? x.client.sent).map fun (server, sign) => { x with server }.notice sign

/-- The next thing to happen: the client goes on, or the server does, or the client's deadline comes. -/
def next? (x : Exchange) : Option Exchange :=
  if x.client.canProceed then some (x.tell .proceed)
  else x.serve?.or (x.client.deadline?.map fun deadline => x.tell (.tick (deadline - x.client.now)))

def runUntil (reached : Client → Bool) : Nat → Exchange → Exchange
  | 0, x => x
  | fuel + 1, x =>
    if reached x.client then x
    else
      match x.next? with
      | some x => runUntil reached fuel x
      | none => x

/-- More than can happen: each step of the server lets the client go on once, and three deadlines come. -/
def fuel (x : Exchange) : Nat := 2 * x.server.length + 16

def isLaunched (c : Client) : Bool :=
  match c.phase with
  | .ready _ | .failed _ => true
  | _ => false

def isStopped (c : Client) : Bool :=
  match c.phase with
  | .stopped _ => true
  | _ => false

def launch (x : Exchange) : Exchange := runUntil isLaunched x.fuel x

def shutdown (x : Exchange) : Exchange := runUntil isStopped x.fuel (x.tell .shutdown)

end Exchange

end LanguageHost
