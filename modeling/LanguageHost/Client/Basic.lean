import LanguageHost.Client.Capabilities
import LanguageHost.Client.Exit
import LanguageHost.Connection
import LanguageHost.Json.Write
import LanguageHost.Message
import LanguageHost.Sink

/-! The client's end of the channel to one server: the requests that wait for a reply, the reader of the
server's output, and the caller that starts and stops the server. -/
namespace LanguageHost

structure Write where
  message : Json
  taken : Bool

namespace Client

/-- Where the caller stands. A number is that of the request whose reply is waited for, and a
deadline ends the wait. -/
inductive Phase where
  | greeting (request : Nat)
  | failed (why : Error)
  | ready (capabilities : Option Json)
  | parting (request deadline : Nat)
  | leaving (deadline : Nat)
  | killing (deadline : Nat)
  | stopped (outcome : Except Error Unit)

end Client

structure Client where
  now : Nat
  nextRequest : Nat
  /-- The requests that a reply can still reach. -/
  pending : List Nat
  /-- What came of requests: a reply, or nothing where the reader was gone. -/
  replies : List (Nat × Option Json)
  reading : Bool
  input : Sink
  writes : List Write
  phase : Client.Phase
  exit : Option ExitStatus
  killed : Bool

namespace Client

def replyWait : Duration := .ofMillis 500
def exitWait : Duration := .ofMillis 500
def killWait : Duration := .ofSecs 1

def brokenPipe : Error := .io "Broken pipe (os error 32)"

def sent (c : Client) : List Json := (c.writes.filter Write.taken).map Write.message

def write (c : Client) (message : Json) : Client × Bool :=
  let (input, outcome) := c.input.send message
  ({ c with input, writes := c.writes ++ [⟨message, outcome.isOk⟩] }, outcome.isOk)

/-- Issues the next request. One that cannot be written waits for nothing. -/
def request (c : Client) (method : String) (params : Json) : Client × Bool :=
  let (c', taken) := c.write (Message.request c.nextRequest method params)
  ({ c' with
    nextRequest := c.nextRequest + 1
    pending := if taken then c.pending ++ [c.nextRequest] else c.pending }, taken)

/-- The launch comes to nothing: nobody reads the server any more, and it is killed. -/
def fail (c : Client) (why : Error) : Client := { c with phase := .failed why, reading := false, killed := true }

def stop (c : Client) (outcome : Except Error Unit) : Client := { c with phase := .stopped outcome, reading := false }

def start (input : Sink) (greeting : Option Json) : Client :=
  let c : Client := ⟨0, 0, [], [], true, input, [], .ready none, none, false⟩
  match greeting with
  | none => c
  | some params =>
    let (c', taken) := c.request "initialize" params
    if taken then { c' with phase := .greeting c.nextRequest } else c'.fail (.handshake brokenPipe.message)

def greeted (c : Client) : Option Json → Client
  | none => c.fail (.handshake Error.eof.message)
  | some reply =>
    match reply.member? "error" with
    | some e => c.fail (.handshake (Error.protocol ("initialize failed: " ++ e.compact)).message)
    | none =>
      match announced? ((reply.member? "result").getD .null) with
      | none => c.fail (.handshake "invalid initialize result: no capabilities")
      | some capabilities =>
        let (c', taken) := c.write (Message.notification "initialized" (.object []))
        if taken then { c' with phase := .ready (some capabilities) } else c'.fail brokenPipe

/-- Tells the server to exit, whatever became of the request before. -/
def leave (c : Client) : Client :=
  { (c.write (Message.notification "exit" .null)).1 with phase := .leaving (c.now + exitWait.nanos) }

def shutdown (c : Client) : Client :=
  match c.phase with
  | .ready _ =>
    let (c', taken) := c.request "shutdown" .null
    if taken then { c' with phase := .parting c.nextRequest (c.now + replyWait.nanos) } else c'.leave
  | _ => c

def outcome (status : ExitStatus) : Except Error Unit :=
  if status = .success then .ok () else .error (.protocol ("language server exited with " ++ status.text))

/-- The caller goes on if what it waits for has come or, failing that, its deadline has. -/
def proceed (c : Client) : Client :=
  match c.phase with
  | .greeting n =>
    match c.replies.lookup n with
    | some reply => c.greeted reply
    | none => c
  | .parting n deadline => if (c.replies.lookup n).isSome ∨ deadline ≤ c.now then c.leave else c
  | .leaving deadline =>
    match c.exit with
    | some status => c.stop (outcome status)
    | none => if deadline ≤ c.now then { c with phase := .killing (c.now + killWait.nanos), killed := true } else c
  | .killing deadline =>
    if c.exit.isSome ∨ deadline ≤ c.now then c.stop (.error (.timeout .exit exitWait)) else c
  | .failed _ | .ready _ | .stopped _ => c

/-- The result for a request of the server: for `workspace/configuration` a null for each item asked for,
and otherwise null. -/
def answer (method : String) (params : Json) : Json :=
  if method = "workspace/configuration" then
    .array (((params.member? "items").bind Json.asArray?).getD [] |>.map fun _ => .null)
  else .null

def requestNumber? (id : Json) : Option Nat :=
  match id.asInt64? with
  | some n => if 0 ≤ n then some n.toNat else none
  | none => none

/-- The reader routes a message: a reply to the request that waits for it, and an answer to a request of the
server. Any other message is dropped. -/
def route (c : Client) (message : Json) : Client :=
  match (message.member? "method").bind Json.asString?, message.member? "id" with
  | none, some id =>
    match requestNumber? id with
    | some n =>
      if c.pending.contains n then
        { c with pending := c.pending.erase n, replies := c.replies ++ [(n, some message)] }
      else c
    | none => c
  | some method, some id => (c.write (Message.reply id (answer method ((message.member? "params").getD .null)))).1
  | _, none => c

/-- The reader ends, and with it the hope of a reply for those that wait. -/
def endReading (c : Client) : Client :=
  { c with reading := false, pending := [], replies := c.replies ++ c.pending.map fun n => (n, none) }

def deadline? (c : Client) : Option Nat :=
  match c.phase with
  | .parting _ deadline | .leaving deadline | .killing deadline => some deadline
  | .greeting _ | .failed _ | .ready _ | .stopped _ => none

def canProceed (c : Client) : Bool :=
  c.deadline?.any (· ≤ c.now) ||
    match c.phase with
    | .greeting n | .parting n _ => (c.replies.lookup n).isSome
    | .leaving _ | .killing _ => c.exit.isSome
    | .failed _ | .ready _ | .stopped _ => false

def describe (c : Client) (id : ConnectionId) (pid : Option Nat) : String :=
  let pid := match pid with
    | some n => "Some(" ++ toString n ++ ")"
    | none => "None"
  let greeted := match c.phase with
    | .ready (some _) => "true"
    | _ => "false"
  "ChildServer \x7b id: " ++ id.describe ++ ", pid: " ++ pid ++ ", initialized: " ++ greeted ++ ", .. \x7d"

end Client

end LanguageHost
