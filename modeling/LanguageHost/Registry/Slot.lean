import LanguageHost.Connection

/-! The slot of one key: its connections, and the gate that lets one call at a time work on them.
The gate is kept while a server is launched or stopped, and is handed over first come, first served. -/
namespace LanguageHost

structure CallId where
  number : Nat
deriving DecidableEq, Inhabited

inductive Request where
  /-- Share the live connection or launch one. `seen` counts the launches that had finished
  when the call came. -/
  | acquire (key : ServerKey) (document : Option Path) (seen : Nat)
  | release (expected : Option ConnectionId)
  | clear

inductive Answer where
  | acquired (id : ConnectionId)
  | refused (e : Error)
  | released
  | cleared (closed : Option ConnectionId)

structure Visit where
  call : CallId
  request : Request

inductive Stage where
  /-- The gate has been handed over and the call has yet to go on. -/
  | granted
  | launching (since : Nat)
  | stopping (generation : Nat) (answer : Answer) (since : Nat)

structure Holder extends Visit where
  stage : Stage

inductive Ending where
  | atOnce
  | launched (outcome : Except Error Process)
  | stopped
  | givenUp

/-- The time a call spends at the gate, from going on with its request to giving the gate up. -/
structure Turn extends Visit where
  ending : Ending
  answer : Option Answer

inductive Record where
  | came (visit : Visit)
  /-- A call was given up before its turn. -/
  | left (call : CallId)
  | turn (t : Turn)

/-- The latest launch that failed, with the count of launches finished by then. -/
structure LaunchFailure where
  attempt : Nat
  reason : String

/-- The slot of a key. It outlives its connections. -/
structure Slot where
  key : ServerKey
  number : Nat
  /-- Every connection ever launched here; the first has generation 1. -/
  connections : List Connection
  current : Option Nat
  /-- Launches that have finished, well or badly. -/
  finished : Nat
  failure : Option LaunchFailure
  holder : Option Holder
  queue : List Visit
  /-- Everything noted since the slot was made, the latest first. -/
  log : List Record

namespace Slot

def new (key : ServerKey) (number : Nat) : Slot := ⟨key, number, [], none, 0, none, none, [], []⟩

def generation (s : Slot) : Nat := s.connections.length

def connection? (s : Slot) (generation : Nat) : Option Connection :=
  if generation = 0 then none else s.connections[generation - 1]?

def current? (s : Slot) : Option Connection := s.current.bind s.connection?

def modify (s : Slot) (generation : Nat) (f : Connection → Connection) : Slot :=
  { s with connections := s.connections.modify (generation - 1) f }

def note (s : Slot) (r : Record) : Slot := { s with log := r :: s.log }

def handOver (s : Slot) : Slot :=
  match s.queue with
  | [] => { s with holder := none }
  | v :: rest => { s with holder := some ⟨v, .granted⟩, queue := rest }

def leave (s : Slot) (t : Turn) : Slot := (s.note (.turn t)).handOver

def reply (s : Slot) (v : Visit) (ending : Ending) (a : Answer) : Slot × Option Answer :=
  (s.leave ⟨v, ending, some a⟩, some a)

/-- Starts a launch: one connection more, current at once and held by its first caller. -/
def launch (s : Slot) (now : Nat) (v : Visit) (key : ServerKey) (document : Option Path) : Slot :=
  { s with
    connections := s.connections ++ [Connection.launching ⟨s.number, s.generation + 1⟩ key document]
    current := some (s.generation + 1)
    holder := some ⟨v, .launching now⟩ }

/-- Stops a connection that is no longer current. Without a server there is nothing to wait for. -/
def stop (s : Slot) (now : Nat) (v : Visit) (c : Connection) (answer : Answer) : Slot × Option Answer :=
  let g := c.id.generation
  let s := { s with current := none }
  match c.process with
  | some _ => ({ s.modify g Connection.beginStop with holder := some ⟨v, .stopping g answer now⟩ }, none)
  | none => (s.modify g fun c => c.beginStop.endStop).reply v .atOnce answer

/-- A live connection is shared. Else a call that came before the latest failure shares that
failure, and any other launches. -/
def acquire (s : Slot) (now : Nat) (v : Visit) (key : ServerKey) (document : Option Path) (seen : Nat) :
    Slot × Option Answer :=
  match s.current?.filter Connection.isLive with
  | some c => (s.modify c.id.generation fun c => { c with refs := c.refs + 1 }).reply v .atOnce (.acquired c.id)
  | none =>
    match s.failure.filter (fun f => seen < f.attempt) with
    | some f => s.reply v .atOnce (.refused (.launchFailed key.text f.reason))
    | none => (s.launch now v key document, none)

/-- The last reference given back stops the server. A connection that is not live, not the expected
one or not referred to is left alone. -/
def release (s : Slot) (now : Nat) (v : Visit) (expected : Option ConnectionId) : Slot × Option Answer :=
  match s.current?.filter fun c => (expected.all (· == c.id)) && c.isLive with
  | none => s.reply v .atOnce .released
  | some c =>
    match c.refs with
    | 0 => s.reply v .atOnce .released
    | 1 => (s.modify c.id.generation fun c => { c with refs := 0 }).stop now v { c with refs := 0 } .released
    | n + 2 => (s.modify c.id.generation fun c => { c with refs := n + 1 }).reply v .atOnce .released

/-- Forgets the latest failure and the current connection, which is stopped if it is live. -/
def clear (s : Slot) (now : Nat) (v : Visit) : Slot × Option Answer :=
  let s := { s with failure := none }
  match s.current? with
  | none => { s with current := none }.reply v .atOnce (.cleared none)
  | some c =>
    if c.isLive then
      (s.modify c.id.generation fun c => { c with refs := 0 }).stop now v { c with refs := 0 } (.cleared (some c.id))
    else { s with current := none }.reply v .atOnce (.cleared none)

/-- A call that has obtained the gate goes on with its request: either it has its answer and leaves,
or it waits inside. -/
def serve (s : Slot) (now : Nat) (v : Visit) : Slot × Option Answer :=
  match v.request with
  | .acquire key document seen => s.acquire now v key document seen
  | .release expected => s.release now v expected
  | .clear => s.clear now v

def arrive (s : Slot) (now : Nat) (v : Visit) : Slot × Option Answer :=
  match s.holder with
  | none => (s.note (.came v)).serve now v
  | some _ => ({ s.note (.came v) with queue := s.queue ++ [v] }, none)

def enter (s : Slot) (now : Nat) : Slot × Option Answer :=
  match s.holder with
  | some ⟨v, .granted⟩ => s.serve now v
  | _ => (s, none)

def launched (s : Slot) (outcome : Except Error Process) : Slot × Option Answer :=
  match s.holder with
  | some ⟨v, .launching _⟩ =>
    let s := { s with finished := s.finished + 1 }
    match outcome with
    | .ok process =>
      { s.modify s.generation (Connection.attach · process) with failure := none }.reply v (.launched outcome)
        (.acquired ⟨s.number, s.generation⟩)
    | .error e =>
      { s.modify s.generation Connection.fail with failure := some ⟨s.finished, e.message⟩ }.reply v
        (.launched outcome) (.refused e)
  | _ => (s, none)

def stopped (s : Slot) : Slot × Option Answer :=
  match s.holder with
  | some ⟨v, .stopping g answer _⟩ => (s.modify g Connection.endStop).reply v .stopped answer
  | _ => (s, none)

/-- A call that is given up leaves the queue or the gate. A launch given up has failed without
counting as finished; a connection whose shutdown is given up is closed. -/
def abandon (s : Slot) (call : CallId) : Slot :=
  match s.holder with
  | some ⟨v, stage⟩ =>
    if v.call = call then
      match stage with
      | .granted => (s.note (.left call)).handOver
      | .launching _ => (s.modify s.generation Connection.fail).leave ⟨v, .givenUp, none⟩
      | .stopping g _ _ => (s.modify g Connection.endStop).leave ⟨v, .givenUp, none⟩
    else if s.queue.any (·.call = call) then
      { s.note (.left call) with queue := s.queue.filter fun w => w.call ≠ call }
    else s
  | none => s

def granted? (s : Slot) : Option CallId :=
  match s.holder with
  | some ⟨v, .granted⟩ => some v.call
  | _ => none

def deadline? (s : Slot) (launchBound stopBound : Nat) : Option Nat :=
  match s.holder with
  | some ⟨_, .launching since⟩ => some (since + launchBound)
  | some ⟨_, .stopping _ _ since⟩ => some (since + stopBound)
  | _ => none

end Slot

end LanguageHost
