import LanguageHost.Bounds
import LanguageHost.Host.Call

/-! The state of an editor host with its registry, sessions, attachments and calls in progress. -/
namespace LanguageHost

structure Host where
  bounds : Bounds
  /-- The time in nanoseconds. -/
  now : Nat
  registry : Registry
  sessions : List Session
  attachments : List (EditorId × Attachment)
  nextToken : Nat
  /-- Every call ever made, each at the position of its number. -/
  calls : List Call
  /-- Calls that can go on, in the order in which they were woken. -/
  woken : List CallId

namespace Host

def new (bounds : Bounds) : Host := ⟨bounds, 0, .empty, [], [], 0, [], []⟩

def call? (h : Host) (c : CallId) : Option Call := h.calls[c.number]?

def progress? (h : Host) (c : CallId) : Option Progress := (h.call? c).map Call.progress

def setProgress (h : Host) (c : CallId) (p : Progress) : Host :=
  { h with calls := h.calls.modify c.number fun x => { x with progress := p } }

def finish (h : Host) (c : CallId) (r : Result) : Host := h.setProgress c (.ended r)

/-- Wakes a call; one that is awake already keeps its place. -/
def wake (h : Host) (c : CallId) : Host :=
  if h.woken.contains c then h else { h with woken := h.woken ++ [c] }

def spawn (h : Host) (task : Task) : Host :=
  let made : Host := { h with calls := h.calls ++ [⟨task, .fresh⟩] }
  made.wake ⟨h.calls.length⟩

def session? (h : Host) (s : SessionId) : Option Session := h.sessions[s.number]?

def addSession (h : Host) (connection : ConnectionId) (uri : String) : Host × SessionId :=
  ({ h with sessions := h.sessions ++ [⟨connection, uri, false⟩] }, ⟨h.sessions.length⟩)

def closeSession (h : Host) (s : SessionId) : Host :=
  { h with sessions := h.sessions.modify s.number fun x => { x with closed := true } }

def attachment? (h : Host) (e : EditorId) : Option Attachment := h.attachments.lookup e

def detach (h : Host) (e : EditorId) : Host :=
  { h with attachments := h.attachments.filter fun entry => entry.1 ≠ e }

def attach (h : Host) (e : EditorId) (a : Attachment) : Host :=
  { h with attachments := (e, a) :: (h.detach e).attachments }

def isAttached (h : Host) (e : EditorId) : Bool :=
  match h.attachment? e with
  | some (.attached _) => true
  | _ => false

def attachedCount (h : Host) : Nat :=
  h.attachments.countP fun entry => match entry.2 with
    | .attached _ => true
    | .pending _ _ => false

/-- Puts a slot back, and wakes the call that was handed its gate. -/
def setSlot (h : Host) (i : Nat) (s : Slot) : Host :=
  let before := (h.registry.slots[i]?).bind Slot.granted?
  let h := { h with registry := h.registry.setSlot i s }
  match s.granted? with
  | some c => if before = some c then h else h.wake c
  | none => h

def visit (h : Host) (c : CallId) (i : Nat) (r : Request) : Host × Option Answer :=
  match h.registry.slots[i]? with
  | none => (h, none)
  | some s =>
    let (s, answer) := s.arrive h.now ⟨c, r⟩
    (h.setSlot i s, answer)

def visitToAcquire (h : Host) (c : CallId) (key : ServerKey) (document : Option Path) : Host × Option Answer :=
  let (registry, i) := h.registry.openSlot key
  let h := { h with registry }
  let seen := (h.registry.slots[i]?.map Slot.finished).getD 0
  h.visit c i (.acquire key document seen)

end Host

end LanguageHost
