import LanguageHost.Host.Calls

/-! Everything that can happen to a host. An event that does not fit the state changes nothing,
so every list of events is a run. -/
namespace LanguageHost

inductive Event where
  | call (task : Task)
  | session (connection : ConnectionId) (uri : String)
  | begin (call : CallId)
  /-- The call that was handed a slot's gate goes on. -/
  | enter (slot : Nat)
  | launched (slot : Nat) (outcome : Except Error Process)
  | stopped (slot : Nat)
  | expire (slot : Nat)
  /-- The launcher or the process that a slot waits for crashes. -/
  | crash (slot : Nat)
  | drop (call : CallId)
  | tick (nanos : Nat)

namespace Host

/-- Puts a slot back after a step of its holder, who goes on if there is an answer. -/
def settle (h : Host) (i : Nat) (holder : Option CallId) (step : Slot × Option Answer) : Host :=
  let h := h.setSlot i step.1
  match holder, step.2 with
  | some c, some a => h.answered c i a
  | _, _ => h

def stepSlot (h : Host) (i : Nat) (step : Slot → Slot × Option Answer) : Host :=
  match h.registry.slots[i]? with
  | none => h
  | some s => h.settle i (s.holder.map (·.call)) (step s)

def launchTimeout (h : Host) : Except Error Process := .error (.timeout .launch h.bounds.launch)

def deadline? (h : Host) (s : Slot) : Option Nat := s.deadline? h.bounds.launch.nanos h.bounds.shutdown.nanos

def isDue (h : Host) (s : Slot) : Bool := (h.deadline? s).any (· ≤ h.now)

def expire (h : Host) (i : Nat) : Host :=
  match h.registry.slots[i]? with
  | none => h
  | some s =>
    if h.isDue s then
      match s.holder.map Holder.stage with
      | some (.launching _) => h.stepSlot i fun s => s.launched h.launchTimeout
      | _ => h.stepSlot i Slot.stopped
    else h

def crashIn (h : Host) (i : Nat) : Host :=
  match h.registry.slots[i]?.bind Slot.holder with
  | some ⟨v, .launching _⟩ | some ⟨v, .stopping _ _ _⟩ => h.crash v.call
  | _ => h

def apply (h : Host) : Event → Host
  | .call task => h.spawn task
  | .session connection uri => (h.addSession connection uri).1
  | .begin c =>
    match h.call? c with
    | some ⟨task, .fresh⟩ => h.begin c task
    | _ => h
  | .enter i => h.stepSlot i fun s => s.enter h.now
  | .launched i outcome => h.stepSlot i fun s => s.launched outcome
  | .stopped i => h.stepSlot i Slot.stopped
  | .expire i => h.expire i
  | .crash i => h.crashIn i
  | .drop c => h.drop c
  | .tick n => { h with now := h.now + n }

def run (h : Host) (events : List Event) : Host := events.foldl apply h

end Host

end LanguageHost
