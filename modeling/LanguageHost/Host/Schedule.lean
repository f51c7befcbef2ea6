import LanguageHost.Host.Event
import LanguageHost.Launcher

/-! The run in which calls go on in the order in which they were woken, each as far as it can,
and time stands still while one can. -/
namespace LanguageHost

structure Schedule where
  host : Host
  launcher : Launcher

namespace Schedule

def new (bounds : Bounds) (launcher : Launcher) : Schedule := ⟨.new bounds, launcher⟩

def apply (s : Schedule) (e : Event) : Schedule := { s with host := s.host.apply e }

/-- What the holder of a slot's gate can do at this moment, if anything. Work is looked at before
the clock. -/
def stepSlot? (s : Schedule) (i : Nat) (slot : Slot) : Option Schedule :=
  match slot.holder with
  | none => none
  | some ⟨_, .granted⟩ => some (s.apply (.enter i))
  | some ⟨_, .launching _⟩ =>
    match slot.connection? slot.generation with
    | none => none
    | some c =>
      match s.launcher.launch c with
      | (l, .finished outcome) => some ({ s with launcher := l }.apply (.launched i outcome))
      | (l, .crashed) => some ({ s with launcher := l }.apply (.crash i))
      | (_, .pending) => if s.host.isDue slot then some (s.apply (.expire i)) else none
  | some ⟨_, .stopping g _ _⟩ =>
    match s.launcher.stop ⟨slot.number, g⟩ with
    | (l, .finished _) => some ({ s with launcher := l }.apply (.stopped i))
    | (l, .crashed) => some ({ s with launcher := l }.apply (.crash i))
    | (_, .pending) => if s.host.isDue slot then some (s.apply (.expire i)) else none

def stepCall? (s : Schedule) (c : CallId) : Option Schedule :=
  s.host.registry.slots.zipIdx.findSome? fun (slot, i) =>
    if slot.holder.any (·.call == c) then s.stepSlot? i slot else none

def runCall (c : CallId) : Nat → Schedule → Schedule
  | 0, s => s
  | fuel + 1, s =>
    match s.stepCall? c with
    | some s => runCall c fuel s
    | none => s

/-- More steps than one call can do without waiting: two in each slot, and three slots one after
another for an open. -/
def callFuel (s : Schedule) : Nat := 2 * s.host.registry.slots.length + 8

def poll (s : Schedule) (c : CallId) : Schedule :=
  let s := match s.host.progress? c with
    | some .fresh => s.apply (.begin c)
    | _ => s
  runCall c s.callFuel s

def settle : Nat → Schedule → Schedule
  | 0, s => s
  | fuel + 1, s =>
    match s.host.woken with
    | [] => s
    | c :: rest => settle fuel ({ s with host := { s.host with woken := rest } }.poll c)

/-- More turns than all calls together can have: each waits in every slot at most thrice. -/
def settleFuel (s : Schedule) : Nat :=
  (s.host.calls.length + 1) * (3 * s.host.registry.slots.length + 8)

def settled (s : Schedule) : Schedule := settle s.settleFuel s

def start (s : Schedule) (task : Task) : Schedule × CallId :=
  ((s.apply (.call task)).settled, ⟨s.host.calls.length⟩)

def addSession (s : Schedule) (connection : ConnectionId) (uri : String) : Schedule × SessionId :=
  (s.apply (.session connection uri), ⟨s.host.sessions.length⟩)

def drop (s : Schedule) (c : CallId) : Schedule := (s.apply (.drop c)).settled

def wakeAll (s : Schedule) (cs : List CallId) : Schedule := { s with host := cs.foldl Host.wake s.host }

/-- The calls whose work is due, the earliest deadline first. -/
def due (s : Schedule) : List CallId :=
  let waiting := s.host.registry.slots.filterMap fun slot => do
    let holder ← slot.holder
    let deadline ← s.host.deadline? slot
    if deadline ≤ s.host.now then some (deadline, holder.call) else none
  (waiting.mergeSort fun a b => a.1 ≤ b.1).map Prod.snd

def advance (s : Schedule) (nanos : Nat) : Schedule :=
  let s := s.apply (.tick nanos)
  (s.wakeAll s.due).settled

def waiting? (s : Schedule) (id : ConnectionId) : Option CallId :=
  match s.host.registry.slots[id.slot]? with
  | none => none
  | some slot =>
    match slot.holder with
    | some ⟨v, .launching _⟩ => if slot.generation = id.generation then some v.call else none
    | some ⟨v, .stopping g _ _⟩ => if g = id.generation then some v.call else none
    | _ => none

def openLaunch (s : Schedule) (id : ConnectionId) : Schedule :=
  let s := { s with launcher := s.launcher.openLaunch id }
  let ids := match s.launcher with
    | .uniform _ => s.host.registry.launches
    | .scripted _ => [id]
  (s.wakeAll (ids.filterMap s.waiting?)).settled

def openStop (s : Schedule) (id : ConnectionId) : Schedule :=
  let s := { s with launcher := s.launcher.openStop id }
  (s.wakeAll (s.waiting? id).toList).settled

end Schedule

end LanguageHost
