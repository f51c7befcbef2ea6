import LanguageHost.Registry.Slot

/-! The registry: at most one live server per key. -/
namespace LanguageHost

/-- The slots in the order in which their keys were first acquired, each at the position of its
number, and every launch in order. -/
structure Registry where
  slots : List Slot
  launches : List ConnectionId

namespace Registry

def empty : Registry := ⟨[], []⟩

def slotIndex? (r : Registry) (key : ServerKey) : Option Nat := r.slots.findIdx? (·.key == key)

def slot? (r : Registry) (key : ServerKey) : Option Slot := r.slots.find? (·.key == key)

def openSlot (r : Registry) (key : ServerKey) : Registry × Nat :=
  match r.slotIndex? key with
  | some i => (r, i)
  | none => ({ r with slots := r.slots ++ [Slot.new key r.slots.length] }, r.slots.length)

def newLaunches (before after : Slot) : List ConnectionId :=
  (after.connections.drop before.generation).map Connection.id

/-- Replaces a slot and takes note of a launch that began in it. -/
def setSlot (r : Registry) (i : Nat) (s : Slot) : Registry :=
  match r.slots[i]? with
  | none => r
  | some before => ⟨r.slots.set i s, r.launches ++ newLaunches before s⟩

def connection? (r : Registry) (key : ServerKey) : Option Connection := (r.slot? key).bind Slot.current?

/-- A connection by its identity, current or not. -/
def byId? (r : Registry) (id : ConnectionId) : Option Connection :=
  r.slots[id.slot]?.bind fun s => s.connection? id.generation

def status? (r : Registry) (key : ServerKey) : Option Status := (r.connection? key).map Connection.status

def refCount (r : Registry) (key : ServerKey) : Nat := ((r.connection? key).map Connection.refs).getD 0

def live (r : Registry) : List Connection := r.slots.filterMap fun s => s.current?.filter Connection.isLive

def launchCount (r : Registry) : Nat := r.launches.length

end Registry

end LanguageHost
