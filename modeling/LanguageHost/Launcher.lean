import LanguageHost.Registry.Basic

/-! Launchers that start no process and do what they were told to: what a launch or a shutdown
comes to when it is looked at. -/
namespace LanguageHost

inductive Poll (α : Type) where
  | pending
  | finished (a : α)
  | crashed

structure UniformLauncher where
  /-- The next launches to fail. -/
  failures : Nat
  /-- Launches wait until the launcher is opened, perhaps only those for one project. -/
  held : Bool
  heldFor : Option Project
  hangs : Bool

namespace UniformLauncher

def holds (l : UniformLauncher) (c : Connection) : Bool := l.held && l.heldFor.all (· == c.key.project)

def launch (l : UniformLauncher) (c : Connection) : UniformLauncher × Poll (Except Error Process) :=
  if l.holds c then (l, .pending)
  else
    match l.failures with
    | n + 1 =>
      ({ l with failures := n }, .finished (.error (.spawn c.key.language.recipe.command "simulated launch failure")))
    | 0 => (l, .finished (.ok ⟨some (10000 + c.id.generation), none⟩))

def stop (l : UniformLauncher) : Poll Unit := if l.hangs then .pending else .finished ()

end UniformLauncher

inductive StopScript where
  | finish
  | hang
  | crash
  | hold

/-- What a scripted launch does: it may wait for its gate, and then crashes, fails or succeeds. -/
structure LaunchScript where
  hold : Bool := false
  crash : Bool := false
  error : Option Error := none
  process : Process := ⟨none, none⟩
  stop : StopScript := .finish

/-- Openings of gates that nobody has passed yet, by connection. -/
abbrev Gates := List (ConnectionId × Nat)

namespace Gates

def count (g : Gates) (id : ConnectionId) : Nat := (g.lookup id).getD 0

def set (g : Gates) (id : ConnectionId) (n : Nat) : Gates := (id, n) :: g.filter fun entry => entry.1 ≠ id

def openOnce (g : Gates) (id : ConnectionId) : Gates := g.set id (g.count id + 1)

def pass? (g : Gates) (id : ConnectionId) : Option Gates :=
  match g.count id with
  | 0 => none
  | n + 1 => some (g.set id n)

end Gates

structure ScriptedLauncher where
  scripts : List (ConnectionId × LaunchScript)
  launchGates : Gates
  stopGates : Gates

namespace ScriptedLauncher

def script (l : ScriptedLauncher) (id : ConnectionId) : LaunchScript := (l.scripts.lookup id).getD {}

def outcome (s : LaunchScript) : Poll (Except Error Process) :=
  if s.crash then .crashed
  else match s.error with
    | some e => .finished (.error e)
    | none => .finished (.ok s.process)

def launch (l : ScriptedLauncher) (id : ConnectionId) : ScriptedLauncher × Poll (Except Error Process) :=
  let s := l.script id
  if s.hold then
    match l.launchGates.pass? id with
    | some gates => ({ l with launchGates := gates }, outcome s)
    | none => (l, .pending)
  else (l, outcome s)

def stop (l : ScriptedLauncher) (id : ConnectionId) : ScriptedLauncher × Poll Unit :=
  match (l.script id).stop with
  | .finish => (l, .finished ())
  | .hang => (l, .pending)
  | .crash => (l, .crashed)
  | .hold =>
    match l.stopGates.pass? id with
    | some gates => ({ l with stopGates := gates }, .finished ())
    | none => (l, .pending)

end ScriptedLauncher

inductive Launcher where
  | uniform (l : UniformLauncher)
  | scripted (l : ScriptedLauncher)

namespace Launcher

def launch (l : Launcher) (c : Connection) : Launcher × Poll (Except Error Process) :=
  match l with
  | .uniform u => let (u, p) := u.launch c; (.uniform u, p)
  | .scripted s => let (s, p) := s.launch c.id; (.scripted s, p)

def stop (l : Launcher) (id : ConnectionId) : Launcher × Poll Unit :=
  match l with
  | .uniform u => (.uniform u, u.stop)
  | .scripted s => let (s, p) := s.stop id; (.scripted s, p)

/-- Opens the gate of one launch, or of all that a uniform launcher holds. -/
def openLaunch (l : Launcher) (id : ConnectionId) : Launcher :=
  match l with
  | .uniform u => .uniform { u with held := false }
  | .scripted s => .scripted { s with launchGates := s.launchGates.openOnce id }

def openStop (l : Launcher) (id : ConnectionId) : Launcher :=
  match l with
  | .uniform u => .uniform u
  | .scripted s => .scripted { s with stopGates := s.stopGates.openOnce id }

end Launcher

end LanguageHost
