import LanguageHost.Frame

/-! Writing messages to a sink that may take only part of them. -/
namespace LanguageHost

/-- A sink that takes at most `chunk` bytes per write and `room` bytes in all. -/
structure Sink where
  room : Option Nat
  chunk : Option Nat
  taken : List UInt8

namespace Sink

def unbounded (chunk : Option Nat) : Sink := ⟨none, chunk, []⟩

def close (s : Sink) : Sink := { s with room := some s.taken.length }

/-- How many of `n` offered bytes one write takes. -/
def accepts (s : Sink) (n : Nat) : Nat :=
  let n := match s.chunk with
    | some c => min n c
    | none => n
  match s.room with
  | some room => min n (room - s.taken.length)
  | none => n

/-- Writes again and again until all bytes are taken; false when the sink takes no more. -/
def writeAll (s : Sink) (bytes : List UInt8) : Sink × Bool :=
  if bytes.isEmpty then (s, true)
  else
    match h : s.accepts bytes.length with
    | 0 => (s, false)
    | n + 1 => writeAll { s with taken := s.taken ++ bytes.take (n + 1) } (bytes.drop (n + 1))
termination_by bytes.length
decreasing_by
  have : bytes ≠ [] := by simp_all
  have := List.length_pos_iff.2 this
  simp only [List.length_drop]
  omega

def closed : Error := .io "pipe closed"

def send (s : Sink) (message : Json) : Sink × Except Error Unit :=
  let (s, done) := s.writeAll (Frame.encode message)
  (s, if done then .ok () else .error closed)

def sendMany (s : Sink) : List Json → Sink × List (Except Error Unit)
  | [] => (s, [])
  | m :: rest =>
    let (s, outcome) := s.send m
    let (s, outcomes) := sendMany s rest
    (s, outcome :: outcomes)

end Sink

end LanguageHost
