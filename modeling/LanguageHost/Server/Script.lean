import LanguageHost.Client.Exit
import LanguageHost.Frame
import LanguageHost.Path.Basic

/-! Servers that follow a script, and what they note on the way. -/
namespace LanguageHost

inductive ServerStep where
  | look (names : List String)
  | receive (count : Nat)
  | send (message : Json)
  | write (text : String)
  /-- Writes a line where nobody takes notice of it. -/
  | complain (line : String)
  | closeOutput
  | exit (code : Int)
  | die (signal : Nat)
  | hang

inductive ServerNote where
  | started (args : List String) (env : List (String × Option String)) (directory : Path)
  | received (message : Json)

structure ScriptedServer where
  args : List String
  env : List (String × String)
  directory : Path
  steps : List ServerStep
  taken : Nat
  notes : List ServerNote

inductive ServerSign where
  | nothing
  | output (bytes : Frame.Bytes)
  | outputClosed
  | exited (status : ExitStatus)

namespace ScriptedServer

/-- The value of an environment variable. What a process is handed are texts of a name, an equals sign and a
value: the first one counts that begins with the name and the sign. No variable has an empty name. -/
def environmentValue? (env : List (String × String)) (name : String) : Option String :=
  if name.isEmpty then none
  else env.findSome? fun (key, value) =>
    ((name ++ "=").toList.isPrefixOf? (key ++ "=" ++ value).toList).map String.ofList

def note (s : ScriptedServer) (n : ServerNote) : ScriptedServer := { s with notes := s.notes ++ [n] }

/-- Does the next step, given all messages sent to the server so far; nothing while the server waits. At
the end of its script it exits. -/
def step? (s : ScriptedServer) (sent : List Json) : Option (ScriptedServer × ServerSign) :=
  match s.steps with
  | [] => some (s, .exited .success)
  | .look names :: rest =>
    let env := names.map fun name => (name, environmentValue? s.env name)
    some ({ s with steps := rest }.note (.started s.args env s.directory), .nothing)
  | .receive 0 :: rest => some ({ s with steps := rest }, .nothing)
  | .receive (n + 1) :: rest =>
    sent[s.taken]?.map fun message =>
      ({ s with steps := .receive n :: rest, taken := s.taken + 1 }.note (.received message), .nothing)
  | .send message :: rest => some ({ s with steps := rest }, .output (Frame.encode message))
  | .write text :: rest => some ({ s with steps := rest }, .output (Utf8.encode text.toList))
  | .complain _ :: rest => some ({ s with steps := rest }, .nothing)
  | .closeOutput :: rest => some ({ s with steps := rest }, .outputClosed)
  | .exit code :: _ => some ({ s with steps := [.hang] }, .exited (.ofCode code))
  | .die signal :: _ => some ({ s with steps := [.hang] }, .exited (.signal signal))
  | .hang :: _ => none

def length (s : ScriptedServer) : Nat :=
  s.steps.foldl (fun n step => match step with
    | .receive count => n + count + 1
    | _ => n + 1) 1

end ScriptedServer

end LanguageHost
