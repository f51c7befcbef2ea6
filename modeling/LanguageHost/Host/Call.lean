import LanguageHost.Editor
import LanguageHost.Registry.Basic

/-! Calls on the registry, on sessions and on the lifecycle, and how far each has come. -/
namespace LanguageHost

/-- One editor's reference to a connection. It is given back once. -/
structure Session where
  connection : ConnectionId
  uri : String
  closed : Bool
deriving Inhabited

def Session.describe (s : Session) : String :=
  "EditorSession \x7b uri: " ++ Text.quoted s.uri ++ ", server_id: " ++ s.connection.describe
    ++ ", closed: " ++ toString s.closed ++ " \x7d"

structure SessionId where
  number : Nat
deriving DecidableEq, Inhabited

inductive Task where
  | acquire (key : ServerKey) (document : Option Path)
  | release (key : ServerKey)
  | releaseConnection (id : ConnectionId)
  | shutdownAll
  | releaseSession (session : SessionId)
  | openEditor (editor : Editor)
  | closeEditor (editor : EditorId)
  | shutdownLifecycle

inductive Result where
  | connection (id : ConnectionId)
  | failed (e : Error)
  /-- Whether this call is the one that released the session. -/
  | released (now : Bool)
  | closed (ids : List ConnectionId)
  | done
  | dropped
  | crashed

structure Opening where
  editor : EditorId
  token : Nat
  what : Resolved

/-- How far a call has come. Every stage but the first and the last waits in a slot. -/
inductive Progress where
  | fresh
  | acquiring
  | releasing
  | releasingSession (session : SessionId)
  /-- Slots still to be cleared, and the connections closed so far. The lifecycle's shutdown does
  not report them. -/
  | clearing (waiting : List Nat) (closed : List ConnectionId) (report : Bool)
  /-- An open gives the prior session of its editor back before it acquires. -/
  | reopening (opening : Opening) (prior : SessionId)
  | opening (opening : Opening)
  /-- An open found its editor closed or reopened in the meantime and gives its session back. -/
  | discarding (editor : EditorId) (token : Nat) (session : SessionId)
  | closing (session : SessionId)
  | ended (result : Result)

structure Call where
  task : Task
  progress : Progress

inductive Attachment where
  /-- An open is under way; a close that came meanwhile is kept in mind. -/
  | pending (token : Nat) (closeRequested : Bool)
  | attached (session : SessionId)
deriving DecidableEq

end LanguageHost
