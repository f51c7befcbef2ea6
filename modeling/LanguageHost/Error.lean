import LanguageHost.Duration

/-! What can go wrong, by cause, and the one place where each cause is put into words. -/
namespace LanguageHost

inductive Awaited where
  | launch
  | exit
  | operation
deriving DecidableEq

def Awaited.text : Awaited → String
  | .launch => "language server launch"
  | .exit => "language server exit"
  | .operation => "operation"

inductive Error where
  /-- The key has no project or its language no extensions. -/
  | invalidKey (key : String)
  | spawn (server reason : String)
  | handshake (reason : String)
  | timeout (what : Awaited) (after : Duration)
  /-- A launch that this caller was waiting for failed. -/
  | launchFailed (key reason : String)
  | protocol (text : String)
  | io (text : String)
  | json (detail : String)
  | config (detail : String)
  | eof
deriving DecidableEq

namespace Error

def message : Error → String
  | .invalidKey key => "invalid server key: " ++ key
  | .spawn server reason => "failed to spawn " ++ server ++ ": " ++ reason
  | .handshake reason => "initialize handshake failed: " ++ reason
  | .timeout what after => what.text ++ " timed out after " ++ after.text
  | .launchFailed key reason => "language server for " ++ key ++ " failed to start: " ++ reason
  | .protocol text => "protocol error: " ++ text
  | .io text => text
  | .json detail => "deserialization failed: " ++ detail
  | .config detail => "invalid settings: " ++ detail
  | .eof => "the underlying channel reached EOF"

def notUtf8 : Error := .io "stream did not contain valid UTF-8"

end Error

end LanguageHost
