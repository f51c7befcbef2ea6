/-! How a process ends. -/
namespace LanguageHost

inductive ExitStatus where
  | code (n : Nat)
  | signal (n : Nat)
deriving DecidableEq

namespace ExitStatus

/-- The status of a process that exits with a code, of which eight bits count. -/
def ofCode (code : Int) : ExitStatus := .code (code % 256).toNat

def success : ExitStatus := .code 0

def signalNames : List (Nat × String) :=
  [(1, "SIGHUP"), (2, "SIGINT"), (3, "SIGQUIT"), (4, "SIGILL"), (5, "SIGTRAP"), (6, "SIGABRT"), (7, "SIGBUS"),
   (8, "SIGFPE"), (9, "SIGKILL"), (10, "SIGUSR1"), (11, "SIGSEGV"), (12, "SIGUSR2"), (13, "SIGPIPE"),
   (14, "SIGALRM"), (15, "SIGTERM"), (16, "SIGSTKFLT"), (24, "SIGXCPU"), (25, "SIGXFSZ"), (26, "SIGVTALRM"),
   (27, "SIGPROF"), (29, "SIGIO"), (30, "SIGPWR"), (31, "SIGSYS")]

def text : ExitStatus → String
  | .code n => "exit status: " ++ toString n
  | .signal n =>
    match signalNames.lookup n with
    | some name => "signal: " ++ toString n ++ " (" ++ name ++ ")"
    | none => "signal: " ++ toString n

end ExitStatus

end LanguageHost
