import LanguageHost.Client.Basic

/-! Everything that can happen to a client. An event that does not fit the state changes nothing, so every list
of events is a run. -/
namespace LanguageHost.Client

inductive Event where
  | received (message : Json)
  /-- The server's output has ended, or is no frame. -/
  | outputEnded
  | inputClosed
  | exited (status : ExitStatus)
  | tick (nanos : Nat)
  | proceed
  | shutdown

def apply (c : Client) : Event → Client
  | .received message => if c.reading then c.route message else c
  | .outputEnded => if c.reading then c.endReading else c
  | .inputClosed => { c with input := c.input.close }
  | .exited status => { c with exit := c.exit.or (some status) }
  | .tick nanos => { c with now := c.now + nanos }
  | .proceed => c.proceed
  | .shutdown => c.shutdown

def run (c : Client) (events : List Event) : Client := events.foldl apply c

end LanguageHost.Client
