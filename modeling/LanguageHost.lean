import LanguageHost.Message
import LanguageHost.Host.Schedule
import LanguageHost.Sink
import LanguageHost.Settings
import LanguageHost.Server.Exchange
import LanguageHost.Proofs.Language.Identity
import LanguageHost.Proofs.Language.Lookup
import LanguageHost.Proofs.Host.Counter
import LanguageHost.Proofs.Host.Groups
import LanguageHost.Proofs.Host.Servers
import LanguageHost.Proofs.Host.Flights
import LanguageHost.Proofs.Host.Works
import LanguageHost.Proofs.Host.Happens
import LanguageHost.Proofs.Registry.Closing
import LanguageHost.Proofs.Host.Careers
import LanguageHost.Proofs.Host.Drops
import LanguageHost.Proofs.Host.Sends
import LanguageHost.Proofs.Host.Returns
import LanguageHost.Proofs.Host.Editors
import LanguageHost.Proofs.Host.Attaching
import LanguageHost.Proofs.Host.Converges
import LanguageHost.Proofs.Frame.Draining
import LanguageHost.Proofs.Client.Routing
import LanguageHost.Proofs.Client.Parting
import LanguageHost.Proofs.Path.Lexical
import LanguageHost.Proofs.Host.Launches
import LanguageHost.Proofs.Host.Apart
import LanguageHost.Proofs.Host.Unstuck
import LanguageHost.Proofs.Language.Hashing
import LanguageHost.Proofs.Host.Contained
import LanguageHost.Proofs.Host.Interrupted
import LanguageHost.Proofs.Client.Deafness
import LanguageHost.Proofs.Client.Greeting
import LanguageHost.Proofs.Language.Serialised
import LanguageHost.Proofs.Path.Stability
import LanguageHost.Proofs.Path.Buffer
