import LanguageHost.Duration

/-! The bounds put on what a server is asked to do. -/
namespace LanguageHost

/-- How long a launch and a shutdown may take. -/
structure Bounds where
  launch : Duration
  shutdown : Duration
deriving DecidableEq, Inhabited

end LanguageHost
