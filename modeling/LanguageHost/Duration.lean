import LanguageHost.Text.Blank

/-! Spans of time. -/
namespace LanguageHost

/-- A span of time in nanoseconds. -/
structure Duration where
  nanos : Nat
deriving DecidableEq, Inhabited

namespace Duration

def ofMillis (n : Nat) : Duration := ⟨n * 1000000⟩
def ofSecs (n : Nat) : Duration := ⟨n * 1000000000⟩

/-- `value / unit` with as many of the `places` decimals as are needed, the last not a zero. -/
def decimal (value unit places : Nat) : String :=
  let fraction := (Nat.toDigits 10 (value % unit))
  let padded := List.replicate (places - fraction.length) '0' ++ fraction
  let shown := (padded.reverse.dropWhile (· == '0')).reverse
  if shown.isEmpty then toString (value / unit)
  else toString (value / unit) ++ "." ++ String.ofList shown

def text (d : Duration) : String :=
  if 1000000000 ≤ d.nanos then decimal d.nanos 1000000000 9 ++ "s"
  else if 1000000 ≤ d.nanos then decimal d.nanos 1000000 6 ++ "ms"
  else if 1000 ≤ d.nanos then decimal d.nanos 1000 3 ++ "µs"
  else toString d.nanos ++ "ns"

end Duration

end LanguageHost
